import NMiner.Proofs.Lifecycle
import NMiner.Proofs.Delivery
import NMiner.Proofs.Ownership
import NMiner.Proofs.Target
import NMiner.Proofs.Worth
import NMiner.Proofs.Reissue
import NMiner.Proofs.Closing
import NMiner.Proofs.Replaced
import NMiner.Proofs.Forgotten
import NMiner.Proofs.Berths
import NMiner.Proofs.Windows
import NMiner.Proofs.Aggregates
import NMiner.Proofs.Nonces
import NMiner.Proofs.Framing
import NMiner.Proofs.Narrowed
import NMiner.Proofs.Fanout
import NMiner.Proofs.Polled
import NMiner.Proofs.Consolidated
import NMiner.Proofs.Parallel
import NMiner.Proofs.Leftover
import NMiner.Proofs.Pace
import NMiner.Proofs.Dedupe
import NMiner.Proofs.Ipc
import NMiner.Proofs.Handover
import NMiner.Proofs.Shared
import NMiner.Proofs.Compiled
import NMiner.Proofs.DatasetItems
