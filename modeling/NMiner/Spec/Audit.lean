import NMiner.Spec.Cluster

/-! What miners submit and what they are credited with, kept beside a cluster. A share is
credited when the controller of its miner counts it: in `LocalBackend.submit`, or in
`LocalBackend.account` for a tally. The sessions of another worker have their credits
in that worker's audit, and a cluster in which the worker never acts is a single
process. -/

namespace NMiner

/-- A share as a miner submits it. -/
structure Share where
  job_id : String
  nonce : String
  result : String
  deriving DecidableEq, Repr

/-- `submit` counts the share. -/
def Backend.counts (b : Backend) (e : Entry) (nonce result : String) : Bool :=
  (b.decide e nonce result).2.accepted ≠ (b.vardiff e).accepted

/-- A share that a controller counts: the session it is credited to, and the entry with the
controller. The shares of another worker's tally are not known here. -/
structure Credit where
  session : SessionId
  entry : Entry
  share : Option Share
  deriving DecidableEq, Repr

structure Audit where
  cluster : Cluster
  submitted : List (SessionId × Share) := []
  /-- The shares of `acked`, in its order. -/
  named : List (SessionId × Share) := []
  credited : List Credit := []

namespace Audit

/-- The share that is submitted with an event. -/
def submits : Cluster.Action → List (SessionId × Share)
  | .submit s job_id nonce result => [(s, ⟨job_id, nonce, result⟩)]
  | .backend (.submit s job_id nonce result) => [(s, ⟨job_id, nonce, result⟩)]
  | _ => []

/-- The share that the worker acknowledges by itself. -/
def acks (c : Cluster) : Cluster.Action → List (SessionId × Share)
  | .submit s job_id nonce result => match ((c.known s).submit job_id nonce result).1 with
    | .absorbed _ => [(s, ⟨job_id, nonce, result⟩)]
    | .forwarded => [(s, ⟨job_id, nonce, result⟩)]
    | _ => []
  | _ => []

/-- The shares of a tally. -/
def shares (named : List (SessionId × Share)) (p : SessionId × Tally) : List (SessionId × Share) :=
  p.2.ids.filterMap fun id => named[id]?.map fun q => (p.1, q.2)

/-- What `submit` credits. -/
def taken (b : Backend) (s : SessionId) (share : Share) : List Credit :=
  match b.entries s with
  | none => []
  | some e => if b.counts e share.nonce share.result then [⟨s, e, some share⟩] else []

/-- What `account` credits for a tally. -/
def drawn (b : Backend) (s : SessionId) (shares : List (Option Share)) : List Credit :=
  match b.entries s with
  | none => []
  | some e => shares.map fun share => ⟨s, e, share⟩

/-- What the hub credits when it handles a message. -/
def credits (named : List (SessionId × Share)) (c : Cluster) : Up → List Credit
  | .acc tallies => (tallies.filter fun p => p.1 ∈ c.hub).flatMap fun p =>
    drawn c.backend p.1 (p.2.ids.map fun id => named[id]?.map Prod.snd)
  | .sub s job_id nonce result _ =>
    if s ∈ c.hub then taken c.backend s ⟨job_id, nonce, result⟩ else []
  | .submit _ s job_id nonce result => taken c.backend s ⟨job_id, nonce, result⟩
  | _ => []

/-- The shares credited with an event. -/
def gains (named : List (SessionId × Share)) (c : Cluster) : Cluster.Action → List Credit
  | .handle => c.up.head?.toList.flatMap (credits named c)
  | .backend (.submit s job_id nonce result) => taken c.backend s ⟨job_id, nonce, result⟩
  | .backend (.account s shares _ _) => drawn c.backend s (List.replicate shares none)
  | _ => []

def step (x : Audit) (a : Cluster.Action) : Option Audit :=
  (x.cluster.step a).map fun c =>
    { cluster := c,
      submitted := x.submitted ++ submits a, named := x.named ++ acks x.cluster a,
      credited := x.credited ++ gains x.named x.cluster a }

def start (own : SessionId → Bool) (maxLinks idleTimeout : ℕ) (expand : Bool) (now : ℕ) : Audit :=
  { cluster := Cluster.start own maxLinks idleTimeout expand now }

end Audit

end NMiner
