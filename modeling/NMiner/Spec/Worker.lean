import NMiner.Spec.Cluster

/-! The backend of a worker by itself: `WorkerBackend` with the maps it keeps, any calls of the
edge, and any messages of the primary in any order. A call may time out at any moment. -/

namespace NMiner

/-- A message of the primary as the worker reads it. The payload is `none` where it is not an
object, which `learn` passes over. -/
inductive Word
  | r (i : ℕ) (c : SessionId) (result : Except String (Option Message))
  | j (c : SessionId) (payload : Option Message)
  | k (c : SessionId) (message : String)

structure WorkerBackend where
  connected : Bool := true
  seq : ℕ := 1
  jobs : SessionId → Option Known := fun _ => none
  tallies : List (SessionId × Tally) := []
  sessions : Finset SessionId := ∅
  pending : Finset ℕ := ∅
  /-- The messages to the primary, in order. -/
  sent : List Up := []
  /-- How many shares the worker has acknowledged, which numbers them. -/
  acked : ℕ := 0

inductive Action.Worker
  | login (s : SessionId) (address : String) (threads : Option ℚ)
  | chunk (s : SessionId) (job_id : String) (hashrate : Option ℚ)
  | submit (s : SessionId) (job_id nonce result : String)
  | hear (word : Word)
  | expire (i : ℕ)
  | flush
  | close (s : SessionId)
  | disconnect

namespace WorkerBackend

open Function (update)

def send (w : WorkerBackend) (m : Up) : WorkerBackend :=
  if w.connected then { w with sent := w.sent ++ [m] } else w

def call (w : WorkerBackend) (message : ℕ → Up) : WorkerBackend :=
  if w.connected then
    { w with seq := w.seq + 1, pending := insert w.seq w.pending }.send (message w.seq)
  else w

def login (w : WorkerBackend) (s : SessionId) (address : String) (threads : Option ℚ) :
    WorkerBackend :=
  { w with sessions := insert s w.sessions }.call fun i => .login i s address threads

def chunk (w : WorkerBackend) (s : SessionId) (job_id : String) (hashrate : Option ℚ) :
    WorkerBackend :=
  w.call fun i => .chunk i s job_id hashrate

/-- The shares with the session's in `tallies`. -/
def tally (w : WorkerBackend) (s : SessionId) (difficulty actual : ℕ) : WorkerBackend :=
  { w with tallies := Cluster.addTally s difficulty actual w.acked w.tallies, acked := w.acked + 1 }

def submit (w : WorkerBackend) (s : SessionId) (job_id nonce result : String) : WorkerBackend :=
  match w.jobs s with
  | none => w.call fun i => .submit i s job_id nonce result
  | some known =>
    let (decision, known) := known.submit job_id nonce result
    let w := { w with jobs := update w.jobs s (some known) }
    match decision with
    | .delegated => w.call fun i => .submit i s job_id nonce result
    | .denied _ => w
    | .thrown => w
    | .forwarded => { w.send (.sub s job_id nonce result w.acked) with acked := w.acked + 1 }
    | .absorbed difficulty => w.tally s difficulty (valueDifficulty (hashValue result))

def flush (w : WorkerBackend) : WorkerBackend :=
  if w.tallies = [] then w else { w with tallies := [] }.send (.acc w.tallies)

def learn (w : WorkerBackend) (s : SessionId) : Option Message → WorkerBackend
  | none => w
  | some payload =>
    let known := (w.jobs s).getD {}
    { w with jobs := update w.jobs s (some (known.learn payload)) }

def close (w : WorkerBackend) (s : SessionId) : WorkerBackend :=
  let w := if w.tallies.any fun p => p.1 = s then w.flush else w
  { w with jobs := update w.jobs s none, sessions := w.sessions.erase s }.send (.bye s)

/-- The handler of the constructor. -/
def hear (w : WorkerBackend) : Word → WorkerBackend
  | .r i c result =>
    if i ∈ w.pending then
      let w := { w with pending := w.pending.erase i }
      match result with
      | .error _ => w
      | .ok payload => w.learn c payload
    else w
  | .j c payload => if c ∈ w.sessions then w.learn c payload else w
  | .k _ _ => w

def step (w : WorkerBackend) : Action.Worker → Option WorkerBackend
  | .login s address threads => some (w.login s address threads)
  | .chunk s job_id hashrate => some (w.chunk s job_id hashrate)
  | .submit s job_id nonce result => some (w.submit s job_id nonce result)
  | .hear word => some (w.hear word)
  | .expire i => if i ∈ w.pending then some { w with pending := w.pending.erase i } else none
  | .flush => some w.flush
  | .close s => some (w.close s)
  | .disconnect => if w.connected then some { w with connected := false, pending := ∅ } else none

/-- One of the maps has an entry for the session. -/
def keeps (w : WorkerBackend) (s : SessionId) : Bool :=
  (w.jobs s).isSome || w.tallies.any (fun p => p.1 = s) || decide (s ∈ w.sessions)

end WorkerBackend

end NMiner
