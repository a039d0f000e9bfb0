import NMiner.Spec.Miner
import NMiner.Spec.Share
import NMiner.Spec.Target

/-! The class `NMiner`: one stratum connection after another, the calls of `on_job` in the order of
their lock, and the native job of `rx_job`. The code between two awaits is one step. The timing of
the polls for chunks, the throttle and the logs are left out. -/

namespace NMiner

/-- A `StratumJob` with the range it may carry. -/
structure RangedJob extends StratumJob where
  start_nonce : Option ℕ := none
  nonce_limit : Option ℕ := none
  deriving DecidableEq, Repr

def ALGORITHMS : List String := ["rx/0", "rx/monero", "rx/v2"]

/-- `Buffer.from(_, "hex")`. -/
def hexBuffer (text : String) : List UInt8 :=
    (HexText.bytes (HexText.codeUnits text)).map UInt8.ofNat

/-- What a pool calls the target of a job, in the terms of `SendJob`. -/
def RangedJob.native_target (job : RangedJob) : UInt64 := parseTarget (hexBuffer job.target)

/-- A whole call of `SendJob`, with the `diff` and the `version` it returns; `none` when it
throws. -/
def Miner.send_job {V : Type} (m : Miner V) (j : SendJob) : Option (Miner V × UInt64 × UInt32) :=
  if j.bytes.length ≤ kNonceOffset + 4 ∨ j.target = 0 then none
  else
    let sent := ((((m.send j).store j .nicehash).store j .ranged).store j .range).store j .version
    some (sent, 0xFFFFFFFFFFFFFFFF / j.target, sent.m_job_version)

/-- An entry of `m_versions`. -/
structure Tracked where
  job_id : String
  diff : UInt64
  deriving DecidableEq, Repr

/-- Where a call of `reconnect` is: what it awaits. -/
inductive Reconnect
  | connect
  | maxThreads
  | login
  | on_job
  | plan_threads
  | done
  deriving DecidableEq, Repr

/-- A `StratumClient`, with the call of `reconnect` that makes it. -/
structure Stratum where
  /-- The handlers of `job` and `close` are on. -/
  attached : Bool := false
  closed : Bool := false
  pendingJob : Option RangedJob := none
  at_ : Reconnect := .connect
  deriving DecidableEq, Repr

abbrev StratumId := ℕ

/-- Who calls `on_job`. -/
inductive Caller
  | job (stratum : StratumId)
  | reconnect (stratum : StratumId)
  | poll
  deriving DecidableEq, Repr

/-- What a call of `on_job` awaits. -/
inductive OnJob
  | lock
  | reallocate
  | plan_threads
  deriving DecidableEq, Repr

/-- How a call of `on_job` ends. -/
inductive Outcome
  | returned (b : Bool)
  | thrown
  deriving DecidableEq, Repr

structure NMinerClient (V : Type) where
  /-- `options.algo` and `options.nicehash`. -/
  algo : String
  nicehash : Bool
  /-- `rx.variant`. -/
  variant : String
  /-- Every connection so far, and the one that `this.stratum` is. -/
  stratums : List Stratum := []
  stratum : Option StratumId := none
  m_job : Option RangedJob := none
  m_seed : Option String := none
  m_versions : List (UInt32 × Tracked) := []
  rx_job : Miner V := {}
  /-- The mining threads run. -/
  running : Bool := false
  chunk_gen : ℕ := 0
  /-- `_chunkPollTimeout` is armed. -/
  polling : Bool := false
  requesting_chunk : Bool := false
  /-- The `gen` of the request for a chunk that is not answered. -/
  asked : Option ℕ := none
  closed : Bool := false
  /-- `_reconnectTimeout` is armed, or the first `reconnect` is to come. -/
  reconnecting : Bool := true
  /-- The calls of `on_job` that have not released the lock; the first one holds it. -/
  calls : List (Caller × RangedJob × OnJob) := []
  /-- The calls that have ended and that their callers have not seen end. -/
  settled : List (Caller × Outcome) := []
  /-- The jobs that `on_job` has returned `true` for since the last one it applied, with that
  one. Nothing reads them. -/
  followed : List RangedJob := []
  /-- Every call of `queue_range`. Nothing reads them. -/
  queue_ranges : List NonceRange := []

/-- What the pool answers to `get_chunk`. -/
inductive Chunk
  | job (job : RangedJob)
  | range (start_nonce : ℕ) (nonce_limit : Option ℕ)
  | nothing
  deriving DecidableEq, Repr

inductive Action.Client (V : Type)
  | reconnect
  | connected (c : StratumId) (ok : Bool)
  | measured (c : StratumId) (ok : Bool)
  /-- `login` is answered, with the job of the answer. -/
  | login (c : StratumId) (reply : Option RangedJob)
  | refused (c : StratumId)
  | job (c : StratumId) (job : RangedJob)
  | hangUp (c : StratumId)
  /-- The next call of `on_job` has the lock. -/
  | lock
  | reallocated (ok : Bool)
  | planned (ok : Bool)
  /-- The caller of a call that has ended goes on. -/
  | resume (k : ℕ)
  /-- `plan_threads` returns to `reconnect`. -/
  | start (c : StratumId) (ok : Bool)
  | poll
  | chunk (reply : Chunk)
  | mine (t : ThreadId) (e : Event V)
  /-- The last mining thread ends on its own. -/
  | die
  | close

namespace NMinerClient

variable {V : Type} (hash : V → List UInt8 → List UInt8)

def setStratum (s : NMinerClient V) (c : StratumId) (f : Stratum → Stratum) : NMinerClient V :=
  { s with stratums := s.stratums.modify c f }

def goTo (s : NMinerClient V) (c : StratumId) (r : Reconnect) : NMinerClient V :=
  s.setStratum c fun stratum => { stratum with at_ := r }

def schedule_reconnect (s : NMinerClient V) : NMinerClient V :=
  if s.closed ∨ s.reconnecting then s else { s with reconnecting := true }

def schedule_chunk_poll (s : NMinerClient V) : NMinerClient V :=
  { s with chunk_gen := s.chunk_gen + 1, polling := true }

def stop_chunk_poll (s : NMinerClient V) : NMinerClient V :=
  { s with chunk_gen := s.chunk_gen + 1, polling := false }

/-- `rx_job.stop`. -/
def stop (s : NMinerClient V) : NMinerClient V := { s with running := false }

/-- `rx_job.start`. -/
def start (s : NMinerClient V) : NMinerClient V :=
  if s.running then s
  else { s with running := true, rx_job := { s.rx_job with threads := fun _ => {} } }

/-- `handleClose` of a connection, with what is on its `close`. -/
def closeStratum (s : NMinerClient V) (c : StratumId) : NMinerClient V :=
  match s.stratums[c]? with
  | none => s
  | some stratum =>
    if stratum.closed then s
    else
      let s := s.setStratum c fun stratum => { stratum with closed := true }
      if stratum.attached ∧ s.stratum = some c then
        { s with stratum := none }.stop.stop_chunk_poll.schedule_reconnect
      else s

/-- The `catch` of `reconnect`. -/
def caught (s : NMinerClient V) (c : StratumId) : NMinerClient V :=
  let s := s.goTo c .done
  match s.stratum with
  | some c => s.closeStratum c
  | none => s.schedule_reconnect

def apply_algo (s : NMinerClient V) (job : RangedJob) : Option (NMinerClient V) :=
  match job.algo with
  | none => some s
  | some algo =>
    if algo = "" then some s
    else if algo ∈ ALGORITHMS then some { s with algo := algo }
    else none

def track_version (versions : List (UInt32 × Tracked)) (version : UInt32) (t : Tracked) :
    List (UInt32 × Tracked) :=
  let versions :=
    if (versions.lookup version).isSome then
      versions.map fun e => if e.1 = version then (version, t) else e
    else versions ++ [(version, t)]
  versions.drop (versions.length - 16)

/-- The job that `on_job` takes for the one it has. -/
def identical (s : NMinerClient V) (job : RangedJob) : Bool :=
  match s.m_job with
  | none => false
  | some m => m.job_id = job.job_id ∧ m.blob = job.blob ∧ m.start_nonce = job.start_nonce

/-- The job needs another dataset. -/
def stale (s : NMinerClient V) (job : RangedJob) : Bool :=
  s.m_seed ≠ some job.seed_hash ∨ s.algo ≠ "" ∧ s.variant ≠ s.algo

/-- The arguments of `send_job`. -/
def sending (s : NMinerClient V) (job : RangedJob) : SendJob :=
  { blob := hexBuffer job.blob, target := job.native_target, nicehash := s.nicehash
    reset_nonce := s.m_job.map (·.blob) ≠ some job.blob
    range := job.start_nonce.map fun start_nonce =>
      (UInt32.ofNat start_nonce, (job.nonce_limit.map UInt32.ofNat).getD 0xFFFFFFFF) }

def settle (s : NMinerClient V) (caller : Caller) (o : Outcome) : NMinerClient V :=
  { s with calls := s.calls.tail, settled := s.settled ++ [(caller, o)] }

def await (s : NMinerClient V) (caller : Caller) (job : RangedJob) (at_ : OnJob) :
    NMinerClient V :=
  { s with calls := (caller, job, at_) :: s.calls.tail }

/-- The end of `on_job`, from `send_job` on. -/
def apply (s : NMinerClient V) (caller : Caller) (job : RangedJob) : NMinerClient V :=
  match s.rx_job.send_job (s.sending job) with
  | none => s.settle caller .thrown
  | some (rx_job, diff, version) =>
    let s : NMinerClient V := { s with
      rx_job := rx_job, m_versions := track_version s.m_versions version ⟨job.job_id, diff⟩
      m_job := some job, followed := [job] }
    let s := if job.start_nonce.isSome then s.schedule_chunk_poll else s.stop_chunk_poll
    s.settle caller (.returned true)

/-- `on_job`, once it has the lock. -/
def on_job (s : NMinerClient V) (caller : Caller) (job : RangedJob) : NMinerClient V :=
  if s.identical job then
    { s with followed := job :: s.followed }.settle caller (.returned true)
  else if s.stale job then
    let s := s.stop
    { s with
      m_seed := none
      variant := if s.algo = "" then s.variant else s.algo }.await caller job .reallocate
  else s.apply caller job

/-- The `catch` of `on_job`. -/
def failed (s : NMinerClient V) (caller : Caller) : NMinerClient V :=
  let s := match s.stratum with
    | some c => s.closeStratum c
    | none => s
  s.settle caller (.returned false)

/-- What the caller of `on_job` does when the call has ended. -/
def resumed (s : NMinerClient V) : Caller → Outcome → NMinerClient V
  | .job c, .thrown => s.closeStratum c
  | .job _, .returned _ => s
  | .reconnect c, .returned true => s.goTo c .plan_threads
  | .reconnect c, .returned false => s.goTo c .done
  | .reconnect c, .thrown => s.caught c
  | .poll, _ => { s with requesting_chunk := false }

def call (s : NMinerClient V) (caller : Caller) (job : RangedJob) : NMinerClient V :=
  { s with calls := s.calls ++ [(caller, job, .lock)] }

def at_ (s : NMinerClient V) (c : StratumId) : Option Reconnect := s.stratums[c]?.map (·.at_)

/-- `login` has returned a job to `reconnect`. -/
def loggedIn (s : NMinerClient V) (c : StratumId) (job : RangedJob) : NMinerClient V :=
  match s.apply_algo job with
  | none => (s.goTo c .done).closeStratum c
  | some s => (s.goTo c .on_job).call (.reconnect c) job

/-- The handler of `job`. -/
def onJobEvent (s : NMinerClient V) (c : StratumId) (job : RangedJob) : NMinerClient V :=
  if s.stratum ≠ some c then s
  else match s.apply_algo job with
    | none => s.closeStratum c
    | some s => s.call (.job c) job

/-- `rx_job.queue_range`. -/
def queue_range (s : NMinerClient V) (start_nonce nonce_limit : ℕ) : NMinerClient V :=
  let range : NonceRange := ⟨UInt32.ofNat start_nonce, UInt32.ofNat nonce_limit⟩
  { s with
    rx_job := s.rx_job.queueRange range.start range.limit
    queue_ranges := s.queue_ranges ++ [range] }

def answered (s : NMinerClient V) (gen : ℕ) (reply : Chunk) : NMinerClient V :=
  let s := { s with asked := none }
  if gen ≠ s.chunk_gen then { s with requesting_chunk := false }
  else match reply with
    | .job job => s.call .poll job
    | .range start_nonce nonce_limit =>
      { s with requesting_chunk := false }.queue_range start_nonce (nonce_limit.getD 0xFFFFFFFF)
    | .nothing => { s with requesting_chunk := false }

/-- `close`. -/
def shut (s : NMinerClient V) : NMinerClient V :=
  if s.closed then s
  else
    let shut := { s with closed := true, reconnecting := false }.stop_chunk_poll.stop
    let left := { shut with stratum := none }
    match s.stratum with
    | none => left
    | some c => left.closeStratum c

def step (s : NMinerClient V) : Action.Client V → Option (NMinerClient V)
  | .reconnect =>
    if s.reconnecting then
      let s := { s with reconnecting := false }
      some (if s.closed then s else { s with stratums := s.stratums ++ [{ at_ := .connect }] })
    else none
  | .connected c ok =>
    if s.at_ c = some .connect then
      if ok then
        let s := { s with stratum := some c }
        some (if s.closed then (s.goTo c .done).closeStratum c else s.goTo c .maxThreads)
      else some (s.caught c)
    else none
  | .measured c ok =>
    if s.at_ c = some .maxThreads then
      if ok then
        let s := s.setStratum c fun stratum => { stratum with attached := true, at_ := .login }
        some { s with m_versions := [] }
      else some (s.caught c)
    else none
  | .login c reply =>
    match s.stratums[c]? with
    | some stratum =>
      if stratum.at_ = .login then (stratum.pendingJob <|> reply).map (s.loggedIn c) else none
    | none => none
  | .refused c => if s.at_ c = some .login then some (s.caught c) else none
  | .job c job =>
    match s.stratums[c]? with
    | some stratum =>
      if stratum.at_ = .connect then none
      else
        let s := s.setStratum c fun stratum => { stratum with pendingJob := some job }
        some (if stratum.attached then s.onJobEvent c job else s)
    | none => none
  | .hangUp c =>
    if s.at_ c = none ∨ s.at_ c = some .connect then none else some (s.closeStratum c)
  | .lock => match s.calls with
    | (caller, job, .lock) :: _ => some (s.on_job caller job)
    | _ => none
  | .reallocated ok => match s.calls with
    | (caller, job, .reallocate) :: _ =>
      some (if ok then
        { s with m_seed := some job.seed_hash }.await caller job .plan_threads
        else s.failed caller)
    | _ => none
  | .planned ok => match s.calls with
    | (caller, job, .plan_threads) :: _ =>
      some (if ok then s.start.apply caller job else s.failed caller)
    | _ => none
  | .resume k => match s.settled[k]? with
    | some (caller, o) =>
      some ({ s with settled := s.settled.eraseIdx k }.resumed caller o)
    | none => none
  | .start c ok =>
    if s.at_ c = some .plan_threads then
      some (if ok then s.start.goTo c .done else s.caught c)
    else none
  | .poll =>
    if s.polling ∧ s.m_job.isSome ∧ s.stratum.isSome ∧ s.requesting_chunk = false then
      some { s with requesting_chunk := true, asked := some s.chunk_gen }
    else none
  | .chunk reply => s.asked.map fun gen => s.answered gen reply
  | .mine t e =>
    if s.running then
      (s.rx_job.step hash (.thread t e)).map fun rx_job => { s with rx_job := rx_job }
    else none
  | .die => some s.stop
  | .close => some s.shut

/-- What the callback of a share does. -/
inductive Share
  | expired
  | idle
  | submit (stratum : StratumId) (job_id : String)
  deriving DecidableEq, Repr

def share (s : NMinerClient V) (version : UInt32) : Share :=
  match s.m_versions.lookup version with
  | none => .expired
  | some job => match s.stratum with
    | none => .idle
    | some c => .submit c job.job_id

end NMinerClient

end NMiner
