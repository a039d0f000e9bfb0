import NMiner.Spec.Loop

/-! `RxJob`: `SendJob` and `QueueRange` on the thread of the caller, and any number of mining
threads in `Loop`, over the memory they share. The stores of `SendJob` are steps of their own. -/

namespace NMiner

/-- The arguments of `SendJob`. -/
structure SendJob where
  blob : List UInt8
  target : UInt64
  nicehash : Bool
  reset_nonce : Bool
  /-- `start_nonce` and `nonce_limit`. -/
  range : Option (UInt32 × UInt32)
  deriving DecidableEq, Repr

/-- The bytes that go into `m_blob`. -/
def SendJob.bytes (j : SendJob) : List UInt8 := j.blob.take kMaxBlobSize

def SendJob.nicehash_active (j : SendJob) : Bool :=
  j.nicehash || readNonce j.bytes &&& kNicehashMask ≠ 0

def SendJob.ranged (j : SendJob) : Bool := j.range.isSome

/-- The rule of `WriteNonce` for the job. -/
def SendJob.masked (j : SendJob) : Bool := j.nicehash_active && !j.ranged

/-- The next store of a `SendJob`. -/
inductive Stage
  | nicehash
  | ranged
  | range
  | version
  deriving DecidableEq, Repr

structure Miner (V : Type) where
  m_blob : List UInt8 := []
  m_target : UInt64 := 0
  m_job_version : UInt32 := 0
  m_nicehash : Bool := false
  m_ranged : Bool := false
  m_paused : Bool := false
  m_range : UInt64 := pack_range 0 0xFFFFFFFF
  m_queued : List NonceRange := []
  /-- The `SendJob` that holds `m_job_mutex`. -/
  sending : Option (Stage × SendJob) := none
  threads : ThreadId → Loop V := fun _ => {}
  /-- The jobs sent, with the one being sent. -/
  jobs : List SendJob := []
  /-- The number of the `SendJob` that has stored `m_range`. -/
  source : ℕ := 0
  /-- The ranges of each job: the one it has installed and those accepted since. -/
  ranges : ℕ → List NonceRange := fun v => if v = 0 then [⟨0, 0xFFFFFFFF⟩] else []

/-- `NextNonce`: the nonce, and `m_range` and the queue afterwards. -/
def nextNonce : UInt64 → List NonceRange → Option UInt32 × UInt64 × List NonceRange
  | packed, [] =>
    if currentOf packed < limitOf packed then
      (some (currentOf packed), pack_range (currentOf packed + 1) (limitOf packed), [])
    else (none, packed, [])
  | packed, next :: rest =>
    if currentOf packed < limitOf packed then
      (some (currentOf packed), pack_range (currentOf packed + 1) (limitOf packed), next :: rest)
    else nextNonce (pack_range next.start next.limit) rest

namespace Miner

variable {V : Type} (hash : V → List UInt8 → List UInt8)

/-- `SendJob` up to its stores; a blob too short for a nonce and a zero target are rejected. -/
def send (m : Miner V) (j : SendJob) : Miner V :=
  if j.bytes.length ≤ kNonceOffset + 4 ∨ j.target = 0 then m
  else { m with
    m_blob := j.bytes, m_target := j.target, jobs := m.jobs ++ [j]
    sending := some (.nicehash, j) }

/-- The range that `SendJob` stores. -/
def installed (m : Miner V) (j : SendJob) : NonceRange :=
  match j.range with
  | some (start, limit) => ⟨start, max start limit⟩
  | none =>
    let range_end := rangeEnd j.nicehash_active
    ⟨if j.reset_nonce then 0 else min (currentOf m.m_range) range_end, range_end⟩

def addRange (m : Miner V) (v : ℕ) (r : NonceRange) : ℕ → List NonceRange :=
  Function.update m.ranges v (m.ranges v ++ [r])

/-- The next store of a `SendJob`. -/
def store (m : Miner V) (j : SendJob) : Stage → Miner V
  | .nicehash => { m with m_nicehash := j.nicehash_active, sending := some (.ranged, j) }
  | .ranged => { m with m_ranged := j.ranged, sending := some (.range, j) }
  | .range =>
    let r := m.installed j
    { m with
      m_queued := [], m_range := pack_range r.start r.limit, sending := some (.version, j)
      source := m.jobs.length, ranges := m.addRange m.jobs.length r }
  | .version => { m with m_job_version := m.m_job_version + 1, sending := none }

/-- `QueueRange`. -/
def queueRange (m : Miner V) (start limit : UInt32) : Miner V :=
  if limit ≤ start ∨ m.m_ranged = false then m
  else { m with
    m_queued := m.m_queued ++ [⟨start, limit⟩], ranges := m.addRange m.source ⟨start, limit⟩ }

/-- What a thread reads is what the shared memory holds; a draw moves the cursor on. -/
def see (m : Miner V) (t : ThreadId) : Event V → Option (Miner V)
  | .acquired _ => some m
  | .active _ => some m
  | .updating _ => some m
  | .version v => if v = m.m_job_version then some m else none
  | .copied blob target version job =>
    if m.sending = none ∧ blob = m.m_blob ∧ target = m.m_target ∧ version = m.m_job_version ∧
      job = m.jobs.length then some m else none
  | .nonce n =>
    if (m.threads t).size = 0 ∨ m.m_paused = true then if n.isNone then some m else none
    else
      let (drawn, packed, queued) := nextNonce m.m_range m.m_queued
      if n = drawn.map fun nonce => (nonce, m.source) then
        some { m with m_range := packed, m_queued := queued }
      else none
  | .flags nicehash ranged =>
    if nicehash = m.m_nicehash ∧ ranged = m.m_ranged then some m else none

inductive Action (V : Type)
  | send (j : SendJob)
  | store
  | queueRange (start limit : UInt32)
  | pause (paused : Bool)
  | thread (t : ThreadId) (e : Event V)

/-- One atomic step. `SendJob` and `QueueRange` share a thread. -/
def step (m : Miner V) : Action V → Option (Miner V)
  | .send j => if m.sending = none then some (m.send j) else none
  | .store => m.sending.map fun (stage, j) => m.store j stage
  | .queueRange start limit => if m.sending = none then some (m.queueRange start limit) else none
  | .pause paused => some { m with m_paused := paused }
  | .thread t e => (m.see t e).bind fun m' => ((m.threads t).step hash e).map fun l =>
    { m' with threads := Function.update m'.threads t l }

end Miner

end NMiner
