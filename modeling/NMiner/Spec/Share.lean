import NMiner.Spec.Nonce
import NMiner.Spec.VarDiff

/-! Jobs, what a miner is told about them, and how a share is decided: on the primary by
`LocalBackend.submit`, on a worker by `WorkerBackend.submit` from its mirror of what
the primary sent. -/

namespace NMiner

open HexText

/-- A job as `NormalizeJob` keeps it. The nonce range a job may carry is always
overwritten by a grant and is left out. -/
structure StratumJob where
  blob : String
  target : String
  job_id : String
  seed_hash : String
  algo : Option String := none
  height : Option ℕ := none
  deriving DecidableEq, Repr

/-- A job sent to a miner: its own target in place of the pool's, which stays readable as
`pool_target`, and a granted range. -/
structure Payload where
  job : StratumJob
  target : String
  range : Grant
  deriving DecidableEq, Repr

def Payload.pool_target (p : Payload) : String := p.job.target

/-- The first four bytes of a hexadecimal nonce, `none` when there are fewer. -/
def claimedNonce (nonce : String) : Option ℕ := readLE (bytes (codeUnits nonce)) 0 4

/-! ### On the primary -/

/-- The difficulty part of `LocalBackend.submit`: `some (none, _)` refuses the share,
`some (some d, _)` credits it with `d`, and `none` is a thrown decoding error. -/
def VarDiff.judge (v : VarDiff) (value : Option ℕ) : Option (Option ℕ × VarDiff) :=
  let issue := v.floor
  (meetsValue value issue.target).bind fun met =>
    if met then
      let settles : Option Bool :=
        if issue.target = v.target then some true else meetsValue value v.target
      settles.map fun (settled : Bool) =>
        (some (if settled ∧ v.difficulty > issue.difficulty then v.difficulty
          else issue.difficulty),
          if settled then v.settle else v)
    else some (none, v)

inductive Decision
  | denied (reason : String)
  /-- A target did not decode, and the exception ends the call. -/
  | thrown
  | absorbed (difficulty : ℕ)
  | forwarded (difficulty : ℕ)
  deriving DecidableEq, Repr

def Decision.credit : Decision → Option ℕ
  | .absorbed d => some d
  | .forwarded d => some d
  | _ => none

/-- `LocalBackend.submit` up to the forwarding of the share, for a miner whose home link
has the job `job` and whose ledger answers `owns`. -/
def decideShare (job : Option StratumJob) (owns : ℤ → Bool) (v : VarDiff) (nonce result : String)
    (now : ℕ) : Decision × VarDiff :=
  match job with
  | none => (.denied "No active job.", v)
  | some job => match claimedNonce nonce with
    | none => (.denied "Malformed nonce.", v)
    | some claimed =>
      if owns claimed then
        match v.judge (hashValue result) with
        | none => (.thrown, v)
        | some (none, v) => (.denied "Share is below your assigned difficulty.", v)
        | some (some d, v) =>
          (match meetsValue (hashValue result) job.target with
            | none => .thrown
            | some true => .forwarded d
            | some false => .absorbed d, v.submitted d 1 now)
      else (.denied "Nonce outside your assigned range.", v)

/-! ### On a worker -/

structure Known where
  job_id : String := ""
  pool : String := ""
  target : String := ""
  prior : String := ""
  diff : ℕ := 0
  older : ℕ := 0
  ledger : Ledger := {}
  deriving DecidableEq, Repr

/-- What the primary sends for a session: a job, a bare range, or an object with neither. -/
inductive Message
  | job (payload : Payload)
  | range (grant : Grant)
  | other
  deriving DecidableEq, Repr

def Known.learnTarget (k : Known) (target : String) : Known :=
  if target = k.target then k
  else { k with
    prior := k.target, older := k.diff, target := target,
    diff := (targetDifficulty target).getD 0 }

def Known.learnRange (k : Known) (range : Grant) : Known :=
  if k.job_id = "" then k else { k with ledger := k.ledger.record k.job_id range }

/-- `WorkerBackend.learn` on the session's entry. The targets the primary sends decode. -/
def Known.learn (k : Known) : Message → Known
  | .job p =>
    (Known.learnTarget { k with job_id := p.job.job_id, pool := p.pool_target } p.target).learnRange
      p.range
  | .range g => k.learnRange g
  | .other => k

def Known.floor (k : Known) : Issue :=
  if k.prior ≠ "" ∧ k.older < k.diff then { target := k.prior, difficulty := k.older }
  else { target := k.target, difficulty := k.diff }

inductive WorkerDecision
  /-- The share is passed on to the primary's `submit`, whose answer is the miner's. -/
  | delegated
  | denied (reason : String)
  | thrown
  | absorbed (difficulty : ℕ)
  | forwarded
  deriving DecidableEq, Repr

/-- The share is for the job and the range the worker knows of, so it can be settled here. -/
def Known.covers (k : Known) (job_id nonce : String) : Bool :=
  k.target ≠ "" && k.pool ≠ "" && k.job_id = job_id &&
    ((claimedNonce nonce).map fun n : ℕ => k.ledger.owns n).getD false

/-- `WorkerBackend.submit`. -/
def Known.submit (k : Known) (job_id nonce result : String) : WorkerDecision × Known :=
  if k.covers job_id nonce then
    let floor := k.floor
    let value := hashValue result
    match meetsValue value floor.target with
    | none => (.thrown, k)
    | some false => (.denied "Share is below your assigned difficulty.", k)
    | some true => match meetsValue value k.target with
      | none => (.thrown, k)
      | some current =>
        let k := if k.prior ≠ "" ∧ current then { k with prior := "" } else k
        (match meetsValue value k.pool with
          | none => .thrown
          | some true => .forwarded
          | some false =>
            .absorbed (if current ∧ k.diff > floor.difficulty then k.diff else floor.difficulty), k)
  else (.delegated, k)

end NMiner
