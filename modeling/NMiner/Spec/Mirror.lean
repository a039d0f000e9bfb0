import NMiner.Lib.Transition
import NMiner.Spec.Share

/-! One login served twice: by `LocalBackend` in a single process, and by a worker that
settles shares from what it has learned. Every message of the primary reaches the
worker in order. The primary behind the worker hands out the same targets, but it
only judges the shares that the worker passes on. -/

namespace NMiner

structure Twin where
  /-- The controller of the single process. -/
  vardiff : VarDiff
  job : Option StratumJob := none
  ledger : Ledger := {}
  /-- The worker's mirror. -/
  known : Known := {}
  /-- The controller of the primary behind the worker. -/
  behind : VarDiff
  /-- For each share: the decision in the single process, the worker's, and the decision of
  the primary on a share the worker passed on. -/
  verdicts : List (Decision × WorkerDecision × Option Decision) := []

namespace Twin

inductive Event
  /-- The initial job or a later push, with the range granted for it. -/
  | push (job : StratumJob) (range : Grant)
  /-- A chunk request that states a hashrate or none, answered with a range or without. -/
  | chunk (hashrate : Option ℚ) (range : Option Grant)
  /-- A share for the current job. -/
  | share (nonce result : String) (now : ℕ)

/-- The primary behind the worker follows the targets handed out. -/
def follow (behind : VarDiff) (v : VarDiff) : VarDiff :=
  if v.issue = behind.issue then behind
  else { behind with prior := some behind.issue, issue := v.issue }

/-- `Upstream.record` and `payload` for a pushed job, and `learn` at the worker. -/
def push (s : Twin) (job : StratumJob) (range : Grant) : Option Twin :=
  (s.vardiff.tune job.target).map fun v =>
    { s with
      vardiff := v, job := some job, ledger := s.ledger.record job.job_id range,
      known := s.known.learn (.job { job := job, target := v.target, range := range }),
      behind := follow s.behind v }

def observed (v : VarDiff) : Option ℚ → VarDiff
  | some hashrate => v.observe hashrate
  | none => v

/-- `LocalBackend.chunk`. A reply with a range carries the job and the target only when `tune`
changed the target; a reply without one is not retuned. -/
def chunk (s : Twin) (hashrate : Option ℚ) (range : Option Grant) : Option Twin :=
  s.job.bind fun job =>
    let before := observed s.vardiff hashrate
    match range with
    | none => some { s with vardiff := before, known := s.known.learn .other }
    | some range => (before.tune job.target).map fun v =>
        let reply : Message := if v.target = before.target then .range range
          else .job { job := job, target := v.target, range := range }
        { s with
          vardiff := v, ledger := s.ledger.record job.job_id range,
          known := s.known.learn reply, behind := follow s.behind v }

/-- A share the worker passes on is decided by the primary; one it settles is not. -/
def passedOn : WorkerDecision → Bool
  | .delegated => true
  | .forwarded => true
  | _ => false

def share (s : Twin) (nonce result : String) (now : ℕ) : Option Twin :=
  s.job.map fun job =>
    let single := decideShare s.job s.ledger.owns s.vardiff nonce result now
    let worker := s.known.submit job.job_id nonce result
    let primary := decideShare s.job s.ledger.owns s.behind nonce result now
    { s with
      vardiff := single.2, known := worker.2,
      behind := if passedOn worker.1 then primary.2 else s.behind,
      verdicts := s.verdicts ++
        [(single.1, worker.1, if passedOn worker.1 then some primary.1 else none)] }

def step (s : Twin) : Event → Option Twin
  | .push job range => s.push job range
  | .chunk hashrate range => s.chunk hashrate range
  | .share nonce result now => s.share nonce result now

/-- A login stating `seed / 1000` threads. -/
def start (seed : ℚ) (now : ℕ) : Twin :=
  { vardiff := VarDiff.new seed now, behind := VarDiff.new seed now }

end Twin

end NMiner
