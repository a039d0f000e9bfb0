import NMiner.Spec.Client

/-! The requests for chunks of an `NMiner`. They are kept in a list, and any of them may be answered
next. The job of the last `send_job` goes on record beside the client, and so does what every
range that the client queues was queued for. -/

namespace NMiner

/-- A `get_chunk` request, with the `gen` of the poll that has sent it. -/
structure ChunkRequest where
  gen : ℕ
  job_id : String
  deriving DecidableEq, Repr

/-- A call of `queue_range`: the request whose answer the client was at, and the job sent last. -/
structure Queued where
  range : NonceRange
  request : Option ChunkRequest
  sent : Option RangedJob
  deriving DecidableEq, Repr

structure Polling (V : Type) where
  client : NMinerClient V
  sent : Option RangedJob := none
  /-- The requests that are not answered, in the order in which they were sent. -/
  requests : List ChunkRequest := []
  queued : List Queued := []

namespace NMinerClient

variable {V : Type}

/-- The job of the `send_job` that `apply` calls, unless it throws. -/
def takes (s : NMinerClient V) (job : RangedJob) : Option RangedJob :=
  (s.rx_job.send_job (s.sending job)).map fun _ => job

/-- The job that is sent to the native side in the step. -/
def sends (s : NMinerClient V) : Action.Client V → Option RangedJob
  | .lock => match s.calls with
    | (_, job, .lock) :: _ => if s.identical job ∨ s.stale job then none else s.takes job
    | _ => none
  | .planned true => match s.calls with
    | (_, job, .plan_threads) :: _ => s.start.takes job
    | _ => none
  | _ => none

/-- The request for a chunk that is sent in the step. -/
def asks (s : NMinerClient V) : Action.Client V → Option ChunkRequest
  | .poll => s.m_job.map fun job => { gen := s.chunk_gen, job_id := job.job_id }
  | _ => none

end NMinerClient

namespace Polling

variable {V : Type} (hash : V → List UInt8 → List UInt8)

inductive Event (V : Type)
  /-- Whatever happens to the client, but for an answer to a request. -/
  | client (a : Action.Client V)
  | reply (k : ℕ) (reply : Chunk)

/-- The ranges that the client has queued to become `s`, put down to `request`. -/
def note (p : Polling V) (s : NMinerClient V) (request : Option ChunkRequest) : List Queued :=
  p.queued ++ (s.queue_ranges.drop p.client.queue_ranges.length).map fun range =>
    { range := range, request := request, sent := p.sent }

def step (p : Polling V) : Event V → Option (Polling V)
  | .client (.chunk _) => none
  | .client a => (p.client.step hash a).map fun s =>
      { client := s, sent := p.client.sends a <|> p.sent
        requests := p.requests ++ (p.client.asks a).toList, queued := p.note s none }
  | .reply k reply => p.requests[k]?.map fun r =>
      let s := p.client.answered r.gen reply
      { p with
        client := s, requests := p.requests.eraseIdx k, queued := p.note s (some r) }

/-- The same event of the client alone. -/
def Event.plain : Event V → Action.Client V
  | .client a => a
  | .reply _ chunk => .chunk chunk

end Polling

end NMiner
