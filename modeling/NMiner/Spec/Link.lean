import NMiner.Spec.Share

/-! The state of one `Upstream` and its direct changes: placing a miner on a link and taking
it off, cutting a range for it and telling it about a job. Links and miners are numbered
in the order in which they are made; a number that is not in use has the state of
a fresh object. -/

namespace NMiner

def SAFETY : ℚ := 8 / 10
def STRAY_SAMPLE : ℕ := 8
def MIN_INTERVAL : ℚ := 4000
def IDLE_LINK_MS : ℕ := 60000
def IDLE_POOL_MS : ℕ := 300000
def MAX_INTERVAL : ℚ := 240000
def DEFAULT_INTERVAL : ℚ := 120000

abbrev LinkId := ℕ
abbrev ClientId := ℕ

/-- How far `open` has come on a link; `failed` carries the text of the rejection. -/
inductive Opening
  | idle
  | dialing
  | login
  | up
  | failed (message : String)
  deriving DecidableEq, Repr

/-- `link.connecting` is set. -/
def Opening.connecting : Opening → Bool
  | .dialing => true
  | .login => true
  | _ => false

/-- The socket that `open` has made for a link. -/
inductive Plug
  | absent
  | live
  | shut
  deriving DecidableEq, Repr

structure Link where
  /-- `link.socket` is set. -/
  socket : Bool := false
  plug : Plug := .absent
  opening : Opening := .idle
  job : Option StratumJob := none
  space : NonceSpace := createSpace []
  slot : ℤ := 0
  extra : List ℤ := []
  job_at : ℕ := 0
  samples : ℕ := 0
  idle_at : ℕ := 0
  interval : ℚ := DEFAULT_INTERVAL
  interval_hi : ℚ := DEFAULT_INTERVAL
  load : ℚ := 0
  /-- The set of clients in insertion order. -/
  clients : List ClientId := []

namespace Link

def capacity (l : Link) : ℚ := NMiner.capacity l.space l.interval_hi

def headroom (l : Link) : ℚ := l.capacity * SAFETY - l.load

def deadline (l : Link) (now : ℕ) : ℚ := max 1 ((l.interval - ((now : ℚ) - l.job_at)) / 1000)

/-- A link that `pick` may place a miner on. -/
def usable (l : Link) : Bool := l.job.isSome && 0 < spaceLeft l.space

end Link

/-- An `UpstreamClient`: every client of the program tunes its own difficulty. -/
structure Client where
  hashrate : ℚ
  vardiff : VarDiff

def rateOf (client : Client) : ℚ := if 0 < client.hashrate then client.hashrate else 1000

/-- Who started an asynchronous call and handles its result. -/
inductive Origin
  /-- `LocalBackend.login`, the call with this number. -/
  | login (call : ℕ)
  /-- `sever`, for a miner of the lost link. -/
  | rehome
  /-- The job fan-out of `accept`. -/
  | fanout
  /-- `chunk`, the call with this number. -/
  | chunk (call : ℕ)
  /-- `rebalance` or `consolidate`. -/
  | sweep
  deriving DecidableEq, Repr

inductive Goal
  | attach
  | migrate (source : LinkId)
  deriving DecidableEq, Repr

/-- Where a call of `pick` is suspended, or what it has settled to. -/
inductive Phase
  | waiting (link : LinkId)
  | opening (link : LinkId) (roomiest : Option LinkId)
  | picked (link : LinkId)
  | failed (message : String)
  deriving DecidableEq, Repr

/-- An `attach` or a `migrate` that awaits its `pick`. -/
structure Task where
  client : ClientId
  goal : Goal
  origin : Origin
  phase : Phase
  deriving DecidableEq, Repr

inductive ChunkReply
  | range (grant : Grant)
  | migrated
  | job_expired
  | retry_after (ms : ℤ)
  deriving DecidableEq, Repr

/-- What an `Upstream` hands to its callers, to the callbacks of its clients and to the pool. -/
inductive Delivery
  | job (client : ClientId) (payload : Payload)
  | drop (client : ClientId) (message : String)
  | attached (call : ℕ) (result : Except String Payload)
  | chunked (call : ℕ) (result : Except String ChunkReply)
  | submitted (call : ℕ) (link : LinkId) (job_id nonce result : String)
  | retired

/-- A range as it was granted: on which link, for which job. -/
structure Issued where
  link : LinkId
  job : StratumJob
  range : Grant
  deriving DecidableEq, Repr

structure Upstream where
  maxLinks : ℕ := 64
  idleTimeout : ℕ := IDLE_POOL_MS
  expand : Bool := false
  now : ℕ
  /-- The members of `Upstream.links`, in order. -/
  links : List LinkId := []
  link : LinkId → Link := fun _ => {}
  nextLink : LinkId := 0
  live : Finset ClientId := ∅
  homes : ClientId → Option LinkId := fun _ => none
  ledgers : ClientId → Ledger := fun _ => {}
  client : ClientId → Client
  /-- The suspended calls. -/
  tasks : List Task := []
  closed : Bool := false
  stray_shares : ℕ := 0
  stray_rejects : ℕ := 0
  outbox : List Delivery := []
  /-- Every range recorded for a client so far, oldest first. Nothing reads it. -/
  issued : ClientId → List Issued := fun _ => []

namespace Upstream

def setLink (u : Upstream) (l : LinkId) (f : Link → Link) : Upstream :=
  { u with link := Function.update u.link l (f (u.link l)) }

def emit (u : Upstream) (d : Delivery) : Upstream := { u with outbox := u.outbox ++ [d] }

def rate (u : Upstream) (c : ClientId) : ℚ := rateOf (u.client c)

/-- `Set.add`. -/
def addClient (clients : List ClientId) (c : ClientId) : List ClientId :=
  if c ∈ clients then clients else clients ++ [c]

def house (u : Upstream) (l : LinkId) (c : ClientId) : Upstream :=
  { u.setLink l (fun k => { k with
      clients := addClient k.clients c, load := k.load + u.rate c, idle_at := 0 }) with
    homes := Function.update u.homes c (some l) }

def evict (u : Upstream) (c : ClientId) : Upstream :=
  match u.homes c with
  | none => u
  | some l =>
    { u.setLink l (fun k => { k with
        clients := k.clients.erase c, load := max 0 (k.load - u.rate c),
        idle_at := if k.clients.erase c = [] then u.now else k.idle_at }) with
      homes := Function.update u.homes c none }

def detach (u : Upstream) (c : ClientId) : Upstream :=
  let u := Upstream.evict { u with live := u.live.erase c } c
  { u with ledgers := Function.update u.ledgers c {} }

def setClient (u : Upstream) (c : ClientId) (f : Client → Client) : Upstream :=
  { u with client := Function.update u.client c (f (u.client c)) }

def report (u : Upstream) (c : ClientId) (hashrate : ℚ) : Upstream :=
  if 0 < hashrate then
    let v := match u.homes c with
      | none => u
      | some l => u.setLink l fun k => { k with load := k.load + (hashrate - u.rate c) }
    v.setClient c fun k => { k with hashrate := hashrate }
  else u

def record (u : Upstream) (c : ClientId) (l : LinkId) (job : StratumJob) (range : Grant) :
    Upstream :=
  { u with
    ledgers := Function.update u.ledgers c ((u.ledgers c).record job.job_id range),
    issued :=
      Function.update u.issued c (u.issued c ++ [{ link := l, job := job, range := range }]) }

def grant (u : Upstream) (l : LinkId) (c : ClientId) : Option Grant × Upstream :=
  let k := u.link l
  let left := spaceLeft k.space
  if left ≤ 0 then (none, u)
  else
    let share : ℚ := if 0 < k.load then left * (u.rate c / k.load) else left
    let (range, space) := take k.space (chunkSize (u.rate c) share (k.deadline u.now))
    let u := u.setLink l fun k => { k with space := space }
    match range, k.job with
    | some g, some job => (some g, u.record c l job g)
    | range, _ => (range, u)

def owns (u : Upstream) (c : ClientId) (nonce : ℤ) : Bool := (u.ledgers c).owns nonce

def jobOf (u : Upstream) (c : ClientId) : Option StratumJob :=
  (u.homes c).bind fun l => (u.link l).job

/-- `none` is a thrown error: the link has lost its job, or the pool target does not decode. -/
def payload (u : Upstream) (l : LinkId) (c : ClientId) (range : Grant) :
    Option (Payload × Upstream) :=
  (u.link l).job.bind fun job =>
    ((u.client c).vardiff.tune job.target).map fun v =>
      ({ job := job, target := v.target, range := range },
        u.setClient c fun k => { k with vardiff := v })

end Upstream

end NMiner
