import NMiner.Spec.Backend

/-! A worker in front of the primary: `WorkerBackend` behind its edge, and `PrimaryHub` over
`LocalBackend`, joined by a lossless channel each way that keeps the order. The primary serves
other callers as well. The shares that the worker acknowledges by itself are numbered; a message
that carries shares names them, and nothing reads the numbers. -/

namespace NMiner

/-- What a worker has absorbed for a session since the last flush. -/
structure Tally where
  shares : ℕ := 0
  work : ℕ := 0
  actual : ℕ := 0
  ids : List ℕ := []
  deriving DecidableEq, Repr

/-- The messages of the worker; `i` numbers its calls. -/
inductive Up
  | login (i : ℕ) (s : SessionId) (address : String) (threads : Option ℚ)
  | chunk (i : ℕ) (s : SessionId) (job_id : String) (hashrate : Option ℚ)
  | submit (i : ℕ) (s : SessionId) (job_id nonce result : String)
  | sub (s : SessionId) (job_id nonce result : String) (id : ℕ)
  | acc (tallies : List (SessionId × Tally))
  | bye (s : SessionId)
  deriving DecidableEq, Repr

/-- The messages of the primary. -/
inductive Down
  | reply (i : ℕ) (s : SessionId) (result : Except String Reply)
  | job (s : SessionId) (payload : Payload)
  | kill (s : SessionId) (message : String)

inductive Method
  | login
  | chunk
  | submit
  deriving DecidableEq, Repr

/-- A share the worker has answered with OK by itself: the session, and the call with which the
session had last logged in. -/
structure Acked where
  session : SessionId
  login : ℕ
  deriving DecidableEq, Repr

/-- The shares that a difficulty controller has counted, and their work. -/
def VarDiff.totals (v : VarDiff) : ℕ × ℚ := (v.accepted, v.work)

/-- What the controller of each client has counted. -/
def Upstream.counters (u : Upstream) (c : ClientId) : ℕ × ℚ := (u.client c).vardiff.totals

def Backend.counters (b : Backend) (i : UpstreamId) : ClientId → ℕ × ℚ := (b.upstream i).counters

/-- A change of the primary that deals with shares of the worker: whose they are, those that the
controller of the entry is to count and those that are to reach the share sink, and what the
controllers had counted before and after, and what has reached the sink. -/
structure Receipt where
  session : SessionId
  entry : Entry
  difficulty : ℤ
  counted : List ℕ
  reported : List ℕ
  before : UpstreamId → ClientId → ℕ × ℚ
  after : UpstreamId → ClientId → ℕ × ℚ
  sunk : List (SessionId × Entry × ℤ)

/-- A range that a session was told of, and the id of the job it was told it for. -/
structure Filing where
  job_id : String
  range : Grant
  deriving DecidableEq, Repr

/-- The range that a message carries. -/
def Message.grant : Message → Option Grant
  | .job p => some p.range
  | .range g => some g
  | .other => none

/-- The job of a message that carries one, and else the job before it. -/
def Message.id (before : String) : Message → String
  | .job p => p.job.job_id
  | _ => before

/-- The ranges that these messages tell, each for the job in its message or else the last job before
it; the id of that last job comes with them. -/
def filings (ms : List Message) : String × List Filing :=
  ms.foldl (fun p m =>
    let id := m.id p.1
    (id, p.2 ++ if id = "" then [] else m.grant.toList.map (Filing.mk id))) ("", [])

structure Cluster where
  /-- The sessions of the worker; the others are those of the primary's other callers. -/
  own : SessionId → Bool
  /-- The number of the worker's next call. -/
  seq : ℕ := 1
  /-- The worker's mirrors; a session without one has the empty mirror. -/
  known : SessionId → Known := fun _ => {}
  /-- What each session's mirror has learned since it was made. Nothing reads it. -/
  heard : SessionId → List Message := fun _ => []
  tallies : List (SessionId × Tally) := []
  sessions : Finset SessionId := ∅
  pending : ℕ → Option Method := fun _ => none
  /-- The edge's record that a session is logged in: the last login it has an answer for. -/
  logged : SessionId → Option ℕ := fun _ => none
  /-- The sessions whose connection has been closed. -/
  gone : Finset SessionId := ∅
  up : List Up := []
  down : List Down := []
  /-- The sessions of the worker's channel at the hub. -/
  hub : Finset SessionId := ∅
  /-- The worker's call that a call of the backend answers. -/
  asked : CallId → Option (SessionId × ℕ) := fun _ => none
  backend : Backend
  /-- The acknowledged shares, in order. -/
  acked : List Acked := []
  /-- The shares of `sub` messages that await the pool's reply. -/
  waiting : List (CallId × ℕ) := []
  receipts : List Receipt := []

namespace Cluster

/-! ### The worker -/

/-- `WorkerBackend.call`. -/
def call (c : Cluster) (method : Method) (message : ℕ → Up) : Cluster :=
  { c with
    seq := c.seq + 1, pending := Function.update c.pending c.seq (some method),
    up := c.up ++ [message c.seq] }

def flush (c : Cluster) : Cluster :=
  if c.tallies = [] then c else { c with tallies := [], up := c.up ++ [.acc c.tallies] }

/-- Add a share to the session's tally, in the order of the sessions' first shares. -/
def addTally (s : SessionId) (difficulty actual id : ℕ) :
    List (SessionId × Tally) → List (SessionId × Tally)
  | [] => [(s, { shares := 1, work := difficulty, actual := actual, ids := [id] })]
  | (s', t) :: rest =>
    if s' = s then
      (s', { shares := t.shares + 1, work := t.work + difficulty, actual := t.actual + actual,
             ids := t.ids ++ [id] }) :: rest
    else (s', t) :: addTally s difficulty actual id rest

/-- `WorkerBackend.submit` for a session that logged in with the call `login`. -/
def submit (c : Cluster) (s : SessionId) (login : ℕ) (job_id nonce result : String) : Cluster :=
  let (decision, known) := (c.known s).submit job_id nonce result
  let c := { c with known := Function.update c.known s known }
  let id := c.acked.length
  match decision with
  | .delegated => c.call .submit fun i => .submit i s job_id nonce result
  | .denied _ => c
  | .thrown => c
  | .forwarded =>
    { c with
      up := c.up ++ [.sub s job_id nonce result id],
      acked := c.acked ++ [{ session := s, login := login }] }
  | .absorbed difficulty =>
    { c with
      tallies := addTally s difficulty (valueDifficulty (hashValue result)) id c.tallies,
      acked := c.acked ++ [{ session := s, login := login }] }

/-- `WorkerBackend.close`. -/
def close (c : Cluster) (s : SessionId) : Cluster :=
  let c := if c.tallies.any fun p => p.1 = s then c.flush else c
  { c with
    known := Function.update c.known s {}, heard := Function.update c.heard s [],
    sessions := c.sessions.erase s,
    gone := insert s c.gone, up := c.up ++ [.bye s] }

/-- What `learn` reads of a reply. -/
def lesson : Reply → Message
  | .job p => .job p
  | .retuned p => .job p
  | .chunk (.range g) => .range g
  | _ => .other

def learn (c : Cluster) (s : SessionId) (m : Message) : Cluster :=
  { c with
    known := Function.update c.known s ((c.known s).learn m),
    heard := Function.update c.heard s (c.heard s ++ [m]) }

/-- The worker handles a message of the primary. -/
def hear (c : Cluster) : Down → Cluster
  | .reply i s result => match c.pending i with
    | none => c
    | some method =>
      let c := { c with pending := Function.update c.pending i none }
      match result with
      | .error _ => c
      | .ok reply =>
        let c := c.learn s (lesson reply)
        if method = .login then { c with logged := Function.update c.logged s (some i) } else c
  | .job s payload => if s ∈ c.sessions then c.learn s (.job payload) else c
  | .kill _ _ => c

/-! ### The hub -/

/-- The shares that have reached the share sink. -/
def sunk (os : List Output) : List (SessionId × Entry × ℤ) :=
  os.filterMap fun o => match o with
    | .share s e report => some (s, e, report.difficulty)
    | _ => none

/-- Let the backend go to a new state in which it has handled these shares of a session. -/
def credit (c : Cluster) (b : Backend) (s : SessionId) (e : Option Entry) (difficulty : Entry → ℤ)
    (counted reported : List ℕ) : Cluster :=
  { c with
    backend := b,
    receipts := c.receipts ++ (e.map fun e =>
      { session := s, entry := e, difficulty := difficulty e, counted := counted,
        reported := reported, before := c.backend.counters, after := b.counters,
        sunk := sunk (b.outbox.drop c.backend.outbox.length) }).toList }

/-- The session of a request, which the next call of the backend will answer. -/
def ask (c : Cluster) (s : SessionId) (i : ℕ) : Cluster :=
  { c with
    hub := insert s c.hub, asked := Function.update c.asked c.backend.nextCall (some (s, i)) }

def account (c : Cluster) (p : SessionId × Tally) : Cluster :=
  if p.1 ∈ c.hub then
    c.credit (c.backend.account p.1 p.2.shares p.2.work p.2.actual) p.1 (c.backend.entries p.1)
      (fun _ => jsRound ((p.2.work : ℚ) / p.2.shares)) p.2.ids p.2.ids
  else c

/-- The call awaits the pool's reply to a share. -/
def awaits (b : Backend) (n : CallId) : Bool :=
  match b.calls n with
  | some (.forwarding ..) => true
  | _ => false

/-- `PrimaryHub.handle`. -/
def handle (c : Cluster) : Up → Cluster
  | .acc tallies => tallies.foldl account c
  | .bye s => if s ∈ c.hub then { c with hub := c.hub.erase s, backend := c.backend.close s } else c
  | .sub s job_id nonce result id =>
    if s ∈ c.hub then
      let n := c.backend.nextCall
      let b := c.backend.submit s job_id nonce result
      let difficulty (e : Entry) : ℤ := ((c.backend.decide e nonce result).1.credit.getD 0 : ℕ)
      -- a share for the pool reaches the share sink with the pool's reply
      { c.credit b s (c.backend.entries s) difficulty [id] (if awaits b n then [] else [id]) with
        waiting := if awaits b n then c.waiting ++ [(n, id)] else c.waiting }
    else c
  | .login i s address threads =>
    { c.ask s i with backend := c.backend.login s address threads }
  | .chunk i s job_id hashrate =>
    { c.ask s i with backend := c.backend.chunk s job_id hashrate }
  | .submit i s job_id nonce result =>
    { c.ask s i with backend := c.backend.submit s job_id nonce result }

/-- What an output of the backend sends to the worker. The calls of `sub` messages are not
answered. -/
def translate (c : Cluster) : Output → Option Down
  | .push s payload => if c.own s then some (.job s payload) else none
  | .kill s message => if c.own s then some (.kill s message) else none
  | .reply n result => (c.asked n).map fun (s, i) => .reply i s result
  | _ => none

/-- Send on what the backend has put out. -/
def pump (c : Cluster) : Cluster :=
  { c with
    down := c.down ++ c.backend.outbox.filterMap c.translate,
    backend := { c.backend with outbox := [] } }

/-- The backend goes on; the pool's reply to a share brings it to the share sink. -/
def go (c : Cluster) (a : Backend.Action) (b : Backend) : Cluster :=
  match a with
  | .poolReply n _ => match c.backend.calls n with
    | some (.forwarding s e report _ _) =>
      let ids := (c.waiting.filter fun p => p.1 = n).map Prod.snd
      { c.credit b s (if ids = [] then none else some e) (fun _ => report.difficulty) [] ids with
        waiting := c.waiting.filter fun p => p.1 ≠ n }
    | _ => { c with backend := b }
  | _ => { c with backend := b }

/-! ### Steps -/

inductive Action
  | login (s : SessionId) (address : String) (threads : Option ℚ)
  | chunk (s : SessionId) (job_id : String) (hashrate : Option ℚ)
  | submit (s : SessionId) (job_id nonce result : String)
  | flush
  | close (s : SessionId)
  /-- The worker handles the oldest message of the primary. -/
  | hear
  /-- A call of the worker times out. -/
  | expire (i : ℕ)
  /-- The hub handles the oldest message of the worker. -/
  | handle
  /-- The backend goes on by itself, or serves another caller. -/
  | backend (a : Backend.Action)

/-- The events of the backend that are no requests of the worker. -/
def foreign (c : Cluster) : Backend.Action → Bool
  | .login s _ _ => !c.own s
  | .close s => !c.own s
  | .chunk s _ _ => !c.own s
  | .submit s _ _ _ => !c.own s
  | .account s _ _ _ => !c.own s
  | _ => true

/-- One event. The edge passes no request of a closed connection on, and only a login of a session
that is not logged in. -/
def step (c : Cluster) : Action → Option Cluster
  | .login s address threads =>
    if s ∈ c.gone ∨ c.own s = false then none
    else some { c.call .login (fun i => .login i s address threads) with
      sessions := insert s c.sessions }
  | .chunk s job_id hashrate =>
    if s ∈ c.gone ∨ c.logged s = none then none
    else some (c.call .chunk fun i => .chunk i s job_id hashrate)
  | .submit s job_id nonce result =>
    if s ∈ c.gone then none
    else (c.logged s).map fun login => c.submit s login job_id nonce result
  | .flush => some c.flush
  | .close s => if c.own s then some (c.close s) else none
  | .hear => match c.down with
    | [] => none
    | m :: ms => some (hear { c with down := ms } m)
  | .expire i =>
    if c.pending i = none then none
    else some { c with pending := Function.update c.pending i none }
  | .handle => match c.up with
    | [] => none
    | m :: ms => some (handle { c with up := ms } m).pump
  | .backend a =>
    if c.foreign a then (c.backend.step a).map fun b => (c.go a b).pump else none

def start (own : SessionId → Bool) (maxLinks idleTimeout : ℕ) (expand : Bool) (now : ℕ) : Cluster :=
  { own := own, backend := Backend.start maxLinks idleTimeout expand now }

end Cluster

end NMiner
