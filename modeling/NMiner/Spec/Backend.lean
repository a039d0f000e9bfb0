import NMiner.Spec.Upstream

/-! `LocalBackend` over the registry of upstreams. A call of it runs until it awaits; what is
left is kept under the call's number. Sessions are numbered by the caller, clients and
upstreams in the order in which they are made. -/

namespace NMiner

abbrev SessionId := ℕ
abbrev UpstreamId := ℕ
abbrev CallId := ℕ

structure Credentials where
  pool : String
  address : String
  pass : String
  proxy : Option String := none
  deriving DecidableEq, Repr

/-- The key of `UpstreamRegistry`. -/
def Credentials.key (c : Credentials) : String :=
  c.pool ++ "|" ++ c.address ++ "|" ++ c.pass ++ "|" ++ c.proxy.getD ""

/-- The entry of a session; the difficulty controller is the one its client tunes. -/
structure Entry where
  client : ClientId
  upstream : UpstreamId
  address : String
  /-- The login that made the entry. Nothing reads it. -/
  login : CallId
  deriving DecidableEq, Repr

structure ShareReport where
  accepted : Bool
  forwarded : Bool
  address : String
  target : String
  height : Option ℕ
  elapsed : ℕ
  solved : ℕ
  actual : ℤ
  difficulty : ℤ
  deriving DecidableEq, Repr

inductive Reply
  | job (payload : Payload)
  | chunk (reply : ChunkReply)
  /-- The reply to a chunk request that also carries the job, with a new target. -/
  | retuned (payload : Payload)
  | ok
  /-- The pool's own reply to a share, by whether it reports acceptance. -/
  | pool (accepted : Bool)
  deriving DecidableEq, Repr

inductive Output
  | push (session : SessionId) (payload : Payload)
  | kill (session : SessionId) (message : String)
  | reply (call : CallId) (result : Except String Reply)
  /-- A share handed to the share sink, for the session and entry it was credited to. -/
  | share (session : SessionId) (entry : Entry) (report : ShareReport)
  /-- A share sent to the pool on the socket of a link. -/
  | submitted (upstream : UpstreamId) (link : LinkId) (job_id nonce result : String)

/-- A call at its `await`, or with the awaited promise settled. -/
inductive Call
  | resolving (session : SessionId) (address : String) (threads : Option ℚ)
  | attaching (session : SessionId) (entry : Entry)
  | attached (session : SessionId) (entry : Entry) (result : Except String Payload)
  | chunking (entry : Entry)
  | chunked (entry : Entry) (result : Except String ChunkReply)
  | forwarding (session : SessionId) (entry : Entry) (report : ShareReport) (pool : ℕ)
      (stray : Bool)

/-- The session of a login under way. -/
def Call.login : Call → Option SessionId
  | .resolving s _ _ => some s
  | .attaching s _ => some s
  | .attached s _ _ => some s
  | _ => none

/-- The entry a login under way has made. -/
def Call.made : Call → Option Entry
  | .attaching _ e => some e
  | .attached _ e _ => some e
  | _ => none

structure Backend where
  maxLinks : ℕ := 64
  idleTimeout : ℕ := IDLE_POOL_MS
  expand : Bool := false
  now : ℕ
  upstream : UpstreamId → Upstream
  /-- The registry. -/
  pools : List (String × UpstreamId) := []
  nextUpstream : UpstreamId := 0
  entries : SessionId → Option Entry := fun _ => none
  calls : CallId → Option Call := fun _ => none
  nextCall : CallId := 0
  nextClient : ClientId := 0
  outbox : List Output := []
  /-- The session whose login made the client, and the entry it made; the callbacks of the client
  reach this session. -/
  owner : ClientId → Option (SessionId × Entry) := fun _ => none
  /-- The sessions that have been closed. Nothing reads it but the caller. -/
  closed : Finset SessionId := ∅
  /-- The sessions whose last login to settle has succeeded. Nothing reads it. -/
  logged : SessionId → Bool := fun _ => false

namespace Backend

def emit (b : Backend) (o : Output) : Backend := { b with outbox := b.outbox ++ [o] }

def setCall (b : Backend) (n : CallId) (call : Option Call) : Backend :=
  { b with calls := Function.update b.calls n call }

/-- Settle a call. -/
def answer (b : Backend) (n : CallId) (result : Except String Reply) : Backend :=
  (b.setCall n none).emit (.reply n result)

/-- Replace the state of an upstream whose deliveries have been handled. -/
def setUpstream (b : Backend) (i : UpstreamId) (u : Upstream) : Backend :=
  { b with upstream := Function.update b.upstream i { u with outbox := [] } }

/-- The callback that removes an upstream from the registry. -/
def retire (b : Backend) (i : UpstreamId) : Backend :=
  if b.pools.any fun p => p.2 = i then
    { b with
      pools := b.pools.filter fun p => p.2 ≠ i
      upstream := Function.update b.upstream i (b.upstream i).close }
  else b

/-- What an upstream hands out reaches the sessions, the pool and the suspended calls. -/
def deliver (b : Backend) (i : UpstreamId) : Delivery → Backend
  | .job c payload => match b.owner c with
    | some (s, _) => b.emit (.push s payload)
    | none => b
  | .drop c message => match b.owner c with
    | some (s, _) => b.emit (.kill s message)
    | none => b
  | .attached n result => match b.calls n with
    | some (.attaching s e) => b.setCall n (some (.attached s e result))
    | _ => b
  | .chunked n result => match b.calls n with
    | some (.chunking e) => b.setCall n (some (.chunked e result))
    | _ => b
  | .submitted _ l job_id nonce result => b.emit (.submitted i l job_id nonce result)
  | .retired => b.retire i

/-- Let an upstream go to a new state and handle what it has delivered on the way. -/
def run (b : Backend) (i : UpstreamId) (u : Upstream) : Backend :=
  u.outbox.foldl (fun b d => b.deliver i d) (b.setUpstream i u)

/-! ### Login and close -/

/-- `LocalBackend.close`. -/
def drop (b : Backend) (s : SessionId) : Backend :=
  match b.entries s with
  | none => b
  | some e =>
    run { b with entries := Function.update b.entries s none } e.upstream
      ((b.upstream e.upstream).detach e.client)

/-- `login` up to the resolver. -/
def login (b : Backend) (s : SessionId) (address : String) (threads : Option ℚ) : Backend :=
  let b := { b.drop s with logged := Function.update b.logged s false }
  { b.setCall b.nextCall (some (.resolving s address threads)) with nextCall := b.nextCall + 1 }

/-- `UpstreamRegistry.get`. -/
def get (b : Backend) (c : Credentials) : UpstreamId × Backend :=
  match b.pools.find? fun p => p.1 = c.key with
  | some p => (p.2, b)
  | none =>
    let i := b.nextUpstream
    let client : Client := { hashrate := 1000, vardiff := VarDiff.new 1000 b.now }
    let u := Upstream.start b.maxLinks b.idleTimeout b.expand b.now fun _ => client
    (i, { b with
      upstream := Function.update b.upstream i u
      pools := b.pools ++ [(c.key, i)], nextUpstream := i + 1 })

/-- The seed of the controller: a thousand hashes a second for each stated thread. The product is a
double. -/
def seed (threads : Option ℚ) : ℚ :=
  match threads with
  | some t => if 0 < t then Double.round (t * 1000) else 1000
  | none => 1000

/-- `login` after the resolver, up to the `attach`. -/
def resolved (b : Backend) (n : CallId) (s : SessionId) (address : String) (threads : Option ℚ) :
    Except String Credentials → Backend
  | .error message => b.answer n (.error message)
  | .ok credentials =>
    let (i, b) := b.get credentials
    let vardiff := VarDiff.new (seed threads) b.now
    let c := b.nextClient
    let e : Entry := { client := c, upstream := i, address := address, login := n }
    let u := (b.upstream i).setClient c fun _ =>
      { hashrate := vardiff.hashrate, vardiff := vardiff }
    run { b.setCall n (some (.attaching s e)) with
      entries := Function.update b.entries s (some e)
      owner := Function.update b.owner c (some (s, e))
      nextClient := c + 1 } i (u.attach c (.login n))

/-- `login` after the `attach`. -/
def settle (b : Backend) (n : CallId) (s : SessionId) (e : Entry)
    (result : Except String Payload) : Backend :=
  let fail (message : String) : Backend :=
    let b := if b.entries s = some e then { b with entries := Function.update b.entries s none }
      else b
    (b.run e.upstream ((b.upstream e.upstream).detach e.client)).answer n (.error message)
  match result with
  | .error message => fail message
  | .ok payload =>
    if b.entries s = some e then
      { b.answer n (.ok (.job payload)) with logged := Function.update b.logged s true }
    else fail "Superseded by a newer login."

/-- The caller closes the session. -/
def close (b : Backend) (s : SessionId) : Backend :=
  { b.drop s with closed := insert s b.closed, logged := Function.update b.logged s false }

/-! ### Chunks -/

def vardiff (b : Backend) (e : Entry) : VarDiff := ((b.upstream e.upstream).client e.client).vardiff

def setVardiff (u : Upstream) (c : ClientId) (v : VarDiff) : Upstream :=
  u.setClient c fun k => { k with vardiff := v }

/-- `chunk` up to the upstream's reply. -/
def chunk (b : Backend) (s : SessionId) (job_id : String) (hashrate : Option ℚ) : Backend :=
  let n := b.nextCall
  let b := { b with nextCall := n + 1 }
  match b.entries s with
  | none => b.answer n (.error "Not logged in.")
  | some e =>
    let u := b.upstream e.upstream
    let u := match hashrate with
      | some h => if 0 < h then
          (setVardiff u e.client ((u.client e.client).vardiff.observe h)).report e.client h
        else u
      | none => u
    (b.setCall n (some (.chunking e))).run e.upstream (u.chunk n e.client job_id)

/-- `chunk` after the upstream's reply. -/
def chunked (b : Backend) (n : CallId) (e : Entry) : Except String ChunkReply → Backend
  | .error message => b.answer n (.error message)
  | .ok (.range g) =>
    let u := b.upstream e.upstream
    match u.jobOf e.client with
    | none => b.answer n (.ok (.chunk (.range g)))
    | some job => match (b.vardiff e).tune job.target with
      | none => b.answer n (.error Upstream.DECODE_ERROR)
      | some v =>
        let reply : Reply := if v.target = (b.vardiff e).target then .chunk (.range g)
          else .retuned { job := job, target := v.target, range := g }
        (b.setUpstream e.upstream (setVardiff u e.client v)).answer n (.ok reply)
  | .ok reply => b.answer n (.ok (.chunk reply))

/-! ### Shares -/

/-- Keep a controller that has counted shares, and pass its estimate on for a miner that never
stated a hashrate. -/
def counted (b : Backend) (e : Entry) (v : VarDiff) : Backend :=
  let u := setVardiff (b.upstream e.upstream) e.client v
  b.run e.upstream (if v.told then u else u.report e.client v.hashrate)

/-- What `submit` decides about a share before anything is changed. -/
def decide (b : Backend) (e : Entry) (nonce result : String) : Decision × VarDiff :=
  let u := b.upstream e.upstream
  decideShare (u.jobOf e.client) (u.owns e.client) (b.vardiff e) nonce result b.now

def report (b : Backend) (e : Entry) (difficulty : ℕ) (result : String) : ShareReport :=
  let job := (b.upstream e.upstream).jobOf e.client
  { accepted := true, forwarded := false, address := e.address,
    target := (job.map StratumJob.target).getD "", height := job.bind StratumJob.height,
    elapsed := b.now, solved := 0, actual := valueDifficulty (hashValue result),
    difficulty := difficulty }

/-- `submit` up to the pool's reply. -/
def submit (b : Backend) (s : SessionId) (job_id nonce result : String) : Backend :=
  let n := b.nextCall
  let b := { b with nextCall := n + 1 }
  match b.entries s with
  | none => b.answer n (.error "Not logged in.")
  | some e => match b.decide e nonce result with
    | (.denied reason, _) => b.answer n (.error reason)
    | (.thrown, v) =>
      -- the pool target is decoded after the share is counted, the miner's own before
      (if v = b.vardiff e then b else b.counted e v).answer n (.error Upstream.DECODE_ERROR)
    | (.absorbed d, v) =>
      ((b.counted e v).emit (.share s e (b.report e d result))).answer n (.ok .ok)
    | (.forwarded d, v) =>
      let report := { b.report e d result with forwarded := true }
      let b := b.counted e v
      let u := b.upstream e.upstream
      match u.submit n e.client job_id nonce result with
      | none =>
        (b.emit (.share s e { report with accepted := false })).answer n
          (.error "Upstream is not connected.")
      | some (l, u') =>
        let pool := (targetDifficulty report.target).getD 0
        (b.setCall n (some (.forwarding s e report pool (u.isStray l nonce)))).run e.upstream u'

/-- `submit` after the pool's reply: whether it reports acceptance, or an error. -/
def poolReply (b : Backend) (n : CallId) (s : SessionId) (e : Entry) (report : ShareReport)
    (pool : ℕ) (stray : Bool) : Except String Bool → Backend
  | .ok accepted =>
    let b := if accepted then
        b.setUpstream e.upstream
          (setVardiff (b.upstream e.upstream) e.client ((b.vardiff e).credit pool))
      else b
    let report := { report with accepted := accepted, solved := if accepted then pool else 0 }
    (b.emit (.share s e report)).answer n (.ok (.pool accepted))
  | .error message =>
    ((b.run e.upstream ((b.upstream e.upstream).rejected stray)).emit
      (.share s e { report with accepted := false })).answer n (.error message)

/-- `account`: a worker's tally of absorbed shares. -/
def account (b : Backend) (s : SessionId) (shares work actual : ℕ) : Backend :=
  match b.entries s with
  | none => b
  | some e =>
    if shares = 0 then b
    else
      let job := (b.upstream e.upstream).jobOf e.client
      let difficulty := jsRound ((work : ℚ) / shares)
      let report : ShareReport :=
        { accepted := true, forwarded := false, address := e.address,
          target := (job.map StratumJob.target).getD (b.vardiff e).target,
          height := job.bind StratumJob.height, elapsed := b.now, solved := 0,
          actual := jsRound ((actual : ℚ) / shares), difficulty := difficulty }
      let v := (b.vardiff e).submitted difficulty shares b.now
      (List.replicate shares (Output.share s e report)).foldl emit (b.counted e v)

/-! ### Steps -/

inductive Action
  | login (s : SessionId) (address : String) (threads : Option ℚ)
  | resolved (n : CallId) (outcome : Except String Credentials)
  | settle (n : CallId)
  | close (s : SessionId)
  | chunk (s : SessionId) (job_id : String) (hashrate : Option ℚ)
  | chunked (n : CallId)
  | submit (s : SessionId) (job_id nonce result : String)
  | poolReply (n : CallId) (outcome : Except String Bool)
  | account (s : SessionId) (shares work actual : ℕ)
  /-- An event of an upstream: of its sockets, its timer or its suspended calls. -/
  | upstream (i : UpstreamId) (a : Upstream.Action)
  | tick (ms : ℕ)

/-- The events an upstream has by itself. -/
def autonomous : Upstream.Action → Bool
  | .resume _ => true
  | .dialed _ _ => true
  | .loggedIn _ _ => true
  | .job _ _ => true
  | .lost _ => true
  | .rebalance => true
  | _ => false

/-- One event. A closed session makes no further requests. -/
def step (b : Backend) : Action → Option Backend
  | .login s address threads => if s ∈ b.closed then none else some (b.login s address threads)
  | .resolved n outcome => match b.calls n with
    | some (.resolving s address threads) => some (b.resolved n s address threads outcome)
    | _ => none
  | .settle n => match b.calls n with
    | some (.attached s e result) => some (b.settle n s e result)
    | _ => none
  | .close s => some (b.close s)
  | .chunk s job_id hashrate => if s ∈ b.closed then none else some (b.chunk s job_id hashrate)
  | .chunked n => match b.calls n with
    | some (.chunked e result) => some (b.chunked n e result)
    | _ => none
  | .submit s job_id nonce result =>
    if s ∈ b.closed then none else some (b.submit s job_id nonce result)
  | .poolReply n outcome => match b.calls n with
    | some (.forwarding s e report pool stray) => some (b.poolReply n s e report pool stray outcome)
    | _ => none
  | .account s shares work actual =>
    if s ∈ b.closed then none else some (b.account s shares work actual)
  | .upstream i a =>
    if autonomous a then ((b.upstream i).step a).map fun u => b.run i u else none
  | .tick ms => some { b with
      now := b.now + ms, upstream := fun i => { b.upstream i with now := b.now + ms } }

def start (maxLinks idleTimeout : ℕ) (expand : Bool) (now : ℕ) : Backend :=
  { maxLinks := maxLinks, idleTimeout := idleTimeout, expand := expand, now := now,
    upstream := fun _ => Upstream.start maxLinks idleTimeout expand now fun _ =>
      { hashrate := 1000, vardiff := VarDiff.new 1000 now } }

end Backend

end NMiner
