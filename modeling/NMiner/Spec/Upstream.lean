import NMiner.Lib.Transition
import NMiner.Spec.Link

/-! The operations of `Upstream`. An operation runs until it awaits; what is left of it is
a `Task` that `resume` continues once the awaited promise has settled, in any order.
The events of a link's socket and the sweep timer interleave freely with these. -/

namespace NMiner

namespace Upstream

/-! ### Picking a link -/

def usable (u : Upstream) (exclude : Option LinkId) : List LinkId :=
  u.links.filter fun l => exclude ≠ some l && (u.link l).usable

/-- The first link with the most headroom. -/
def roomiest (u : Upstream) (ls : List LinkId) : Option LinkId :=
  ls.foldl (fun r l => match r with
    | none => some l
    | some m => if (u.link l).headroom > (u.link m).headroom then some l else some m) none

/-- The first link with the least sufficient headroom. -/
def best (u : Upstream) (rate : ℚ) (ls : List LinkId) : Option LinkId :=
  ls.foldl (fun r l => if (u.link l).headroom < rate then r else match r with
    | none => some l
    | some m => if (u.link l).headroom < (u.link m).headroom then some l else some m) none

/-- A new link is being dialed, with the interval of the first link that has seen jobs. -/
def freshLink (u : Upstream) (k : Link) : Link :=
  match u.links.find? fun l => 0 < (u.link l).samples with
  | none => { k with opening := .dialing }
  | some l => { k with
      opening := .dialing, interval := (u.link l).interval, interval_hi := (u.link l).interval_hi }

def addLink (u : Upstream) : Upstream :=
  { u.setLink u.nextLink u.freshLink with
    links := u.links ++ [u.nextLink], nextLink := u.nextLink + 1 }

/-- One round of `pick`'s loop. -/
def pick (u : Upstream) (c : ClientId) (exclude : Option LinkId) : Phase × Upstream :=
  if u.closed then (.failed "Upstream is closed.", u)
  else
    let usable := u.usable exclude
    match u.best (u.rate c) usable with
    | some l => (.picked l, u)
    | none => match u.links.find? fun l => (u.link l).opening.connecting with
      | some l => (.waiting l, u)
      | none =>
        if u.maxLinks ≤ u.links.length then
          match u.roomiest usable with
          | some l => (.picked l, u)
          | none => (.failed ("Upstream link limit (" ++ toString u.maxLinks ++ ") reached."), u)
        else (.opening u.nextLink (u.roomiest usable), u.addLink)

def Goal.exclude : Goal → Option LinkId
  | .attach => none
  | .migrate source => some source

/-- Run an `attach` or a `migrate` up to its first `await`. -/
def launch (u : Upstream) (c : ClientId) (goal : Goal) (origin : Origin) : Upstream :=
  let (phase, u) := u.pick c (Goal.exclude goal)
  { u with tasks := u.tasks ++ [{ client := c, goal := goal, origin := origin, phase := phase }] }

def attach (u : Upstream) (c : ClientId) (origin : Origin) : Upstream :=
  launch { u with live := insert c u.live } c .attach origin

def migrate (u : Upstream) (l : LinkId) (c : ClientId) (origin : Origin) : Upstream :=
  u.launch c (.migrate l) origin

/-! ### Jobs -/

/-- The text of the error a target that does not decode is thrown with. -/
def DECODE_ERROR : String := "Attempt to access memory outside buffer bounds"

/-- The text of the error that reading the target of no job is thrown with. -/
def NULL_ERROR : String := "Cannot read properties of null (reading 'target')"

/-- What `payload` throws. -/
def payloadError (u : Upstream) (l : LinkId) : String :=
  if (u.link l).job.isSome then DECODE_ERROR else NULL_ERROR

/-- The fan-out of `accept`; `true` when a thrown error ends it. -/
def fanout (u : Upstream) (l : LinkId) : List ClientId → Bool × Upstream
  | [] => (false, u)
  | c :: cs => match u.grant l c with
    | (some g, u) => match u.payload l c g with
      | some (p, u) => fanout (u.emit (.job c p)) l cs
      | none => (true, u)
    | (none, u) => fanout (u.migrate l c .fanout) l cs

/-- The job interval as `accept` learns it, and the first sample shared with the links that
have none. -/
def observeInterval (u : Upstream) (l : LinkId) : Upstream :=
  let k := u.link l
  if k.job_at = 0 then u
  else
    let observed : ℚ := min MAX_INTERVAL (max MIN_INTERVAL ((u.now : ℚ) - k.job_at))
    if k.samples = 0 then
      let u := u.setLink l fun k => { k with
        samples := 1, interval := observed, interval_hi := observed }
      u.links.foldl (fun u m => if (u.link m).samples = 0 then
        u.setLink m fun k => { k with interval := observed, interval_hi := observed } else u) u
    else
      u.setLink l fun k => { k with
        samples := k.samples + 1, interval := k.interval * (7 / 10) + observed * (3 / 10),
        interval_hi := max observed (k.interval_hi * (9 / 10)) }

def setJob (u : Upstream) (l : LinkId) (job : StratumJob) : Upstream :=
  let slot := nicehashSlot job.blob
  u.setLink l fun k => { k with
    job := some job, job_at := u.now, slot := slot,
    space := if 0 < slot then nicehashSpace slot (if u.expand then k.extra else []) else fullSpace }

def accept (u : Upstream) (l : LinkId) (job : StratumJob) : Bool × Upstream :=
  let u := (u.observeInterval l).setJob l job
  u.fanout l (u.link l).clients

/-! ### Losing a link -/

/-- The slots no NiceHash link owns, dealt out to these links in turn. -/
def reslice (u : Upstream) : Upstream :=
  let nice := u.links.filter fun l => 0 < (u.link l).slot
  let owned := nice.map fun l => (u.link l).slot
  let free := ((List.range NICEHASH_SLOTS).map Int.ofNat).filter fun s => s ∉ owned
  nice.zipIdx.foldl (fun u (l, i) => u.setLink l fun k => { k with
    extra := if u.expand then
      (free.zipIdx.filter fun (_, j) => j % nice.length = i).map Prod.fst else [] }) u

def sever (u : Upstream) (l : LinkId) : Upstream :=
  let orphans := (u.link l).clients
  let u : Upstream := {
    u.setLink l (fun k => { k with job := none, socket := false, load := 0, clients := [] }) with
    links := u.links.erase l, homes := fun c => if c ∈ orphans then none else u.homes c }
  let u : Upstream := orphans.foldl (fun u c => u.attach c .rehome) u.reslice
  if u.links = [] ∧ u.live = ∅ then u.emit .retired else u

/-! ### Continuations -/

/-- `attach` once its link is picked. A thrown error detaches the miner. -/
def finishAttach (u : Upstream) (c : ClientId) : Except String LinkId →
    Except String Payload × Upstream
  | .error message => (.error message, u.detach c)
  | .ok l =>
    if c ∈ u.live then
      match (u.house l c).grant l c with
      | (some g, u) => match u.payload l c g with
        | some (p, u) => (.ok p, u)
        | none => (.error (u.payloadError l), u.detach c)
      | (none, u) => (.error "Upstream nonce space is exhausted.", u.detach c)
    else (.error "Miner detached before it was housed.", u.detach c)

/-- `migrate` once its link is picked: whether the miner moved, or a thrown error. -/
def finishMigrate (u : Upstream) (source : LinkId) (c : ClientId) : Except String LinkId →
    Except String Bool × Upstream
  | .error _ => (.ok false, u)
  | .ok l =>
    if c ∈ u.live then
      match ((u.evict c).house l c).grant l c with
      | (some g, u) => match u.payload l c g with
        | some (p, u) => (.ok true, u.emit (.job c p))
        | none => (.error (u.payloadError l), u)
      | (none, u) =>
        (.ok false, if (u.link source).socket then (u.evict c).house source c else u)
    else (.ok false, u)

/-- The reply of `chunk` to a miner that could not be moved. -/
def retryAfter (u : Upstream) (l : LinkId) : ChunkReply :=
  .retry_after (max 500 (jsRound ((u.link l).interval - ((u.now : ℚ) - (u.link l).job_at))))

def attachDone (u : Upstream) (c : ClientId) (origin : Origin) (r : Except String Payload) :
    Upstream :=
  match origin, r with
  | .login call, r => u.emit (.attached call r)
  | .rehome, .ok p => u.emit (.job c p)
  | .rehome, .error message => u.emit (.drop c message)
  | _, _ => u

def migrateDone (u : Upstream) (source : LinkId) (c : ClientId) (origin : Origin)
    (r : Except String Bool) : Upstream :=
  match origin, r with
  | .fanout, .ok false => u.emit (.drop c "Upstream nonce space is exhausted.")
  | .chunk call, .ok true => u.emit (.chunked call (.ok .migrated))
  | .chunk call, .ok false => u.emit (.chunked call (.ok (u.retryAfter source)))
  | .chunk call, .error message => u.emit (.chunked call (.error message))
  | _, _ => u

def finish (u : Upstream) (t : Task) (r : Except String LinkId) : Upstream :=
  match t.goal with
  | .attach =>
    let (r, u) := u.finishAttach t.client r
    u.attachDone t.client t.origin r
  | .migrate source =>
    let (r, u) := u.finishMigrate source t.client r
    u.migrateDone source t.client t.origin r

def setPhase (u : Upstream) (i : ℕ) (t : Task) (phase : Phase) : Upstream :=
  { u with tasks := u.tasks.set i { t with phase := phase } }

/-- Continue the `i`th suspended call, unless what it awaits is still pending. -/
def resume (u : Upstream) (i : ℕ) : Option Upstream :=
  u.tasks[i]?.bind fun t => match t.phase with
    | .waiting l =>
      if (u.link l).opening.connecting then none
      else
        let (phase, u) := u.pick t.client (Goal.exclude t.goal)
        some (u.setPhase i t phase)
    | .opening l roomiest => match (u.link l).opening with
      | .up => some (u.reslice.setPhase i t (.picked l))
      | .failed message =>
        some (setPhase { u with links := u.links.erase l } i t
          (match roomiest with
            | some m => .picked m
            | none => .failed message))
      | _ => none
    | .picked l => some (finish { u with tasks := u.tasks.eraseIdx i } t (.ok l))
    | .failed message => some (finish { u with tasks := u.tasks.eraseIdx i } t (.error message))

/-! ### Requests -/

def chunk (u : Upstream) (call : ℕ) (c : ClientId) (job_id : String) : Upstream :=
  match u.homes c with
  | none => u.emit (.chunked call (.ok (.retry_after 2000)))
  | some l => match (u.link l).job with
    | none => u.emit (.chunked call (.ok (.retry_after 2000)))
    | some job =>
      if job.job_id ≠ job_id then u.emit (.chunked call (.ok .job_expired))
      else match u.grant l c with
        | (some g, u) => u.emit (.chunked call (.ok (.range g)))
        | (none, u) => u.migrate l c (.chunk call)

/-- The slot byte of the nonce is not the link's own. -/
def isStray (u : Upstream) (l : LinkId) (nonce : String) : Bool :=
  u.expand && 0 < (u.link l).slot && 8 ≤ (HexText.codeUnits nonce).length &&
    parseByte nonce 6 ≠ some (u.link l).slot

/-- `submit` up to the pool's reply: the link it goes out on; `none` is a thrown error. -/
def submit (u : Upstream) (call : ℕ) (c : ClientId) (job_id nonce result : String) :
    Option (LinkId × Upstream) :=
  (u.homes c).bind fun l =>
    if (u.link l).socket then
      let u := if u.isStray l nonce then { u with stray_shares := u.stray_shares + 1 } else u
      some (l, u.emit (.submitted call l job_id nonce result))
    else none

def narrow (u : Upstream) : Upstream :=
  if u.expand then
    u.links.foldl (fun u l => u.setLink l fun k => { k with extra := [] })
      { u with expand := false }
  else u

/-- The pool's rejection of a share. -/
def rejected (u : Upstream) (stray : Bool) : Upstream :=
  if stray then
    let u := { u with stray_rejects := u.stray_rejects + 1 }
    if STRAY_SAMPLE ≤ u.stray_rejects ∧ u.stray_shares ≤ u.stray_rejects * 2 then u.narrow else u
  else u

/-! ### The sweep -/

/-- Close the socket of a link, which severs it. -/
def hangUp (u : Upstream) (l : LinkId) : Upstream :=
  (u.setLink l fun k => { k with plug := .shut }).sever l

/-- Start migrations off a link until the excess is covered. -/
def shed (u : Upstream) (l : LinkId) (excess : ℚ) : List ClientId → Upstream
  | [] => u
  | c :: cs =>
    if excess ≤ 0 then u else shed (u.migrate l c .sweep) l (excess - u.rate c) cs

/-- How long a link without miners is kept. -/
def idleLimit (u : Upstream) : ℕ := if u.links.length = 1 then u.idleTimeout else IDLE_LINK_MS

def sweepLink (u : Upstream) (l : LinkId) : Upstream :=
  let k := u.link l
  if k.clients = [] then
    if k.idle_at = 0 then u.setLink l fun k => { k with idle_at := u.now }
    else if (u.idleLimit : ℤ) < (u.now : ℤ) - k.idle_at ∧ k.socket then u.hangUp l
    else u
  else
    (u.setLink l fun k => { k with idle_at := 0 }).shed l (-k.headroom) k.clients

/-- The first link with the least load. -/
def leastLoaded (u : Upstream) : List LinkId → Option LinkId
  | [] => none
  | l :: ls => some (ls.foldl (fun m l => if (u.link l).load < (u.link m).load then l else m) l)

def consolidate (u : Upstream) : Upstream :=
  if u.links.length < 2 then u
  else
    let staffed := u.links.filter fun l => (u.link l).job.isSome && (u.link l).clients ≠ []
    if staffed.length < 2 then u
    else
      let supply := (staffed.map fun l => (u.link l).capacity * SAFETY).sum
      let demand := (staffed.map fun l => (u.link l).load).sum
      match u.leastLoaded staffed with
      | none => u
      | some victim =>
        if supply - (u.link victim).capacity * SAFETY < demand * (12 / 10) then u
        else (u.link victim).clients.foldl (fun u c => u.migrate victim c .sweep) u

def rebalance (u : Upstream) : Upstream := (u.links.foldl sweepLink u).consolidate

/-! ### Sockets -/

/-- The outcome of `connect`. -/
def dialed (u : Upstream) (l : LinkId) : Except String Unit → Upstream
  | .error message => u.setLink l fun k => { k with opening := .failed message }
  | .ok _ => u.setLink l fun k => { k with opening := .login, plug := .live }

/-- The outcome of the pool login. -/
def loggedIn (u : Upstream) (l : LinkId) : Except String StratumJob → Upstream
  | .error message => u.setLink l fun k => { k with opening := .failed message, plug := .shut }
  | .ok job =>
    let u := u.setLink l fun k => { k with socket := true }
    if (u.link l).job.isSome then u.setLink l fun k => { k with opening := .up }
    else
      let (thrown, u) := u.accept l job
      u.setLink l fun k => { k with opening := if thrown then .failed DECODE_ERROR else .up }

/-- The text a login that is cut off is rejected with. -/
def CLOSED_ERROR : String := "Stratum connection closed before the request completed, ."

/-- The socket's `close` event; a login under way is rejected. -/
def lost (u : Upstream) (l : LinkId) : Upstream :=
  let pending := (u.link l).opening.connecting
  let u := u.hangUp l
  if pending then u.setLink l fun k => { k with opening := .failed CLOSED_ERROR } else u

def close (u : Upstream) : Upstream :=
  { u with
    closed := true, links := [], live := ∅, homes := fun _ => none, ledgers := fun _ => {},
    link := fun l => if l ∈ u.links ∧ (u.link l).socket then { u.link l with plug := .shut }
      else u.link l }

/-! ### Steps -/

inductive Action
  | attach (call : ℕ) (c : ClientId)
  | detach (c : ClientId)
  | report (c : ClientId) (hashrate : ℚ)
  | chunk (call : ℕ) (c : ClientId) (job_id : String)
  | submit (call : ℕ) (c : ClientId) (job_id nonce result : String)
  | rejected (stray : Bool)
  | resume (i : ℕ)
  | dialed (l : LinkId) (outcome : Except String Unit)
  | loggedIn (l : LinkId) (outcome : Except String StratumJob)
  | job (l : LinkId) (job : StratumJob)
  | lost (l : LinkId)
  | rebalance
  | tick (ms : ℕ)
  | close

/-- One event. A job may arrive as soon as the socket has its listeners. -/
def step (u : Upstream) : Action → Option Upstream
  | .attach call c => some (u.attach c (.login call))
  | .detach c => some (u.detach c)
  | .report c hashrate => some (u.report c hashrate)
  | .chunk call c job_id => some (u.chunk call c job_id)
  | .submit call c job_id nonce result => (u.submit call c job_id nonce result).map Prod.snd
  | .rejected stray => some (u.rejected stray)
  | .resume i => u.resume i
  | .dialed l outcome => if (u.link l).opening = .dialing then some (u.dialed l outcome) else none
  | .loggedIn l outcome =>
    if (u.link l).opening = .login then some (u.loggedIn l outcome) else none
  | .job l job => if (u.link l).plug = .absent then none else some (u.accept l job).2
  | .lost l => if (u.link l).plug = .live then some (u.lost l) else none
  | .rebalance => if u.closed then none else some u.rebalance
  | .tick ms => some { u with now := u.now + ms }
  | .close => some u.close

/-- A new `Upstream` for clients that will attach. -/
def start (maxLinks idleTimeout : ℕ) (expand : Bool) (now : ℕ)
    (client : ClientId → Client) : Upstream :=
  { maxLinks := maxLinks, idleTimeout := idleTimeout, expand := expand,
    now := now, client := client }

end Upstream

end NMiner
