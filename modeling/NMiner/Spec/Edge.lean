import NMiner.Spec.Datagram

/-! `UdpEdge`: the peers of a UDP listener by their `address:port`. A peer is an object that its
callbacks hold on to after it has left the table; the objects are numbered as they are made. What
the backend and the cipher make of a text is part of the step, and so is the time. -/

namespace NMiner

/-- `address:port`. -/
abbrev Key := String

/-- A peer, and its session. -/
abbrev PeerId := ℕ

def RESET : Char := '0'

def HELLO : Char := '1'

def WELCOME : Char := '2'

def MAX_PAYLOAD : ℕ := 60000

def PEER_TIMEOUT : ℤ := 5 * 60000

structure Peer where
  key : Key := ""
  seen : ℤ := 0
  salt : Text := []
  link : Datagram := {}
  welcome : Text := []
  logged : Bool := false
  /-- `greet` has put another peer in its place. Nothing reads it. -/
  supplanted : Bool := false

/-- What `handle` finds in a payload: whether the call has an `id`, and whether it is a login. -/
structure Request where
  id : Bool
  login : Bool
  deriving DecidableEq, Repr

/-- What the edge tells the others. -/
inductive EdgeOutput
  | write (key : Key) (text : Text)
  /-- A `DATA` text of the link of a peer. -/
  | frame (peer : PeerId) (key : Key) (text : Text)
  | dropped (key : Key)
  | joined (key : Key)
  | left (key : Key)
  /-- `backend.close`. -/
  | closed (session : PeerId)
  deriving DecidableEq, Repr

structure UdpEdge where
  peers : Key → Option PeerId := fun _ => none
  objects : PeerId → Peer := fun _ => {}
  created : ℕ := 0
  /-- The links in the waiting set of `udp.ts`. -/
  waiting : List PeerId := []
  /-- The calls of `handle` that await the backend. -/
  calls : List (PeerId × Request) := []
  /-- The timers of `kill`. -/
  kills : List PeerId := []
  /-- The outputs of the last step. -/
  out : List EdgeOutput := []

inductive Action.Udp
  /-- A text arrives. `privateHash` is the answer to a salt, and `request` what a payload asks,
  `none` when it cannot be read. -/
  | receive (key : Key) (text privateHash : Text) (request : Option Request) (now : ℤ)
  /-- The backend answers a call with a text, or refuses it with one. -/
  | resolve (k : ℕ) (text : Text) (now : ℤ)
  | reject (k : ℕ) (text : Text) (now : ℤ)
  | push (p : PeerId) (text : Text) (now : ℤ)
  | kill (p : PeerId) (text : Text) (now : ℤ)
  /-- A timer of `kill` fires. -/
  | expire (k : ℕ)
  /-- One turn of the loop of `retransmit`. -/
  | resend (p : PeerId) (now : ℤ)
  | sweep (now : ℤ)
  | close
  deriving DecidableEq, Repr

namespace UdpEdge

open Function (update)

-- the salts that `generateHandshake` accepts
variable (valid : Text → Bool)

def emit (s : UdpEdge) (o : EdgeOutput) : UdpEdge := { s with out := s.out ++ [o] }

def setPeer (s : UdpEdge) (p : PeerId) (f : Peer → Peer) : UdpEdge :=
  { s with objects := update s.objects p (f (s.objects p)) }

def setOutbox (s : UdpEdge) (p : PeerId) (outbox : List OutboxEntry) : UdpEdge :=
  s.setPeer p fun peer => { peer with link := { peer.link with outbox := outbox } }

/-- `waiting.delete`. -/
def release (s : UdpEdge) (p : PeerId) : UdpEdge :=
  { s with waiting := s.waiting.filter (· ≠ p) }

/-- `waiting.add`. -/
def await (s : UdpEdge) (p : PeerId) : UdpEdge :=
  if p ∈ s.waiting then s else { s with waiting := s.waiting ++ [p] }

/-- `Datagram.stop`. -/
def stop (s : UdpEdge) (p : PeerId) : UdpEdge := (s.release p).setOutbox p []

/-- `Datagram.send`. -/
def send (s : UdpEdge) (p : PeerId) (payload : Text) (now : ℤ) : UdpEdge :=
  let (link, text) := (s.objects p).link.send payload now
  ((s.setPeer p fun peer => { peer with link := link }).emit
    (.frame p (s.objects p).key text)).await p

def discard (s : UdpEdge) (key : Key) (notify : Bool) : UdpEdge :=
  let s := if notify then s.emit (.dropped key) else s
  match s.peers key with
  | none => s
  | some p =>
    (({ s with peers := update s.peers key none }.emit (.left key)).stop p).emit (.closed p)

def drop (s : UdpEdge) (key : Key) : UdpEdge := s.discard key true

/-- The part of `greet` that makes a peer. -/
def join (s : UdpEdge) (key : Key) (salt privateHash : Text) (now : ℤ) : UdpEdge :=
  let peer : Peer := { key := key, salt := salt, welcome := privateHash, seen := now }
  let s : UdpEdge := { s with
    objects := update s.objects s.created peer, peers := update s.peers key (some s.created)
    created := s.created + 1 }
  (s.emit (.joined key)).emit (.write key (WELCOME :: privateHash))

def supplant (s : UdpEdge) (key : Key) : UdpEdge :=
  match s.peers key with
  | none => s
  | some p => s.setPeer p fun peer => { peer with supplanted := true }

/-- The peer under the key has been greeted with the same salt. -/
def known (s : UdpEdge) (key : Key) (salt : Text) : Option PeerId :=
  (s.peers key).filter fun p => (s.objects p).salt = salt

def greet (s : UdpEdge) (key : Key) (salt privateHash : Text) (now : ℤ) : UdpEdge :=
  if salt.length < 64 then s
  else match s.known key salt with
    | some p =>
      (s.setPeer p fun peer => { peer with seen := now }).emit
        (.write key (WELCOME :: (s.objects p).welcome))
    | none =>
      if valid salt then ((s.supplant key).discard key false).join key salt privateHash now
      else s

def deliver (s : UdpEdge) (p : PeerId) (text : Text) (now : ℤ) : UdpEdge :=
  if text.length > MAX_PAYLOAD then s else s.send p text now

/-- `handle`, up to where it awaits the backend. -/
def handle (s : UdpEdge) (p : PeerId) : Option Request → UdpEdge
  | none => if (s.objects p).logged then s else s.drop (s.objects p).key
  | some request => { s with calls := s.calls ++ [(p, request)] }

/-- `Datagram.receive`. -/
def heard (s : UdpEdge) (p : PeerId) (text : Text) (request : Option Request) : UdpEdge :=
  if text.head? = some ACK then
    match parseInt36 (text.drop 1) with
    | none => s
    | some seq =>
      let outbox := (s.objects p).link.outbox
      let rest := outbox.filter (·.seq ≠ seq)
      let acked := s.setOutbox p rest
      if outbox.any (·.seq = seq) ∧ rest = [] then acked.release p else acked
  else match dataOf text with
    | none => s
    | some (seq, _) =>
      let acked := s.emit (.write (s.objects p).key (ackText seq))
      if seq ∈ (s.objects p).link.seen then acked
      else (acked.setPeer p fun peer =>
        { peer with link := peer.link.accept seq }).handle p request

def receive (s : UdpEdge) (key : Key) (text privateHash : Text) (request : Option Request)
    (now : ℤ) : UdpEdge :=
  if text.head? = some HELLO then
    let s := s.greet valid key (text.drop 1) privateHash now
    if (s.peers key).isNone then s.emit (.dropped key) else s
  else if text = [] ∨ text.head? = some RESET then s.drop key
  else match s.peers key with
    | none => (s.emit (.write key [RESET])).drop key
    | some p => (s.setPeer p fun peer => { peer with seen := now }).heard p text request

/-- `handle`, when the backend has answered. -/
def resolved (s : UdpEdge) (p : PeerId) (request : Request) (text : Text) (now : ℤ) : UdpEdge :=
  (if request.login then s.setPeer p fun peer => { peer with logged := true } else s).deliver p
    text now

/-- The `catch` of `handle`, when the backend has refused. -/
def rejected (s : UdpEdge) (p : PeerId) (request : Request) (text : Text) (now : ℤ) : UdpEdge :=
  let s := if request.id then s.deliver p text now else s
  if (s.objects p).logged then s else s.drop (s.objects p).key

/-- `Datagram.resend`. -/
def resend (s : UdpEdge) (p : PeerId) (now : ℤ) : UdpEdge :=
  let (outbox, written, dead) := Datagram.resend now (s.objects p).link.outbox
  let resent : UdpEdge := { s.setOutbox p outbox with
    out := s.out ++ written.map (.frame p (s.objects p).key) }
  if dead then (resent.release p).drop (s.objects p).key
  else if outbox = [] then resent.release p
  else resent

/-- The peers in the table, in the order in which they came. -/
def present (s : UdpEdge) : List PeerId :=
  (List.range s.created).filter fun p => s.peers (s.objects p).key = some p

def sweep (s : UdpEdge) (now : ℤ) : UdpEdge :=
  let stale := s.present.filter fun p => (s.objects p).seen < now - PEER_TIMEOUT
  (stale.map fun p => (s.objects p).key).foldl drop s

def step (s : UdpEdge) (a : Action.Udp) : Option UdpEdge :=
  let s := { s with out := [] }
  match a with
  | .receive key text privateHash request now =>
    some (s.receive valid key text privateHash request now)
  | .resolve k text now => s.calls[k]?.map fun (p, request) =>
    { s with calls := s.calls.eraseIdx k }.resolved p request text now
  | .reject k text now => s.calls[k]?.map fun (p, request) =>
    { s with calls := s.calls.eraseIdx k }.rejected p request text now
  | .push p text now => if p < s.created then some (s.deliver p text now) else none
  | .kill p text now =>
    if p < s.created then
      let s := s.deliver p text now
      some { s with kills := s.kills ++ [p] }
    else none
  | .expire k => s.kills[k]?.map fun p =>
    { s with kills := s.kills.eraseIdx k }.drop (s.objects p).key
  | .resend p now => if p ∈ s.waiting then some (s.resend p now) else none
  | .sweep now => some (s.sweep now)
  | .close => some ((s.present.map fun p => (s.objects p).key).foldl drop s)

end UdpEdge

end NMiner
