import NMiner.Lib.Numeral

/-! The datagram links of `udp.ts`: the two endpoints of every session, the processes whose links
share one waiting set and one sweeper, and a network that keeps each text ever written and hands
over any of them at any time. A sequence number is an integer here, as no session sends `2^53`
payloads. -/

namespace NMiner

/-- A string, by its characters. -/
abbrev Text := List Char

def DATA : Char := '3'

def ACK : Char := '4'

def RETRIES : ℕ := 5

def RETRY_MS : ℤ := 700

def SEEN_WINDOW : ℕ := 256

/-- The digits of `toString(36)` and of `parseInt(_, 36)`. -/
def base36 : Numeral where
  base := 36
  digit d :=
    if d < 10 then Char.ofNat ('0'.toNat + d) else Char.ofNat ('a'.toNat + (d - 10))
  value c :=
    if '0' ≤ c ∧ c ≤ '9' then some (c.toNat - '0'.toNat)
    else if 'a' ≤ c ∧ c ≤ 'z' then some (c.toNat - 'a'.toNat + 10)
    else if 'A' ≤ c ∧ c ≤ 'Z' then some (c.toNat - 'A'.toNat + 10)
    else none
  one_lt_base := by decide
  value_digit := by decide

def toString36 (n : ℤ) : Text :=
  if n < 0 then '-' :: base36.text n.natAbs else base36.text n.natAbs

/-- The white space that `parseInt` skips. -/
def isSpace (c : Char) : Bool :=
  c.toNat ∈ [9, 10, 11, 12, 13, 32, 0xA0, 0x1680, 0x2028, 0x2029, 0x202F, 0x205F, 0x3000, 0xFEFF] ||
    (0x2000 ≤ c.toNat && c.toNat ≤ 0x200A)

/-- `parseInt(text, 36)`; `none` is `NaN`. -/
def parseInt36 (text : Text) : Option ℤ :=
  match text.dropWhile isSpace with
  | '-' :: digits => (base36.parse digits).map fun n : ℕ => -(n : ℤ)
  | '+' :: digits => (base36.parse digits).map Int.ofNat
  | digits => (base36.parse digits).map Int.ofNat

def dataText (seq : ℤ) (payload : Text) : Text := DATA :: (toString36 seq ++ ':' :: payload)

def ackText (seq : ℤ) : Text := ACK :: toString36 seq

/-- The number and the payload of a `DATA` text, if `receive` gets as far as these. -/
def dataOf (text : Text) : Option (ℤ × Text) :=
  if text.head? ≠ some DATA ∨ ':' ∉ text then none
  else
    let at_ := text.idxOf ':'
    (parseInt36 ((text.take at_).drop 1)).map fun seq => (seq, text.drop (at_ + 1))

/-- `parseInt(text, 36)` of an engine that has no exact value for every number of many digits:
`round` is the value it takes, `none` an infinite one. What is not finite is `none`, as is `NaN`. -/
def roundedInt36 (round : ℕ → Option ℕ) (text : Text) : Option ℤ :=
  match text.dropWhile isSpace with
  | '-' :: digits => ((base36.parse digits).bind round).map fun n : ℕ => -(n : ℤ)
  | '+' :: digits => ((base36.parse digits).bind round).map Int.ofNat
  | digits => ((base36.parse digits).bind round).map Int.ofNat

/-- `dataOf` of such an engine. -/
def roundedDataOf (round : ℕ → Option ℕ) (text : Text) : Option (ℤ × Text) :=
  if text.head? ≠ some DATA ∨ ':' ∉ text then none
  else
    let at_ := text.idxOf ':'
    (roundedInt36 round ((text.take at_).drop 1)).map fun seq => (seq, text.drop (at_ + 1))

structure OutboxEntry where
  seq : ℤ
  text : Text
  tries : ℕ
  due : ℤ
  deriving DecidableEq, Repr

structure Datagram where
  seq : ℤ := 0
  at_ : ℕ := 0
  seen : Finset ℤ := ∅
  ring : List ℤ := List.replicate SEEN_WINDOW (-1)
  outbox : List OutboxEntry := []

namespace Datagram

/-- `send`, with the text that it writes. -/
def send (d : Datagram) (payload : Text) (now : ℤ) : Datagram × Text :=
  let seq := d.seq + 1
  let text := dataText seq payload
  ({ d with seq := seq, outbox := d.outbox ++ [⟨seq, text, 1, now + RETRY_MS⟩] }, text)

/-- The loop of `resend`: the outbox afterwards, the texts written, and whether the link is
declared dead. -/
def resend (now : ℤ) : List OutboxEntry → List OutboxEntry × List Text × Bool
  | [] => ([], [], false)
  | entry :: rest =>
    if entry.due > now then
      let (outbox, written, dead) := resend now rest
      (entry :: outbox, written, dead)
    else if entry.tries + 1 > RETRIES then (rest, [], true)
    else
      let (outbox, written, dead) := resend now rest
      ({ entry with tries := entry.tries + 1, due := now + RETRY_MS } :: outbox,
        entry.text :: written, dead)

/-- `receive` for a `DATA` text that carries a number not seen. -/
def accept (d : Datagram) (seq : ℤ) : Datagram :=
  let evicted := d.ring.getD d.at_ (-1)
  { d with
    seen := insert seq (if evicted ≥ 0 then d.seen.erase evicted else d.seen)
    ring := d.ring.set d.at_ seq
    at_ := (d.at_ + 1) % SEEN_WINDOW }

end Datagram

/-- One side of a session. -/
structure Endpoint (S : Type) where
  session : S
  client : Bool
  deriving DecidableEq, Repr

def Endpoint.peer {S : Type} (e : Endpoint S) : Endpoint S := { e with client := !e.client }

/-- The link of an endpoint, with all that it has written, sent, acknowledged and delivered. -/
structure Side where
  link : Datagram := {}
  /-- `resend` has declared the link dead. -/
  dead : Bool := false
  stopped : Bool := false
  /-- Every text written. -/
  wire : List Text := []
  /-- The payloads handed to `send`. -/
  sent : List Text := []
  /-- The numbers that an acknowledgement has taken out of the outbox. -/
  acked : List ℤ := []
  /-- The numbers of the `DATA` texts that arrived. -/
  arrived : List ℤ := []
  /-- The payloads handed to the handler, with their numbers. -/
  delivered : List (ℤ × Text) := []

namespace Side

def send (d : Side) (payload : Text) (now : ℤ) : Side :=
  let (link, text) := d.link.send payload now
  { d with link := link, wire := d.wire ++ [text] }

def stop (d : Side) : Side :=
  { d with link := { d.link with outbox := [] }, stopped := true }

/-- `resend`; what `dead` calls stops the link. -/
def resend (d : Side) (now : ℤ) : Side :=
  let (outbox, written, dead) := Datagram.resend now d.link.outbox
  let resent := { d with link := { d.link with outbox := outbox }, wire := d.wire ++ written }
  if dead then { resent.stop with dead := true } else resent

/-- `receive` for an `ACK` text; `outbox.delete` answers whether there was an entry. -/
def receiveAck (d : Side) (seq : ℤ) : Side :=
  if d.link.outbox.any (·.seq = seq) then
    { d with
      link := { d.link with outbox := d.link.outbox.filter (·.seq ≠ seq) }
      acked := d.acked ++ [seq] }
  else d

/-- `receive` for a `DATA` text. -/
def receiveData (d : Side) (seq : ℤ) (payload : Text) : Side :=
  let answered := { d with wire := d.wire ++ [ackText seq] }
  if seq ∈ d.link.seen then answered
  else
    { answered with link := d.link.accept seq, delivered := d.delivered ++ [(seq, payload)] }

/-- `receive`, and whether an acknowledgement has emptied the outbox. -/
def receive (d : Side) (text : Text) : Side × Bool :=
  if text.head? = some ACK then
    match parseInt36 (text.drop 1) with
    | some seq =>
      (d.receiveAck seq, d.link.outbox.any (·.seq = seq) ∧ (d.receiveAck seq).link.outbox = [])
    | none => (d, false)
  else match dataOf text with
    | some (seq, payload) => (d.receiveData seq payload, false)
    | none => (d, false)

/-- `receive` in an engine that rounds, for any text. -/
def hear (round : ℕ → Option ℕ) (d : Side) (text : Text) : Side :=
  if text.head? = some ACK then
    match roundedInt36 round (text.drop 1) with
    | some seq => d.receiveAck seq
    | none => d
  else match roundedDataOf round text with
    | some (seq, payload) => d.receiveData seq payload
    | none => d

/-- A payload is handed to `send`. -/
def handed (d : Side) (payload : Text) : Side := { d with sent := d.sent ++ [payload] }

/-- A text arrives. -/
def heard (d : Side) (text : Text) : Side :=
  { d with arrived := d.arrived ++ (dataOf text).toList.map Prod.fst }

inductive Event
  | receive (text : Text)
  | send (payload : Text) (now : ℤ)
  | resend (now : ℤ)
  | stop

/-- One call of the link, by whoever has it. -/
def step (round : ℕ → Option ℕ) (d : Side) : Event → Option Side
  | .receive text => some (d.hear round text)
  | .send payload now => some (d.send payload now)
  | .resend now => some (d.resend now)
  | .stop => some d.stop

end Side

structure World (S P : Type) where
  sides : Endpoint S → Side := fun _ => {}
  /-- The links of each process that are in its waiting set. -/
  waiting : P → List (Endpoint S) := fun _ => []
  /-- Whether the interval timer of the process is armed. -/
  sweeper : P → Bool := fun _ => false

inductive Action.Datagram (S P : Type)
  | send (e : Endpoint S) (payload : Text) (now : ℤ)
  /-- The interval timer of a process fires. -/
  | sweep (p : P) (now : ℤ)
  /-- Some text that the peer has written arrives; the others may be late or lost, and this one
  may arrive again. -/
  | arrive (e : Endpoint S) (text : Text)
  | stop (e : Endpoint S)

namespace World

open Function (update)

variable {S P : Type} [DecidableEq S] [DecidableEq P] (proc : Endpoint S → P)

def setSide (w : World S P) (e : Endpoint S) (d : Side) : World S P :=
  { w with sides := update w.sides e d }

/-- `waiting.add`. -/
def await (w : World S P) (e : Endpoint S) : World S P :=
  if e ∈ w.waiting (proc e) then w
  else { w with waiting := update w.waiting (proc e) (w.waiting (proc e) ++ [e]) }

/-- `waiting.delete`. -/
def release (w : World S P) (e : Endpoint S) : World S P :=
  { w with waiting := update w.waiting (proc e) ((w.waiting (proc e)).filter (· ≠ e)) }

def arm (w : World S P) (p : P) (armed : Bool) : World S P :=
  { w with sweeper := update w.sweeper p armed }

def send (w : World S P) (e : Endpoint S) (payload : Text) (now : ℤ) : World S P :=
  ((w.setSide e ((w.sides e).send payload now)).await proc e).arm (proc e) true

def stop (w : World S P) (e : Endpoint S) : World S P :=
  (w.setSide e (w.sides e).stop).release proc e

/-- `resend` of the link of an endpoint; a link that is declared dead has no outbox left. -/
def resend (w : World S P) (e : Endpoint S) (now : ℤ) : World S P :=
  let d := (w.sides e).resend now
  if d.link.outbox = [] then (w.setSide e d).release proc e else w.setSide e d

def retransmit (w : World S P) (p : P) (now : ℤ) : World S P :=
  let w := (w.waiting p).foldl (fun w e => w.resend proc e now) w
  if w.waiting p = [] then w.arm p false else w

def receive (w : World S P) (e : Endpoint S) (text : Text) : World S P :=
  let (d, emptied) := (w.sides e).receive text
  if emptied then (w.setSide e d).release proc e else w.setSide e d

def step (w : World S P) : Action.Datagram S P → Option (World S P)
  | .send e payload now =>
    some ((w.setSide e ((w.sides e).handed payload)).send proc e payload now)
  | .sweep p now => if w.sweeper p then some (w.retransmit proc p now) else none
  | .arrive e text =>
    if text ∈ (w.sides e.peer).wire then
      some ((w.setSide e ((w.sides e).heard text)).receive proc e text)
    else none
  | .stop e => some (w.stop proc e)

end World

end NMiner
