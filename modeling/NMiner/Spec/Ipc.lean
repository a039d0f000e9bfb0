import NMiner.Spec.Fleet

/-! The messages between the primary and its workers: `FleetChild` and `WorkerLink` of `fleet.ts`
gather what is sent in one tick, and a FIFO channel between the processes carries it in envelopes,
which the other side unpacks. A packet is a value of the channel by its `t` and the other fields. -/

namespace NMiner

def BATCH_LIMIT : ℕ := 256

inductive Packet (β : Type)
  | tagged (t : String) (fields : Option β)
  /-- `{ t: "batch", b }` with an array. -/
  | batch (b : List (Packet β))

/-- What the primary sends. -/
inductive DownKind
  | udp
  | u
  | j
  | k
  | r
  deriving DecidableEq, Repr

def DownKind.tag : DownKind → String
  | .udp => "udp"
  | .u => "u"
  | .j => "j"
  | .k => "k"
  | .r => "r"

/-- What a worker sends. -/
inductive UpKind
  | log
  | u
  | ux
  | on
  | off
  | login
  | chunk
  | submit
  | sub
  | acc
  | bye
  deriving DecidableEq, Repr

def UpKind.tag : UpKind → String
  | .log => "log"
  | .u => "u"
  | .ux => "ux"
  | .on => "on"
  | .off => "off"
  | .login => "login"
  | .chunk => "chunk"
  | .submit => "submit"
  | .sub => "sub"
  | .acc => "acc"
  | .bye => "bye"

/-- What `Fleet.deliver` does with a message. -/
inductive Upcall (β : Type)
  /-- `child.load++`. -/
  | on
  /-- `child.load` is one less. -/
  | off
  | emit (fields : Option β)
  | onMessage (t : String) (fields : Option β)

/-- What the handlers of a `WorkerLink` are called with. -/
structure Downcall (β : Type) where
  t : String
  fields : Option β
  handle : Option SocketId

mutual

/-- `Fleet.deliver`. -/
def Packet.toPrimary {β : Type} : Packet β → List (Upcall β)
  | .tagged t fields =>
    if t = "on" then [.on]
    else if t = "off" then [.off]
    else if t = "log" then [.emit fields]
    else if t = "batch" then []
    else [.onMessage t fields]
  | .batch b => Packet.allToPrimary b

def Packet.allToPrimary {β : Type} : List (Packet β) → List (Upcall β)
  | [] => []
  | message :: rest => message.toPrimary ++ Packet.allToPrimary rest

end

mutual

/-- `WorkerLink.deliver`. -/
def Packet.toWorker {β : Type} (handle : Option SocketId) : Packet β → List (Downcall β)
  | .tagged t fields => [⟨t, fields, handle⟩]
  | .batch b => Packet.allToWorker b

def Packet.allToWorker {β : Type} : List (Packet β) → List (Downcall β)
  | [] => []
  | message :: rest => message.toWorker none ++ Packet.allToWorker rest

end

/-- One of the two directions: the kinds of messages, whether sockets are handed along, and what the
other side makes of a packet. -/
structure Direction (κ β ρ : Type) where
  tag : κ → String
  hands : Bool
  deliver : Packet β → Option SocketId → List ρ

/-- From a `FleetChild` to the `WorkerLink` of its process. -/
def down (β : Type) : Direction DownKind β (Downcall β) :=
  ⟨DownKind.tag, true, fun raw handle => raw.toWorker handle⟩

/-- From the `WorkerLink` of a process to the `Fleet`. -/
def up (β : Type) : Direction UpKind β (Upcall β) := ⟨UpKind.tag, false, fun raw _ => raw.toPrimary⟩

structure Pipe (κ β ρ : Type) where
  /-- `alive` of a `FleetChild`, `process.connected` of a worker. -/
  connected : Bool := true
  queue : List (κ × Option β) := []
  flushing : Bool := false
  /-- The pumps that `setImmediate` is still to run. -/
  immediates : ℕ := 0
  /-- What is on its way to the other process. -/
  channel : List (Packet β × Option SocketId) := []
  /-- What the other side has made of the packets it got. -/
  received : List ρ := []

inductive Action.Pipe (κ β : Type)
  | send (message : κ × Option β)
  | pump
  | hand (socket : SocketId)
  /-- The other side takes the next packet, with the handle that came with it or not. -/
  | deliver (handle : Bool)
  | disconnect

/-- What `send` is called with. -/
def Action.Pipe.messages {κ β : Type} : Action.Pipe κ β → List (κ × Option β)
  | .send message => [message]
  | _ => []

namespace Pipe

variable {κ β ρ : Type} (dir : Direction κ β ρ)

def raw (message : κ × Option β) : Packet β := .tagged (dir.tag message.1) message.2

/-- `batch.length === 1 ? batch[0] : { t: "batch", b: batch }`. -/
def envelope : List (κ × Option β) → Packet β
  | [message] => raw dir message
  | batch => .batch (batch.map (raw dir))

def flush (p : Pipe κ β ρ) : Pipe κ β ρ :=
  if p.queue.length = 0 then p
  else if p.connected then
    { p with queue := [], channel := p.channel ++ [(envelope dir p.queue, none)] }
  else { p with queue := [] }

def send (p : Pipe κ β ρ) (message : κ × Option β) : Pipe κ β ρ :=
  if !p.connected then p
  else
    let p := { p with queue := p.queue ++ [message] }
    if p.queue.length ≥ BATCH_LIMIT then p.flush dir
    else if p.flushing then p
    else { p with flushing := true, immediates := p.immediates + 1 }

def pump (p : Pipe κ β ρ) : Pipe κ β ρ := { p with flushing := false }.flush dir

/-- `hand`, as far as the channel goes. -/
def hand (p : Pipe κ β ρ) (socket : SocketId) : Pipe κ β ρ :=
  if !p.connected then p
  else { p with channel := p.channel ++ [(.tagged "conn" none, some socket)] }

def step (p : Pipe κ β ρ) : Action.Pipe κ β → Option (Pipe κ β ρ)
  | .send message => some (p.send dir message)
  | .pump =>
    if p.immediates = 0 then none
    else some ({ p with immediates := p.immediates - 1 }.pump dir)
  | .hand socket => if dir.hands then some (p.hand socket) else none
  | .deliver handle => match p.channel with
    | [] => none
    | (raw, socket) :: channel => some { p with
        channel := channel
        received := p.received ++ dir.deliver raw (if handle then socket else none) }
  | .disconnect => some { p with connected := false }

end Pipe

end NMiner
