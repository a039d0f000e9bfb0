import NMiner.Spec.Edge

/-! UDP relayed through the primary: its `UdpRouter`, which pins every key to a worker, and the
`UdpEdge` of each worker, with a channel each way that keeps the order. What the router and the
workers write to the network is left out, and so is the time between a message and its batch. -/

namespace NMiner

abbrev WorkerId := ℕ

/-- A message of a worker about its edge: a text for a peer, or a key that it has dropped. -/
inductive Relayed
  | u (key : Key) (text : Text)
  | ux (key : Key)
  deriving DecidableEq, Repr

/-- What `relay` makes of an output of the edge. -/
def EdgeOutput.relayed : EdgeOutput → Option Relayed
  | .write key text => some (.u key text)
  | .frame _ key text => some (.u key text)
  | .dropped key => some (.ux key)
  | _ => none

/-- A `FleetChild` and its process, with the messages on their way. -/
structure Worker where
  /-- The process runs and is connected. -/
  alive : Bool := true
  load : ℕ := 0
  edge : UdpEdge := {}
  down : List (Key × Text) := []
  up : List Relayed := []

structure UdpRouter where
  workers : WorkerId → Worker := fun _ => {}
  spawned : ℕ := 0
  /-- The children whose exit has not been seen. -/
  roster : List WorkerId := []
  routes : Key → Option WorkerId := fun _ => none

inductive Action.Router
  /-- A datagram arrives at the socket of the primary. -/
  | inbound (key : Key) (text : Text)
  /-- A worker takes its next datagram. -/
  | receive (w : WorkerId) (privateHash : Text) (request : Option Request) (now : ℤ)
  /-- Another event at the edge of a worker. -/
  | edge (w : WorkerId) (a : Action.Udp)
  /-- The primary takes the next message of a worker. -/
  | message (w : WorkerId)
  /-- Connections come and go. -/
  | load (w : WorkerId) (n : ℕ)
  /-- A worker is killed or loses its channel. -/
  | lose (w : WorkerId)
  | exit (w : WorkerId)
  | spawn

namespace UdpRouter

open Function (update)

-- the salts that `generateHandshake` accepts
variable (valid : Text → Bool)

def live (s : UdpRouter) (w : WorkerId) : Bool := w ∈ s.roster ∧ (s.workers w).alive

def setWorker (s : UdpRouter) (w : WorkerId) (f : Worker → Worker) : UdpRouter :=
  { s with workers := update s.workers w (f (s.workers w)) }

def setRoute (s : UdpRouter) (key : Key) (w : Option WorkerId) : UdpRouter :=
  { s with routes := update s.routes key w }

/-- The loop of `pick`: the first of the live targets with the least load. -/
def least (s : UdpRouter) : Option WorkerId :=
  s.roster.foldl (fun pick target =>
    if (s.workers target).alive ∧ (pick.map fun w => (s.workers w).load).all
      (fun load => (s.workers target).load < load) then some target else pick) none

/-- The part of `pick` for a key that has no live owner. -/
def balance (s : UdpRouter) (key : Key) : Option WorkerId × UdpRouter :=
  match s.least with
  | none => (none, s)
  | some w =>
    (some w, (s.setRoute key (some w)).setWorker w fun worker =>
      { worker with load := worker.load + 1 })

def pick (s : UdpRouter) (key : Key) : Option WorkerId × UdpRouter :=
  match s.routes key with
  | none => s.balance key
  | some owner => if s.live owner then (some owner, s) else (s.setRoute key none).balance key

def inbound (s : UdpRouter) (key : Key) (text : Text) : UdpRouter :=
  match s.pick key with
  | (none, s) => s
  | (some w, s) => s.setWorker w fun worker => { worker with down := worker.down ++ [(key, text)] }

def forget (s : UdpRouter) (key : Key) : UdpRouter :=
  match s.routes key with
  | none => s
  | some w =>
    let s := s.setRoute key none
    if w ∈ s.roster then s.setWorker w fun worker => { worker with load := worker.load - 1 }
    else s

def evict (s : UdpRouter) (w : WorkerId) : UdpRouter :=
  { s with routes := fun key => if s.routes key = some w then none else s.routes key }

/-- The edge of a worker has taken a step. -/
def relay (s : UdpRouter) (w : WorkerId) (edge : UdpEdge) : UdpRouter :=
  s.setWorker w fun worker =>
    { worker with edge := edge, up := worker.up ++ edge.out.filterMap EdgeOutput.relayed }

def step (s : UdpRouter) : Action.Router → Option UdpRouter
  | .inbound key text => some (s.inbound key text)
  | .receive w privateHash request now =>
    match (s.workers w).down with
    | [] => none
    | (key, text) :: down =>
      if s.live w then
        let s := s.setWorker w fun worker => { worker with down := down }
        ((s.workers w).edge.step valid (.receive key text privateHash request now)).map (s.relay w)
      else none
  | .edge w a => match a with
    | .receive _ _ _ _ _ => none
    | a => if s.live w then ((s.workers w).edge.step valid a).map (s.relay w) else none
  | .message w => match (s.workers w).up with
    | [] => none
    | m :: up =>
      let s := s.setWorker w fun worker => { worker with up := up }
      match m with
      | .u _ _ => some s
      | .ux key => some (s.forget key)
  | .load w n => some (s.setWorker w fun worker => { worker with load := n })
  | .lose w => some (s.setWorker w fun worker => { worker with alive := false })
  | .exit w =>
    if w ∈ s.roster then
      let s := s.setWorker w fun worker => { worker with alive := false }
      some ({ s with roster := s.roster.erase w }.evict w)
    else none
  | .spawn =>
    some { s with
      workers := update s.workers s.spawned {}, spawned := s.spawned + 1
      roster := s.roster ++ [s.spawned] }

end UdpRouter

end NMiner
