import NMiner.Spec.Router

/-! The fleet of workers and what the primary counts of them: the sockets that `dispatch` hands on,
the peers that the UDP edges of the workers report, and the routes of the relay. Each channel keeps
its order; one of them carries what a worker reports, another its relayed messages. -/

namespace NMiner

abbrev SocketId := ℕ

inductive Note
  | on
  | off
  deriving DecidableEq, Repr

/-- What `joined` and `left` of a worker's own router make of an output of its edge. -/
def EdgeOutput.note : EdgeOutput → Option Note
  | .joined _ => some .on
  | .left _ => some .off
  | _ => none

/-- The connections of a worker. -/
structure Dock where
  /-- The sockets of the `conn` messages on their way. -/
  transit : List SocketId := []
  /-- The sockets that the worker has accepted and that have not closed. -/
  sockets : List SocketId := []
  /-- The edge of the worker's own router. -/
  edge : UdpEdge := {}
  notes : List Note := []
  /-- The `conn` messages that came without their socket. Nothing reads it. -/
  lost : ℕ := 0

structure Fleet where
  router : UdpRouter := {}
  docks : WorkerId → Dock := fun _ => {}
  /-- The sockets that wait for a worker. -/
  pending : List SocketId := []
  arrived : ℕ := 0

inductive Action.Fleet
  /-- A socket arrives. -/
  | dispatch
  /-- A socket closes that waits for a worker. -/
  | abandon (socket : SocketId)
  /-- A `conn` message cannot be sent. -/
  | failed (w : WorkerId) (socket : SocketId)
  /-- A worker takes the next `conn` message, which has its handle or not. -/
  | conn (w : WorkerId) (handle : Bool)
  | closed (w : WorkerId) (socket : SocketId)
  /-- An event at the own edge of a worker. -/
  | own (w : WorkerId) (a : Action.Udp)
  /-- The primary takes the next `on` or `off` of a worker. -/
  | deliver (w : WorkerId)
  /-- An event of the relay. -/
  | relay (a : Action.Router)
  | spawn

namespace Fleet

open Function (update)

-- the salts that `generateHandshake` accepts
variable (valid : Text → Bool)

def PENDING_LIMIT : ℕ := 1024

def load (s : Fleet) (w : WorkerId) : ℕ := (s.router.workers w).load

def setLoad (s : Fleet) (w : WorkerId) (n : ℕ) : Fleet :=
  { s with router := s.router.setWorker w fun worker => { worker with load := n } }

def setDock (s : Fleet) (w : WorkerId) (f : Dock → Dock) : Fleet :=
  { s with docks := update s.docks w (f (s.docks w)) }

/-- `FleetChild.hand` of a child that is alive. -/
def hand (s : Fleet) (w : WorkerId) (socket : SocketId) : Fleet :=
  (s.setLoad w (s.load w + 1)).setDock w fun dock =>
    { dock with transit := dock.transit ++ [socket] }

def dispatch (s : Fleet) (socket : SocketId) : Fleet :=
  match s.router.least with
  | some w => s.hand w socket
  | none =>
    if s.pending.length ≥ PENDING_LIMIT then s else { s with pending := s.pending ++ [socket] }

/-- `Fleet.deliver` for a message that counts. -/
def count (s : Fleet) (w : WorkerId) : Note → Fleet
  | .on => s.setLoad w (s.load w + 1)
  | .off => s.setLoad w (s.load w - 1)

/-- `Fleet.spawn`. -/
def spawn (s : Fleet) : Fleet :=
  let w := s.router.spawned
  let router := { s.router with
    workers := update s.router.workers w {}, spawned := w + 1, roster := s.router.roster ++ [w] }
  let s := { s with router := router, docks := update s.docks w {} }
  s.pending.foldl (fun s socket => s.hand w socket) { s with pending := [] }

def step (s : Fleet) : Action.Fleet → Option Fleet
  | .dispatch => some ({ s with arrived := s.arrived + 1 }.dispatch s.arrived)
  | .abandon socket =>
    if socket ∈ s.pending then some { s with pending := s.pending.erase socket } else none
  | .failed w socket =>
    if socket ∈ (s.docks w).transit then
      some ((s.setLoad w (s.load w - 1)).setDock w fun dock =>
        { dock with transit := dock.transit.erase socket })
    else none
  | .conn w handle => match (s.docks w).transit with
    | [] => none
    | socket :: transit =>
      if s.router.live w then
        some (s.setDock w fun dock =>
          if handle then { dock with transit := transit, sockets := dock.sockets ++ [socket] }
          else { dock with transit := transit, lost := dock.lost + 1 })
      else none
  | .closed w socket =>
    if s.router.live w ∧ socket ∈ (s.docks w).sockets then
      some (s.setDock w fun dock =>
        { dock with sockets := dock.sockets.erase socket, notes := dock.notes ++ [.off] })
    else none
  | .own w a =>
    if s.router.live w then ((s.docks w).edge.step valid a).map fun edge =>
      s.setDock w fun dock =>
        { dock with edge := edge, notes := dock.notes ++ edge.out.filterMap EdgeOutput.note }
    else none
  | .deliver w => match (s.docks w).notes with
    | [] => none
    | note :: notes => some ((s.setDock w fun dock => { dock with notes := notes }).count w note)
  | .relay a => match a with
    | .load _ _ => none
    | .spawn => none
    | a => (s.router.step valid a).map fun router => { s with router := router }
  | .spawn => some s.spawn

end Fleet

end NMiner
