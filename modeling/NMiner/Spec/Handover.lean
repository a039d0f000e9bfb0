import NMiner.Spec.Fleet

/-! How `Fleet` of `fleet.ts` passes the sockets it accepts to its children: a child may be dead
from the fork on or die at any time, and a dead one that has exited is replaced after a backoff. -/

namespace NMiner

namespace Handover

def RESPAWN_MIN : ℕ := 500

def RESPAWN_MAX : ℕ := 15000

def RESPAWN_HEALTHY : ℕ := 30000

structure FleetChild where
  id : ℕ
  /-- `proc.connected && !proc.killed`. -/
  alive : Bool
  load : ℕ := 0
  started : ℕ
  deriving DecidableEq, Repr

/-- A socket that `hand` has passed to the process of a child. -/
structure Handing where
  socket : SocketId
  child : ℕ
  /-- Whether the child was alive then. -/
  alive : Bool
  /-- The callback of `proc.send` has been called. -/
  called : Bool := false
  deriving DecidableEq, Repr

structure Fleet where
  now : ℕ := 0
  roster : List FleetChild := []
  pending : List SocketId := []
  backoff : ℕ := RESPAWN_MIN
  sequence : ℕ := 0
  stopping : Bool := false
  /-- When the timers fire that spawn a child. -/
  respawns : List ℕ := []
  /-- The sockets that `dispatch` was called with are those below. -/
  arrived : ℕ := 0
  closed : List SocketId := []
  handed : List Handing := []
  /-- The sockets that the fleet has destroyed. -/
  destroyed : List SocketId := []

inductive Action
  | dispatch
  | close (socket : SocketId)
  /-- The process has sent a socket on, or failed to. -/
  | sent (socket : SocketId) (failed : Bool)
  /-- A child is no longer connected, or has been killed. -/
  | die (child : ℕ)
  | exit (child : ℕ)
  /-- The `i`th timer spawns a child, whose process is alive or not. -/
  | respawn (i : ℕ) (alive : Bool)
  /-- The worker of a child reports a peer that has joined or left. -/
  | count (child : ℕ) (joined : Bool)
  | stop
  | tick (ms : ℕ)

namespace Fleet

def setChild (f : Fleet) (id : ℕ) (g : FleetChild → FleetChild) : Fleet :=
  { f with roster := f.roster.map fun child => if child.id = id then g child else child }

/-- `FleetChild.hand`; `none` is `false`. -/
def hand (f : Fleet) (child : FleetChild) (socket : SocketId) : Option Fleet :=
  if !child.alive then none
  else
    let f := f.setChild child.id fun child => { child with load := child.load + 1 }
    some { f with handed := f.handed ++ [⟨socket, child.id, child.alive, false⟩] }

def destroy (f : Fleet) (sockets : List SocketId) : Fleet :=
  { f with destroyed := f.destroyed ++ sockets }

/-- The least loaded child that is alive, the first of these. -/
def pick (f : Fleet) : Option FleetChild :=
  f.roster.foldl (fun pick child =>
    if child.alive ∧ pick.all (child.load < ·.load) then some child else pick) none

/-- The rest of `dispatch`, where no child has taken the socket. -/
def wait (f : Fleet) (socket : SocketId) : Fleet :=
  if f.pending.length ≥ NMiner.Fleet.PENDING_LIMIT then f.destroy [socket]
  else { f with pending := f.pending ++ [socket] }

def dispatch (f : Fleet) (socket : SocketId) : Fleet :=
  match f.pick with
  | some child => (f.hand child socket).getD (f.wait socket)
  | none => f.wait socket

/-- The loop at the end of `spawn`, which drops what `hand` returns. -/
def handAll (f : Fleet) (child : FleetChild) (sockets : List SocketId) : Fleet :=
  sockets.foldl (fun f socket => (f.hand child socket).getD f) f

def spawn (f : Fleet) (alive : Bool) : Fleet :=
  let child := { id := f.sequence + 1, alive := alive, started := f.now : FleetChild }
  handAll { f with sequence := child.id, roster := f.roster ++ [child], pending := [] } child
    f.pending

/-- The handler of `exit`. -/
def exit (f : Fleet) (child : FleetChild) : Fleet :=
  let f := { f with roster := f.roster.filter (·.id ≠ child.id) }
  if f.stopping then f
  else
    let backoff := if f.now - child.started ≥ RESPAWN_HEALTHY then RESPAWN_MIN else f.backoff
    { f with
      respawns := f.respawns ++ [f.now + backoff]
      backoff := min RESPAWN_MAX (backoff * 2) }

def stop (f : Fleet) : Fleet :=
  { f.destroy f.pending with stopping := true, pending := [], roster := [] }

/-- The callback of `proc.send`. -/
def sent (f : Fleet) (handing : Handing) (failed : Bool) : Fleet :=
  if failed then
    let f := f.setChild handing.child fun child => { child with load := child.load - 1 }
    { f with handed := f.handed.filter (·.socket ≠ handing.socket) }.destroy [handing.socket]
  else
    { f with handed := f.handed.map fun h =>
      if h.socket = handing.socket then { h with called := true } else h }

def step (f : Fleet) : Action → Option Fleet
  | .dispatch => some ({ f with arrived := f.arrived + 1 }.dispatch f.arrived)
  | .close socket =>
    if socket < f.arrived ∧ socket ∉ f.closed then
      some { f with closed := f.closed ++ [socket], pending := f.pending.erase socket }
    else none
  | .sent socket failed =>
    (f.handed.find? fun h => h.socket = socket ∧ h.called = false).map (f.sent · failed)
  | .die child => some (f.setChild child fun child => { child with alive := false })
  | .exit child => (f.roster.find? (·.id = child)).map f.exit
  | .respawn i alive => (f.respawns[i]?).bind fun due =>
    if f.now < due then none
    else
      let f := { f with respawns := f.respawns.eraseIdx i }
      some (if f.stopping then f else f.spawn alive)
  | .count child joined => some (f.setChild child fun child =>
    { child with load := if joined then child.load + 1 else child.load - 1 })
  | .stop => some f.stop
  | .tick ms => some { f with now := f.now + ms }

/-- The constructor; each child may be dead from the fork on. -/
def start (alive : List Bool) : Fleet := alive.foldl spawn {}

end Fleet

end Handover

end NMiner
