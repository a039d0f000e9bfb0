import NMiner.Lib.Transition

/-! The nonce ranges of `RxJob`: the packed cursor that the mining threads advance by
compare-exchange, and the queue of further ranges behind `m_range_mutex`. -/

namespace NMiner

abbrev ThreadId := ℕ

structure NonceRange where
  start : UInt32
  limit : UInt32
  deriving DecidableEq, Repr

def pack_range (start limit : UInt32) : UInt64 := (limit.toUInt64 <<< 32) ||| start.toUInt64

/-- The low half of `m_range`: the next nonce. -/
def currentOf (packed : UInt64) : UInt32 := packed.toUInt32

/-- The high half of `m_range`. -/
def limitOf (packed : UInt64) : UInt32 := (packed >>> 32).toUInt32

def kNicehashLimit : UInt32 := 0x01000000

/-- The end of the range of a job without `start_nonce`. -/
def rangeEnd (nicehash_active : Bool) : UInt32 :=
  if nicehash_active then kNicehashLimit else 0xFFFFFFFF

/-- Where a thread is in `NextNonce`. -/
inductive Drawing
  | idle
  /-- About to load `m_range`. -/
  | entered
  | loaded (packed : UInt64)
  deriving DecidableEq, Repr

structure Cursor where
  m_range : UInt64 := pack_range 0 0xFFFFFFFF
  m_queued : List NonceRange := []
  m_ranged : Bool := false
  m_paused : Bool := false
  /-- A `SendJob` that has loaded `m_range` and holds `m_range_mutex`: the cursor it has read and
  the end of the range it is about to store. -/
  sending : Option (UInt32 × UInt32) := none
  threads : ThreadId → Drawing := fun _ => .idle
  /-- What `NextNonce` has returned since the blob was installed, in order. -/
  returned : List UInt32 := []
  /-- The ranges `QueueRange` has accepted since. -/
  accepted : List NonceRange := []
  /-- A call of `NextNonce` has found nothing left since the last of them. -/
  refused : Bool := false

namespace Cursor

def setThread (c : Cursor) (t : ThreadId) (d : Drawing) : Cursor :=
  { c with threads := Function.update c.threads t d }

/-- `SendJob` with a `start_nonce`. -/
def sendRanged (c : Cursor) (start limit : UInt32) : Cursor :=
  { c with
    m_ranged := true, m_queued := [], m_range := pack_range start (max start limit)
    returned := [], accepted := [], refused := false }

/-- `SendJob` of a new blob without a `start_nonce`. -/
def sendFresh (c : Cursor) (nicehash_active : Bool) : Cursor :=
  { c with
    m_ranged := false, m_queued := [], m_range := pack_range 0 (rangeEnd nicehash_active)
    returned := [], accepted := [], refused := false }

/-- `SendJob` of the same blob without a `start_nonce`, up to its load of `m_range`. -/
def sendLoad (c : Cursor) (nicehash_active : Bool) : Cursor :=
  { c with
    m_ranged := false, m_queued := []
    sending := some (currentOf c.m_range, rangeEnd nicehash_active) }

/-- The rest of it: the store of `m_range`. -/
def sendStore (c : Cursor) (loaded range_end : UInt32) : Cursor :=
  { c with sending := none, m_range := pack_range (min loaded range_end) range_end }

/-- `QueueRange`. -/
def queueRange (c : Cursor) (start limit : UInt32) : Cursor :=
  if limit ≤ start ∨ c.m_ranged = false then c
  else { c with
    m_queued := c.m_queued ++ [⟨start, limit⟩]
    accepted := c.accepted ++ [⟨start, limit⟩], refused := false }

/-- The compare-exchange of a thread that has loaded `packed`; it may fail for no reason. -/
def exchange (c : Cursor) (t : ThreadId) (packed : UInt64) (spurious : Bool) : Cursor :=
  let current := currentOf packed
  if c.m_range = packed ∧ spurious = false then
    { c.setThread t .idle with
      m_range := pack_range (current + 1) (limitOf packed), returned := c.returned ++ [current] }
  else c.setThread t (.loaded c.m_range)

/-- `AdvanceRange`, and the end of `NextNonce` when it returns false. -/
def advanceRange (c : Cursor) (t : ThreadId) (exhausted : UInt64) : Cursor :=
  if c.m_range ≠ exhausted then c.setThread t .entered
  else match c.m_queued with
    | [] => { c.setThread t .idle with refused := true }
    | next :: rest =>
      { c.setThread t .entered with m_queued := rest, m_range := pack_range next.start next.limit }

inductive Action
  | sendRanged (start limit : UInt32)
  | sendFresh (nicehash_active : Bool)
  | sendLoad (nicehash_active : Bool)
  | sendStore
  | queueRange (start limit : UInt32)
  | pause (paused : Bool)
  /-- A thread calls `NextNonce`. -/
  | call (t : ThreadId)
  | load (t : ThreadId)
  | exchange (t : ThreadId) (spurious : Bool)
  | advance (t : ThreadId)
  deriving DecidableEq, Repr

/-- One atomic step. `SendJob` and `QueueRange` share a thread; a critical section on
`m_range_mutex` waits for a `SendJob` that holds it. -/
def step (c : Cursor) : Action → Option Cursor
  | .sendRanged start limit => if c.sending = none then some (c.sendRanged start limit) else none
  | .sendFresh nicehash_active =>
    if c.sending = none then some (c.sendFresh nicehash_active) else none
  | .sendLoad nicehash_active =>
    if c.sending = none then some (c.sendLoad nicehash_active) else none
  | .sendStore => c.sending.map fun (loaded, range_end) => c.sendStore loaded range_end
  | .queueRange start limit => if c.sending = none then some (c.queueRange start limit) else none
  | .pause paused => some { c with m_paused := paused }
  | .call t => match c.threads t with
    | .idle => some (if c.m_paused then c else c.setThread t .entered)
    | _ => none
  | .load t => match c.threads t with
    | .entered => some (c.setThread t (.loaded c.m_range))
    | _ => none
  | .exchange t spurious => match c.threads t with
    | .loaded packed =>
      if currentOf packed < limitOf packed then some (c.exchange t packed spurious) else none
    | _ => none
  | .advance t => match c.threads t with
    | .loaded packed =>
      if currentOf packed < limitOf packed ∨ c.sending ≠ none then none
      else some (c.advanceRange t packed)
    | _ => none

/-- The steps of `SendJob`. -/
def Action.sends : Action → Bool
  | .sendRanged _ _ => true
  | .sendFresh _ => true
  | .sendLoad _ => true
  | .sendStore => true
  | _ => false

/-- The steps of a `SendJob` that may change the blob. -/
def Action.installs : Action → Bool
  | .sendRanged _ _ => true
  | .sendFresh _ => true
  | _ => false

end Cursor

end NMiner
