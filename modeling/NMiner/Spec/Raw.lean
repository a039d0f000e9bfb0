import NMiner.Lib.Number
import NMiner.Lib.Transition
import NMiner.Spec.Link

/-! Granting with the numbers as they come off the wire: `login` and `chunk` of `LocalBackend` down
to `take`, over all JavaScript numbers. `take`'s loop is given fuel, and `none` stands for a loop
that has not ended when it is used up. Links, blobs and rates are as in `Upstream`; which link a
miner is placed on is left open. -/

open Js (Number)
open Js.Number

namespace NMiner

namespace Raw

structure Space where
  index : ℕ
  cursor : Number
  segments : List Segment
  deriving DecidableEq, Repr

structure Grant where
  start_nonce : Number
  nonce_limit : Number
  deriving DecidableEq, Repr

def size (s : Segment) : Number := fin s.size

def base (s : Segment) : Number := fin s.base

def spaceLeft (space : Space) : Number :=
  let left := match space.segments.drop space.index with
    | [] => fin 0
    | s :: rest => rest.foldl (fun left s => add left (size s)) (sub (size s) space.cursor)
  if lt (fin 0) left then left else fin 0

def chunkSize (hashrate share deadline : Number) : Number :=
  let rate := if lt (fin 0) hashrate then hashrate else fin 1000
  let window := max (fin 1) (min (fin CHUNK_SECONDS) deadline)
  max (fin MIN_CHUNK)
    (min (fin MAX_CHUNK) (min (ceil (mul rate window)) (max share (fin MIN_CHUNK))))

def take : ℕ → Space → Number → Option (Option Grant × Space)
  | 0, _, _ => none
  | fuel + 1, space, count =>
    match space.segments[space.index]? with
    | none => some (none, space)
    | some segment =>
      let left := sub (size segment) space.cursor
      if le left (fin 0) then
        take fuel { space with index := space.index + 1, cursor := fin 0 } count
      else
        let size := min (max (fin 1) (floor count)) left
        let start := add (base segment) space.cursor
        let space := { space with cursor := add space.cursor size }
        let limit := min (add start size) (fin TOP)
        if lt start limit then some (some { start_nonce := start, nonce_limit := limit }, space)
        else take fuel space count

/-- The links with a job and the miners, as far as granting reads them. -/
structure Yard where
  load : LinkId → Number
  space : LinkId → Space
  homes : ClientId → Option LinkId
  hashrate : ClientId → Number
  /-- What the granting calls have returned. -/
  grants : List (Option Grant) := []

namespace Yard

def rateOf (y : Yard) (c : ClientId) : Number :=
  if lt (fin 0) (y.hashrate c) then y.hashrate c else fin 1000

def setLoad (y : Yard) (l : LinkId) (load : Number) : Yard :=
  { y with load := Function.update y.load l load }

def house (y : Yard) (l : LinkId) (c : ClientId) : Yard :=
  { y.setLoad l (add (y.load l) (y.rateOf c)) with homes := Function.update y.homes c (some l) }

def evict (y : Yard) (c : ClientId) : Yard :=
  match y.homes c with
  | none => y
  | some l =>
    { y.setLoad l (max (fin 0) (sub (y.load l) (y.rateOf c))) with
      homes := Function.update y.homes c none }

def setHashrate (y : Yard) (c : ClientId) (hashrate : Number) : Yard :=
  { y with hashrate := Function.update y.hashrate c hashrate }

def report (y : Yard) (c : ClientId) (hashrate : Number) : Yard :=
  if lt (fin 0) hashrate then
    let v := match y.homes c with
      | none => y
      | some l => y.setLoad l (add (y.load l) (sub hashrate (y.rateOf c)))
    v.setHashrate c hashrate
  else y

/-- `grant`; `deadline` is the link's, in seconds. -/
def grant (y : Yard) (fuel : ℕ) (l : LinkId) (c : ClientId) (deadline : ℚ) :
    Option (Option Grant × Yard) :=
  let left := spaceLeft (y.space l)
  if le left (fin 0) then some (none, { y with grants := y.grants ++ [none] })
  else
    let share := if lt (fin 0) (y.load l) then mul left (div (y.rateOf c) (y.load l)) else left
    (take fuel (y.space l) (chunkSize (y.rateOf c) share (fin deadline))).map fun (range, space) =>
      (range, { y with
        space := Function.update y.space l space, grants := y.grants ++ [range] })

/-- The hashrate of a client whose login states `threads`; `none` is a value that is no number. -/
def seedRate (threads : Option Number) : Number :=
  let seed := mul (match threads with
    | some t => if lt (fin 0) t then t else fin 1
    | none => fin 1) (fin 1000)
  if lt (fin 0) seed then seed else fin 1000

inductive Action
  /-- `login`, with the link that `pick` returns. -/
  | login (c : ClientId) (l : LinkId) (threads : Option Number) (deadline : ℚ)
  /-- `get_chunk` for the link's job. -/
  | chunk (c : ClientId) (hashrate : Option Number) (deadline : ℚ)
  /-- The report of the controller's hashrate by `submit`. -/
  | report (c : ClientId) (hashrate : Number)
  /-- A job arrives, with the slot byte of its blob and the slots dealt to the link. -/
  | job (l : LinkId) (slot : Fin 256) (dealt : ℤ → Bool)
  /-- The grant of a fan-out. -/
  | fanout (l : LinkId) (c : ClientId) (deadline : ℚ)
  /-- A migration to the link that `pick` returns. -/
  | move (c : ClientId) (l : LinkId) (deadline : ℚ)
  | detach (c : ClientId)

/-- The slots dealt to a link as `extra`. -/
def extra (dealt : ℤ → Bool) : List ℤ := ((List.range NICEHASH_SLOTS).map Int.ofNat).filter dealt

/-- The exact space that a job starts. -/
def freshSpace (slot : Fin 256) (dealt : ℤ → Bool) : NonceSpace :=
  if 0 < slot.val then nicehashSpace slot.val (extra dealt) else fullSpace

/-- The numbers of an exact space. -/
def ofSpace (space : NonceSpace) : Space :=
  { index := space.index, cursor := fin space.cursor, segments := space.segments }

/-- One call; `none` when it has not returned within the fuel. -/
def step (fuel : ℕ) (y : Yard) : Action → Option Yard
  | .login c l threads deadline =>
    let y := ((y.evict c).setHashrate c (seedRate threads)).house l c
    (y.grant fuel l c deadline).map fun (range, y) => if range.isNone then y.evict c else y
  | .chunk c hashrate deadline =>
    let y := match hashrate with
      | some h => y.report c h
      | none => y
    match y.homes c with
    | none => some y
    | some l => (y.grant fuel l c deadline).map Prod.snd
  | .report c hashrate => some (y.report c hashrate)
  | .job l slot dealt =>
    some { y with space := Function.update y.space l (ofSpace (freshSpace slot dealt)) }
  | .fanout l c deadline => (y.grant fuel l c deadline).map Prod.snd
  | .move c l deadline => match y.homes c with
    | none => some y
    | some source => (((y.evict c).house l c).grant fuel l c deadline).map fun (range, y) =>
      if range.isNone then (y.evict c).house source c else y
  | .detach c => some (y.evict c)

end Yard

end Raw

end NMiner
