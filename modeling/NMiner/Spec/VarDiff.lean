import NMiner.Lib.Double
import NMiner.Lib.HexText

/-! Target encodings and the per-miner difficulty controller of `vardiff.ts`. A pool
target is hexadecimal text, either eight bytes giving the 64-bit bound directly or
four bytes giving a compact 32-bit bound. `none` stands for a thrown exception. The
memo tables of decoded and encoded targets hold no state that a caller can see and
are left out. -/

namespace NMiner

open HexText

def RETUNE_RATIO : ℚ := 13 / 10
def SHARE_SECONDS : ℚ := 15
def MIN_DIFFICULTY : ℕ := 1000

def U32 : ℕ := 0xFFFFFFFF
def U64 : ℕ := 0xFFFFFFFFFFFFFFFF

structure Decoded where
  value : ℕ
  difficulty : ℕ
  deriving DecidableEq, Repr

/-- `Buffer.read…LE(offset)` over `width` bytes: throws when the buffer is too short. -/
def readLE (buf : List ℕ) (offset width : ℕ) : Option ℕ :=
  if offset + width ≤ buf.length then some (littleEndian ((buf.drop offset).take width)) else none

def isWide (target : String) : Bool := 16 ≤ (codeUnits target).length

/-- The integer a target text encodes, eight bytes wide or four. -/
def targetInteger (target : String) : Option ℕ :=
  if isWide target then readLE (bytes ((codeUnits target).take 16)) 0 8
  else readLE (bytes (((codeUnits target).rightpad 8 '0'.toNat).take 8)) 0 4

def decode (target : String) : Option Decoded :=
  if isWide target then
    (targetInteger target).map fun value =>
      if 0 < value then { value := value, difficulty := Double.ofNat (U64 / value) }
      else { value := U64, difficulty := MIN_DIFFICULTY }
  else
    (targetInteger target).map fun compact =>
      let difficulty := if 0 < compact then U32 / compact else MIN_DIFFICULTY
      { value := if 0 < compact then U64 / difficulty else U64, difficulty := difficulty }

def targetDifficulty (target : String) : Option ℕ := (decode target).map Decoded.difficulty

def compactOf (difficulty : ℕ) : ℕ := max 1 (min U32 (U32 / max 1 difficulty))

def difficultyTarget (difficulty : ℕ) : String :=
  String.ofList (text (toBytes 4 (compactOf difficulty)))

def hashValue (result : String) : Option ℕ :=
  if (codeUnits result).length < 64 then none
  else
    let hash := bytes ((codeUnits result).take 64)
    if hash.length = 32 then readLE hash 24 8 else none

def meetsValue (value : Option ℕ) (target : String) : Option Bool :=
  match value with
  | none => some false
  | some v => (decode target).map fun d => decide (v ≤ d.value)

/-- `Number.MAX_SAFE_INTEGER`. -/
def MAX_SAFE_INTEGER : ℕ := 2 ^ 53 - 1

def valueDifficulty (value : Option ℕ) : ℕ :=
  match value with
  | none => 0
  | some v => if 0 < v then Double.ofNat (U64 / v) else MAX_SAFE_INTEGER

/-- The target text for a difficulty under a pool target. -/
def nextTarget (pool : String) (ceiling next : ℕ) : Option String :=
  let target := if ceiling ≤ next then pool else difficultyTarget next
  if target = pool then some pool
  else (targetDifficulty target).map fun d => if ceiling ≤ d then pool else target

structure Issue where
  target : String
  difficulty : ℕ
  deriving DecidableEq, Repr

structure VarDiff where
  hashrate : ℚ
  told : Bool := false
  work : ℚ := 0
  solved : ℕ := 0
  accepted : ℕ := 0
  issue : Issue
  prior : Option Issue := none
  ceiling : Option Issue := none
  shares : ℕ := 0
  window : ℚ := 0
  since : ℕ
  deriving DecidableEq, Repr

/-- `Math.round`. -/
def jsRound (x : ℚ) : ℤ := ⌊x + 1 / 2⌋

/-- The difficulty a hashrate asks for: a share every `SHARE_SECONDS`. The product is a double. -/
def wanted (hashrate : ℚ) : ℕ :=
  max MIN_DIFFICULTY (jsRound (Double.round (hashrate * SHARE_SECONDS))).toNat

def seedHashrate (seed : ℚ) : ℚ := if 0 < seed then seed else 1000

/-- The difficulty the constructor records. -/
def seedDifficulty (seed : ℚ) : ℕ := wanted (seedHashrate seed)

/-- `new VarDiff(seed)` at time `now`. -/
def VarDiff.new (seed : ℚ) (now : ℕ) : VarDiff :=
  { hashrate := seedHashrate seed,
    issue := { target := difficultyTarget (seedDifficulty seed),
               difficulty := seedDifficulty seed },
    since := now }

namespace VarDiff

def target (v : VarDiff) : String := v.issue.target

def difficulty (v : VarDiff) : ℕ := v.issue.difficulty

def floor (v : VarDiff) : Issue :=
  match v.prior with
  | some p => if p.difficulty < v.issue.difficulty then p else v.issue
  | none => v.issue

def settle (v : VarDiff) : VarDiff := { v with prior := none }

def submitted (v : VarDiff) (difficulty : ℚ) (count : ℕ) (now : ℕ) : VarDiff :=
  if count = 0 then v
  else
    let v := { v with
      shares := v.shares + count, accepted := v.accepted + count,
      work := v.work + difficulty * count, window := v.window + difficulty * count }
    let elapsed := Double.round (((now : ℚ) - v.since) / 1000)
    if v.shares < 4 ∨ elapsed < SHARE_SECONDS * 2 then v
    else
      let observed := Double.round (v.window / elapsed)
      let mean := Double.round (Double.round (v.hashrate * Double.round (6 / 10)) +
        Double.round (observed * Double.round (4 / 10)))
      { v with
        hashrate := if v.told then v.hashrate else if 0 < v.hashrate then mean else observed,
        shares := 0, window := 0, since := now }

def observe (v : VarDiff) (hashrate : ℚ) : VarDiff :=
  if 0 < hashrate then { v with told := true, hashrate := hashrate } else v

def credit (v : VarDiff) (solved : ℕ) : VarDiff := { v with solved := v.solved + solved }

/-- The pool target and its difficulty, taken from the cache when it is the same target. -/
def ceilingFor (v : VarDiff) (pool : String) : Option Issue :=
  match v.ceiling with
  | some c => if c.target = pool then some c
      else (targetDifficulty pool).map fun d => { target := pool, difficulty := d }
  | none => (targetDifficulty pool).map fun d => { target := pool, difficulty := d }

/-- The difficulty the next issue is made for. -/
def nextDifficulty (v : VarDiff) (ceiling : ℕ) : ℕ :=
  let want := min ceiling (wanted v.hashrate)
  if (want : ℚ) > v.issue.difficulty * RETUNE_RATIO ∨
    want * RETUNE_RATIO < v.issue.difficulty then want
  else v.issue.difficulty

/-- `tune(pool)`; the text it returns is the new state's `target`. -/
def tune (v : VarDiff) (pool : String) : Option VarDiff :=
  (v.ceilingFor pool).bind fun ceiling =>
    let v := { v with ceiling := some ceiling }
    (nextTarget pool ceiling.difficulty (v.nextDifficulty ceiling.difficulty)).bind fun target =>
      if target = v.issue.target then some v
      else (targetDifficulty target).map fun d =>
        { v with prior := some v.issue, issue := { target := target, difficulty := d } }

/-- The calls that change the difficulty a miner is given. -/
inductive Call
  | observe (hashrate : ℚ)
  | submitted (difficulty : ℚ) (count now : ℕ)
  | settle
  | tune (pool : String)

/-- A call that throws leaves the controller as it was. -/
def apply (v : VarDiff) : Call → VarDiff
  | .observe hashrate => v.observe hashrate
  | .submitted difficulty count now => v.submitted difficulty count now
  | .settle => v.settle
  | .tune pool => (v.tune pool).getD v

def run (v : VarDiff) (calls : List Call) : VarDiff := calls.foldl apply v

end VarDiff

end NMiner
