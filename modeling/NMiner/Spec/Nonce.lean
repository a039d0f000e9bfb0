import NMiner.Lib.HexText

/-! The segmented nonce allocator and the per-miner ledger of `nonce.ts`.
Finite JavaScript numbers are read as exact rationals, and as integers where the
code only ever stores whole numbers. -/

namespace NMiner

def NONCE_SPACE : ℤ := 0x100000000
def NICEHASH_SPAN : ℤ := 0x1000000
def NICEHASH_SLOTS : ℕ := 256

def MIN_CHUNK : ℚ := 4096
def MAX_CHUNK : ℚ := 268435456
def CHUNK_SECONDS : ℚ := 20

/-- The exclusive upper limit of every grant: the nonce `0xFFFFFFFF` itself is never granted. -/
def TOP : ℤ := 0xFFFFFFFF

structure Segment where
  base : ℤ
  size : ℤ
  deriving DecidableEq, Repr

structure NonceSpace where
  index : ℕ
  cursor : ℤ
  segments : List Segment
  deriving DecidableEq, Repr

structure Grant where
  start_nonce : ℤ
  nonce_limit : ℤ
  deriving DecidableEq, Repr

def createSpace (segments : List Segment) : NonceSpace :=
  { segments := segments.filter fun s => 0 < s.size, index := 0, cursor := 0 }

def fullSpace : NonceSpace := createSpace [{ base := 0, size := NONCE_SPACE }]

def nicehashSpace (slot : ℤ) (extra : List ℤ) : NonceSpace :=
  createSpace ((slot :: extra).map fun b => { base := b * NICEHASH_SPAN, size := NICEHASH_SPAN })

/-- The digits `parseInt(_, 16)` reads before the first character that is not one. -/
def hexPrefix (cs : List Char) : List ℕ :=
  ((cs.map HexText.digitValue).takeWhile Option.isSome).reduceOption

/-- `parseInt(_, 16)` on the text after the white space; `none` is `NaN`. -/
def parseHex (cs : List Char) : Option ℤ :=
  let (sign, rest) : ℤ × List Char := match cs with
    | '-' :: r => (-1, r)
    | '+' :: r => (1, r)
    | r => (1, r)
  let digits := hexPrefix (match rest with
    | '0' :: 'x' :: r => r
    | '0' :: 'X' :: r => r
    | r => r)
  if digits = [] then none else some (sign * (digits.foldl (fun n d => 16 * n + d) 0 : ℕ))

/-- The white space JavaScript skips in front of a number. -/
def isJsSpace (c : Char) : Bool :=
  c.isWhitespace || c.toNat ∈ [0x0b, 0x0c, 0xa0, 0x1680, 0x2028, 0x2029,
    0x202f, 0x205f, 0x3000, 0xfeff]
    || (0x2000 ≤ c.toNat && c.toNat ≤ 0x200a)

def parseInt16 (cs : List Char) : Option ℤ := parseHex (cs.dropWhile isJsSpace)

/-- `parseInt(_.substring(start, start + 2), 16)`. -/
def parseByte (text : String) (start : ℕ) : Option ℤ :=
  parseInt16 ((((HexText.codeUnits text).drop start).take 2).map Char.ofNat)

/-- The reserved top nonce byte of a blob, `0` when it has none. -/
def nicehashSlot (blob : String) : ℤ :=
  if 86 ≤ (HexText.codeUnits blob).length then (parseByte blob 84).getD 0 else 0

def spaceTotal (space : NonceSpace) : ℤ := (space.segments.map Segment.size).sum

def spaceLeft (space : NonceSpace) : ℤ :=
  let left := match space.segments.drop space.index with
    | [] => 0
    | s :: rest => s.size - space.cursor + (rest.map Segment.size).sum
  if 0 < left then left else 0

def capacity (space : NonceSpace) (interval : ℚ) : ℚ :=
  spaceTotal space / max (1 / 2) (interval / 1000)

def chunkSize (hashrate share deadline : ℚ) : ℚ :=
  let rate := if 0 < hashrate then hashrate else 1000
  let window := max 1 (min CHUNK_SECONDS deadline)
  max MIN_CHUNK (min MAX_CHUNK (min ⌈rate * window⌉ (max share MIN_CHUNK)))

/-! ### The ledger -/

structure Ledger where
  job_id : String := ""
  prior : List Grant := []
  ranges : List Grant := []
  deriving DecidableEq, Repr

/-- Append a range, growing the last one in place when the new one continues it. -/
def appendRange : List Grant → Grant → List Grant
  | [], range => [range]
  | [last], range =>
    if last.nonce_limit = range.start_nonce then [{ last with nonce_limit := range.nonce_limit }]
    else [last, range]
  | g :: gs, range => g :: appendRange gs range

def Ledger.record (l : Ledger) (job_id : String) (range : Grant) : Ledger :=
  let l := if l.job_id ≠ job_id then { job_id := job_id, prior := l.ranges, ranges := [] } else l
  { l with ranges := appendRange l.ranges range }

def Grant.has (g : Grant) (nonce : ℤ) : Bool := g.start_nonce ≤ nonce ∧ nonce < g.nonce_limit

def Ledger.owns (l : Ledger) (nonce : ℤ) : Bool :=
  l.ranges.any (·.has nonce) || l.prior.any (·.has nonce)

/-! ### The allocator -/

/-- What `take`'s loop uses up: whole segments behind the current one, and the
rest of the current one. -/
def NonceSpace.weight (space : NonceSpace) : ℕ :=
  match space.segments.drop space.index with
  | [] => 0
  | s :: rest => (rest.map fun s => s.size.toNat + 1).sum + (s.size - space.cursor).toNat + 1

theorem weight_next (space : NonceSpace) (h : space.index < space.segments.length) :
    ({ space with index := space.index + 1, cursor := 0 } : NonceSpace).weight < space.weight := by
  unfold NonceSpace.weight
  rw [List.drop_eq_getElem_cons h]
  rcases space.segments.drop (space.index + 1) with _ | ⟨s, rest⟩ <;> simp; omega

theorem weight_advance (space : NonceSpace) (size : ℤ) (h : space.index < space.segments.length)
    (hleft : 0 < (space.segments[space.index]).size - space.cursor) (hsize : 0 < size) :
    ({ space with cursor := space.cursor + size } : NonceSpace).weight < space.weight := by
  unfold NonceSpace.weight
  rw [List.drop_eq_getElem_cons h]
  simp only
  omega

/-- Cut the next range of at most `count` nonces off the space. The clamp to `TOP`
can leave the range empty, and then the loop goes on. -/
def take (space : NonceSpace) (count : ℚ) : Option Grant × NonceSpace :=
  if h : space.index < space.segments.length then
    let segment := space.segments[space.index]
    let left := segment.size - space.cursor
    if hleft : left ≤ 0 then take { space with index := space.index + 1, cursor := 0 } count
    else
      let size := min (max 1 ⌊count⌋) left
      let start := segment.base + space.cursor
      let limit := min (start + size) TOP
      let rest := { space with cursor := space.cursor + size }
      if limit > start then (some { start_nonce := start, nonce_limit := limit }, rest)
      else take rest count
  else (none, space)
termination_by space.weight
decreasing_by
  · exact weight_next space h
  · exact weight_advance space _ h (by simp only [segment, left] at hleft; omega)
      (by simp only [segment, left] at hleft; omega)

/-- The results of successive `take` calls on one space. -/
def takes (space : NonceSpace) : List ℚ → List (Option Grant) × NonceSpace
  | [] => ([], space)
  | count :: counts =>
    let (grant, space') := take space count
    let (grants, final) := takes space' counts
    (grant :: grants, final)

end NMiner
