import NMiner.Proofs.Slices
import NMiner.Spec.Raw

/-! Granting ends for every number, but for one case: a miner at an infinite rate on a link with an
infinite load. Their quotient is NaN, and `take` then neither cuts a range nor leaves the segment.
In every other case `chunkSize` is finite and `take` is the one over exact numbers. -/

namespace NMiner

open Transition

/-- A space that the program makes, fresh or partly used. -/
structure NonceSpace.Sized (space : NonceSpace) : Prop where
  within : ∀ s ∈ space.segments, 0 ≤ s.base ∧ 0 ≤ s.size ∧ s.base + s.size ≤ 2 ^ 32
  few : space.segments.length ≤ 257
  low : 0 ≤ space.cursor
  high : ∀ h : space.index < space.segments.length, space.cursor ≤ space.segments[space.index].size

theorem createSpace_sized {segments : List Segment} (hlen : segments.length ≤ 257)
    (h : ∀ s ∈ segments, 0 ≤ s.base ∧ 0 ≤ s.size ∧ s.base + s.size ≤ 2 ^ 32) :
    (createSpace segments).Sized := by
  have hmem : ∀ s ∈ (createSpace segments).segments,
      0 ≤ s.base ∧ 0 ≤ s.size ∧ s.base + s.size ≤ 2 ^ 32 :=
    fun s hs => h s (List.mem_filter.mp hs).1
  refine ⟨hmem, (List.length_filter_le _ _).trans hlen, le_rfl, fun hi => ?_⟩
  exact (hmem _ (List.getElem_mem hi)).2.1

theorem freshSpace_sized (slot : Fin 256) (dealt : ℤ → Bool) :
    (Raw.Yard.freshSpace slot dealt).Sized := by
  unfold Raw.Yard.freshSpace
  split_ifs
  · unfold nicehashSpace
    refine createSpace_sized ?_ fun s hs => ?_
    · have hfew : (Raw.Yard.extra dealt).length ≤ 256 := by
        refine (List.length_filter_le _ _).trans ?_
        rw [List.length_map, List.length_range]
        exact le_rfl
      rw [List.length_map, List.length_cons]
      omega
    · obtain ⟨b, hb, rfl⟩ := List.mem_map.mp hs
      have hbyte : 0 ≤ b ∧ b < 256 := by
        rcases List.mem_cons.mp hb with rfl | hb
        · have := slot.isLt
          omega
        · obtain ⟨n, hn, rfl⟩ := List.mem_map.mp (List.mem_filter.mp hb).1
          have := List.mem_range.mp hn
          unfold NICEHASH_SLOTS at this
          simp only [Int.ofNat_eq_natCast]
          omega
      unfold NICEHASH_SPAN
      dsimp only
      omega
  · refine createSpace_sized (by simp) fun s hs => ?_
    rw [List.mem_singleton.mp hs]
    unfold NONCE_SPACE
    dsimp only
    omega

theorem NonceSpace.Sized.next {space : NonceSpace} (h : space.Sized) :
    ({ space with index := space.index + 1, cursor := 0 } : NonceSpace).Sized :=
  ⟨h.within, h.few, le_rfl, fun hi => (h.within _ (List.getElem_mem hi)).2.1⟩

theorem NonceSpace.Sized.advance {space : NonceSpace} (h : space.Sized)
    (hi : space.index < space.segments.length) {n : ℤ} (hn : 0 ≤ n)
    (hle : n ≤ space.segments[space.index].size - space.cursor) :
    ({ space with cursor := space.cursor + n } : NonceSpace).Sized := by
  refine ⟨h.within, h.few, add_nonneg h.low hn, fun _ => ?_⟩
  change space.cursor + n ≤ space.segments[space.index].size
  omega

/-- `take` leaves the cursor in the segment. -/
theorem take_sized {space : NonceSpace} (h : space.Sized) (count : ℚ) :
    (take space count).2.Sized := by
  fun_induction take space count with
  | case1 space hi segment left hleft ih => exact ih h.next
  | case2 space hi segment left hleft size start limit rest hlimit =>
    exact h.advance hi (by omega) (min_le_right _ _)
  | case3 space hi segment left hleft size start limit rest hlimit ih =>
    exact ih (h.advance hi (by omega) (min_le_right _ _))
  | case4 space hi => exact h

/-- A segment that is used up leaves what the segments behind it have. -/
theorem spaceLeft_next {space : NonceSpace} (h : space.Sized)
    (hi : space.index < space.segments.length)
    (hleft : space.segments[space.index].size - space.cursor ≤ 0) :
    spaceLeft { space with index := space.index + 1, cursor := 0 } = spaceLeft space := by
  have hhigh := h.high hi
  unfold spaceLeft
  rw [List.drop_eq_getElem_cons hi]
  dsimp only
  cases space.segments.drop (space.index + 1) with
  | nil => simp; omega
  | cons s rest =>
    dsimp only
    have hsum : space.segments[space.index].size - space.cursor +
        ((s :: rest).map Segment.size).sum = s.size - 0 + (rest.map Segment.size).sum := by
      rw [List.map_cons, List.sum_cons]
      omega
    rw [hsum]

end NMiner

open Js (Number)
open Js.Number

namespace NMiner

namespace Raw

open Transition

/-! ### Exact numbers -/

def ofGrant (g : NMiner.Grant) : Grant :=
  { start_nonce := fin g.start_nonce, nonce_limit := fin g.nonce_limit }

/-- Whole numbers of the size of the nonce space do not overflow. -/
theorem small {n : ℤ} (hlow : -2 ^ 63 ≤ n) (hhigh : n ≤ 2 ^ 63) : |(n : ℚ)| < Js.OVERFLOW := by
  have habs : |(n : ℚ)| ≤ 2 ^ 63 := by
    rw [abs_le]
    constructor
    · exact_mod_cast hlow
    · exact_mod_cast hhigh
  exact lt_of_le_of_lt habs (lt_trans (by norm_num) lt_overflow)

theorem add_whole {a b : ℤ} (hlow : -2 ^ 63 ≤ a + b) (hhigh : a + b ≤ 2 ^ 63) :
    add (fin a) (fin b) = fin ((a + b : ℤ) : ℚ) := by
  rw [add_fin (by exact_mod_cast small hlow hhigh), Int.cast_add]

theorem sub_whole {a b : ℤ} (hlow : -2 ^ 63 ≤ a - b) (hhigh : a - b ≤ 2 ^ 63) :
    sub (fin a) (fin b) = fin ((a - b : ℤ) : ℚ) := by
  rw [sub_fin (by exact_mod_cast small hlow hhigh), Int.cast_sub]

/-! ### One round of the loop -/

variable {space : Space} {segment : Segment} {count : Number} {fuel : ℕ}

theorem take_end (h : space.segments[space.index]? = none) :
    take (fuel + 1) space count = some (none, space) := by
  rw [take, h]

theorem take_skip {left : Number} (h : space.segments[space.index]? = some segment)
    (hleft : sub (size segment) space.cursor = left) (hzero : le left (fin 0) = true) :
    take (fuel + 1) space count =
      take fuel { space with index := space.index + 1, cursor := fin 0 } count := by
  rw [take, h]
  dsimp only
  rw [hleft, if_pos hzero]

theorem take_cut {left n start limit : Number} (h : space.segments[space.index]? = some segment)
    (hleft : sub (size segment) space.cursor = left) (hzero : le left (fin 0) = false)
    (hsize : min (max (fin 1) (floor count)) left = n)
    (hstart : add (base segment) space.cursor = start)
    (hlimit : min (add start n) (fin TOP) = limit) :
    take (fuel + 1) space count =
      if lt start limit then
        some (some { start_nonce := start, nonce_limit := limit },
          { space with cursor := add space.cursor n })
      else take fuel { space with cursor := add space.cursor n } count := by
  rw [take, h]
  dsimp only
  rw [hleft, if_neg (by rw [hzero]; decide), hsize, hstart, hlimit]

theorem index_whole {space : NonceSpace} (hi : space.index < space.segments.length) :
    (Yard.ofSpace space).segments[(Yard.ofSpace space).index]? = some space.segments[space.index] :=
  List.getElem?_eq_getElem hi

theorem left_whole {space : NonceSpace} (h : space.Sized)
    (hi : space.index < space.segments.length) :
    sub (size space.segments[space.index]) (Yard.ofSpace space).cursor =
      fin ((space.segments[space.index].size - space.cursor : ℤ) : ℚ) := by
  obtain ⟨hbase, hsize, hend⟩ := h.within _ (List.getElem_mem hi)
  have hlow := h.low
  have hhigh := h.high hi
  exact sub_whole (by omega) (by omega)

/-- A round that cuts, in exact numbers. -/
theorem take_cut_whole {space : NonceSpace} (h : space.Sized) (count : ℚ)
    (hi : space.index < space.segments.length) {n start limit : ℤ}
    (hleft : ¬ space.segments[space.index].size - space.cursor ≤ 0)
    (hn : n = Min.min (Max.max 1 ⌊count⌋) (space.segments[space.index].size - space.cursor))
    (hstart : start = space.segments[space.index].base + space.cursor)
    (hlimit : limit = Min.min (start + n) TOP) (fuel : ℕ) :
    take (fuel + 1) (Yard.ofSpace space) (fin count) =
      if limit > start then
        some (some (ofGrant ⟨start, limit⟩), Yard.ofSpace { space with cursor := space.cursor + n })
      else take fuel (Yard.ofSpace { space with cursor := space.cursor + n }) (fin count) := by
  obtain ⟨hbase, hsize, hend⟩ := h.within _ (List.getElem_mem hi)
  have hlow := h.low
  have hhigh := h.high hi
  have hcursor : add (fin space.cursor) (fin n) = fin ((space.cursor + n : ℤ) : ℚ) :=
    add_whole (by omega) (by omega)
  have hzero : le (fin ((space.segments[space.index].size - space.cursor : ℤ) : ℚ))
    (fin 0) = false := by
    rw [le_fin]
    exact decide_eq_false (by exact_mod_cast hleft)
  have hcount : min (max (fin 1) (floor (fin count)))
      (fin ((space.segments[space.index].size - space.cursor : ℤ) : ℚ)) = fin (n : ℚ) := by
    rw [floor, max_fin, min_fin, hn, Int.cast_min, Int.cast_max, Int.cast_one]
  have hbegin : add (base space.segments[space.index]) (Yard.ofSpace space).cursor =
      fin (start : ℚ) := by
    rw [hstart]
    exact add_whole (by omega) (by omega)
  have hend : min (add (fin (start : ℚ)) (fin (n : ℚ))) (fin TOP) = fin (limit : ℚ) := by
    rw [add_whole (by omega) (by omega), min_fin, hlimit, Int.cast_min]
  rw [take_cut (index_whole hi) (left_whole h hi) hzero hcount hbegin hend]
  have hadvance :
    ({ Yard.ofSpace space with cursor := add (Yard.ofSpace space).cursor (fin (n : ℚ)) } :
      Space) = Yard.ofSpace { space with cursor := space.cursor + n } := by
    change ({ Yard.ofSpace space with cursor := add (fin space.cursor) (fin n) } : Space) = _
    rw [hcursor]
    rfl
  rw [hadvance, lt_fin]
  by_cases hlt : start < limit
  · rw [if_pos (decide_eq_true (by exact_mod_cast hlt)), if_pos hlt]
    rfl
  · rw [if_neg (by simpa using hlt), if_neg hlt]

/-- A finite count: the loop does what the exact one does, given enough fuel. -/
theorem take_whole {space : NonceSpace} (h : space.Sized) (count : ℚ) : ∃ n, ∀ fuel, n ≤ fuel →
    take fuel (Yard.ofSpace space) (fin count) =
      some ((NMiner.take space count).1.map ofGrant, Yard.ofSpace (NMiner.take space count).2) := by
  fun_induction NMiner.take space count with
  | case1 space hi segment left hleft ih =>
    obtain ⟨n, hn⟩ := ih h.next
    refine ⟨n + 1, fun fuel hfuel => ?_⟩
    obtain ⟨fuel, rfl⟩ : ∃ k, fuel = k + 1 := ⟨fuel - 1, by omega⟩
    have hzero : le (fin ((space.segments[space.index].size - space.cursor : ℤ) : ℚ))
      (fin 0) = true := by
      rw [le_fin]
      exact decide_eq_true (by exact_mod_cast hleft)
    rw [take_skip (index_whole hi) (left_whole h hi) hzero]
    have hnext := hn fuel (by omega)
    simpa only [Yard.ofSpace, Int.cast_zero] using hnext
  | case2 space hi segment left hleft size start limit rest hlimit =>
    refine ⟨1, fun fuel hfuel => ?_⟩
    obtain ⟨fuel, rfl⟩ : ∃ k, fuel = k + 1 := ⟨fuel - 1, by omega⟩
    rw [take_cut_whole h count hi hleft rfl rfl rfl, if_pos hlimit]
    rfl
  | case3 space hi segment left hleft size start limit rest hlimit ih =>
    have hrest : rest.Sized := h.advance hi (by omega) (min_le_right _ _)
    obtain ⟨n, hn⟩ := ih hrest
    refine ⟨n + 1, fun fuel hfuel => ?_⟩
    obtain ⟨fuel, rfl⟩ : ∃ k, fuel = k + 1 := ⟨fuel - 1, by omega⟩
    rw [take_cut_whole h count hi hleft rfl rfl rfl, if_neg hlimit]
    exact hn fuel (by omega)
  | case4 space hi =>
    refine ⟨1, fun fuel hfuel => ?_⟩
    obtain ⟨fuel, rfl⟩ : ∃ k, fuel = k + 1 := ⟨fuel - 1, by omega⟩
    exact take_end (List.getElem?_eq_none (not_lt.mp hi))

/-! ### NaN -/

/-- With NaN for a count and NaN for a cursor nothing ever changes. -/
theorem take_stuck (fuel : ℕ) {space : Space} (hi : space.index < space.segments.length)
    (hcursor : space.cursor = nan) : take fuel space nan = none := by
  induction fuel generalizing space with
  | zero => rfl
  | succ fuel ih =>
    have hleft : sub (size space.segments[space.index]) space.cursor = nan := by
      rw [hcursor, sub_nan]
    have hstart : add (base space.segments[space.index]) space.cursor = nan := by
      rw [hcursor, add_nan]
    rw [take_cut (List.getElem?_eq_getElem hi) hleft rfl rfl hstart rfl]
    exact ih hi (by rw [hcursor, nan_add])

/-- NaN for a count: the first segment that is not used up is never left. -/
theorem take_nan {space : NonceSpace} (h : space.Sized) (hleft : 0 < NMiner.spaceLeft space)
    (fuel : ℕ) : take fuel (Yard.ofSpace space) nan = none := by
  fun_induction NMiner.take space 0 generalizing fuel with
  | case1 space hi segment left hzero ih =>
    cases fuel with
    | zero => rfl
    | succ fuel =>
      have hskip : le (fin ((space.segments[space.index].size - space.cursor : ℤ) : ℚ)) (fin 0) =
          true := by
        rw [le_fin]
        exact decide_eq_true (by exact_mod_cast hzero)
      rw [take_skip (index_whole hi) (left_whole h hi) hskip]
      have hnext := ih h.next (by rw [spaceLeft_next h hi hzero]; exact hleft) fuel
      simpa only [Yard.ofSpace, Int.cast_zero] using hnext
  | case2 space hi segment left hpos | case3 space hi segment left hpos =>
    cases fuel with
    | zero => rfl
    | succ fuel =>
      have hzero : le (fin ((space.segments[space.index].size - space.cursor : ℤ) : ℚ)) (fin 0) =
          false := by
        rw [le_fin]
        exact decide_eq_false (by exact_mod_cast hpos)
      have hcount : min (max (fin 1) (floor nan))
          (fin ((space.segments[space.index].size - space.cursor : ℤ) : ℚ)) = nan := rfl
      rw [take_cut (index_whole hi) (left_whole h hi) hzero hcount rfl rfl]
      have hlimit :
        min (add (add (base space.segments[space.index]) (Yard.ofSpace space).cursor) nan)
          (fin TOP) = nan := by rw [add_nan, nan_min]
      rw [hlimit, lt_nan, if_neg (by decide)]
      have hcursor : add (Yard.ofSpace space).cursor nan = nan := add_nan _
      exact take_stuck fuel hi hcursor
  | case4 space hi =>
    unfold NMiner.spaceLeft at hleft
    rw [List.drop_eq_nil_of_le (not_lt.mp hi)] at hleft
    exact absurd hleft (lt_irrefl 0)

/-! ### `spaceLeft` -/

theorem foldl_whole (rest : List Segment) (a : ℤ) (ha : 0 ≤ a)
    (hrest : ∀ s ∈ rest, 0 ≤ s.size ∧ s.size ≤ 2 ^ 32) (hlen : a ≤ 2 ^ 32 * (300 - rest.length))
    (hfew : rest.length ≤ 300) :
    rest.foldl (fun left s => add left (size s)) (fin a) =
      fin ((a + (rest.map Segment.size).sum : ℤ) : ℚ) := by
  induction rest generalizing a with
  | nil => simp
  | cons s rest ih =>
    obtain ⟨hlow, hhigh⟩ := hrest s List.mem_cons_self
    simp only [List.length_cons, Nat.cast_add, Nat.cast_one] at hlen hfew
    rw [List.foldl_cons, size, add_whole (by omega) (by omega), ih (a + s.size) (by omega)
      (fun t ht => hrest t (List.mem_cons_of_mem _ ht)) (by omega) (by omega), List.map_cons,
      List.sum_cons, add_assoc]

theorem spaceLeft_whole {space : NonceSpace} (h : space.Sized) :
    spaceLeft (Yard.ofSpace space) = fin (NMiner.spaceLeft space : ℚ) := by
  have hclamp : ∀ left : ℤ, (if lt (fin 0) (fin (left : ℚ)) then fin (left : ℚ) else fin 0) =
      fin ((if 0 < left then left else 0 : ℤ) : ℚ) := by
    intro left
    rw [lt_fin]
    split_ifs with h1 h2 h2
    · rfl
    · exact absurd (by exact_mod_cast of_decide_eq_true h1) h2
    · exact absurd (decide_eq_true (by exact_mod_cast h2)) h1
    · simp
  have hdrop : (Yard.ofSpace space).segments.drop (Yard.ofSpace space).index =
      space.segments.drop space.index := rfl
  unfold spaceLeft NMiner.spaceLeft
  rw [hdrop]
  by_cases hi : space.index < space.segments.length
  · obtain ⟨hbase, hsize, hend⟩ := h.within _ (List.getElem_mem hi)
    have hlow := h.low
    have hhigh := h.high hi
    have hfew := h.few
    have hlen : (space.segments.drop (space.index + 1)).length ≤ 257 := by
      rw [List.length_drop]
      omega
    have hsum := foldl_whole (space.segments.drop (space.index + 1))
      (space.segments[space.index].size - space.cursor) (by omega) (fun s hs => by
        obtain ⟨hb, hs, he⟩ := h.within s (List.mem_of_mem_drop hs)
        exact ⟨hs, by omega⟩) (by omega) (by omega)
    rw [List.drop_eq_getElem_cons hi]
    dsimp only
    rw [← hclamp, ← hsum, ← left_whole h hi]
  · rw [List.drop_eq_nil_of_le (not_lt.mp hi)]
    exact hclamp 0

/-! ### `chunkSize` -/

theorem chunkSize_fin {rate share : Number} (hrate : lt (fin 0) rate = true)
    (hshare : Above share) (deadline : ℚ) : ∃ x, chunkSize rate share (fin deadline) = fin x := by
  have hwindow : lt (fin 0) (max (fin 1) (min (fin CHUNK_SECONDS) (fin deadline))) = true := by
    rw [min_fin, max_fin, lt_fin]
    exact decide_eq_true (lt_of_lt_of_le one_pos (le_max_left _ _))
  have hwanted := (mul_above hrate hwindow).ceil
  have hroom := hshare.max (above_fin MIN_CHUNK)
  obtain ⟨y, hy⟩ := (hwanted.min hroom).min_fin MAX_CHUNK
  unfold chunkSize
  rw [if_pos hrate]
  dsimp only
  rw [hy]
  exact ⟨_, max_fin _ _⟩

theorem chunkSize_nan (rate deadline : Number) : chunkSize rate nan deadline = nan := by
  unfold chunkSize
  dsimp only
  rw [nan_max, min_nan, min_nan, max_nan]

namespace Yard

/-- What `grant` passes to `chunkSize` for the miner's share of what is left. -/
def share (y : Yard) (l : LinkId) (c : ClientId) : Number :=
  if lt (fin 0) (y.load l) then mul (spaceLeft (y.space l)) (div (y.rateOf c) (y.load l))
  else spaceLeft (y.space l)

theorem rateOf_pos (y : Yard) (c : ClientId) : lt (fin 0) (y.rateOf c) = true := by
  unfold rateOf
  split_ifs with h
  · exact h
  · rfl

theorem rateOf_eq {y : Yard} {c : ClientId} {hashrate : Number} (h : y.hashrate c = hashrate)
    (hpos : lt (fin 0) hashrate = true) : y.rateOf c = hashrate := by
  rw [rateOf, h, if_pos hpos]

theorem share_above {y : Yard} {l : LinkId} {c : ClientId} {left : ℚ}
    (hleft : spaceLeft (y.space l) = fin left) (hpos : 0 < left)
    (h : ¬ (y.rateOf c = inf ∧ y.load l = inf)) : Above (y.share l c) := by
  unfold share
  rw [hleft]
  split_ifs with hload
  · rcases div_pos_cases (y.rateOf_pos c) hload with hq | hq | hq
    · have hzero : mul (fin left) (fin 0) = fin 0 := by
        rw [mul, mul_zero, ofRat_of_lt (by rw [abs_zero]; exact overflow_pos)]
      rw [hq, hzero]
      exact above_fin 0
    · exact mul_above (decide_eq_true hpos) hq
    · exact absurd hq h
  · exact above_fin left

theorem share_nan {y : Yard} {l : LinkId} {c : ClientId} (hrate : y.rateOf c = inf)
    (hload : y.load l = inf) : y.share l c = nan := by
  unfold share
  rw [hrate, hload]
  exact mul_nan (spaceLeft (y.space l))

/-! ### `grant` -/

/-- The link has something to grant. -/
def Room (y : Yard) (l : LinkId) : Prop := le (spaceLeft (y.space l)) (fin 0) = false

/-- Every space is one of exact numbers, and so is every range granted. -/
structure Whole (y : Yard) : Prop where
  spaces : ∀ l, ∃ space : NonceSpace, space.Sized ∧ y.space l = ofSpace space
  grants : ∀ g ∈ y.grants, ∃ range : Option NMiner.Grant, g = range.map ofGrant

theorem whole_of_same {y v : Yard} (h : y.Whole) (hspace : v.space = y.space)
    (hgrants : v.grants = y.grants) : v.Whole :=
  ⟨hspace ▸ h.spaces, hgrants ▸ h.grants⟩

theorem granted_whole {y : Yard} (h : y.Whole) (l : LinkId) {space : NonceSpace} (hs : space.Sized)
    (range : Option NMiner.Grant) : Whole { y with
      space := Function.update y.space l (ofSpace space),
      grants := y.grants ++ [range.map ofGrant] } := by
  refine ⟨fun m => ?_, fun g hg => ?_⟩
  · dsimp only
    rw [Function.update_apply]
    split_ifs
    · exact ⟨space, hs, rfl⟩
    · exact h.spaces m
  · rcases List.mem_append.mp hg with hg | hg
    · exact h.grants g hg
    · exact ⟨range, List.mem_singleton.mp hg⟩

theorem grant_eq (y : Yard) (fuel : ℕ) (l : LinkId) (c : ClientId) (deadline : ℚ) :
    y.grant fuel l c deadline =
      if le (spaceLeft (y.space l)) (fin 0) then some
        (none, { y with grants := y.grants ++ [none] })
      else (take fuel (y.space l) (chunkSize (y.rateOf c) (y.share l c) (fin deadline))).map
        fun (range, space) => (range, { y with
          space := Function.update y.space l space, grants := y.grants ++ [range] }) := rfl

/-- Unless rate and load are infinite `grant` returns, and leaves exact numbers. -/
theorem grant_returns {y : Yard} (h : y.Whole) {l : LinkId} {c : ClientId} (deadline : ℚ)
    (hfree : ¬ (y.Room l ∧ y.rateOf c = inf ∧ y.load l = inf)) : ∃ n range v, v.Whole ∧
      ∀ fuel, n ≤ fuel → y.grant fuel l c deadline = some (range, v) := by
  obtain ⟨space, hs, hspace⟩ := h.spaces l
  by_cases hroom : le (spaceLeft (y.space l)) (fin 0) = true
  · refine ⟨0, none, { y with grants := y.grants ++ [none] }, ⟨h.spaces, fun g hg => ?_⟩,
      fun fuel _ => ?_⟩
    · rcases List.mem_append.mp hg with hg | hg
      · exact h.grants g hg
      · exact ⟨none, List.mem_singleton.mp hg⟩
    · rw [grant_eq, if_pos hroom]
  · have hleft := spaceLeft_whole hs
    rw [← hspace] at hleft
    have hpos : (0 : ℚ) < NMiner.spaceLeft space := by
      rw [hleft, le_fin] at hroom
      exact not_le.mp fun hle => hroom (decide_eq_true hle)
    have hshare := share_above (c := c) hleft hpos fun hinf =>
      hfree ⟨Bool.eq_false_iff.mpr hroom, hinf⟩
    obtain ⟨count, hcount⟩ := chunkSize_fin (y.rateOf_pos c) hshare deadline
    obtain ⟨n, hn⟩ := take_whole hs count
    refine ⟨n, (NMiner.take space count).1.map ofGrant, _,
      granted_whole h l (take_sized hs count) (NMiner.take space count).1, fun fuel hfuel => ?_⟩
    rw [grant_eq, if_neg hroom, hcount, hspace, hn fuel hfuel]
    rfl

/-- With both infinite it never does. -/
theorem grant_endless {y : Yard} (h : y.Whole) {l : LinkId} {c : ClientId} (hroom : y.Room l)
    (hrate : y.rateOf c = inf) (hload : y.load l = inf) (deadline : ℚ) (fuel : ℕ) :
    y.grant fuel l c deadline = none := by
  obtain ⟨space, hs, hspace⟩ := h.spaces l
  have hleft := spaceLeft_whole hs
  have hpos : 0 < NMiner.spaceLeft space := by
    unfold Room at hroom
    rw [hspace, hleft, le_fin] at hroom
    exact_mod_cast not_le.mp (of_decide_eq_false hroom)
  rw [grant_eq, if_neg (by rw [hroom]; decide), share_nan hrate hload, chunkSize_nan, hspace,
    take_nan hs hpos]
  rfl

/-! ### One call -/

/-- The calls that never return: there is something to grant, the miner's rate is infinite once it
is reported or housed, and so is the load of the link with it. -/
def Endless (y : Yard) : Action → Prop
  | .login c l threads _ => y.Room l ∧ seedRate threads = inf ∧
      (y.evict c).load l ≠ nan ∧ (y.evict c).load l ≠ negInf
  | .chunk c hashrate _ => ∃ l, y.homes c = some l ∧ y.Room l ∧
      if hashrate = some inf then y.rateOf c ≠ inf ∧ y.load l ≠ nan ∧ y.load l ≠ negInf
      else (∀ h, hashrate = some h → lt (fin 0) h = false) ∧ y.rateOf c = inf ∧ y.load l = inf
  | .fanout l c _ => y.Room l ∧ y.rateOf c = inf ∧ y.load l = inf
  | .move c l _ => y.homes c ≠ none ∧ y.Room l ∧ y.rateOf c = inf ∧
      (y.evict c).load l ≠ nan ∧ (y.evict c).load l ≠ negInf
  | _ => False

theorem evict_space (y : Yard) (c : ClientId) :
    (y.evict c).space = y.space ∧ (y.evict c).grants = y.grants ∧
      (y.evict c).hashrate = y.hashrate := by
  unfold evict
  cases y.homes c <;> exact ⟨rfl, rfl, rfl⟩

theorem report_space (y : Yard) (c : ClientId) (hashrate : Number) :
    (y.report c hashrate).space = y.space ∧ (y.report c hashrate).grants = y.grants ∧
      (y.report c hashrate).homes = y.homes := by
  unfold report
  split_ifs
  · cases y.homes c <;> exact ⟨rfl, rfl, rfl⟩
  · exact ⟨rfl, rfl, rfl⟩

theorem evict_whole {y : Yard} (h : y.Whole) (c : ClientId) : (y.evict c).Whole :=
  whole_of_same h (y.evict_space c).1 (y.evict_space c).2.1

theorem house_whole {y : Yard} (h : y.Whole) (l : LinkId) (c : ClientId) : (y.house l c).Whole :=
  whole_of_same h rfl rfl

theorem report_whole {y : Yard} (h : y.Whole) (c : ClientId) (hashrate : Number) :
    (y.report c hashrate).Whole :=
  whole_of_same h (y.report_space c hashrate).1 (y.report_space c hashrate).2.1

theorem house_load (y : Yard) (l : LinkId) (c : ClientId) :
    (y.house l c).load l = add (y.load l) (y.rateOf c) := by
  change Function.update y.load l _ l = _
  rw [Function.update_self]

/-- What a miner at an infinite rate makes of the load of its link. -/
theorem house_inf {y : Yard} {l : LinkId} {c : ClientId} (hrate : y.rateOf c = inf) :
    (y.house l c).load l = inf ↔ y.load l ≠ nan ∧ y.load l ≠ negInf := by
  rw [house_load, hrate, add_inf_eq_inf]

theorem seedRate_pos (threads : Option Number) : lt (fin 0) (seedRate threads) = true := by
  unfold seedRate
  dsimp only
  split_ifs with h
  · exact h
  · rfl

/-- The yard of a login in front of its grant. -/
def seated (y : Yard) (c : ClientId) (l : LinkId) (threads : Option Number) : Yard :=
  ((y.evict c).setHashrate c (seedRate threads)).house l c

theorem seated_rate (y : Yard) (c : ClientId) (threads : Option Number) :
    ((y.evict c).setHashrate c (seedRate threads)).rateOf c = seedRate threads :=
  rateOf_eq (Function.update_self ..) (seedRate_pos threads)

theorem seated_whole {y : Yard} (h : y.Whole) (c : ClientId) (l : LinkId)
    (threads : Option Number) : (y.seated c l threads).Whole := by
  have hset : ((y.evict c).setHashrate c (seedRate threads)).Whole :=
    whole_of_same (evict_whole h c) rfl rfl
  exact house_whole hset l c

theorem seated_endless (y : Yard) (c : ClientId) (l : LinkId) (threads : Option Number)
    (deadline : ℚ) : y.Endless (.login c l threads deadline) ↔
      (y.seated c l threads).Room l ∧ (y.seated c l threads).rateOf c = inf ∧
        (y.seated c l threads).load l = inf := by
  have hroom : (y.seated c l threads).Room l ↔ y.Room l := by
    unfold Room
    rw [show (y.seated c l threads).space = y.space from (y.evict_space c).1]
  have hrate : (y.seated c l threads).rateOf c = seedRate threads := seated_rate y c threads
  rw [hroom, hrate]
  change _ ∧ _ ↔ _
  refine and_congr_right fun _ => and_congr_right fun hinf => ?_
  exact (house_inf ((seated_rate y c threads).trans hinf)).symm

/-- The yard of a chunk request in front of its grant. -/
def reported (y : Yard) (c : ClientId) : Option Number → Yard
  | some h => y.report c h
  | none => y

theorem reported_whole {y : Yard} (h : y.Whole) (c : ClientId) (hashrate : Option Number) :
    (y.reported c hashrate).Whole := by
  cases hashrate with
  | none => exact h
  | some x => exact report_whole h c x

theorem reported_space (y : Yard) (c : ClientId) (hashrate : Option Number) :
    (y.reported c hashrate).space = y.space ∧ (y.reported c hashrate).homes = y.homes := by
  cases hashrate with
  | none => exact ⟨rfl, rfl⟩
  | some x => exact ⟨(y.report_space c x).1, (y.report_space c x).2.2⟩

/-- A hashrate that is no positive number is not reported. -/
theorem report_ignored (y : Yard) (c : ClientId) {hashrate : Number}
    (h : lt (fin 0) hashrate = false) : y.report c hashrate = y := by
  rw [report, if_neg (by rw [h]; decide)]

theorem report_rate (y : Yard) (c : ClientId) {hashrate : Number}
    (h : lt (fin 0) hashrate = true) : (y.report c hashrate).rateOf c = hashrate := by
  refine rateOf_eq ?_ h
  rw [report, if_pos h]
  exact Function.update_self ..

theorem report_load (y : Yard) {c : ClientId} {l : LinkId} (hhome : y.homes c = some l)
    {hashrate : Number} (h : lt (fin 0) hashrate = true) :
    (y.report c hashrate).load l = add (y.load l) (sub hashrate (y.rateOf c)) := by
  unfold report
  rw [if_pos h, hhome]
  dsimp only [setHashrate, setLoad]
  rw [Function.update_self]

/-- An infinite report makes a load infinite unless it was infinite or undefined before. -/
theorem report_inf (y : Yard) {c : ClientId} {l : LinkId} (hhome : y.homes c = some l) :
    (y.report c inf).load l = inf ↔ y.rateOf c ≠ inf ∧ y.load l ≠ nan ∧ y.load l ≠ negInf := by
  rw [report_load y hhome rfl]
  obtain ⟨x, hx⟩ | hx := above_of_pos (y.rateOf_pos c) <;> rw [hx]
  · rw [show sub inf (fin x) = inf from rfl, add_inf_eq_inf]
    simp
  · rw [show sub inf inf = nan from rfl, add_nan]
    simp

theorem reported_endless (y : Yard) {c : ClientId} {l : LinkId} (hhome : y.homes c = some l)
    (hashrate : Option Number) (deadline : ℚ) : y.Endless (.chunk c hashrate deadline) ↔
      (y.reported c hashrate).Room l ∧ (y.reported c hashrate).rateOf c = inf ∧
        (y.reported c hashrate).load l = inf := by
  have hroom : (y.reported c hashrate).Room l ↔ y.Room l := by
    unfold Room
    rw [(y.reported_space c hashrate).1]
  have hhere : y.Endless (.chunk c hashrate deadline) ↔ y.Room l ∧
      if hashrate = some inf then y.rateOf c ≠ inf ∧ y.load l ≠ nan ∧ y.load l ≠ negInf
      else (∀ h, hashrate = some h → lt (fin 0) h = false) ∧ y.rateOf c = inf ∧ y.load l = inf := by
    constructor
    · rintro ⟨m, hm, h⟩
      obtain rfl := Option.some.inj (hhome.symm.trans hm)
      exact h
    · exact fun h => ⟨l, hhome, h⟩
  rw [hhere, hroom]
  refine and_congr_right fun _ => ?_
  cases hashrate with
  | none =>
    rw [if_neg (by simp)]
    exact and_iff_right (by simp)
  | some h =>
    change _ ↔ (y.report c h).rateOf c = inf ∧ (y.report c h).load l = inf
    by_cases hinf : h = inf
    · subst hinf
      rw [if_pos rfl, report_inf y hhome]
      exact (and_iff_right (report_rate y c rfl)).symm
    · rw [if_neg (by simpa using hinf)]
      cases hpos : lt (fin 0) h with
      | false =>
        rw [report_ignored y c hpos]
        exact and_iff_right fun x hx => by rw [← Option.some.inj hx, hpos]
      | true =>
        rw [report_rate y c hpos]
        refine iff_of_false (fun hx => ?_) fun hx => hinf hx.1
        have := hx.1 h rfl
        rw [hpos] at this
        cases this

theorem moved_endless (y : Yard) {c : ClientId} {source : LinkId} (hhome : y.homes c = some source)
    (l : LinkId) (deadline : ℚ) : y.Endless (.move c l deadline) ↔
      ((y.evict c).house l c).Room l ∧ ((y.evict c).house l c).rateOf c = inf ∧
        ((y.evict c).house l c).load l = inf := by
  have hrate : (y.evict c).rateOf c = y.rateOf c := by
    unfold rateOf
    rw [(y.evict_space c).2.2]
  have hroom : ((y.evict c).house l c).Room l ↔ y.Room l := by
    unfold Room
    rw [show ((y.evict c).house l c).space = y.space from (y.evict_space c).1]
  have hhere : y.Endless (.move c l deadline) ↔ y.Room l ∧ y.rateOf c = inf ∧
      (y.evict c).load l ≠ nan ∧ (y.evict c).load l ≠ negInf := by
    change _ ∧ _ ↔ _
    rw [hhome]
    exact and_iff_right (by simp)
  rw [hhere, hroom, show ((y.evict c).house l c).rateOf c = y.rateOf c from hrate]
  refine and_congr_right fun _ => and_congr_right fun hinf => ?_
  exact (house_inf (hrate.trans hinf)).symm

/-! ### More fuel -/

theorem take_mono {fuel : ℕ} {space : Space} {count : Number} {r : Option Grant × Space}
    (h : take fuel space count = some r) {more : ℕ} (hle : fuel ≤ more) :
    take more space count = some r := by
  induction fuel generalizing space more with
  | zero => cases h
  | succ fuel ih =>
    obtain ⟨more, rfl⟩ : ∃ k, more = k + 1 := ⟨more - 1, by omega⟩
    have hle : fuel ≤ more := by omega
    unfold take at h ⊢
    cases hseg : space.segments[space.index]? with
    | none =>
      rw [hseg] at h
      exact h
    | some segment =>
      rw [hseg] at h
      dsimp only at h ⊢
      split_ifs at h ⊢
      · exact ih h hle
      · exact h
      · exact ih h hle

theorem grant_mono {y : Yard} {fuel : ℕ} {l : LinkId} {c : ClientId} {deadline : ℚ}
    {r : Option Grant × Yard} (h : y.grant fuel l c deadline = some r) {more : ℕ}
    (hle : fuel ≤ more) : y.grant more l c deadline = some r := by
  rw [grant_eq] at h ⊢
  split_ifs at h ⊢
  · exact h
  · obtain ⟨taken, htake, rfl⟩ := Option.map_eq_some_iff.mp h
    rw [take_mono htake hle]
    rfl

/-- What becomes of a login's yard once its grant is made. -/
def loggedIn (c : ClientId) (r : Option Grant × Yard) : Yard :=
  if r.1.isNone then r.2.evict c else r.2

/-- What becomes of a migration's. -/
def moved (c : ClientId) (source : LinkId) (r : Option Grant × Yard) : Yard :=
  if r.1.isNone then (r.2.evict c).house source c else r.2

theorem step_login (fuel : ℕ) (y : Yard) (c : ClientId) (l : LinkId) (threads : Option Number)
    (deadline : ℚ) : y.step fuel (.login c l threads deadline) =
      ((y.seated c l threads).grant fuel l c deadline).map (loggedIn c) := rfl

theorem step_chunk {y : Yard} {c : ClientId} {l : LinkId} (hhome : y.homes c = some l) (fuel : ℕ)
    (hashrate : Option Number) (deadline : ℚ) : y.step fuel (.chunk c hashrate deadline) =
      ((y.reported c hashrate).grant fuel l c deadline).map Prod.snd := by
  have hsame := (y.reported_space c hashrate).2
  cases hashrate <;> simp only [step, reported] at hsame ⊢ <;> simp only [hsame, hhome]

theorem step_chunk_none {y : Yard} {c : ClientId} (hhome : y.homes c = none) (fuel : ℕ)
    (hashrate : Option Number) (deadline : ℚ) :
    y.step fuel (.chunk c hashrate deadline) = some (y.reported c hashrate) := by
  have hsame := (y.reported_space c hashrate).2
  cases hashrate <;> simp only [step, reported] at hsame ⊢ <;> simp only [hsame, hhome]

theorem step_move {y : Yard} {c : ClientId} {source : LinkId} (hhome : y.homes c = some source)
    (fuel : ℕ) (l : LinkId) (deadline : ℚ) : y.step fuel (.move c l deadline) =
      (((y.evict c).house l c).grant fuel l c deadline).map (moved c source) := by
  simp only [step, hhome]
  rfl

theorem step_move_none {y : Yard} {c : ClientId} (hhome : y.homes c = none) (fuel : ℕ) (l : LinkId)
    (deadline : ℚ) : y.step fuel (.move c l deadline) = some y := by
  simp only [step, hhome]

theorem map_mono {y v : Yard} {fuel : ℕ} {l : LinkId} {c : ClientId} {deadline : ℚ}
    {f : Option Grant × Yard → Yard} (h : (y.grant fuel l c deadline).map f = some v) {more : ℕ}
    (hle : fuel ≤ more) : (y.grant more l c deadline).map f = some v := by
  obtain ⟨r, hr, rfl⟩ := Option.map_eq_some_iff.mp h
  rw [grant_mono hr hle]
  rfl

theorem step_mono {y v : Yard} {fuel : ℕ} {a : Action} (h : y.step fuel a = some v) {more : ℕ}
    (hle : fuel ≤ more) : y.step more a = some v := by
  cases a with
  | login c l threads deadline => exact map_mono h hle
  | chunk c hashrate deadline =>
    cases hhome : y.homes c with
    | none =>
      rw [step_chunk_none hhome] at h ⊢
      exact h
    | some l =>
      rw [step_chunk hhome] at h ⊢
      exact map_mono h hle
  | report c hashrate => exact h
  | job l slot dealt => exact h
  | fanout l c deadline => exact map_mono h hle
  | move c l deadline =>
    cases hhome : y.homes c with
    | none =>
      rw [step_move_none hhome] at h ⊢
      exact h
    | some source =>
      rw [step_move hhome] at h ⊢
      exact map_mono h hle
  | detach c => exact h

/-! ### Every call -/

/-- A call that grants in the yard `w` returns exactly if the grant does. -/
theorem granting_spec {w : Yard} (hw : w.Whole) {l : LinkId} {c : ClientId} (deadline : ℚ)
    {f : Option Grant × Yard → Yard} (hf : ∀ r, r.2.Whole → (f r).Whole) :
    (¬ (w.Room l ∧ w.rateOf c = inf ∧ w.load l = inf) → ∃ fuel v, v.Whole ∧
      (w.grant fuel l c deadline).map f = some v) ∧
    (w.Room l ∧ w.rateOf c = inf ∧ w.load l = inf → ∀ fuel,
      (w.grant fuel l c deadline).map f = none) := by
  constructor
  · intro hfree
    obtain ⟨n, range, v, hv, hgrant⟩ := grant_returns hw deadline hfree
    refine ⟨n, f (range, v), hf _ hv, ?_⟩
    rw [hgrant n le_rfl]
    rfl
  · rintro ⟨hroom, hrate, hload⟩ fuel
    rw [grant_endless hw hroom hrate hload]
    rfl

theorem step_spec {y : Yard} (h : y.Whole) (a : Action) :
    (¬ y.Endless a → ∃ fuel v, v.Whole ∧ y.step fuel a = some v) ∧
      (y.Endless a → ∀ fuel, y.step fuel a = none) := by
  cases a with
  | login c l threads deadline =>
    rw [seated_endless]
    simp only [step_login]
    refine granting_spec (seated_whole h c l threads) deadline fun r hr => ?_
    unfold loggedIn
    split_ifs
    · exact evict_whole hr c
    · exact hr
  | chunk c hashrate deadline =>
    cases hhome : y.homes c with
    | none =>
      simp only [step_chunk_none hhome]
      refine ⟨fun _ => ⟨0, _, reported_whole h c hashrate, rfl⟩, fun hend => ?_⟩
      obtain ⟨l, hl, -⟩ := hend
      exact absurd (hhome.symm.trans hl) (by simp)
    | some l =>
      rw [reported_endless y hhome]
      simp only [step_chunk hhome]
      exact granting_spec (reported_whole h c hashrate) deadline fun r hr => hr
  | report c hashrate =>
    exact ⟨fun _ => ⟨0, _, report_whole h c hashrate, rfl⟩, fun hend => hend.elim⟩
  | job l slot dealt =>
    have hjob : Whole { y with
        space := Function.update y.space l (ofSpace (freshSpace slot dealt)) } := by
      refine ⟨fun m => ?_, h.grants⟩
      dsimp only
      rw [Function.update_apply]
      split_ifs
      · exact ⟨_, freshSpace_sized slot dealt, rfl⟩
      · exact h.spaces m
    exact ⟨fun _ => ⟨0, _, hjob, rfl⟩, fun hend => hend.elim⟩
  | fanout l c deadline => exact granting_spec h deadline fun r hr => hr
  | move c l deadline =>
    cases hhome : y.homes c with
    | none =>
      simp only [step_move_none hhome]
      exact ⟨fun _ => ⟨0, y, h, rfl⟩, fun hend => absurd hhome hend.1⟩
    | some source =>
      rw [moved_endless y hhome]
      simp only [step_move hhome]
      refine granting_spec (house_whole (evict_whole h c) l c) deadline fun r hr => ?_
      unfold moved
      split_ifs
      · exact house_whole (evict_whole hr c) source c
      · exact hr
  | detach c => exact ⟨fun _ => ⟨0, _, evict_whole h c, rfl⟩, fun hend => hend.elim⟩

/-- Every call of the sequence returns, and leaves spaces and ranges of finite whole numbers,
exactly if none of them is made where it is endless. -/
theorem granting_ends_iff {y : Yard} (h : y.Whole) (actions : List Action) :
    (∃ fuel v, exec (step fuel) y actions = some v ∧ v.Whole) ↔
      ∀ fuel, Meets (step fuel) (fun y a => ¬ y.Endless a) y actions := by
  induction actions generalizing y with
  | nil => exact iff_of_true ⟨0, y, rfl, h⟩ fun _ => trivial
  | cons a actions ih =>
    constructor
    · rintro ⟨fuel, v, hrun, hv⟩ more
      obtain ⟨m, hm, hrest⟩ := exec_cons_eq_some.mp hrun
      have hfree : ¬ y.Endless a := by
        intro hend
        rw [(step_spec h a).2 hend fuel] at hm
        cases hm
      refine (meets_cons ..).mpr ⟨hfree, fun m' hm' => ?_⟩
      obtain ⟨n, w, hw, hstep⟩ := (step_spec h a).1 hfree
      have heq : w = m := by
        have h1 := step_mono hstep (le_max_left n fuel)
        have h2 := step_mono hm (le_max_right n fuel)
        exact Option.some.inj (h1.symm.trans h2)
      have heq' : m' = m := by
        have h1 := step_mono hm' (le_max_left more fuel)
        have h2 := step_mono hm (le_max_right more fuel)
        exact Option.some.inj (h1.symm.trans h2)
      subst heq heq'
      exact (ih hw).mp ⟨fuel, v, hrest, hv⟩ more
    · intro hmeets
      obtain ⟨hfree, -⟩ := (meets_cons ..).mp (hmeets 0)
      obtain ⟨n, w, hw, hstep⟩ := (step_spec h a).1 hfree
      have hmore : ∀ {k more : ℕ}, k ≤ more → ∀ y a v, step k y a = some v →
        step more y a = some v :=
        fun hle y a v hv => step_mono hv hle
      have hrest : ∀ fuel, Meets (step fuel) (fun y a => ¬ y.Endless a) w actions := by
        intro fuel
        obtain ⟨-, hnext⟩ := (meets_cons ..).mp (hmeets (Max.max n fuel))
        exact meets_of_le (hmore (le_max_right n fuel))
          (hnext w (step_mono hstep (le_max_left n fuel)))
      obtain ⟨fuel, v, hrun, hv⟩ := (ih hw).mpr hrest
      refine ⟨Max.max n fuel, v, ?_, hv⟩
      rw [exec_cons, step_mono hstep (le_max_left n fuel)]
      exact exec_of_le (hmore (le_max_right n fuel)) hrun

/-- A link with a fresh full space and no miner. -/
def fresh : Yard :=
  { load := fun _ => fin 0, space := fun _ => ofSpace fullSpace, homes := fun _ => none
    hashrate := fun _ => fin 1000 }

theorem fresh_whole : fresh.Whole :=
  ⟨fun _ => ⟨fullSpace, freshSpace_sized 0 fun _ => false, rfl⟩, fun _ h =>
    absurd h List.not_mem_nil⟩

/-- Two logins whose rates add up to more than a double holds. -/
theorem granting_ends_overflow : ∃ fuel v, exec (step fuel) fresh
    [.login 0 0 (some (fin (2 ^ 1014))) 20, .login 1 0 (some (fin (2 ^ 1014))) 20] = some v ∧
      v.Whole := by
  have hfinite : seedRate (some (fin (2 ^ 1014))) ≠ inf := by decide +kernel
  refine (granting_ends_iff fresh_whole _).mpr fun fuel => ?_
  exact (meets_cons ..).mpr ⟨fun h => hfinite h.2.1, fun m _ =>
    (meets_cons ..).mpr ⟨fun h => hfinite h.2.1, fun _ _ => trivial⟩⟩

example : add (seedRate (some (fin (2 ^ 1014)))) (seedRate (some (fin (2 ^ 1014)))) = inf := by
  decide +kernel

/-- A first login that states `1e400` threads, which is read as infinity, never returns. -/
theorem login_never_returns : ¬ ∀ y : Yard, y.Whole → ∀ actions,
    ∃ fuel v, exec (step fuel) y actions = some v ∧ v.Whole := by
  intro h
  obtain ⟨fuel, v, hrun, -⟩ := h fresh fresh_whole [.login 0 0 (some inf) 20]
  have hend : fresh.Endless (.login 0 0 (some inf) 20) := by
    refine ⟨?_, rfl, ?_, ?_⟩
    · unfold Room
      decide +kernel
    · decide
    · decide
  obtain ⟨m, hm, -⟩ := exec_cons_eq_some.mp hrun
  rw [(step_spec fresh_whole _).2 hend fuel] at hm
  cases hm

end Yard

end Raw

end NMiner
