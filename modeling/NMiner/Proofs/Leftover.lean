import NMiner.Proofs.NoncePartition
import NMiner.Spec.Link

/-! `spaceLeft` and `take` agree on what a space has left as long as the next piece to be cut off
does not reach the nonce `TOP`, which `spaceLeft` counts and `take` never grants. -/

namespace NMiner

namespace NonceSpace

/-- What is left of the first segment that is not used up: its first nonce and its size. -/
def front (space : NonceSpace) : Option (ℤ × ℤ) :=
  match space.segments.drop space.index with
  | [] => none
  | s :: rest =>
    if s.size - space.cursor ≤ 0 then
      (rest.find? fun s => 0 < s.size).map fun s => (s.base, s.size)
    else some (s.base + space.cursor, s.size - space.cursor)

/-- The next piece of at most `count` nonces ends before the nonce `TOP`. -/
def clears (space : NonceSpace) (count : ℚ) : Bool :=
  space.front.all fun (start, left) => start + min (max 1 ⌊count⌋) left ≤ TOP

/-- A range is cut exactly if `spaceLeft` finds something left, and it finds as much less afterwards
as the range holds. -/
@[mk_iff]
structure Agrees (space : NonceSpace) (count : ℚ) : Prop where
  served : (take space count).1.isSome = true ↔ 0 < spaceLeft space
  left : ∀ g, (take space count).1 = some g →
    spaceLeft (take space count).2 = spaceLeft space - (g.nonce_limit - g.start_nonce)

/-- Segments that are not empty and end in the nonce space, and a cursor inside the current one. -/
structure Sound (space : NonceSpace) : Prop where
  sizes : ∀ s ∈ space.segments, 0 < s.size
  inside : ∀ s ∈ space.segments, s.base + s.size ≤ NONCE_SPACE
  cursor : 0 ≤ space.cursor
  current : ∀ s, space.segments[space.index]? = some s → space.cursor ≤ s.size

theorem createSpace_sound {segments : List Segment}
    (hin : ∀ s ∈ segments, s.nonces ⊆ Set.Ico 0 NONCE_SPACE) : (createSpace segments).Sound := by
  have hsizes : ∀ s ∈ (createSpace segments).segments, 0 < s.size := fun s hs =>
    of_decide_eq_true (List.mem_filter.mp hs).2
  refine ⟨hsizes, fun s hs => ?_, le_rfl, fun s hs => ?_⟩
  · have hpos := hsizes s hs
    have hlast := hin s (List.mem_of_mem_filter hs)
      (show s.base + s.size - 1 ∈ s.nonces by simp only [Segment.nonces, Set.mem_Ico]; omega)
    have := (Set.mem_Ico.mp hlast).2
    omega
  · exact (hsizes s (List.mem_of_getElem? hs)).le

variable {space : NonceSpace}

theorem Sound.next (h : space.Sound) :
    ({ space with index := space.index + 1, cursor := 0 } : NonceSpace).Sound :=
  ⟨h.sizes, h.inside, le_rfl, fun s hs => (h.sizes s (List.mem_of_getElem? hs)).le⟩

theorem Sound.advance (h : space.Sound) (hi : space.index < space.segments.length) {size : ℤ}
    (hpos : 0 ≤ size) (hsize : size ≤ (space.segments[space.index]).size - space.cursor) :
    ({ space with cursor := space.cursor + size } : NonceSpace).Sound := by
  refine ⟨h.sizes, h.inside, add_nonneg h.cursor hpos, fun s hs => ?_⟩
  obtain rfl : space.segments[space.index] = s := by
    rw [List.getElem?_eq_getElem hi, Option.some.injEq] at hs
    exact hs
  simp only
  omega

/-- The sizes of the segments behind the current one. -/
def behind (space : NonceSpace) : ℤ :=
  ((space.segments.drop (space.index + 1)).map Segment.size).sum

theorem Sound.behind_nonneg (h : space.Sound) : 0 ≤ space.behind := by
  refine List.sum_nonneg fun n hn => ?_
  obtain ⟨s, hs, rfl⟩ := List.mem_map.mp hn
  exact (h.sizes s (List.mem_of_mem_drop hs)).le

/-- What `spaceLeft` counts: the rest of the current segment, and those behind it. -/
theorem Sound.spaceLeft_eq (h : space.Sound) (hi : space.index < space.segments.length) :
    spaceLeft space = (space.segments[space.index]).size - space.cursor + space.behind := by
  have hcurrent := h.current _ (List.getElem?_eq_getElem hi)
  have hbehind := h.behind_nonneg
  unfold spaceLeft
  rw [List.drop_eq_getElem_cons hi]
  generalize hleft : (space.segments[space.index]).size - space.cursor + space.behind = left
  have hnonneg : 0 ≤ left := by omega
  rw [behind] at hleft
  dsimp only
  rw [hleft]
  split_ifs <;> omega

theorem spaceLeft_exhausted (hi : ¬ space.index < space.segments.length) : spaceLeft space = 0 := by
  unfold spaceLeft
  rw [List.drop_eq_nil_of_le (by omega)]
  rfl

/-- Moving past a segment that is used up changes nothing that is left. -/
theorem Sound.spaceLeft_next (h : space.Sound) (hi : space.index < space.segments.length)
    (hleft : (space.segments[space.index]).size - space.cursor ≤ 0) :
    spaceLeft { space with index := space.index + 1, cursor := 0 } = spaceLeft space := by
  have hcurrent := h.current _ (List.getElem?_eq_getElem hi)
  rw [h.spaceLeft_eq hi]
  by_cases hnext : space.index + 1 < space.segments.length
  · rw [h.next.spaceLeft_eq hnext]
    unfold behind
    rw [List.drop_eq_getElem_cons hnext, List.map_cons, List.sum_cons]
    dsimp only
    omega
  · rw [spaceLeft_exhausted hnext]
    unfold behind
    rw [List.drop_eq_nil_of_le (by omega), List.map_nil, List.sum_nil]
    omega

theorem Sound.front_next (h : space.Sound) (hi : space.index < space.segments.length)
    (hleft : (space.segments[space.index]).size - space.cursor ≤ 0) :
    ({ space with index := space.index + 1, cursor := 0 } : NonceSpace).front = space.front := by
  unfold front
  rw [List.drop_eq_getElem_cons hi]
  dsimp only
  rw [if_pos hleft]
  rcases hrest : space.segments.drop (space.index + 1) with _ | ⟨s, rest⟩
  · rfl
  · have hpos : 0 < s.size := h.sizes s (List.mem_of_mem_drop (hrest ▸ List.mem_cons_self))
    dsimp only
    rw [List.find?_cons_of_pos (p := fun s : Segment => decide (0 < s.size)) (decide_eq_true hpos),
      if_neg (by omega), add_zero, sub_zero, Option.map_some]

theorem front_current (hi : space.index < space.segments.length)
    (hleft : ¬ (space.segments[space.index]).size - space.cursor ≤ 0) :
    space.front = some ((space.segments[space.index]).base + space.cursor,
      (space.segments[space.index]).size - space.cursor) := by
  unfold front
  rw [List.drop_eq_getElem_cons hi]
  exact if_neg hleft

theorem Sound.spaceLeft_advance (h : space.Sound) (hi : space.index < space.segments.length)
    {size : ℤ} (hpos : 0 ≤ size)
    (hsize : size ≤ (space.segments[space.index]).size - space.cursor) :
    spaceLeft { space with cursor := space.cursor + size } = spaceLeft space - size := by
  rw [(h.advance hi hpos hsize).spaceLeft_eq hi, h.spaceLeft_eq hi]
  unfold behind
  simp only
  omega

/-- Whatever is cut off a space is missing from it afterwards. -/
theorem take_sound (space : NonceSpace) (count : ℚ) (h : space.Sound) :
    (take space count).2.Sound ∧ ∀ g, (take space count).1 = some g →
      spaceLeft (take space count).2 ≤ spaceLeft space - (g.nonce_limit - g.start_nonce) := by
  fun_induction take space count with
  | case1 space hi segment left hleft ih =>
    rw [← h.spaceLeft_next hi hleft]
    exact ih h.next
  | case2 space hi segment left hleft size start limit rest hlimit =>
    have hsize : 0 < size ∧ size ≤ left := by omega
    refine ⟨h.advance hi hsize.1.le hsize.2, fun g hg => ?_⟩
    rw [h.spaceLeft_advance hi hsize.1.le hsize.2, ← Option.some.inj hg]
    simp only
    omega
  | case3 space hi segment left hleft size start limit rest hlimit ih =>
    have hsize : 0 < size ∧ size ≤ left := by omega
    obtain ⟨hsound, hle⟩ := ih (h.advance hi hsize.1.le hsize.2)
    refine ⟨hsound, fun g hg => ?_⟩
    have hrest := hle g hg
    rw [h.spaceLeft_advance hi hsize.1.le hsize.2] at hrest
    omega
  | case4 space hi => exact ⟨h, fun g hg => by cases hg⟩

theorem takes_sound (counts : List ℚ) (space : NonceSpace) (h : space.Sound) :
    (takes space counts).2.Sound := by
  induction counts generalizing space with
  | nil => exact h
  | cons count counts ih => exact ih _ (take_sound space count h).1

/-- On a sound space the two agree exactly if the next piece clears `TOP`. -/
theorem Sound.agrees (h : space.Sound) (count : ℚ) :
    space.Agrees count ↔ space.clears count = true := by
  rw [agrees_iff]
  unfold clears
  fun_induction take space count with
  | case1 space hi segment left hleft ih =>
    rw [← h.spaceLeft_next hi hleft, ← h.front_next hi hleft]
    exact ih h.next
  | case2 space hi segment left hleft size start limit rest hlimit =>
    have hsize : 0 < size ∧ size ≤ left := by omega
    have hfront : space.front = some (start, left) := front_current hi hleft
    have hcount : spaceLeft space = left + space.behind := h.spaceLeft_eq hi
    have hadvance : spaceLeft rest = spaceLeft space - size :=
      h.spaceLeft_advance hi hsize.1.le hsize.2
    have hbehind := h.behind_nonneg
    have hpos : 0 < spaceLeft space := by omega
    rw [hfront, hadvance, Option.all_some, decide_eq_true_eq]
    simp only [Option.isSome_some, hpos, true_and, Option.some.injEq, forall_eq']
    change _ = _ - (limit - start) ↔ start + size ≤ TOP
    omega
  | case3 space hi segment left hleft size start limit rest hlimit ih =>
    -- the piece is the nonce `TOP` alone: whatever is cut off after it, as much more is missing
    have hsize : 0 < size ∧ size ≤ left := by omega
    have hfront : space.front = some (start, left) := front_current hi hleft
    have hcount : spaceLeft space = left + space.behind := h.spaceLeft_eq hi
    have hadvance : spaceLeft rest = spaceLeft space - size :=
      h.spaceLeft_advance hi hsize.1.le hsize.2
    have hsound : rest.Sound := h.advance hi hsize.1.le hsize.2
    have hbehind := h.behind_nonneg
    rw [hfront, Option.all_some, decide_eq_true_eq]
    change _ ↔ start + size ≤ TOP
    constructor
    · rintro ⟨hserved, hall⟩
      exfalso
      obtain ⟨g, hg⟩ := Option.isSome_iff_exists.mp (hserved.mpr (by omega))
      have hle := (take_sound rest count hsound).2 g hg
      have heq := hall g hg
      omega
    · intro hclear
      have hlimit' : limit = start + size := min_eq_left hclear
      omega
  | case4 space hi =>
    rw [spaceLeft_exhausted hi]
    unfold front
    rw [List.drop_eq_nil_of_le (by omega)]
    simp

end NonceSpace

open NonceSpace

/-- In every state that a space reaches by successive cuts, `spaceLeft` and the next `take` agree if
and only if the piece that is next to be cut off does not contain the nonce `TOP`. -/
theorem take_agrees_iff (segments : List Segment) (counts : List ℚ) (count : ℚ)
    (hin : ∀ s ∈ segments, s.nonces ⊆ Set.Ico 0 NONCE_SPACE) :
    (takes (createSpace segments) counts).2.Agrees count ↔
      (takes (createSpace segments) counts).2.clears count = true :=
  (takes_sound counts _ (createSpace_sound hin)).agrees count

theorem fullSpace_inside : ∀ s ∈ [Segment.mk 0 NONCE_SPACE], s.nonces ⊆ Set.Ico 0 NONCE_SPACE := by
  intro s hs n hn
  rw [List.mem_singleton.mp hs] at hn
  simpa [Segment.nonces] using hn

/-- The full space after a first cut. -/
theorem take_agrees_iff_full : (takes fullSpace [5000]).2.Agrees 4096 :=
  (take_agrees_iff [⟨0, NONCE_SPACE⟩] [5000] 4096 fullSpace_inside).mpr (by decide +kernel)

/-- Sixteen cuts, none of them larger than `MAX_CHUNK`, leave the nonce `TOP` alone. -/
theorem take_agrees_top :
    ¬ (takes fullSpace (List.replicate 15 268435456 ++ [268435455])).2.Agrees 4096 := by
  intro h
  have hleft : 0 < spaceLeft (takes fullSpace (List.replicate 15 268435456 ++ [268435455])).2 := by
    decide +kernel
  have hnone : (take (takes fullSpace (List.replicate 15 268435456 ++ [268435455])).2 4096).1 =
      none := by decide +kernel
  have hserved := h.served.mpr hleft
  rw [hnone] at hserved
  cases hserved

/-- A usable link serves the miner placed on it unless the nonce `TOP` is all that it has left. -/
theorem Upstream.grant_serves_iff (u : Upstream) (l : LinkId) (c : ClientId)
    (hw : (u.link l).space.WellFormed) (husable : (u.link l).usable = true) :
    (u.grant l c).1.isSome = true ↔ (u.link l).space.remaining.Nonempty := by
  have hleft : 0 < spaceLeft (u.link l).space :=
    of_decide_eq_true (Bool.and_eq_true_iff.mp husable).2
  unfold grant
  rw [if_neg (not_le_of_gt hleft)]
  dsimp only
  generalize chunkSize (u.rate c) _ _ = count
  obtain ⟨-, -, -, hunion, hnone, hgrant⟩ := take_spec (u.link l).space count hw
  rcases hrange : (take (u.link l).space count).1 with _ | g
  · rw [hnone hrange]
    simp
  · have hserved : g.start_nonce ∈ (u.link l).space.remaining := by
      rw [← hunion, hrange]
      exact Or.inl (Set.mem_Ico.mpr ⟨le_rfl, (hgrant g hrange).1⟩)
    cases (u.link l).job <;> exact ⟨fun _ => ⟨_, hserved⟩, fun _ => rfl⟩

end NMiner
