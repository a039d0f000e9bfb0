import NMiner.Lib.Cuts
import NMiner.Spec.Nonce

/-! Nonce allocation is an exact partition. The invariant is the set of nonces a
space has still to give: `take` either cuts a non-empty range off it or returns
null because it is empty. -/

namespace NMiner

open Cutting

def Segment.nonces (s : Segment) : Set ℤ := Set.Ico s.base (s.base + s.size)

def Grant.nonces (g : Grant) : Set ℤ := Set.Ico g.start_nonce g.nonce_limit

/-- The nonces a call of `take` hands out; a null result hands out none. -/
def granted : Option Grant → Set ℤ
  | none => ∅
  | some g => g.nonces

/-- The nonces in some segment of the list. -/
def nonces (segments : List Segment) : Set ℤ := {n | ∃ s ∈ segments, n ∈ s.nonces}

theorem nonces_cons (s : Segment) (segments : List Segment) :
    nonces (s :: segments) = s.nonces ∪ nonces segments := by
  ext n
  simp [nonces]

/-- Pairwise disjoint segments inside the nonce space, and a cursor that has not
moved below the current segment. -/
structure NonceSpace.WellFormed (space : NonceSpace) : Prop where
  disjoint : space.segments.Pairwise fun s t => Disjoint s.nonces t.nonces
  inside : ∀ s ∈ space.segments, s.nonces ⊆ Set.Ico 0 NONCE_SPACE
  cursor : 0 ≤ space.cursor

/-- What the space has still to give: the rest of the current segment and the
segments behind it, without the nonce no grant may contain. -/
def NonceSpace.remaining (space : NonceSpace) : Set ℤ :=
  match space.segments.drop space.index with
  | [] => ∅
  | s :: rest => (Set.Ico (s.base + space.cursor) (s.base + s.size) ∪ nonces rest) \ {TOP}

theorem remaining_eq (space : NonceSpace) (h : space.index < space.segments.length) :
    space.remaining = (Set.Ico ((space.segments[space.index]).base + space.cursor)
      ((space.segments[space.index]).base + (space.segments[space.index]).size) ∪
        nonces (space.segments.drop (space.index + 1))) \ {TOP} := by
  unfold NonceSpace.remaining
  rw [List.drop_eq_getElem_cons h]

theorem remaining_start (segments : List Segment) (cursor : ℤ) (index : ℕ) (hc : cursor = 0) :
    (NonceSpace.mk index cursor segments).remaining = nonces (segments.drop index) \ {TOP} := by
  subst hc
  unfold NonceSpace.remaining
  cases segments.drop index with
  | nil => simp [nonces]
  | cons s rest => simp [nonces_cons, Segment.nonces]

theorem WellFormed.next {space : NonceSpace} (hw : space.WellFormed) :
    ({ space with index := space.index + 1, cursor := 0 } : NonceSpace).WellFormed :=
  ⟨hw.disjoint, hw.inside, le_rfl⟩

theorem WellFormed.advance {space : NonceSpace} (hw : space.WellFormed) {size : ℤ}
    (hs : 0 ≤ size) :
    ({ space with cursor := space.cursor + size } : NonceSpace).WellFormed :=
  ⟨hw.disjoint, hw.inside, add_nonneg hw.cursor hs⟩

/-- A used up segment has nothing left, so moving on gives nothing away. -/
theorem remaining_next {space : NonceSpace} (h : space.index < space.segments.length)
    (hleft : (space.segments[space.index]).size - space.cursor ≤ 0) :
    ({ space with index := space.index + 1, cursor := 0 } : NonceSpace).remaining =
      space.remaining := by
  rw [remaining_start _ _ _ rfl, remaining_eq space h, Set.Ico_eq_empty (by omega), Set.empty_union]

/-- The rest of the current segment is disjoint from the segments behind it. -/
theorem current_disjoint {space : NonceSpace}
    (hd : space.segments.Pairwise fun s t => Disjoint s.nonces t.nonces)
    (h : space.index < space.segments.length) :
    Disjoint (space.segments[space.index]).nonces
      (nonces (space.segments.drop (space.index + 1))) := by
  have hp := hd.sublist (List.drop_sublist space.index space.segments)
  rw [List.drop_eq_getElem_cons h, List.pairwise_cons] at hp
  rw [Set.disjoint_left]
  rintro n hn ⟨s, hs, hns⟩
  exact Set.disjoint_left.mp (hp.1 s hs) hn hns

/-- The current segment ends inside the nonce space. -/
theorem current_end {space : NonceSpace} (hw : space.WellFormed)
    (h : space.index < space.segments.length)
    (hleft : 0 < (space.segments[space.index]).size - space.cursor) :
    (space.segments[space.index]).base + (space.segments[space.index]).size ≤ TOP + 1 := by
  have hc := hw.cursor
  have hlast := hw.inside _ (List.getElem_mem h)
    (show (space.segments[space.index]).base + (space.segments[space.index]).size - 1 ∈ _ by
      simp only [Segment.nonces, Set.mem_Ico]; omega)
  simp only [Set.mem_Ico, NONCE_SPACE] at hlast
  simp only [TOP]
  omega

/-- Advancing the cursor by `size` cuts exactly the next `size` nonces off, less `TOP`. -/
theorem remaining_advance {space : NonceSpace} (hw : space.WellFormed)
    (h : space.index < space.segments.length) {size : ℤ} (hpos : 0 < size)
    (hsize : size ≤ (space.segments[space.index]).size - space.cursor) :
    let start := (space.segments[space.index]).base + space.cursor
    let rest := ({ space with cursor := space.cursor + size } : NonceSpace).remaining
    Disjoint (Set.Ico start (min (start + size) TOP)) rest ∧
      Set.Ico start (min (start + size) TOP) ∪ rest = space.remaining := by
  have hend := current_end hw h (by omega)
  have hdisj := current_disjoint hw.disjoint h
  have hc := hw.cursor
  simp only [remaining_eq space h,
    remaining_eq { space with cursor := space.cursor + size } h]
  set s := space.segments[space.index]
  constructor
  · rw [Set.disjoint_left]
    rintro n hn ⟨hn' | hn', -⟩
    · simp only [Set.mem_Ico] at hn hn'
      omega
    · refine Set.disjoint_left.mp hdisj ?_ hn'
      simp only [Segment.nonces, Set.mem_Ico] at hn ⊢
      omega
  · ext n
    simp only [Set.mem_union, Set.mem_sdiff, Set.mem_Ico, Set.mem_singleton_iff]
    by_cases hlater : n ∈ nonces (space.segments.drop (space.index + 1))
    · have hout : n ∉ s.nonces := fun hin => Set.disjoint_left.mp hdisj hin hlater
      simp only [Segment.nonces, Set.mem_Ico] at hout
      simp only [hlater, or_true, true_and]
      omega
    · simp only [hlater, or_false]
      omega

/-- One call: a grant is a non-empty piece of what was left, below `TOP` and inside one
segment; null comes exactly when nothing was left. -/
theorem take_spec (space : NonceSpace) (count : ℚ) (hw : space.WellFormed) :
    (take space count).2.WellFormed ∧
      (take space count).2.segments = space.segments ∧
      Disjoint (granted (take space count).1) (take space count).2.remaining ∧
      granted (take space count).1 ∪ (take space count).2.remaining = space.remaining ∧
      ((take space count).1 = none → space.remaining = ∅) ∧
      ∀ g, (take space count).1 = some g → g.start_nonce < g.nonce_limit ∧ g.nonce_limit ≤ TOP ∧
        ∃ s ∈ space.segments, g.nonces ⊆ s.nonces := by
  fun_induction take space count with
  | case1 space h segment left hleft ih =>
    -- the current segment is used up
    obtain ⟨h1, h2, h3, h4, h5, h6⟩ := ih (WellFormed.next hw)
    rw [remaining_next h hleft] at h4 h5
    exact ⟨h1, h2, h3, h4, h5, h6⟩
  | case2 space h segment left hleft size start limit rest hlimit =>
    have hsize : 0 < size ∧ size ≤ left := by omega
    obtain ⟨hd, hu⟩ := remaining_advance hw h hsize.1 hsize.2
    refine ⟨WellFormed.advance hw hsize.1.le, rfl, hd, hu, by simp, ?_⟩
    rintro g ⟨⟩
    refine ⟨hlimit, min_le_right _ _, segment, List.getElem_mem h, ?_⟩
    intro n hn
    have hc := hw.cursor
    simp only [Grant.nonces, Segment.nonces, Set.mem_Ico] at hn ⊢
    omega
  | case3 space h segment left hleft size start limit rest hlimit ih =>
    -- the clamp left an empty range: the piece cut off is empty
    have hsize : 0 < size ∧ size ≤ left := by omega
    obtain ⟨-, hu⟩ := remaining_advance hw h hsize.1 hsize.2
    rw [Set.Ico_eq_empty (fun hlt => hlimit hlt), Set.empty_union] at hu
    obtain ⟨h1, h2, h3, h4, h5, h6⟩ := ih (WellFormed.advance hw hsize.1.le)
    rw [hu] at h4 h5
    exact ⟨h1, h2, h3, h4, h5, h6⟩
  | case4 space h =>
    have hempty : space.remaining = ∅ := by
      unfold NonceSpace.remaining
      rw [List.drop_eq_nil_of_le (by omega)]
    refine ⟨hw, rfl, by simp [granted], by simp [granted], fun _ => hempty, by simp⟩

theorem take_segments (space : NonceSpace) (count : ℚ) :
    (take space count).2.segments = space.segments := by
  fun_induction take space count with
  | case1 space h segment left hleft ih => exact ih
  | case2 space h segment left hleft size start limit rest hlimit => rfl
  | case3 space h segment left hleft size start limit rest hlimit ih => exact ih
  | case4 space h => rfl

/-- A grant is cut off one of the segments. -/
theorem take_within (space : NonceSpace) (count : ℚ) (hc : 0 ≤ space.cursor) :
    0 ≤ (take space count).2.cursor ∧
      ∀ g, (take space count).1 = some g → ∃ s ∈ space.segments, g.nonces ⊆ s.nonces := by
  fun_induction take space count with
  | case1 space h segment left hleft ih => exact ih le_rfl
  | case2 space h segment left hleft size start limit rest hlimit =>
    have hsize : size ≤ left := min_le_right _ _
    have hpos : 0 < size := by
      simp only [size]
      omega
    refine ⟨add_nonneg hc hpos.le, fun g hg => ⟨segment, List.getElem_mem h, ?_⟩⟩
    rw [← Option.some.inj hg]
    intro n hn
    simp only [Grant.nonces, Segment.nonces, Set.mem_Ico] at hn ⊢
    have hle : limit ≤ start + size := min_le_left _ _
    simp only [start, left] at *
    omega
  | case3 space h segment left hleft size start limit rest hlimit ih =>
    have hpos : 0 < size := by
      simp only [size]
      omega
    exact ih (add_nonneg hc hpos.le)
  | case4 space h => exact ⟨hc, fun g hg => by cases hg⟩

/-- Successive calls cut what was left piece by piece. -/
theorem takes_cuts (counts : List ℚ) (space : NonceSpace) (hw : space.WellFormed) :
    Cuts space.remaining ((takes space counts).1.map granted) (takes space counts).2.remaining := by
  induction counts generalizing space with
  | nil => exact Cuts.done _
  | cons count counts ih =>
    obtain ⟨hw', -, hd, hu, -, -⟩ := take_spec space count hw
    exact Cuts.cut hd hu (ih _ hw')

theorem takes_grants (counts : List ℚ) (space : NonceSpace) (hw : space.WellFormed) (g : Grant)
    (hg : some g ∈ (takes space counts).1) :
    g.start_nonce < g.nonce_limit ∧ g.nonce_limit ≤ TOP ∧
      ∃ s ∈ space.segments, g.nonces ⊆ s.nonces := by
  induction counts generalizing space with
  | nil => simp [takes] at hg
  | cons count counts ih =>
    obtain ⟨hw', hseg, -, -, -, hgrant⟩ := take_spec space count hw
    rcases List.mem_cons.mp hg with hg | hg
    · exact hgrant g hg.symm
    · have := ih _ hw' hg
      rwa [hseg] at this

/-- A space with nothing left answers null from then on. -/
theorem takes_of_empty (counts : List ℚ) (space : NonceSpace) (hw : space.WellFormed)
    (hempty : space.remaining = ∅) : ∀ r ∈ (takes space counts).1, r = none := by
  intro r hr
  cases r with
  | none => rfl
  | some g =>
    have hsub := piece_subset (takes_cuts counts space hw) (List.mem_map_of_mem hr)
    obtain ⟨hlt, -, -⟩ := takes_grants counts space hw g hr
    have hmem : g.start_nonce ∈ space.remaining := hsub (by simp [granted, Grant.nonces, hlt])
    rw [hempty] at hmem
    exact hmem.elim

/-- A null result says that nothing was left, so all later results are null too. -/
theorem takes_null_stays (counts : List ℚ) (space : NonceSpace) (hw : space.WellFormed) :
    (takes space counts).1.Pairwise fun a b => a = none → b = none := by
  induction counts generalizing space with
  | nil => exact List.Pairwise.nil
  | cons count counts ih =>
    obtain ⟨hw', -, -, hu, hnone, -⟩ := take_spec space count hw
    refine List.Pairwise.cons ?_ (ih _ hw')
    intro r hr hnull
    refine takes_of_empty counts _ hw' ?_ r hr
    have hrest := Set.subset_union_right (s := granted (take space count).1)
      (t := (take space count).2.remaining)
    rw [hu, hnone hnull] at hrest
    exact Set.subset_empty_iff.mp hrest

theorem takes_exhausted (counts : List ℚ) (space : NonceSpace) (hw : space.WellFormed)
    (hnull : none ∈ (takes space counts).1) : (takes space counts).2.remaining = ∅ := by
  induction counts generalizing space with
  | nil => simp [takes] at hnull
  | cons count counts ih =>
    obtain ⟨hw', -, -, hu, hnone, -⟩ := take_spec space count hw
    rcases List.mem_cons.mp hnull with h | h
    · have hrest : (take space count).2.remaining = ∅ := by
        have hsub := Set.subset_union_right (s := granted (take space count).1)
          (t := (take space count).2.remaining)
        rw [hu, hnone h.symm] at hsub
        exact Set.subset_empty_iff.mp hsub
      exact Set.subset_empty_iff.mp (hrest ▸ rest_subset (takes_cuts counts _ hw'))
    · exact ih _ hw' h

theorem createSpace_wellFormed (segments : List Segment)
    (hdisj : segments.Pairwise fun s t => Disjoint s.nonces t.nonces)
    (hin : ∀ s ∈ segments, s.nonces ⊆ Set.Ico 0 NONCE_SPACE) :
    (createSpace segments).WellFormed :=
  ⟨hdisj.filter _, fun s hs => hin s (List.mem_of_mem_filter hs), le_rfl⟩

/-- The segments the filter drops hold no nonce. -/
theorem createSpace_remaining (segments : List Segment) :
    (createSpace segments).remaining = nonces segments \ {TOP} := by
  unfold createSpace
  rw [remaining_start _ _ _ rfl]
  congr 1
  ext n
  simp only [nonces, List.drop_zero, List.mem_filter, decide_eq_true_eq, Set.mem_ofPred_eq]
  constructor
  · rintro ⟨s, ⟨hs, -⟩, hn⟩
    exact ⟨s, hs, hn⟩
  · rintro ⟨s, hs, hn⟩
    refine ⟨s, ⟨hs, ?_⟩, hn⟩
    simp only [Segment.nonces, Set.mem_Ico] at hn
    omega

/-- Whatever is asked for, the grants are non-empty pieces of single segments below `TOP`,
no two of them meet, null is final, and by then every nonce of the segments except
`TOP` has been handed out. -/
theorem takes_partition (segments : List Segment) (counts : List ℚ)
    (hdisj : segments.Pairwise fun s t => Disjoint s.nonces t.nonces)
    (hin : ∀ s ∈ segments, s.nonces ⊆ Set.Ico 0 NONCE_SPACE) :
    let results := (takes (createSpace segments) counts).1
    (∀ g, some g ∈ results → g.start_nonce < g.nonce_limit ∧ g.nonce_limit ≤ TOP ∧
        ∃ s ∈ segments, g.nonces ⊆ s.nonces) ∧
      (results.Pairwise fun a b => Disjoint (granted a) (granted b)) ∧
      (results.Pairwise fun a b => a = none → b = none) ∧
      (none ∈ results → {n | ∃ g, some g ∈ results ∧ n ∈ g.nonces} = nonces segments \ {TOP}) := by
  have hw := createSpace_wellFormed segments hdisj hin
  have hcuts := takes_cuts counts _ hw
  refine ⟨?_, ?_, takes_null_stays counts _ hw, ?_⟩
  · intro g hg
    obtain ⟨hlt, htop, s, hs, hsub⟩ := takes_grants counts _ hw g hg
    exact ⟨hlt, htop, s, List.mem_of_mem_filter hs, hsub⟩
  · exact List.pairwise_map.mp (pairwise_disjoint hcuts)
  · intro hnull
    rw [takes_exhausted counts _ hw hnull] at hcuts
    rw [← createSpace_remaining, ← cover hcuts]
    ext n
    simp only [Set.mem_ofPred_eq, List.mem_map]
    constructor
    · rintro ⟨g, hg, hn⟩
      exact ⟨g.nonces, ⟨some g, hg, rfl⟩, hn⟩
    · rintro ⟨_, ⟨r, hr, rfl⟩, hn⟩
      cases r with
      | none => exact hn.elim
      | some g => exact ⟨g, hr, hn⟩

/-- Two segments, the first one ending at the top of the nonce space, used up by counts
that are negative, fractional and zero. -/
theorem takes_partition_top :
    {n | ∃ g, some g ∈ (takes (createSpace [⟨0xFFFFFFFD, 3⟩, ⟨0, 2⟩]) [-5, 5 / 2, 0, 100, 1]).1 ∧
        n ∈ g.nonces} = nonces [⟨0xFFFFFFFD, 3⟩, ⟨0, 2⟩] \ {TOP} := by
  refine (takes_partition [⟨0xFFFFFFFD, 3⟩, ⟨0, 2⟩] [-5, 5 / 2, 0, 100, 1] ?_ ?_).2.2.2
    (by decide +kernel)
  · simp only [List.pairwise_cons, List.mem_singleton, forall_eq, Set.disjoint_left,
      Segment.nonces, Set.mem_Ico]
    simp
    omega
  · simp only [List.mem_cons, List.not_mem_nil, or_false, forall_eq_or_imp, forall_eq,
      Segment.nonces, NONCE_SPACE]
    exact ⟨Set.Ico_subset_Ico (by decide) (by decide), Set.Ico_subset_Ico (by decide) (by decide)⟩

end NMiner
