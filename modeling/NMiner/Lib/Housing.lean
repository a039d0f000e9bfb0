import Mathlib

/-! Guests housed by hosts. Every host keeps its guests in a list and the sum of their
weights in a number that is updated step by step. `Consistent` says that the lists and
the homes describe one assignment and that the numbers are the sums. -/

structure Housing (H G K : Type*) where
  guests : H → List G
  load : H → K
  home : G → Option H
  weight : G → K

namespace Housing

variable {H G K : Type*} [DecidableEq H] [DecidableEq G] [AddCommGroup K]

/-- Add to the end unless it is there. -/
def addGuest (guests : List G) (g : G) : List G := if g ∈ guests then guests else guests ++ [g]

def house (s : Housing H G K) (h : H) (g : G) : Housing H G K :=
  { s with
    guests := Function.update s.guests h (addGuest (s.guests h) g)
    load := Function.update s.load h (s.load h + s.weight g)
    home := Function.update s.home g (some h) }

def reweigh (s : Housing H G K) (g : G) (w : K) : Housing H G K :=
  { s with
    load := match s.home g with
      | none => s.load
      | some h => Function.update s.load h (s.load h + (w - s.weight g))
    weight := Function.update s.weight g w }

def vacate (s : Housing H G K) (h : H) : Housing H G K :=
  { s with
    guests := Function.update s.guests h []
    load := Function.update s.load h 0
    home := fun g => if g ∈ s.guests h then none else s.home g }

/-- A guest's home counts it among its guests. -/
def Homed (s : Housing H G K) : Prop := ∀ g h, s.home g = some h → g ∈ s.guests h

structure Consistent (s : Housing H G K) : Prop where
  homed : s.Homed
  housed : ∀ h g, g ∈ s.guests h → s.home g = some h
  nodup : ∀ h, (s.guests h).Nodup
  load : ∀ h, s.load h = ((s.guests h).map s.weight).sum

theorem mem_addGuest {guests : List G} {g x : G} : x ∈ addGuest guests g ↔ x ∈ guests ∨ x = g := by
  unfold addGuest
  split_ifs with hg
  · refine ⟨Or.inl, ?_⟩
    rintro (hx | rfl)
    · exact hx
    · exact hg
  · simp

theorem addGuest_length (guests : List G) (g : G) :
    (addGuest guests g).length ≤ guests.length + 1 := by
  unfold addGuest
  split_ifs
  · exact Nat.le_succ _
  · simp

theorem mem_house (s : Housing H G K) {h k : H} {g x : G} :
    x ∈ (s.house h g).guests k ↔ x ∈ s.guests k ∨ k = h ∧ x = g := by
  simp only [house, Function.update_apply]
  split_ifs with hk
  · rw [mem_addGuest, hk]
    simp
  · simp [hk]

theorem home_house (s : Housing H G K) (h : H) (g x : G) :
    (s.house h g).home x = if x = g then some h else s.home x := Function.update_apply ..

/-! ### Homes stay among the guests -/

theorem house_homed {s : Housing H G K} (hs : s.Homed) (h : H) (g : G) : (s.house h g).Homed := by
  intro x k hx
  simp only [house, Function.update_apply] at hx ⊢
  by_cases hxg : x = g
  · rw [if_pos hxg, Option.some.injEq] at hx
    rw [if_pos hx.symm, mem_addGuest]
    exact Or.inr hxg
  · rw [if_neg hxg] at hx
    split_ifs with hk
    · exact mem_addGuest.mpr (Or.inl (hk ▸ hs x k hx))
    · exact hs x k hx

theorem reweigh_homed {s : Housing H G K} (hs : s.Homed) (g : G) (w : K) :
    (s.reweigh g w).Homed := hs

theorem vacate_homed {s : Housing H G K} (hs : s.Homed) (h : H) : (s.vacate h).Homed := by
  intro x k hx
  simp only [vacate, Function.update_apply] at hx ⊢
  split_ifs at hx with hxh
  have hxk := hs x k hx
  rw [if_neg]
  · exact hxk
  · intro hk
    exact hxh (hk ▸ hxk)

/-! ### Consistency -/

/-- A sum over a list that does not hold `g` does not depend on the weight of `g`. -/
theorem sum_update (weight : G → K) {g : G} (w : K) {guests : List G} (hg : g ∉ guests) :
    (guests.map (Function.update weight g w)).sum = (guests.map weight).sum := by
  congr 1
  refine List.map_congr_left fun x hx => ?_
  exact Function.update_of_ne (ne_of_mem_of_not_mem hx hg) _ _

theorem sum_update_mem (weight : G → K) {g : G} (w : K) {guests : List G} (hnodup : guests.Nodup)
    (hg : g ∈ guests) : (guests.map (Function.update weight g w)).sum =
      (guests.map weight).sum + (w - weight g) := by
  rw [← List.sum_map_erase _ hg, ← List.sum_map_erase weight hg,
    sum_update _ _ hnodup.not_mem_erase, Function.update_self]
  abel

/-- The one condition: a guest is housed only when it has no home. -/
theorem house_consistent {s : Housing H G K} (hs : s.Consistent) {g : G} (hg : s.home g = none)
    (h : H) : (s.house h g).Consistent := by
  have hnot : ∀ k, g ∉ s.guests k := by
    intro k hk
    rw [hs.housed k g hk] at hg
    exact absurd hg (by simp)
  refine ⟨house_homed hs.homed h g, ?_, ?_, ?_⟩
  · intro k x hx
    simp only [house, Function.update_apply] at hx ⊢
    by_cases hxg : x = g
    · subst hxg
      rw [if_pos rfl]
      by_cases hk : k = h
      · rw [hk]
      · rw [if_neg hk] at hx
        exact absurd hx (hnot k)
    · rw [if_neg hxg]
      split_ifs at hx with hk
      · exact (hs.housed h x ((mem_addGuest.mp hx).resolve_right hxg)).trans (by rw [hk])
      · exact hs.housed k x hx
  · intro k
    simp only [house, Function.update_apply]
    split_ifs with hk
    · rw [addGuest, if_neg (hnot h), List.nodup_append]
      refine ⟨hs.nodup h, List.nodup_singleton g, ?_⟩
      intro x hx y hy hxy
      rw [List.mem_singleton.mp hy] at hxy
      exact hnot h (hxy ▸ hx)
    · exact hs.nodup k
  · intro k
    simp only [house, Function.update_apply]
    split_ifs with hk
    · rw [addGuest, if_neg (hnot h), hs.load h]
      simp
    · exact hs.load k

theorem reweigh_consistent {s : Housing H G K} (hs : s.Consistent) (g : G) (w : K) :
    (s.reweigh g w).Consistent := by
  refine ⟨hs.homed, hs.housed, hs.nodup, ?_⟩
  intro k
  simp only [reweigh]
  cases hg : s.home g with
  | none =>
    rw [sum_update]
    · exact hs.load k
    · intro hk
      rw [hs.housed k g hk] at hg
      exact absurd hg (by simp)
  | some h =>
    simp only [Function.update_apply]
    split_ifs with hk
    · rw [hk, sum_update_mem _ _ (hs.nodup h) (hs.homed g h hg), hs.load h]
    · rw [sum_update, hs.load k]
      intro hkg
      have := hs.housed k g hkg
      rw [hg, Option.some.injEq] at this
      exact hk this.symm

theorem vacate_consistent {s : Housing H G K} (hs : s.Consistent) (h : H) :
    (s.vacate h).Consistent := by
  refine ⟨vacate_homed hs.homed h, ?_, ?_, ?_⟩
  · intro k x hx
    simp only [vacate, Function.update_apply] at hx ⊢
    split_ifs at hx with hk
    · simp at hx
    · rw [if_neg, hs.housed k x hx]
      intro hxh
      have := hs.housed h x hxh
      rw [hs.housed k x hx, Option.some.injEq] at this
      exact hk this
  · intro k
    simp only [vacate, Function.update_apply]
    split_ifs
    · exact List.nodup_nil
    · exact hs.nodup k
  · intro k
    simp only [vacate, Function.update_apply]
    split_ifs
    · simp
    · exact hs.load k

/-! ### Taking a guest off its host -/

variable [LinearOrder K]

/-- The load is clamped at zero. -/
def evict (s : Housing H G K) (g : G) : Housing H G K :=
  match s.home g with
  | none => s
  | some h =>
    { s with
      guests := Function.update s.guests h ((s.guests h).erase g)
      load := Function.update s.load h (max 0 (s.load h - s.weight g))
      home := Function.update s.home g none }

theorem mem_evict {s : Housing H G K} {k : H} (hs : (s.guests k).Nodup) {g x : G} :
    x ∈ (s.evict g).guests k ↔ x ∈ s.guests k ∧ ¬ (s.home g = some k ∧ x = g) := by
  unfold evict
  cases hg : s.home g with
  | none => simp
  | some h =>
    simp only [Function.update_apply, Option.some.injEq]
    split_ifs with hk
    · rw [← hk, hs.mem_erase_iff]
      simp [and_comm]
    · simp [Ne.symm hk]

/-- A guest stays when another one is taken off. -/
theorem mem_evict_of_ne {s : Housing H G K} {k : H} {g x : G} (hx : x ≠ g) :
    x ∈ (s.evict g).guests k ↔ x ∈ s.guests k := by
  unfold evict
  cases hg : s.home g with
  | none => rfl
  | some h =>
    simp only [Function.update_apply]
    split_ifs with hk
    · rw [List.mem_erase_of_ne hx, hk]
    · rfl

theorem home_evict_of_ne {s : Housing H G K} {g x : G} (hx : x ≠ g) :
    (s.evict g).home x = s.home x := by
  unfold evict
  cases hg : s.home g with
  | none => rfl
  | some h => exact Function.update_of_ne hx _ _

theorem evict_homed {s : Housing H G K} (hs : s.Homed) (g : G) : (s.evict g).Homed := by
  unfold evict
  cases hg : s.home g with
  | none => exact hs
  | some h =>
    intro x k hx
    simp only [Function.update_apply] at hx ⊢
    split_ifs at hx with hxg
    split_ifs with hk
    · exact (List.mem_erase_of_ne hxg).mpr (hk ▸ hs x k hx)
    · exact hs x k hx

theorem evict_consistent [IsOrderedAddMonoid K] {s : Housing H G K}
    (hs : s.Consistent) (hpos : ∀ x, 0 ≤ s.weight x)
    (g : G) : (s.evict g).Consistent := by
  refine ⟨evict_homed hs.homed g, ?_, ?_, ?_⟩ <;> unfold evict <;> cases hg : s.home g with
    | none => first | exact hs.housed | exact hs.nodup | exact hs.load
    | some h => ?_
  · intro k x hx
    simp only [Function.update_apply] at hx ⊢
    split_ifs at hx with hk
    · rw [if_neg ((hs.nodup h).mem_erase_iff.mp hx).1]
      exact (hs.housed h x (List.mem_of_mem_erase hx)).trans (by rw [hk])
    · rw [if_neg]
      · exact hs.housed k x hx
      · intro hxg
        rw [hxg] at hx
        have hkg := hs.housed k g hx
        rw [hg, Option.some.injEq] at hkg
        exact hk hkg.symm
  · intro k
    simp only [Function.update_apply]
    split_ifs
    · exact (hs.nodup h).erase g
    · exact hs.nodup k
  · intro k
    simp only [Function.update_apply]
    split_ifs with hk
    · have hsum := List.sum_map_erase s.weight (hs.homed g h hg)
      have hrest : 0 ≤ (((s.guests h).erase g).map s.weight).sum :=
        List.sum_nonneg (by simpa using fun x _ => hpos x)
      rw [hs.load h, ← hsum, add_sub_cancel_left]
      exact max_eq_right hrest
    · exact hs.load k

/-! ### Every change -/

/-- The four changes, with no condition on who is housed, and everybody leaving at once. -/
inductive Change (s : Housing H G K) : Housing H G K → Prop
  | house (h : H) (g : G) : Change s (s.house h g)
  | evict (g : G) : Change s (s.evict g)
  | vacate (h : H) : Change s (s.vacate h)
  | reweigh (g : G) (w : K) (hw : 0 ≤ w) : Change s (s.reweigh g w)
  | leave : Change s { s with home := fun _ => none }

/-- A guest that is housed twice is counted twice, and a load never falls below the weights of the
guests at home. -/
structure Covers (s : Housing H G K) : Prop where
  homed : s.Homed
  weight : ∀ g, 0 ≤ s.weight g
  load : ∀ h (S : Finset G), (∀ g ∈ S, s.home g = some h) → ∑ g ∈ S, s.weight g ≤ s.load h

omit [DecidableEq H] [DecidableEq G] in
theorem Covers.load_nonneg {s : Housing H G K} (hs : s.Covers) (h : H) : 0 ≤ s.load h := by
  simpa using hs.load h ∅ (by simp)

omit [DecidableEq H] [DecidableEq G] in
theorem Covers.weight_le {s : Housing H G K} (hs : s.Covers) {h : H} {g : G}
    (hg : s.home g = some h) : s.weight g ≤ s.load h := by
  simpa using hs.load h {g} (by simpa using hg)

theorem vacate_covers {s : Housing H G K} (hs : s.Covers) (h : H) : (s.vacate h).Covers := by
  refine ⟨vacate_homed hs.homed h, hs.weight, fun k S hS => ?_⟩
  have hold : ∀ x ∈ S, x ∉ s.guests h ∧ s.home x = some k := by
    intro x hx
    have hxS := hS x hx
    simp only [vacate] at hxS
    split_ifs at hxS with hxh
    exact ⟨hxh, hxS⟩
  by_cases hk : k = h
  · subst hk
    have hnone : S = ∅ := by
      refine Finset.eq_empty_of_forall_notMem fun x hx => ?_
      exact (hold x hx).1 (hs.homed x k (hold x hx).2)
    simp [hnone, vacate]
  · simpa only [vacate, Function.update_of_ne hk] using hs.load k S fun x hx => (hold x hx).2

omit [DecidableEq H] [DecidableEq G] in
theorem leave_covers {s : Housing H G K} (hs : s.Covers) :
    Covers { s with home := fun _ => none } := by
  refine ⟨fun x k hx => (by cases hx), hs.weight, fun k S hS => ?_⟩
  have hnone : S = ∅ := Finset.eq_empty_of_forall_notMem fun x hx => by cases hS x hx
  rw [hnone, Finset.sum_empty]
  exact hs.load_nonneg k

variable [IsOrderedAddMonoid K]

theorem house_covers {s : Housing H G K} (hs : s.Covers) (h : H) (g : G) :
    (s.house h g).Covers := by
  refine ⟨house_homed hs.homed h g, hs.weight, fun k S hS => ?_⟩
  have hrest : ∀ x ∈ S.erase g, s.home x = some k := by
    intro x hx
    have hxS := hS x (Finset.mem_of_mem_erase hx)
    simpa only [house, Function.update_of_ne (Finset.ne_of_mem_erase hx)] using hxS
  have hsum := hs.load k _ hrest
  by_cases hk : k = h
  · subst hk
    have hle : ∑ x ∈ S, s.weight x ≤ ∑ x ∈ S.erase g, s.weight x + s.weight g := by
      by_cases hg : g ∈ S
      · exact (Finset.sum_erase_add S s.weight hg).ge
      · rw [Finset.erase_eq_of_notMem hg]
        exact le_add_of_nonneg_right (hs.weight g)
    simp only [house, Function.update_self]
    exact hle.trans (add_le_add_left hsum _)
  · have hg : g ∉ S := by
      intro hg
      have hself := hS g hg
      simp only [house, Function.update_self, Option.some.injEq] at hself
      exact hk hself.symm
    rw [Finset.erase_eq_of_notMem hg] at hsum
    simpa only [house, Function.update_of_ne hk] using hsum

theorem evict_covers {s : Housing H G K} (hs : s.Covers) (g : G) : (s.evict g).Covers := by
  refine ⟨evict_homed hs.homed g, ?_, ?_⟩ <;> unfold evict <;> cases hg : s.home g with
    | none => first | exact hs.weight | exact hs.load
    | some h => ?_
  · exact hs.weight
  · intro k S hS
    dsimp only at hS ⊢
    have hout : g ∉ S := by
      intro hgS
      have hself := hS g hgS
      rw [Function.update_self] at hself
      cases hself
    have hold : ∀ x ∈ S, s.home x = some k := by
      intro x hx
      have hxg : x ≠ g := ne_of_mem_of_not_mem hx hout
      rw [← hS x hx, Function.update_of_ne hxg]
    by_cases hk : k = h
    · subst hk
      have hboth := hs.load k (insert g S) (by
        intro x hx
        rcases Finset.mem_insert.mp hx with rfl | hx
        · exact hg
        · exact hold x hx)
      rw [Finset.sum_insert hout] at hboth
      rw [Function.update_self]
      exact le_max_of_le_right (le_sub_iff_add_le'.mpr hboth)
    · rw [Function.update_of_ne hk]
      exact hs.load k S hold

theorem reweigh_covers {s : Housing H G K} (hs : s.Covers) (g : G) {w : K} (hw : 0 ≤ w) :
    (s.reweigh g w).Covers := by
  refine ⟨reweigh_homed hs.homed g w, fun x => ?_, fun k S hS => ?_⟩
  · simp only [reweigh, Function.update_apply]
    split_ifs
    · exact hw
    · exact hs.weight x
  · have hsum := hs.load k S hS
    have hout : g ∉ S → ∑ x ∈ S, Function.update s.weight g w x = ∑ x ∈ S, s.weight x :=
      fun hg => Finset.sum_update_of_notMem hg s.weight w
    have hin : g ∈ S →
        ∑ x ∈ S, Function.update s.weight g w x = ∑ x ∈ S, s.weight x + (w - s.weight g) := by
      intro hg
      rw [← Finset.sum_erase_add S _ hg, ← Finset.sum_erase_add S s.weight hg,
        Finset.sum_update_of_notMem (Finset.notMem_erase g S), Function.update_self]
      abel
    simp only [reweigh]
    cases hg : s.home g with
    | none =>
      have hgS : g ∉ S := fun h => by
        have hself : s.home g = some k := hS g h
        rw [hg] at hself
        cases hself
      dsimp only
      rw [hout hgS]
      exact hsum
    | some h =>
      dsimp only
      by_cases hk : k = h
      · subst hk
        rw [Function.update_self]
        by_cases hgS : g ∈ S
        · rw [hin hgS]
          exact add_le_add_left hsum _
        · have hboth := hs.load k (insert g S) (by
            intro x hx
            rcases Finset.mem_insert.mp hx with rfl | hx
            · exact hg
            · exact hS x hx)
          rw [Finset.sum_insert hgS] at hboth
          rw [hout hgS]
          calc ∑ x ∈ S, s.weight x ≤ s.load k - s.weight g := le_sub_iff_add_le'.mpr hboth
            _ ≤ s.load k - s.weight g + w := le_add_of_nonneg_right hw
            _ = s.load k + (w - s.weight g) := by abel
      · have hgS : g ∉ S := fun h' => by
          have hself : s.home g = some k := hS g h'
          rw [hg, Option.some.injEq] at hself
          exact hk hself.symm
        rw [Function.update_of_ne hk, hout hgS]
        exact hsum

theorem Covers.change {s t : Housing H G K} (hs : s.Covers) (hst : Change s t) : t.Covers := by
  cases hst with
  | house h g => exact house_covers hs h g
  | evict g => exact evict_covers hs g
  | vacate h => exact vacate_covers hs h
  | reweigh g w hw => exact reweigh_covers hs g hw
  | leave => exact leave_covers hs

theorem Covers.changes {s t : Housing H G K} (hs : s.Covers)
    (hst : Relation.ReflTransGen Change s t) : t.Covers := by
  induction hst with
  | refl => exact hs
  | tail _ hchange ih => exact ih.change hchange

omit [IsOrderedAddMonoid K] in
theorem Change.nodup {s t : Housing H G K} (hst : Change s t) (hs : ∀ h, (s.guests h).Nodup)
    (h : H) : (t.guests h).Nodup := by
  have hupdate : ∀ (k : H) (guests : List G), guests.Nodup →
      (Function.update s.guests k guests h).Nodup := by
    intro k guests hguests
    rw [Function.update_apply]
    split_ifs
    · exact hguests
    · exact hs h
  cases hst with
  | house k g =>
    refine hupdate k _ ?_
    unfold addGuest
    split_ifs with hg
    · exact hs k
    · exact List.nodup_append.mpr ⟨hs k, List.nodup_singleton g, fun x hx y hy =>
        List.mem_singleton.mp hy ▸ fun heq => hg (heq ▸ hx)⟩
  | evict g =>
    unfold Housing.evict
    cases s.home g with
    | none => exact hs h
    | some k => exact hupdate k _ ((hs k).erase g)
  | vacate k => exact hupdate k _ List.nodup_nil
  | reweigh g w hw => exact hs h
  | leave => exact hs h

omit [IsOrderedAddMonoid K] in
/-- Whatever changes, no host lists a guest twice. -/
theorem nodup_changes {s t : Housing H G K} (hs : ∀ h, (s.guests h).Nodup)
    (hst : Relation.ReflTransGen Change s t) : ∀ h, (t.guests h).Nodup := by
  induction hst with
  | refl => exact hs
  | tail _ hchange ih => exact hchange.nodup ih

/-! ### Nobody moves in -/

structure Eases (s t : Housing H G K) : Prop where
  weight : t.weight = s.weight
  load : ∀ h, t.load h ≤ s.load h
  guests : ∀ h, (t.guests h).length ≤ (s.guests h).length
  home : ∀ g h, t.home g = some h → s.home g = some h

omit [DecidableEq H] [DecidableEq G] [AddCommGroup K] [IsOrderedAddMonoid K] in
theorem Eases.refl (s : Housing H G K) : Eases s s :=
  ⟨rfl, fun _ => le_rfl, fun _ => le_rfl, fun _ _ h => h⟩

theorem evict_eases {s : Housing H G K} (hs : s.Covers) (g : G) : Eases s (s.evict g) := by
  unfold evict
  cases hg : s.home g with
  | none => exact .refl s
  | some h =>
    refine ⟨rfl, fun k => ?_, fun k => ?_, fun x k hx => ?_⟩
    · dsimp only
      rw [Function.update_apply]
      split_ifs with hk
      · rw [hk]
        exact max_le (hs.load_nonneg h) (sub_le_self _ (hs.weight g))
      · exact le_rfl
    · dsimp only
      rw [Function.update_apply]
      split_ifs with hk
      · rw [hk]
        exact List.length_erase_le
      · exact le_rfl
    · dsimp only at hx
      rw [Function.update_apply] at hx
      split_ifs at hx
      exact hx

omit [IsOrderedAddMonoid K] in
/-- A guest is housed and goes away again. -/
theorem house_evict_eases {s : Housing H G K} (hs : s.Covers) (h : H) (g : G) :
    Eases s ((s.house h g).evict g) := by
  have hhome : (s.house h g).home g = some h := Function.update_self ..
  unfold evict
  rw [hhome]
  refine ⟨rfl, fun k => ?_, fun k => ?_, fun x k hx => ?_⟩
  · simp only [house, Function.update_apply]
    split_ifs with hk
    · rw [hk, add_sub_cancel_right]
      exact max_le (hs.load_nonneg h) le_rfl
    · exact le_rfl
  · simp only [house, Function.update_apply]
    split_ifs with hk
    · subst hk
      unfold addGuest
      split_ifs with hg
      · exact List.length_erase_le
      · rw [List.length_erase_of_mem (by simp)]
        simp
    · exact le_rfl
  · simp only [house, Function.update_apply] at hx
    split_ifs at hx
    exact hx

/-- A guest that has been taken off its host comes back to it after others have left. -/
theorem return_eases {s t : Housing H G K} (hs : s.Covers) {h : H} {g : G}
    (hg : s.home g = some h) (ht : Eases (s.evict g) t) : Eases s (t.house h g) := by
  have hevict := evict_eases hs g
  have hload : (s.evict g).load h + s.weight g = s.load h := by
    rw [evict, hg]
    dsimp only
    rw [Function.update_self, max_eq_right (sub_nonneg.mpr (hs.weight_le hg)), sub_add_cancel]
  have hguests : ((s.evict g).guests h).length + 1 = (s.guests h).length := by
    have hmem := hs.homed g h hg
    have hpos := List.length_pos_of_mem hmem
    rw [evict, hg]
    dsimp only
    rw [Function.update_self, List.length_erase_of_mem hmem]
    omega
  have hweight : t.weight g = s.weight g := by rw [ht.weight, hevict.weight]
  refine ⟨ht.weight.trans hevict.weight, fun k => ?_, fun k => ?_, fun x k hx => ?_⟩
  · by_cases hk : k = h
    · subst hk
      simp only [house, Function.update_self]
      rw [hweight, ← hload]
      exact add_le_add_left (ht.load k) _
    · simp only [house, Function.update_of_ne hk]
      exact (ht.load k).trans (hevict.load k)
  · by_cases hk : k = h
    · subst hk
      simp only [house, Function.update_self]
      rw [← hguests]
      exact (addGuest_length _ _).trans (Nat.succ_le_succ (ht.guests k))
    · simp only [house, Function.update_of_ne hk]
      exact (ht.guests k).trans (hevict.guests k)
  · simp only [house, Function.update_apply] at hx
    split_ifs at hx with hxg
    · rw [hxg, hg]
      exact hx
    · exact hevict.home x k (ht.home x k hx)

end Housing
