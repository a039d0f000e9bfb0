import Mathlib

/-! Cutting a set piece by piece. Each cut splits what is left into the piece
handed out and a disjoint rest, so whatever the cuts were, the pieces and the
final rest partition the original set. -/

namespace Cutting

variable {α : Type*}

/-- `Cuts R gs R'`: taking the pieces `gs` off `R` in order leaves `R'`. -/
inductive Cuts : Set α → List (Set α) → Set α → Prop
  | done (R : Set α) : Cuts R [] R
  | cut {R R' R'' g : Set α} {gs : List (Set α)} (hd : Disjoint g R') (hu : g ∪ R' = R)
      (rest : Cuts R' gs R'') : Cuts R (g :: gs) R''

/-- Nothing is lost and nothing is added. -/
theorem union_eq {R R' : Set α} {gs : List (Set α)} (h : Cuts R gs R') :
    {x | ∃ g ∈ gs, x ∈ g} ∪ R' = R := by
  induction h with
  | done R => simp
  | @cut R R' R'' g gs hd hu rest ih =>
    rw [← hu, ← ih, ← Set.union_assoc]
    congr 1
    ext x
    simp

theorem piece_subset {R R' g : Set α} {gs : List (Set α)} (h : Cuts R gs R') (hg : g ∈ gs) :
    g ⊆ R := by
  intro x hx
  rw [← union_eq h]
  exact Or.inl ⟨g, hg, hx⟩

theorem rest_subset {R R' : Set α} {gs : List (Set α)} (h : Cuts R gs R') : R' ⊆ R := by
  rw [← union_eq h]
  exact Set.subset_union_right

/-- Nothing is handed out twice. -/
theorem pairwise_disjoint {R R' : Set α} {gs : List (Set α)} (h : Cuts R gs R') :
    gs.Pairwise Disjoint := by
  induction h with
  | done R => exact List.Pairwise.nil
  | cut hd hu rest ih =>
    exact List.Pairwise.cons (fun g' hg' => hd.mono_right (piece_subset rest hg')) ih

/-- Once the rest is empty the pieces cover the original set. -/
theorem cover {R : Set α} {gs : List (Set α)} (h : Cuts R gs ∅) :
    {x | ∃ g ∈ gs, x ∈ g} = R := by
  rw [← union_eq h, Set.union_empty]

end Cutting
