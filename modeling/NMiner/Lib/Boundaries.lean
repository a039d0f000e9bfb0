import Mathlib

/-! Consecutive ranges `[f i, f (i + 1))` between the boundaries of a monotone sequence. -/

namespace Boundaries

variable {f : ℕ → ℕ} {x : ℕ}

theorem exists_between (h0 : f 0 ≤ x) {k : ℕ} (hk : x < f k) :
    ∃ i < k, f i ≤ x ∧ x < f (i + 1) := by
  induction k with
  | zero => exact absurd h0 (not_le_of_gt hk)
  | succ k ih =>
    rcases Nat.lt_or_ge x (f k) with hlt | hge
    · obtain ⟨i, hi, hx⟩ := ih hlt
      exact ⟨i, Nat.lt_succ_of_lt hi, hx⟩
    · exact ⟨k, Nat.lt_succ_self k, hge, hk⟩

/-- Whatever lies between the first boundary and the last is in exactly one of the ranges. -/
theorem existsUnique_between (hf : Monotone f) (h0 : f 0 ≤ x) {k : ℕ} (hk : x < f k) :
    ∃! i, i < k ∧ f i ≤ x ∧ x < f (i + 1) := by
  obtain ⟨i, hi, hx⟩ := exists_between h0 hk
  refine ⟨i, ⟨hi, hx⟩, fun j hj => ?_⟩
  by_contra hne
  exact Set.disjoint_left.mp (hf.pairwise_disjoint_on_Ico_succ hne) (Set.mem_Ico.mpr hj.2)
    (Set.mem_Ico.mpr hx)

/-- The boundaries that cut `n` things into `k` ranges of as equal a size as possible. -/
theorem monotone_mul_div (n k : ℕ) : Monotone fun i => n * i / k :=
  fun _ _ h => Nat.div_le_div_right (Nat.mul_le_mul_left n h)

end Boundaries
