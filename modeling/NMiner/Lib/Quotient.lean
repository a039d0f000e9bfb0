import Mathlib

/-! Integer quotients of one fixed numerator, and what dividing it twice gives back. -/

namespace Quotient

variable {N d e v : ℕ}

/-- Dividing twice never falls below the divisor. -/
theorem le_div_div (h : d ≤ N) : d ≤ N / (N / d) := by
  rcases Nat.eq_zero_or_pos d with rfl | hd
  · exact Nat.zero_le _
  · rw [Nat.le_div_iff_mul_le (Nat.div_pos h hd), Nat.mul_comm]
    exact Nat.div_mul_le_self N d

/-- A divisor below its quotient comes back exactly. -/
theorem div_div_self (hd : 0 < d) (h : d ≤ N / d) : N / (N / d) = d := by
  have hk : 0 < N / d := by omega
  have hlow := Nat.div_mul_le_self N d
  have hhigh : N < N / d * d + d := by
    have := Nat.lt_mul_div_succ N hd
    rw [Nat.mul_comm d, Nat.add_mul, Nat.one_mul] at this
    exact this
  have hcomm : d * (N / d) = N / d * d := Nat.mul_comm _ _
  refine le_antisymm ?_ (le_div_div (le_trans h (Nat.div_le_self N d)))
  refine Nat.lt_succ_iff.mp ((Nat.div_lt_iff_lt_mul hk).mpr ?_)
  rw [Nat.succ_mul]
  omega

/-- `v` lies below the quotient by any number up to its own quotient. -/
theorem le_div_of_le_div (hv : 0 < v) (he : 0 < e) (h : e ≤ N / v) : v ≤ N / e := by
  rw [Nat.le_div_iff_mul_le hv] at h
  rwa [Nat.le_div_iff_mul_le he, Nat.mul_comm]

end Quotient
