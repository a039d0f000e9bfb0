import Mathlib

/-! Rounding to the nearest binary64 value, ties to even: of a natural number, for which numbers
below `2 ^ 53` are exact and the order is kept, and of a rational number whose nearest value is
finite. -/

namespace Double

/-- The exponent of the last bit a double keeps of `n`. -/
def ulp (n : ℕ) : ℕ := n.log2 - 52

/-- Does the part of `n` behind the last kept bit round up? -/
def roundsUp (n : ℕ) : Bool :=
  2 ^ ulp n < 2 * (n % 2 ^ ulp n) ∨
    2 ^ ulp n = 2 * (n % 2 ^ ulp n) ∧ (n / 2 ^ ulp n) % 2 = 1

/-- The double nearest to a natural number, as `Number` computes it. -/
def ofNat (n : ℕ) : ℕ :=
  if n < 2 ^ 53 then n else (n / 2 ^ ulp n + if roundsUp n then 1 else 0) * 2 ^ ulp n

theorem ofNat_of_lt {n : ℕ} (h : n < 2 ^ 53) : ofNat n = n := if_pos h

theorem log2_ge {n : ℕ} (h : 2 ^ 53 ≤ n) : 53 ≤ n.log2 :=
  (Nat.le_log2 (by omega)).mpr h

/-- The kept bits of a large number: at least `2 ^ 52`, below `2 ^ 53`. -/
theorem kept_bounds {n : ℕ} (h : 2 ^ 53 ≤ n) :
    2 ^ 52 ≤ n / 2 ^ ulp n ∧ n / 2 ^ ulp n < 2 ^ 53 := by
  have hlog := log2_ge h
  have hlow : 2 ^ n.log2 ≤ n := Nat.log2_self_le (by omega)
  have hhigh : n < 2 ^ (n.log2 + 1) := Nat.lt_log2_self
  rw [Nat.le_div_iff_mul_le (by positivity), Nat.div_lt_iff_lt_mul (by positivity), ← pow_add,
    ← pow_add, show 52 + ulp n = n.log2 by unfold ulp; omega,
    show 53 + ulp n = n.log2 + 1 by unfold ulp; omega]
  exact ⟨hlow, hhigh⟩

theorem ofNat_large {n : ℕ} (h : 2 ^ 53 ≤ n) :
    ofNat n = (n / 2 ^ ulp n + if roundsUp n then 1 else 0) * 2 ^ ulp n := if_neg (by omega)

theorem ofNat_large_bounds {n : ℕ} (h : 2 ^ 53 ≤ n) :
    2 ^ 52 * 2 ^ ulp n ≤ ofNat n ∧ ofNat n ≤ 2 ^ 53 * 2 ^ ulp n := by
  obtain ⟨hlow, hhigh⟩ := kept_bounds h
  rw [ofNat_large h]
  exact ⟨Nat.mul_le_mul_right _ (by omega), Nat.mul_le_mul_right _ (by split_ifs <;> omega)⟩

theorem ulp_mono {n m : ℕ} (h : n ≤ m) : ulp n ≤ ulp m :=
  Nat.sub_le_sub_right (by simpa only [Nat.log2_eq_log_two] using Nat.log_mono_right h) 52

theorem ulp_pos {n : ℕ} (h : 2 ^ 53 ≤ n) : 1 ≤ ulp n := by
  have := log2_ge h
  unfold ulp
  omega

/-- Rounding never brings a large number below `2 ^ 53`. -/
theorem le_ofNat_large {n : ℕ} (h : 2 ^ 53 ≤ n) : 2 ^ 53 ≤ ofNat n := by
  have hpow : 2 ^ 1 ≤ 2 ^ ulp n := Nat.pow_le_pow_right (by decide) (ulp_pos h)
  have := (ofNat_large_bounds h).1
  omega

/-- With equal kept bits the larger remainder rounds up whenever the smaller one does. -/
theorem roundsUp_mono {n m : ℕ} (h : n ≤ m) (hu : ulp n = ulp m)
    (hq : n / 2 ^ ulp n = m / 2 ^ ulp m) (hup : roundsUp n = true) : roundsUp m = true := by
  have hn := Nat.div_add_mod n (2 ^ ulp n)
  have hm := Nat.div_add_mod m (2 ^ ulp m)
  unfold roundsUp at hup ⊢
  rw [← hq] at hm ⊢
  rw [← hu] at hm ⊢
  simp only [decide_eq_true_eq] at hup ⊢
  omega

theorem ofNat_mono {n m : ℕ} (h : n ≤ m) : ofNat n ≤ ofNat m := by
  rcases Nat.lt_or_ge m (2 ^ 53) with hm | hm
  · rw [ofNat_of_lt hm, ofNat_of_lt (by omega)]
    exact h
  rcases Nat.lt_or_ge n (2 ^ 53) with hn | hn
  · rw [ofNat_of_lt hn]
    have := le_ofNat_large hm
    omega
  rcases Nat.lt_or_ge (ulp n) (ulp m) with hlt | hge
  · -- different binades: `2 ^ 53` units of the lower are `2 ^ 52` of the next
    have hpow : 2 ^ (ulp n + 1) ≤ 2 ^ ulp m := Nat.pow_le_pow_right (by decide) hlt
    have hupper := (ofNat_large_bounds hn).2
    have hlower := (ofNat_large_bounds hm).1
    rw [pow_succ] at hpow
    omega
  · have hu : ulp n = ulp m := le_antisymm (ulp_mono h) hge
    have hq : n / 2 ^ ulp n ≤ m / 2 ^ ulp m := hu ▸ Nat.div_le_div_right h
    rw [ofNat_large hn, ofNat_large hm, hu]
    refine Nat.mul_le_mul_right _ ?_
    rw [hu] at hq
    rcases Nat.lt_or_ge (n / 2 ^ ulp m) (m / 2 ^ ulp m) with hlt | hge
    · split_ifs <;> omega
    · have heq : n / 2 ^ ulp n = m / 2 ^ ulp m := by rw [hu]; omega
      by_cases hup : roundsUp n = true
      · rw [if_pos hup, if_pos (roundsUp_mono h hu heq hup)]
        omega
      · rw [if_neg hup]
        omega

/-- A strict order of the rounded values comes from a strict order of the numbers. -/
theorem lt_of_ofNat_lt {n m : ℕ} (h : ofNat n < ofNat m) : n < m := by
  by_contra hge
  exact absurd (ofNat_mono (Nat.le_of_not_lt hge)) (by omega)

/-! ### Rational numbers -/

/-- The exponent of the first bit of a positive number. -/
def exponent (x : ℚ) : ℤ :=
  let e : ℤ := (x.num.natAbs.log2 : ℤ) - x.den.log2
  if (2 : ℚ) ^ e ≤ x then e else e - 1

/-- The nearest integer, and of two the even one. -/
def nearest (x : ℚ) : ℤ :=
  let low := ⌊x⌋
  if x - low < 1 / 2 then low
  else if 1 / 2 < x - low then low + 1
  else if low % 2 = 0 then low else low + 1

/-- The double nearest to a number, as an operation rounds its exact result. The last bit of a
double is at least `2 ^ (-1074)`. -/
def round (x : ℚ) : ℚ :=
  let last := max (exponent |x| - 52) (-1074)
  nearest (x / 2 ^ last) * 2 ^ last

theorem nearest_intCast (n : ℤ) : nearest n = n := by
  unfold nearest
  simp

theorem exponent_natCast_le (n : ℕ) : exponent n ≤ n.log2 := by
  unfold exponent
  dsimp only
  rw [Rat.num_natCast, Rat.den_natCast, Int.natAbs_natCast]
  have hone : Nat.log2 1 = 0 := rfl
  rw [hone]
  split_ifs <;> omega

/-- A natural number below `2 ^ 53` is a double. -/
theorem round_natCast {n : ℕ} (h : n < 2 ^ 53) : round n = n := by
  have hlog : n.log2 ≤ 52 := by
    rcases Nat.eq_zero_or_pos n with rfl | hpos
    · decide
    · exact Nat.lt_succ_iff.mp ((Nat.log2_lt hpos.ne').mpr h)
  have hexp := exponent_natCast_le n
  unfold round
  rw [abs_of_nonneg (Nat.cast_nonneg n)]
  dsimp only
  -- the last bit stands for `2 ^ (-k)`, of which the number is a multiple
  obtain ⟨k, hk⟩ : ∃ k : ℕ, max (exponent (n : ℚ) - 52) (-1074) = -k :=
    ⟨(-max (exponent (n : ℚ) - 52) (-1074)).toNat, by omega⟩
  rw [hk, zpow_neg, zpow_natCast, div_inv_eq_mul]
  have hint : (n : ℚ) * 2 ^ k = ((n * 2 ^ k : ℤ) : ℚ) := by push_cast; rfl
  rw [hint, nearest_intCast, ← hint]
  field_simp

end Double
