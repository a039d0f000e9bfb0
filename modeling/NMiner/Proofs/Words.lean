import NMiner.Lib.X86Code
import NMiner.Spec.Jit

/-! The arithmetic of the two machines is the same: products, rotations, masks and reciprocals, as
the bytecode machine computes them with shifts of words and the processor with its own
instructions. -/

namespace NMiner.RandomX

open X86

/-! ### Products -/

theorem mulh_eq (a b : BitVec 64) : mulh a b = mulHigh false a b := by
  have hlt : a.toNat * b.toNat < 2 ^ 128 := by
    have h := Nat.mul_lt_mul'' a.isLt b.isLt
    rwa [← pow_add] at h
  rw [mulh, mulHigh, ← BitVec.toNat_inj, BitVec.toNat_setWidth, BitVec.toNat_ushiftRight,
    BitVec.toNat_mul, BitVec.toNat_setWidth_of_le (by decide),
      BitVec.toNat_setWidth_of_le (by decide),
    Nat.mod_eq_of_lt hlt, Nat.shiftRight_eq_div_pow, BitVec.toNat_ofNat]

theorem smulh_eq (a b : BitVec 64) : smulh a b = mulHigh true a b := by
  have ha := BitVec.toInt_lt (x := a)
  have ha' := BitVec.le_toInt (x := a)
  have hb := BitVec.toInt_lt (x := b)
  have hb' := BitVec.le_toInt (x := b)
  have hprod : (a.signExtend 128 * b.signExtend 128).toInt = a.toInt * b.toInt := by
    rw [BitVec.toInt_mul, BitVec.toInt_signExtend_of_le (by decide),
      BitVec.toInt_signExtend_of_le (by decide)]
    have habs : |a.toInt * b.toInt| ≤ 2 ^ 63 * 2 ^ 63 := by
      rw [abs_mul]
      exact mul_le_mul (abs_le.mpr ⟨by omega, by omega⟩) (abs_le.mpr ⟨by omega, by omega⟩)
        (abs_nonneg _) (by positivity)
    obtain ⟨hlo, hhi⟩ := abs_le.mp habs
    exact Int.bmod_eq_of_le (by norm_num at *; omega) (by norm_num at *; omega)
  have hcut : ∀ z : ℤ, (BitVec.ofInt 128 z).setWidth 64 = BitVec.ofInt 64 z := by
    intro z
    rw [← BitVec.toNat_inj, BitVec.toNat_setWidth, BitVec.toNat_ofInt, BitVec.toNat_ofInt]
    omega
  rw [smulh, mulHigh, BitVec.sshiftRight_eq, hprod, hcut, Int.shiftRight_eq_div_pow]
  norm_num

/-! ### Rotations -/

theorem rotr_eq (a : BitVec 64) {n : ℕ} (hn : n < 64) : rotr a n = a.rotateRight n := by
  rw [rotr, BitVec.rotateRight_def, negCount, Nat.mod_eq_of_lt hn]
  rcases Nat.eq_zero_or_pos n with rfl | hpos
  · simp
  · rw [Nat.mod_eq_of_lt (by omega)]

theorem rotl_eq (a : BitVec 64) {n : ℕ} (hn : n < 64) : rotl a n = a.rotateLeft n := by
  rw [rotl, BitVec.rotateLeft_def, negCount, Nat.mod_eq_of_lt hn]
  rcases Nat.eq_zero_or_pos n with rfl | hpos
  · have hzero : a >>> 64 = 0#64 := BitVec.ushiftRight_eq_zero (Nat.le_refl 64)
    simp [hzero]
  · rw [Nat.mod_eq_of_lt (by omega)]

/-! ### Masks -/

/-- An address of 32 bits that is masked is the masked address. -/
theorem narrow_and_mask (v : BitVec 64) {mask : BitVec 32} (h : mask.msb = false) :
    narrow .w32 (narrow .w32 v &&& mask.signExtend 64) = v &&& mask.setWidth 64 := by
  rw [BitVec.signExtend_eq_setWidth_of_msb_false h]
  apply BitVec.eq_of_getLsbD_eq
  intro i hi
  simp only [narrow, BitVec.getLsbD_setWidth, BitVec.getLsbD_and]
  by_cases h32 : i < 32
  · simp [hi, h32]
  · have hm : mask.getLsbD i = false := BitVec.getLsbD_of_ge mask i (by omega)
    simp [hi, h32, hm]

theorem and_mask_lt (v : BitVec 64) (mask : BitVec 32) :
    (v &&& mask.setWidth 64).toNat < 2 ^ 32 := by
  rw [BitVec.toNat_and, BitVec.toNat_setWidth_of_le (by decide)]
  exact Nat.lt_of_le_of_lt Nat.and_le_right mask.isLt

/-- The immediate of an address is masked when it is emitted. -/
theorem signExtend_and_mask (imm : BitVec 32) {mask : BitVec 32} (h : mask.msb = false) :
    (imm &&& mask).signExtend 64 = imm.signExtend 64 &&& mask.setWidth 64 := by
  have hand : (imm &&& mask).msb = false := by rw [BitVec.msb_and, h, Bool.and_false]
  rw [BitVec.signExtend_eq_setWidth_of_msb_false hand]
  apply BitVec.eq_of_getLsbD_eq
  intro i hi
  simp only [BitVec.getLsbD_setWidth, BitVec.getLsbD_and, BitVec.getLsbD_signExtend]
  by_cases h32 : i < 32
  · simp [hi, h32]
  · have hm : mask.getLsbD i = false := BitVec.getLsbD_of_ge mask i (by omega)
    simp [hi, hm]

/-! ### Rounding modes -/

theorem getLsbD_rotateLeft_mod {w : ℕ} (x : BitVec w) {n i : ℕ} (hn : n < w) (hi : i < w) :
    (x.rotateLeft n).getLsbD i = x.getLsbD ((i + (w - n)) % w) := by
  rw [BitVec.getLsbD_rotateLeft, Nat.mod_eq_of_lt hn]
  by_cases h : i < n
  · rw [Nat.mod_eq_of_lt (show i + (w - n) < w by omega)]
    simp [h, Nat.add_comm]
  · rw [show i + (w - n) = (i - n) + w by omega, Nat.add_mod_right,
      Nat.mod_eq_of_lt (show i - n < w by omega)]
    simp [h, hi]

theorem getLsbD_rotateRight_mod {w : ℕ} (x : BitVec w) {n i : ℕ} (hn : n < w) (hi : i < w) :
    (x.rotateRight n).getLsbD i = x.getLsbD ((i + n) % w) := by
  rw [BitVec.getLsbD_rotateRight, Nat.mod_eq_of_lt hn]
  by_cases h : i < w - n
  · rw [Nat.mod_eq_of_lt (show i + n < w by omega)]
    simp [h, Nat.add_comm]
  · rw [show i + n = (i - (w - n)) + w by omega, Nat.add_mod_right,
      Nat.mod_eq_of_lt (show i - (w - n) < w by omega)]
    simp [h, hi]

/-- To rotate left by what is missing to 13 is to rotate right, and left by 13. -/
theorem rotateLeft_rotateRight (x : BitVec 64) {n : ℕ} (hn : n < 64) :
    x.rotateLeft ((13 + 64 - n) % 64) = (x.rotateRight n).rotateLeft 13 := by
  apply BitVec.eq_of_getLsbD_eq
  intro i hi
  rw [getLsbD_rotateLeft_mod _ (Nat.mod_lt _ (by decide)) hi,
    getLsbD_rotateLeft_mod _ (by decide) hi,
    getLsbD_rotateRight_mod _ hn (Nat.mod_lt _ (by decide))]
  congr 1
  omega

theorem getLsbD_rotateLeft_thirteen (y : BitVec 64) (i : ℕ) (hi : i < 51) :
    (y.rotateLeft 13).getLsbD (i + 13) = y.getLsbD i := by
  rw [getLsbD_rotateLeft_mod y (by decide) (by omega),
    show i + 13 + (64 - 13) = i + 64 by omega, Nat.add_mod_right, Nat.mod_eq_of_lt (by omega)]

theorem getLsbD_mod_four (y : BitVec 64) (i : ℕ) :
    (y % 4).getLsbD i = (decide (i < 2) && y.getLsbD i) := by
  have h : (y % 4).toNat = y.toNat % 2 ^ 2 := BitVec.toNat_umod
  rw [BitVec.getLsbD, h, Nat.testBit_mod_two_pow]
  rfl

/-- The rounding mode, rotated to where the control word has it. -/
theorem rotate_mode (y : BitVec 64) :
    ((narrow .w32 (narrow .w32 (y.rotateLeft 13 &&& 0x6000) ||| 0x9fc0)).setWidth 32 : BitVec 32) =
      rx_mxcsr_default ||| ((y % 4).setWidth 32 <<< 13) := by
  have hmask : ∀ i < 64, (0x6000 : BitVec 64).getLsbD i = decide (i = 13 ∨ i = 14) := by decide
  have hdefault : ∀ i < 32, (0x9fc0 : BitVec 64).getLsbD i = rx_mxcsr_default.getLsbD i := by decide
  apply BitVec.eq_of_getLsbD_eq
  intro i hi
  simp only [narrow, BitVec.getLsbD_setWidth, BitVec.getLsbD_or, BitVec.getLsbD_and,
    BitVec.getLsbD_shiftLeft, getLsbD_mod_four]
  rw [hmask i (by omega), hdefault i hi, Bool.or_comm]
  simp only [hi, show i < 64 by omega, decide_true, Bool.true_and]
  congr 1
  by_cases hmode : i = 13 ∨ i = 14
  · obtain ⟨j, rfl⟩ := Nat.exists_eq_add_of_le' (show 13 ≤ i by omega)
    rw [getLsbD_rotateLeft_thirteen y j (by omega)]
    have hj : j = 0 ∨ j = 1 := by omega
    simp [hj, show j < 2 by omega, show j < 32 by omega]
  · have hnot : ¬ (13 ≤ i ∧ i - 13 < 2) := by omega
    simp [hmode]
    omega

/-- The bits that forbid another rounding mode. -/
theorem rotate_test (y : BitVec 64) :
    narrow .w32 (y.rotateLeft 13 &&& 0x78000) = 0 ↔ y &&& 60 = 0 := by
  have hmask : ∀ i < 64, (0x78000 : BitVec 64).getLsbD i = decide (15 ≤ i ∧ i < 19) := by decide
  have hbits : ∀ i < 64, (60 : BitVec 64).getLsbD i = decide (2 ≤ i ∧ i < 6) := by decide
  have hzero : ∀ i, (0 : BitVec 64).getLsbD i = false := fun i => BitVec.getLsbD_zero
  have hleft : ∀ i < 64, (narrow .w32 (y.rotateLeft 13 &&& 0x78000)).getLsbD i =
      (decide (15 ≤ i ∧ i < 19) && y.getLsbD (i - 13)) := by
    intro i hi
    simp only [narrow, BitVec.getLsbD_setWidth, BitVec.getLsbD_and]
    rw [hmask i hi]
    by_cases hin : 15 ≤ i ∧ i < 19
    · obtain ⟨j, rfl⟩ := Nat.exists_eq_add_of_le' (show 13 ≤ i by omega)
      rw [getLsbD_rotateLeft_thirteen y j (by omega)]
      simp [hin, hi, show j + 13 < 32 by omega]
    · simp [hin]
  constructor
  · intro h
    apply BitVec.eq_of_getLsbD_eq
    intro i hi
    rw [BitVec.getLsbD_and, hbits i hi, hzero]
    by_cases hin : 2 ≤ i ∧ i < 6
    · have hbit := hleft (i + 13) (by omega)
      rw [h, hzero, Nat.add_sub_cancel] at hbit
      simpa [hin, show 15 ≤ i + 13 ∧ i + 13 < 19 by omega] using hbit.symm
    · simp [hin]
  · intro h
    apply BitVec.eq_of_getLsbD_eq
    intro i hi
    rw [hleft i hi, hzero]
    by_cases hin : 15 ≤ i ∧ i < 19
    · have hbit := congrArg (fun v => v.getLsbD (i - 13)) h
      rw [BitVec.getLsbD_and, hbits _ (by omega), hzero] at hbit
      simpa [hin, show 2 ≤ i - 13 ∧ i - 13 < 6 by omega] using hbit
    · simp [hin]

/-! ### Jumps -/

theorem branch_imm (imm : BitVec 32) {shift : ℕ} (hshift : shift < 31) (hpos : 0 < shift) :
    ((imm ||| (1#32 <<< shift)) &&& ~~~(1#32 <<< (shift - 1))).signExtend 64 =
      (signExtend2sCompl imm ||| (1#64 <<< shift)) &&& ~~~(1#64 <<< (shift - 1)) := by
  have hone : ∀ {w : ℕ} (i n : ℕ), n < w → (1#w <<< n).getLsbD i = decide (i = n) := by
    intro w i n hn
    rw [BitVec.getLsbD_shiftLeft, BitVec.getLsbD_one]
    by_cases h : i = n
    · simp [h, hn]; omega
    · simp [h]
      omega
  apply BitVec.eq_of_getLsbD_eq
  intro i hi
  rw [BitVec.getLsbD_signExtend, signExtend2sCompl]
  simp only [BitVec.getLsbD_signExtend, BitVec.getLsbD_and, BitVec.getLsbD_or,
    BitVec.msb_eq_getLsbD_last,
    BitVec.getLsbD_not, hone _ shift (show shift < 32 by omega),
      hone _ shift (show shift < 64 by omega),
    hone _ (shift - 1) (show shift - 1 < 32 by omega),
      hone _ (shift - 1) (show shift - 1 < 64 by omega)]
  by_cases h32 : i < 32
  · simp [h32, hi]
  · have h1 : i ≠ shift := by omega
    have h2 : i ≠ shift - 1 := by omega
    have h3 : 31 ≠ shift := by omega
    have h4 : 31 ≠ shift - 1 := by omega
    simp [h32, hi, h1, h2, h3, h4]

/-! ### Reciprocals -/

theorem div_mul_add_mod_mul_div (p m : ℕ) {d : ℕ} (hd : 0 < d) :
    p / d * m + p % d * m / d = p * m / d := by
  conv_rhs => rw [← Nat.div_add_mod p d]
  rw [Nat.add_mul, Nat.mul_assoc, Nat.mul_add_div hd]

theorem not_pow_two_bounds {d : BitVec 32} (h : isZeroOrPowerOf2 (d.setWidth 64) = false) :
    2 ^ d.toNat.log2 < d.toNat := by
  have hand : d.setWidth 64 &&& (d.setWidth 64 - 1) ≠ 0 := by simpa [isZeroOrPowerOf2] using h
  have hwide : (d.setWidth 64).toNat = d.toNat := BitVec.toNat_setWidth_of_le (by decide)
  have hne : d.toNat ≠ 0 := by
    intro h0
    apply hand
    rw [BitVec.eq_of_toNat_eq (hwide.trans h0 : _ = (0#64).toNat), BitVec.zero_and]
    rfl
  have hpred : (d.setWidth 64 - 1).toNat = d.toNat - 1 := by
    rw [BitVec.toNat_sub_of_le (by rw [BitVec.le_def, hwide]; exact Nat.one_le_iff_ne_zero.mpr hne),
      hwide]
    rfl
  have hnot : ¬ d.toNat.isPowerOfTwo := by
    rw [← Nat.and_sub_one_eq_zero_iff_isPowerOfTwo hne]
    intro h0
    apply hand
    apply BitVec.eq_of_toNat_eq
    rw [BitVec.toNat_and, hwide, hpred, h0]
    rfl
  exact lt_of_le_of_ne (Nat.log2_self_le hne) fun heq => hnot ⟨_, heq.symm⟩

/-- The quotient fits into a word, and uses its highest bit. -/
theorem reciprocal_bounds {n : ℕ} (h : 2 ^ n.log2 < n) :
    2 ^ 63 ≤ 2 ^ (64 + n.log2) / n ∧ 2 ^ (64 + n.log2) / n < 2 ^ 64 := by
  have hpos : 0 < n := Nat.zero_lt_of_lt h
  constructor
  · rw [Nat.le_div_iff_mul_le hpos]
    calc 2 ^ 63 * n ≤ 2 ^ 63 * 2 ^ (n.log2 + 1) :=
          Nat.mul_le_mul_left _ (Nat.lt_log2_self).le
      _ = 2 ^ (64 + n.log2) := by rw [← pow_add]; congr 1; omega
  · rw [Nat.div_lt_iff_lt_mul hpos, pow_add]
    exact Nat.mul_lt_mul_of_pos_left h (by positivity)

/-- No intermediate word of `randomx_reciprocal` overflows: neither the shifted quotient, nor the
shifted remainder, nor their sum. -/
structure ReciprocalFits (n : ℕ) : Prop where
  quotient : 2 ^ 63 / n * 2 ^ (n.log2 + 1) < 2 ^ 64
  remainder : 2 ^ 63 % n * 2 ^ (n.log2 + 1) < 2 ^ 64
  sum : 2 ^ 63 / n * 2 ^ (n.log2 + 1) + 2 ^ 63 % n * 2 ^ (n.log2 + 1) / n < 2 ^ 64

/-- The two parts make up the quotient of a power of two. -/
theorem reciprocal_split {n : ℕ} (hpos : 0 < n) :
    2 ^ 63 / n * 2 ^ (n.log2 + 1) + 2 ^ 63 % n * 2 ^ (n.log2 + 1) / n = 2 ^ (64 + n.log2) / n := by
  have hsplit := div_mul_add_mod_mul_div (2 ^ 63) (2 ^ (n.log2 + 1)) hpos
  rwa [← pow_add, show 63 + (n.log2 + 1) = 64 + n.log2 by omega] at hsplit

theorem reciprocal_fits {n : ℕ} (h : 2 ^ n.log2 < n) (hn : n < 2 ^ 32) : ReciprocalFits n := by
  have hpos : 0 < n := Nat.zero_lt_of_lt h
  have hlog : n.log2 < 32 := (Nat.log2_lt hpos.ne').mpr hn
  have hsum : 2 ^ 63 / n * 2 ^ (n.log2 + 1) + 2 ^ 63 % n * 2 ^ (n.log2 + 1) / n < 2 ^ 64 :=
    (reciprocal_split hpos).trans_lt (reciprocal_bounds h).2
  refine ⟨(Nat.le_add_right _ _).trans_lt hsum, ?_, hsum⟩
  calc 2 ^ 63 % n * 2 ^ (n.log2 + 1)
      < 2 ^ (n.log2 + 1) * 2 ^ (n.log2 + 1) :=
        Nat.mul_lt_mul_of_pos_right ((Nat.mod_lt _ hpos).trans Nat.lt_log2_self) (by positivity)
    _ = 2 ^ (2 * (n.log2 + 1)) := by rw [← pow_add]; congr 1; omega
    _ ≤ 2 ^ 64 := Nat.pow_le_pow_right (by decide) (by omega)

/-- The reciprocal is the quotient of a power of two. -/
theorem randomx_reciprocal_toNat {d : BitVec 32} (h : isZeroOrPowerOf2 (d.setWidth 64) = false) :
    (randomx_reciprocal d).toNat = 2 ^ (64 + d.toNat.log2) / d.toNat := by
  have hlt := not_pow_two_bounds h
  have hfits := reciprocal_fits hlt d.isLt
  have hsplit := reciprocal_split (Nat.zero_lt_of_lt hlt)
  have hwide : (d.setWidth 64).toNat = d.toNat := BitVec.toNat_setWidth_of_le (by decide)
  have hone : ((1#64 <<< 63) : BitVec 64).toNat = 2 ^ 63 := by decide
  unfold randomx_reciprocal
  generalize (1#64 <<< 63) = p at hone
  dsimp only
  rw [BitVec.toNat_add, BitVec.toNat_shiftLeft, BitVec.toNat_udiv, BitVec.toNat_udiv,
    BitVec.toNat_shiftLeft, BitVec.toNat_umod, hwide, hone, Nat.shiftLeft_eq, Nat.shiftLeft_eq,
    Nat.mod_eq_of_lt hfits.remainder, Nat.mod_eq_of_lt hfits.quotient,
    Nat.mod_eq_of_lt hfits.sum, hsplit]

theorem narrow_xor_self (x : BitVec 64) : narrow .w32 (x ^^^ narrow .w32 x) = 0 := by
  rw [narrow, narrow, BitVec.setWidth_xor, BitVec.setWidth_setWidth_of_le _ (by decide),
    BitVec.setWidth_eq, BitVec.xor_self]
  rfl

/-- The registers before the highest bit of the divisor is looked for. -/
theorem reciprocal_init (u : Units) (m : Machine) :
    ∃ m', block u (randomx_reciprocal_inc.take 4) m = some m' ∧ m'.gpr 0 = 0 ∧ m'.gpr 1 = m.gpr 7 ∧
      m'.gpr 2 = 1 ∧ m'.gpr 8 = m.gpr 7 :=
  ⟨_, rfl, narrow_xor_self _, rfl, rfl, rfl⟩

theorem effect_shl (u : Units) (m : Machine) (dst : Reg) :
    ∃ m', effect u m (.shift true .w64 dst .cl) = some m' ∧
      m'.gpr = Function.update m.gpr dst (m.gpr dst <<< ((m.gpr 1).toNat % 64)) := by
  by_cases h : (m.gpr 1).toNat % 64 = 0
  · refine ⟨_, if_pos h, ?_⟩
    rw [h, BitVec.shiftLeft_zero]
    rfl
  · exact ⟨_, if_neg h, rfl⟩

theorem effect_div (u : Units) {m : Machine} {r : Reg}
    (hpos : 0 < (m.gpr r).toNat)
    (hfit : ((m.gpr 2).toNat * 2 ^ 64 + (m.gpr 0).toNat) / (m.gpr r).toNat < 2 ^ 64) :
    ∃ m', effect u m (.div r) = some m' ∧ m'.gpr 0 =
      BitVec.ofNat 64 (((m.gpr 2).toNat * 2 ^ 64 + (m.gpr 0).toNat) / (m.gpr r).toNat) :=
  ⟨_, if_neg (by omega), rfl⟩

/-- The function in assembly computes the same reciprocal. -/
theorem randomx_reciprocal_fast_eq (u : Units) {d : BitVec 32}
    (h : isZeroOrPowerOf2 (d.setWidth 64) = false) :
    randomx_reciprocal_fast u d = randomx_reciprocal d := by
  have hlt := not_pow_two_bounds h
  have hpos : 0 < d.toNat := Nat.zero_lt_of_lt hlt
  have hwide : (d.setWidth 64).toNat = d.toNat := BitVec.toNat_setWidth_of_le (by decide)
  have hlog : d.toNat.log2 < 32 := (Nat.log2_lt hpos.ne').mpr d.isLt
  obtain ⟨-, hbound⟩ := reciprocal_bounds hlt
  unfold randomx_reciprocal_fast
  dsimp only
  generalize hm : Machine.mk _ _ _ _ _ = m
  have h7 : m.gpr 7 = d.setWidth 64 := by rw [← hm]; rfl
  obtain ⟨m₁, hinit, h0, h1, h2, h8⟩ := reciprocal_init u m
  have hne : m₁.gpr 1 ≠ 0 := by
    rw [h1, h7]
    intro h0
    have := congrArg BitVec.toNat h0
    rw [hwide] at this
    exact hpos.ne' this
  have hbsr : effect u m₁ (.bsr 1 1) = some _ := if_neg hne
  generalize hm₂ :
    ((m₁.setReg 1 (BitVec.ofNat 64 (m₁.gpr 1).toNat.log2)).setZf (some false)) = m₂ at hbsr
  obtain ⟨m₃, hshl, hgpr⟩ := effect_shl u m₂ 2
  have hcl : (m₂.gpr 1).toNat = d.toNat.log2 := by
    rw [← hm₂]
    change (BitVec.ofNat 64 (m₁.gpr 1).toNat.log2).toNat = _
    rw [h1, h7, hwide, BitVec.toNat_ofNat, Nat.mod_eq_of_lt (by omega)]
  have hdx : (m₃.gpr 2).toNat = 2 ^ d.toNat.log2 := by
    have h2' : m₂.gpr 2 = 1 := by rw [← hm₂]; exact h2
    rw [hgpr, Function.update_self, hcl, h2', Nat.mod_eq_of_lt (by omega), BitVec.toNat_shiftLeft]
    change (1 <<< d.toNat.log2) % 2 ^ 64 = _
    rw [Nat.shiftLeft_eq, Nat.one_mul,
      Nat.mod_eq_of_lt (Nat.pow_lt_pow_right (by decide) (by omega))]
  have hax : (m₃.gpr 0).toNat = 0 := by
    have h0' : m₂.gpr 0 = 0 := by rw [← hm₂]; exact h0
    rw [hgpr, Function.update_of_ne (by decide), h0']
    rfl
  have hd : (m₃.gpr 8).toNat = d.toNat := by
    have h8' : m₂.gpr 8 = d.setWidth 64 := by rw [← hm₂]; exact h8.trans h7
    rw [hgpr, Function.update_of_ne (by decide), h8', hwide]
  have hn : (m₃.gpr 2).toNat * 2 ^ 64 + (m₃.gpr 0).toNat = 2 ^ (64 + d.toNat.log2) := by
    rw [hdx, hax, Nat.add_zero, ← pow_add, Nat.add_comm]
  obtain ⟨m₄, hdiv, hres⟩ := effect_div u (m := m₃) (r := 8)
    (by rw [hd]; exact hpos) (by rw [hn, hd]; exact hbound)
  have hblock : block u randomx_reciprocal_inc m = some m₄ := by
    have hsplit : randomx_reciprocal_inc =
        randomx_reciprocal_inc.take 4 ++ [.bsr 1 1, .shift true .w64 2 .cl, .div 8] := rfl
    rw [hsplit, block_append hinit, block_cons hbsr, block_cons hshl, block_cons hdiv, block]
  rw [hblock, Option.elim_some, hres, hn, hd, ← randomx_reciprocal_toNat h, BitVec.ofNat_toNat,
    BitVec.setWidth_eq]

/-- The reciprocal is `2 ^ x / divisor` for the highest `x` such that it is a word of 64 bits, in C
as in assembly, and no word on the way to it overflows. -/
theorem randomx_reciprocal_highest (u : Units) (d : BitVec 32)
    (h : isZeroOrPowerOf2 (d.setWidth 64) = false) :
    ∃ x, (randomx_reciprocal d).toNat = 2 ^ x / d.toNat ∧
      randomx_reciprocal_fast u d = randomx_reciprocal d ∧ ReciprocalFits d.toNat ∧
        ∀ y, 2 ^ y / d.toNat < 2 ^ 64 ↔ y ≤ x := by
  have hlt := not_pow_two_bounds h
  have hpos : 0 < d.toNat := Nat.zero_lt_of_lt hlt
  obtain ⟨hlow, hhigh⟩ := reciprocal_bounds hlt
  refine ⟨64 + d.toNat.log2, randomx_reciprocal_toNat h, randomx_reciprocal_fast_eq u h,
    reciprocal_fits hlt d.isLt, fun y => ?_⟩
  constructor
  · intro hy
    by_contra hgt
    have hdouble : 2 ^ 64 ≤ 2 ^ (64 + d.toNat.log2 + 1) / d.toNat := by
      calc 2 ^ 64 = 2 * 2 ^ 63 := by norm_num
        _ ≤ 2 * (2 ^ (64 + d.toNat.log2) / d.toNat) := Nat.mul_le_mul_left 2 hlow
        _ ≤ 2 * 2 ^ (64 + d.toNat.log2) / d.toNat := Nat.mul_div_le_mul_div_assoc ..
        _ = 2 ^ (64 + d.toNat.log2 + 1) / d.toNat := by rw [pow_succ, Nat.mul_comm]
    have hmono : 2 ^ (64 + d.toNat.log2 + 1) / d.toNat ≤ 2 ^ y / d.toNat :=
      Nat.div_le_div_right (Nat.pow_le_pow_right (by decide) (by omega))
    omega
  · intro hy
    exact Nat.lt_of_le_of_lt
      (Nat.div_le_div_right (Nat.pow_le_pow_right (by decide) hy)) hhigh

theorem randomx_reciprocal_highest_three :
    ∃ x, (randomx_reciprocal 3).toNat = 2 ^ x / 3 ∧
      randomx_reciprocal_fast ⟨fun _ a _ => a, fun _ a _ => a, fun _ a _ => a, fun _ a _ => a,
        fun _ a => a, fun _ => 0, fun a _ => a, fun a _ => a⟩ 3 = randomx_reciprocal 3 ∧
      ReciprocalFits 3 ∧ ∀ y, 2 ^ y / 3 < 2 ^ 64 ↔ y ≤ x :=
  randomx_reciprocal_highest _ 3 (by decide)

end NMiner.RandomX
