import NMiner.Lib.X86

/-! The flat memory of the x86 subset, seen from a base: words that are stored and loaded at
offsets, and what a store leaves alone. -/

namespace X86

open Word

variable {w n : ℕ}

theorem view_add (mem : BitVec 64 → UInt8) (a : BitVec 64) (i : ℕ) :
    view mem (a + BitVec.ofNat 64 i) = fun j => view mem a (i + j) := by
  funext j
  rw [view, view, BitVec.ofNat_add, BitVec.add_assoc]

theorem load64_add (mem : BitVec 64 → UInt8) (a : BitVec 64) (i : ℕ) :
    load64 mem (a + BitVec.ofNat 64 i) = read 8 fun j => view mem a (i + j) := by
  rw [load64, view_add]

/-- The distance between two offsets from a base. -/
theorem toNat_add_sub_add (a : BitVec 64) {i j : ℕ} (hi : i < 2 ^ 63) (hj : j < 2 ^ 63) :
    (a + BitVec.ofNat 64 i - (a + BitVec.ofNat 64 j)).toNat =
      if j ≤ i then i - j else 2 ^ 64 - (j - i) := by
  have hsub : a + BitVec.ofNat 64 i - (a + BitVec.ofNat 64 j) =
      BitVec.ofNat 64 i - BitVec.ofNat 64 j := by ring
  rw [hsub, BitVec.toNat_sub, BitVec.toNat_ofNat, BitVec.toNat_ofNat,
    Nat.mod_eq_of_lt (show i < 2 ^ 64 by omega), Nat.mod_eq_of_lt (show j < 2 ^ 64 by omega)]
  split_ifs with h
  · rw [show 2 ^ 64 - j + i = (i - j) + 2 ^ 64 by omega, Nat.add_mod_right,
      Nat.mod_eq_of_lt (by omega)]
  · rw [Nat.mod_eq_of_lt (by omega)]
    omega

/-- The distance to an offset from a base, for a place that is farther away. -/
theorem toNat_sub_add (x a : BitVec 64) {i : ℕ} (h : i ≤ (x - a).toNat) :
    (x - (a + BitVec.ofNat 64 i)).toNat = (x - a).toNat - i := by
  have hi : (BitVec.ofNat 64 i).toNat = i := by
    rw [BitVec.toNat_ofNat, Nat.mod_eq_of_lt (by omega)]
  have hsub : x - (a + BitVec.ofNat 64 i) = x - a - BitVec.ofNat 64 i := by ring
  rw [hsub, BitVec.toNat_sub_of_le (by rw [BitVec.le_def, hi]; exact h), hi]

/-- A store at an offset, seen from the base. -/
theorem view_poke (mem : BitVec 64 → UInt8) (a : BitVec 64) {i j : ℕ} (v : BitVec w)
    (hi : i < 2 ^ 63) (hj : j < 2 ^ 62) (hn : n < 2 ^ 62) :
    view (poke n mem (a + BitVec.ofNat 64 j) v) a i = write n (view mem a) j v i := by
  unfold view poke write
  rw [toNat_add_sub_add a hi (by omega)]
  by_cases hji : j ≤ i
  · rw [if_pos hji]
    by_cases hlt : i < j + n
    · rw [if_pos (by omega), if_pos ⟨hji, hlt⟩]
    · rw [if_neg (by omega), if_neg fun h => hlt h.2]
  · rw [if_neg hji, if_neg (by omega), if_neg fun h => hji h.1]

/-- A store elsewhere. -/
theorem poke_of_le (mem : BitVec 64 → UInt8) {a x : BitVec 64} (v : BitVec w)
    (h : n ≤ (x - a).toNat) : poke n mem a v x = mem x := if_neg (by omega)

theorem view_poke_self (mem : BitVec 64 → UInt8) (a : BitVec 64) (v : BitVec w) {i : ℕ} (hi : i < n)
    (hn : n < 2 ^ 62) : view (poke n mem a v) a i = byte v i := by
  have h := view_poke (n := n) mem a v (show i < 2 ^ 63 by omega) (show 0 < 2 ^ 62 by decide) hn
  rw [BitVec.add_zero] at h
  rw [h, write, if_pos ⟨Nat.zero_le i, by omega⟩, Nat.sub_zero]

theorem load32_poke (mem : BitVec 64 → UInt8) (a : BitVec 64) (v : BitVec 64) :
    load32 (poke 4 mem a v) a = v.setWidth 32 := by
  have hbyte : ∀ i < 4, view (poke 4 mem a v) a i = byte (v.setWidth 32) i := by
    intro i hi
    rw [view_poke_self mem a v hi (by decide), ← UInt8.toBitVec_inj]
    apply BitVec.eq_of_getLsbD_eq
    intro j hj
    rw [getLsbD_byte, getLsbD_byte, BitVec.getLsbD_setWidth, show decide (8 * i + j < 32) = true by
      simpa using by omega, Bool.true_and]
  rw [load32, read_congr hbyte]
  exact read_byte (n := 4) (v.setWidth 32)

end X86
