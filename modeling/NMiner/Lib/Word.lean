import Mathlib

/-! Little-endian words: the bytes of a word, the word that bytes stand for, and the words that lie
at an offset of a memory of bytes. -/

namespace Word

variable {w n : ℕ}

/-- Byte `k` of a word, the least significant one first. -/
def byte (v : BitVec w) (k : ℕ) : UInt8 := UInt8.ofBitVec (v.extractLsb' (8 * k) 8)

/-- The `n` lowest bytes of a word. -/
def bytes (n : ℕ) (v : BitVec w) : List UInt8 := (List.range n).map (byte v)

/-- The word whose bytes are `m 0, …, m (n - 1)`. -/
def read : (n : ℕ) → (ℕ → UInt8) → BitVec (8 * n)
  | 0, _ => 0#0
  | n + 1, m => (read n fun i => m (i + 1)) ++ (m 0).toBitVec

/-- The word at the front of a list of bytes, and the bytes after it. -/
def take (n : ℕ) (bs : List UInt8) : Option (BitVec (8 * n) × List UInt8) :=
  if n ≤ bs.length then some (read n fun i => bs.getD i 0, bs.drop n) else none

/-- The memory with the `n` lowest bytes of a word at an offset. -/
def write (n : ℕ) (m : ℕ → UInt8) (a : ℕ) (v : BitVec w) : ℕ → UInt8 :=
  fun x => if a ≤ x ∧ x < a + n then byte v (x - a) else m x

@[simp] theorem length_bytes (n : ℕ) (v : BitVec w) : (bytes n v).length = n := by simp [bytes]

theorem getLsbD_byte (v : BitVec w) (k i : ℕ) :
    (byte v k).toBitVec.getLsbD i = (decide (i < 8) && v.getLsbD (8 * k + i)) := by
  simp [byte]

theorem getLsbD_read (n : ℕ) (m : ℕ → UInt8) (i : ℕ) :
    (read n m).getLsbD i = (decide (i < 8 * n) && (m (i / 8)).toBitVec.getLsbD (i % 8)) := by
  induction n generalizing m i with
  | zero => simp [read]
  | succ n ih =>
    change (((read n fun i => m (i + 1)) ++ (m 0).toBitVec).getLsbD i) = _
    rw [BitVec.getLsbD_append]
    rcases Nat.lt_or_ge i 8 with hi | hi
    · rw [if_pos hi, Nat.div_eq_of_lt hi, Nat.mod_eq_of_lt hi]
      simp [show i < 8 * (n + 1) by omega]
    · obtain ⟨j, rfl⟩ := Nat.exists_eq_add_of_le hi
      rw [if_neg (by omega), ih]
      have hd : (8 + j) / 8 = j / 8 + 1 := by omega
      have hm : (8 + j) % 8 = j % 8 := by omega
      have hl : (8 + j - 8 < 8 * n) = (8 + j < 8 * (n + 1)) := by
        rw [eq_iff_iff]
        omega
      rw [hd, hm, Nat.add_sub_cancel_left]
      rw [Nat.add_sub_cancel_left] at hl
      simp only [hl]

theorem read_congr {m m' : ℕ → UInt8} (h : ∀ i < n, m i = m' i) : read n m = read n m' := by
  apply BitVec.eq_of_getLsbD_eq
  intro i hi
  rw [getLsbD_read, getLsbD_read, h (i / 8) (by omega)]

/-- Reading the bytes of a word gives the word. -/
theorem read_byte (v : BitVec (8 * n)) : read n (byte v) = v := by
  apply BitVec.eq_of_getLsbD_eq
  intro i hi
  rw [getLsbD_read, getLsbD_byte, Nat.div_add_mod]
  simp [hi, Nat.mod_lt i (by decide : 8 > 0)]

theorem getD_bytes (v : BitVec w) (rest : List UInt8) {i : ℕ} (hi : i < n) :
    (bytes n v ++ rest).getD i 0 = byte v i := by
  rw [List.getD_eq_getElem?_getD, List.getElem?_append_left (by simpa using hi)]
  simp [bytes, hi]

/-- The bytes of a word are taken as that word. -/
theorem take_bytes (v : BitVec (8 * n)) (rest : List UInt8) :
    take n (bytes n v ++ rest) = some (v, rest) := by
  have hread : (read n fun i => (bytes n v ++ rest).getD i 0) = v :=
    (read_congr fun _ hi => getD_bytes v rest hi).trans (read_byte v)
  have hdrop : (bytes n v ++ rest).drop n = rest := List.drop_left' (length_bytes n v)
  rw [take, if_pos (by simp), hread, hdrop]

theorem write_of_lt (m : ℕ → UInt8) {a i : ℕ} (v : BitVec w) (hi : i < n) :
    write n m a v (a + i) = byte v i := by
  simp [write, hi]

theorem write_of_not (m : ℕ → UInt8) {a x : ℕ} (v : BitVec w) (hx : ¬ (a ≤ x ∧ x < a + n)) :
    write n m a v x = m x := if_neg hx

end Word
