import Mathlib

/-! UTF-8 as it is decoded on the web: a byte that cannot go on from the bytes before it ends
these with a replacement character and is read again as a first byte. -/

namespace Utf8

def REPLACEMENT : Char := Char.ofNat 0xFFFD

/-- The character under way: the bytes it still needs, the bounds on the next one and the bits
read so far. -/
structure Partial where
  needed : ℕ := 0
  lower : ℕ := 0x80
  upper : ℕ := 0xBF
  point : ℕ := 0

/-- The first byte of a character. -/
def first (b : ℕ) : List Char × Partial :=
  if b < 0x80 then ([Char.ofNat b], {})
  else if 0xC2 ≤ b ∧ b ≤ 0xDF then ([], { needed := 1, point := b - 0xC0 })
  else if 0xE0 ≤ b ∧ b ≤ 0xEF then
    ([], { needed := 2, point := b - 0xE0
           lower := if b = 0xE0 then 0xA0 else 0x80, upper := if b = 0xED then 0x9F else 0xBF })
  else if 0xF0 ≤ b ∧ b ≤ 0xF4 then
    ([], { needed := 3, point := b - 0xF0
           lower := if b = 0xF0 then 0x90 else 0x80, upper := if b = 0xF4 then 0x8F else 0xBF })
  else ([REPLACEMENT], {})

def next (s : Partial) (b : ℕ) : List Char × Partial :=
  if s.needed = 0 then first b
  else if b < s.lower ∨ s.upper < b then (REPLACEMENT :: (first b).1, (first b).2)
  else if s.needed = 1 then ([Char.ofNat (s.point * 64 + (b - 0x80))], {})
  else ([], { needed := s.needed - 1, point := s.point * 64 + (b - 0x80) })

def decodeFrom (s : Partial) : List (BitVec 8) → List Char
  | [] => if s.needed = 0 then [] else [REPLACEMENT]
  | b :: bs => (next s b.toNat).1 ++ decodeFrom (next s b.toNat).2 bs

def decode (bs : List (BitVec 8)) : List Char := decodeFrom {} bs

def encodeChar (c : Char) : List (BitVec 8) := (String.utf8EncodeChar c).map UInt8.toBitVec

def encode (cs : List Char) : List (BitVec 8) := cs.flatMap encodeChar

theorem toNat_toBitVec_ofNat {n : ℕ} (hn : n < 256) : (UInt8.ofNat n).toBitVec.toNat = n := by
  rw [UInt8.toNat_toBitVec, UInt8.toNat_ofNat', Nat.mod_eq_of_lt hn]

theorem decodeFrom_cons (s : Partial) {n : ℕ} (hn : n < 256) (bs : List (BitVec 8)) :
    decodeFrom s ((UInt8.ofNat n).toBitVec :: bs) = (next s n).1 ++ decodeFrom (next s n).2 bs := by
  rw [decodeFrom, toNat_toBitVec_ofNat hn]

/-- A byte within the bounds goes on with the character. -/
theorem next_inside {s : Partial} {b : ℕ} (h : 1 < s.needed) (hl : s.lower ≤ b) (hu : b ≤ s.upper) :
    next s b = ([], { needed := s.needed - 1, point := s.point * 64 + (b - 0x80) }) := by
  rw [next, if_neg (by omega), if_neg (by omega), if_neg (by omega)]

theorem next_last {s : Partial} {b : ℕ} (h : s.needed = 1) (hl : s.lower ≤ b) (hu : b ≤ s.upper) :
    next s b = ([Char.ofNat (s.point * 64 + (b - 0x80))], {}) := by
  rw [next, if_neg (by omega), if_neg (by omega), if_pos h]

theorem next_first {s : Partial} (h : s.needed = 0) (b : ℕ) : next s b = first b := by
  rw [next, if_pos h]

/-- A character is decoded from its own bytes, whatever follows. -/
theorem decodeFrom_encodeChar (c : Char) (bs : List (BitVec 8)) :
    decodeFrom {} (encodeChar c ++ bs) = c :: decodeFrom {} bs := by
  obtain ⟨v, hv⟩ : ∃ v, c.val.toNat = v := ⟨_, rfl⟩
  have hvalid : v < 0xD800 ∨ 0xDFFF < v ∧ v < 0x110000 := hv ▸ c.valid
  have hpoint : ∀ n, n = v → Char.ofNat n = c := by
    rintro n rfl
    rw [← hv]
    exact Char.ofNat_toNat c
  unfold encodeChar String.utf8EncodeChar
  rw [hv]
  dsimp only
  split_ifs with h1 h2 h3
  · rw [List.map_singleton, List.singleton_append, decodeFrom_cons _ (by omega), next_first rfl,
      first, if_pos (by omega), hpoint v rfl, List.singleton_append]
  · simp only [List.map_cons, List.map_nil, List.cons_append, List.nil_append]
    rw [decodeFrom_cons _ (by omega), next_first rfl, first, if_neg (by omega),
      if_pos (by omega), decodeFrom_cons _ (by omega),
      next_last rfl (by dsimp only; omega) (by dsimp only; omega), hpoint _ (by dsimp only; omega)]
    rfl
  · simp only [List.map_cons, List.map_nil, List.cons_append, List.nil_append]
    rw [decodeFrom_cons _ (by omega), next_first rfl, first, if_neg (by omega), if_neg (by omega),
      if_pos (by omega), decodeFrom_cons _ (by omega),
      next_inside (by dsimp only; omega) (by dsimp only; split_ifs <;> omega)
        (by dsimp only; split_ifs <;> omega),
      decodeFrom_cons _ (by omega),
      next_last rfl (by dsimp only; omega) (by dsimp only; omega), hpoint _ (by dsimp only; omega)]
    rfl
  · simp only [List.map_cons, List.map_nil, List.cons_append, List.nil_append]
    rw [decodeFrom_cons _ (by omega), next_first rfl, first, if_neg (by omega), if_neg (by omega),
      if_neg (by omega), if_pos (by omega), decodeFrom_cons _ (by omega),
      next_inside (by dsimp only; omega) (by dsimp only; split_ifs <;> omega)
        (by dsimp only; split_ifs <;> omega),
      decodeFrom_cons _ (by omega),
      next_inside (by dsimp only; omega) (by dsimp only; omega) (by dsimp only; omega),
      decodeFrom_cons _ (by omega),
      next_last rfl (by dsimp only; omega) (by dsimp only; omega), hpoint _ (by dsimp only; omega)]
    rfl

theorem decode_encode (cs : List Char) : decode (encode cs) = cs := by
  unfold decode encode
  induction cs with
  | nil => rfl
  | cons c cs ih => rw [List.flatMap_cons, decodeFrom_encodeChar, ih]

/-- A byte below `0x80` stands for itself. -/
theorem eq_of_mem_encodeChar {c : Char} {b : BitVec 8} (hb : b ∈ encodeChar c)
    (hlt : b.toNat < 0x80) : b.toNat = c.toNat := by
  have hbyte : ∀ n < 256, 0x80 ≤ n → b ≠ (UInt8.ofNat n).toBitVec := by
    rintro n hn hle rfl
    rw [toNat_toBitVec_ofNat hn] at hlt
    omega
  unfold encodeChar String.utf8EncodeChar at hb
  dsimp only at hb
  split_ifs at hb with h1 h2 h3
  · rw [List.map_singleton, List.mem_singleton] at hb
    rw [hb, toNat_toBitVec_ofNat (by omega)]
    rfl
  all_goals
    simp only [List.map_cons, List.map_nil, List.mem_cons, List.not_mem_nil, or_false] at hb
    exfalso
  · rcases hb with h | h <;> exact hbyte _ (by omega) (by omega) h
  · rcases hb with h | h | h <;> exact hbyte _ (by omega) (by omega) h
  · rcases hb with h | h | h | h <;> exact hbyte _ (by omega) (by omega) h

end Utf8
