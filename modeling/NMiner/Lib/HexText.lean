import Mathlib

/-! Hexadecimal text and little-endian bytes. A text is the list of its UTF-16 code units. The
decoder takes a code unit for the digit that its low byte is, stops at the first pair that is not
two hexadecimal digits and ignores an odd last digit, as Node's `Buffer.from(_, "hex")` does. -/

namespace HexText

def digitValue (c : Char) : Option ℕ :=
  if '0' ≤ c ∧ c ≤ '9' then some (c.toNat - '0'.toNat)
  else if 'a' ≤ c ∧ c ≤ 'f' then some (c.toNat - 'a'.toNat + 10)
  else if 'A' ≤ c ∧ c ≤ 'F' then some (c.toNat - 'A'.toNat + 10)
  else none

def digit (n : ℕ) : Char :=
  if n < 10 then Char.ofNat ('0'.toNat + n) else Char.ofNat ('a'.toNat + (n - 10))

/-- The UTF-16 code units of a character. -/
def units (c : Char) : List ℕ :=
  if c.toNat < 0x10000 then [c.toNat]
  else [0xD800 + (c.toNat - 0x10000) / 0x400, 0xDC00 + (c.toNat - 0x10000) % 0x400]

/-- A string as JavaScript counts and cuts it. -/
def codeUnits (s : String) : List ℕ := s.toList.flatMap units

/-- Node's `unhex`, on the low byte of a code unit. -/
def unhex (u : ℕ) : Option ℕ := digitValue (Char.ofNat (u % 256))

/-- The bytes a hexadecimal text stands for, up to the first malformed pair. -/
def bytes : List ℕ → List ℕ
  | a :: b :: rest =>
    match unhex a, unhex b with
    | some x, some y => (16 * x + y) :: bytes rest
    | _, _ => []
  | _ => []

/-- The lower case text of a list of bytes. -/
def text : List ℕ → List Char
  | [] => []
  | b :: bs => digit (b / 16) :: digit (b % 16) :: text bs

/-- The number a list of bytes stands for, lowest byte first. -/
def littleEndian : List ℕ → ℕ
  | [] => 0
  | b :: bs => b + 256 * littleEndian bs

/-- The `w` low bytes of a number, lowest byte first. -/
def toBytes : ℕ → ℕ → List ℕ
  | 0, _ => []
  | w + 1, n => n % 256 :: toBytes w (n / 256)

theorem unhex_digit (n : ℕ) (h : n < 16) : unhex (digit n).toNat = some n := by
  have all : ∀ k : Fin 16, unhex (digit k).toNat = some (k : ℕ) := by decide
  exact all ⟨n, h⟩

theorem units_digit (n : ℕ) (h : n < 16) : units (digit n) = [(digit n).toNat] := by
  have all : ∀ k : Fin 16, units (digit k) = [(digit k).toNat] := by decide
  exact all ⟨n, h⟩

theorem bytes_text (bs : List ℕ) (h : ∀ b ∈ bs, b < 256) :
    bytes ((text bs).map Char.toNat) = bs := by
  induction bs with
  | nil => rfl
  | cons b bs ih =>
    have hb := h b List.mem_cons_self
    simp only [text, List.map_cons, bytes, unhex_digit (b / 16) (by omega),
      unhex_digit (b % 16) (by omega), ih fun c hc => h c (List.mem_cons_of_mem b hc)]
    congr 1
    omega

/-- The text of bytes is one code unit for each digit. -/
theorem codeUnits_text (bs : List ℕ) (h : ∀ b ∈ bs, b < 256) :
    codeUnits (String.ofList (text bs)) = (text bs).map Char.toNat := by
  rw [codeUnits, String.toList_ofList]
  induction bs with
  | nil => rfl
  | cons b bs ih =>
    have hb := h b List.mem_cons_self
    simp only [text, List.flatMap_cons, List.map_cons, units_digit (b / 16) (by omega),
      units_digit (b % 16) (by omega), ih fun c hc => h c (List.mem_cons_of_mem b hc),
      List.singleton_append]

theorem length_text (bs : List ℕ) : (text bs).length = 2 * bs.length := by
  induction bs with
  | nil => rfl
  | cons b bs ih =>
    simp only [text, List.length_cons, ih]
    omega

theorem length_toBytes (w n : ℕ) : (toBytes w n).length = w := by
  induction w generalizing n with
  | zero => rfl
  | succ w ih => rw [toBytes, List.length_cons, ih]

theorem toBytes_lt (w n : ℕ) : ∀ b ∈ toBytes w n, b < 256 := by
  induction w generalizing n with
  | zero => simp [toBytes]
  | succ w ih =>
    intro b hb
    rcases List.mem_cons.mp hb with rfl | hb
    · exact Nat.mod_lt _ (by decide)
    · exact ih _ b hb

theorem littleEndian_toBytes (w n : ℕ) (h : n < 256 ^ w) : littleEndian (toBytes w n) = n := by
  induction w generalizing n with
  | zero =>
    rw [pow_zero] at h
    rw [toBytes, littleEndian]
    omega
  | succ w ih =>
    rw [toBytes, littleEndian, ih _ (by rw [pow_succ] at h; omega)]
    omega

theorem littleEndian_lt (bs : List ℕ) (h : ∀ b ∈ bs, b < 256) :
    littleEndian bs < 256 ^ bs.length := by
  induction bs with
  | nil => simp [littleEndian]
  | cons b bs ih =>
    have hb := h b List.mem_cons_self
    have hi := ih fun c hc => h c (List.mem_cons_of_mem b hc)
    rw [littleEndian, List.length_cons, pow_succ]
    omega

theorem digitValue_lt {c : Char} {n : ℕ} (h : digitValue c = some n) : n < 16 := by
  have bounds (lo hi : Char) (hc : lo ≤ c ∧ c ≤ hi) : lo.toNat ≤ c.toNat ∧ c.toNat ≤ hi.toNat := hc
  unfold digitValue at h
  split at h
  · next hc =>
    have := bounds _ _ hc
    simp only [Option.some.injEq, Char.reduceToNat] at h this
    omega
  split at h
  · next hc =>
    have := bounds _ _ hc
    simp only [Option.some.injEq, Char.reduceToNat] at h this
    omega
  split at h
  · next hc =>
    have := bounds _ _ hc
    simp only [Option.some.injEq, Char.reduceToNat] at h this
    omega
  · cases h

theorem bytes_lt (us : List ℕ) : ∀ b ∈ bytes us, b < 256 := by
  fun_induction bytes us with
  | case1 a b rest x y hx hy ih =>
    intro c hc
    rcases List.mem_cons.mp hc with rfl | hc
    · have := digitValue_lt hx
      have := digitValue_lt hy
      omega
    · exact ih c hc
  | case2 => simp
  | case3 => simp

theorem bytes_take (us : List ℕ) (k : ℕ) : bytes (us.take (2 * k)) = (bytes us).take k := by
  induction k generalizing us with
  | zero => rfl
  | succ k ih =>
    rcases us with _ | ⟨a, _ | ⟨b, rest⟩⟩
    · rfl
    · rfl
    · rw [show 2 * (k + 1) = 2 * k + 1 + 1 by omega, List.take_succ_cons, List.take_succ_cons]
      unfold bytes
      split
      · rw [ih, List.take_succ_cons]
      · rfl

/-- The text is the hexadecimal spelling of the bytes, in either case. -/
structure Spells (text : String) (bs : List ℕ) : Prop where
  length : (codeUnits text).length = 2 * bs.length
  decodes : bytes (codeUnits text) = bs

theorem spells_text (bs : List ℕ) (h : ∀ b ∈ bs, b < 256) : Spells
    (String.ofList (text bs)) bs := by
  refine ⟨?_, ?_⟩ <;> rw [codeUnits_text bs h]
  · rw [List.length_map, length_text]
  · exact bytes_text bs h

theorem Spells.take {s : String} {bs : List ℕ} (h : Spells s bs) (k : ℕ) :
    bytes ((codeUnits s).take (2 * k)) = bs.take k := by
  rw [bytes_take, h.decodes]

end HexText
