import NMiner.Lib.Numeral

/-! Base 64 without padding: three bytes are written as four digits, and one or two bytes at the
end as two or three. The decoder passes over every character that is no digit. -/

abbrev Byte := BitVec 8

namespace Base64

/-- The six-bit digits of a list of bytes. -/
def digits : List Byte → List ℕ
  | [] => []
  | [a] => [a.toNat / 4, a.toNat % 4 * 16]
  | [a, b] => [a.toNat / 4, a.toNat % 4 * 16 + b.toNat / 16, b.toNat % 16 * 4]
  | a :: b :: c :: rest =>
    a.toNat / 4 :: (a.toNat % 4 * 16 + b.toNat / 16) :: (b.toNat % 16 * 4 + c.toNat / 64) ::
      c.toNat % 64 :: digits rest

/-- The bytes of a list of digits; a single digit at the end is too short for a byte. -/
def bytes : List ℕ → List Byte
  | p :: q :: r :: s :: rest =>
    BitVec.ofNat 8 (p * 4 + q / 16) :: BitVec.ofNat 8 (q % 16 * 16 + r / 4) ::
      BitVec.ofNat 8 (r % 4 * 64 + s) :: bytes rest
  | [p, q, r] => [BitVec.ofNat 8 (p * 4 + q / 16), BitVec.ofNat 8 (q % 16 * 16 + r / 4)]
  | [p, q] => [BitVec.ofNat 8 (p * 4 + q / 16)]
  | _ => []

def text (t : Numeral) (bs : List Byte) : List Char := (digits bs).map t.digit

def parse (t : Numeral) (cs : List Char) : List Byte := bytes (cs.filterMap t.value)

theorem digits_lt (bs : List Byte) : ∀ d ∈ digits bs, d < 64 := by
  induction bs using digits.induct with
  | case1 => intro d hd; cases hd
  | case2 a =>
    have := a.isLt
    simp only [digits, List.forall_mem_cons]
    exact ⟨by omega, by omega, List.forall_mem_nil _⟩
  | case3 a b =>
    have := a.isLt
    have := b.isLt
    simp only [digits, List.forall_mem_cons]
    exact ⟨by omega, by omega, by omega, List.forall_mem_nil _⟩
  | case4 a b c rest ih =>
    have := a.isLt
    have := b.isLt
    have := c.isLt
    simp only [digits, List.forall_mem_cons]
    exact ⟨by omega, by omega, by omega, by omega, ih⟩

theorem ofNat_eq {n : ℕ} {b : Byte} (h : n = b.toNat) : BitVec.ofNat 8 n = b := by
  subst h
  rw [BitVec.ofNat_toNat, BitVec.setWidth_eq]

theorem bytes_digits (bs : List Byte) : bytes (digits bs) = bs := by
  induction bs using digits.induct with
  | case1 => rfl
  | case2 a =>
    have := a.isLt
    simp only [digits, bytes]
    rw [ofNat_eq (b := a) (by omega)]
  | case3 a b =>
    have := a.isLt
    have := b.isLt
    simp only [digits, bytes]
    rw [ofNat_eq (b := a) (by omega), ofNat_eq (b := b) (by omega)]
  | case4 a b c rest ih =>
    have := a.isLt
    have := b.isLt
    have := c.isLt
    simp only [digits, bytes, ih]
    rw [ofNat_eq (b := a) (by omega), ofNat_eq (b := b) (by omega), ofNat_eq (b := c) (by omega)]

/-- What is written is read back. -/
theorem parse_text (t : Numeral) (ht : t.base = 64) (bs : List Byte) :
    parse t (text t bs) = bs := by
  have hvalue : ∀ ds : List ℕ, (∀ d ∈ ds, d < 64) → (ds.map t.digit).filterMap t.value = ds := by
    intro ds hds
    induction ds with
    | nil => rfl
    | cons d ds ih =>
      rw [List.map_cons, List.filterMap_cons_some (t.value_digit d (ht ▸ hds d List.mem_cons_self)),
        ih fun d' hd' => hds d' (List.mem_cons_of_mem _ hd')]
  rw [parse, text, hvalue _ (digits_lt bs), bytes_digits]

end Base64
