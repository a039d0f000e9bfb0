import Mathlib

/-! Numerals over a table of digits: the text of a number, highest digit first and without leading
zeros, and the number that the longest run of digits at the start of a text stands for. -/

/-- The digits of a base: the character written for a digit, and the digit a character stands
for. -/
structure Numeral where
  base : ℕ
  digit : ℕ → Char
  value : Char → Option ℕ
  one_lt_base : 1 < base
  value_digit : ∀ d < base, value (digit d) = some d

namespace Numeral

variable (t : Numeral)

def text (n : ℕ) : List Char :=
  if n = 0 then [t.digit 0] else ((t.base.digits n).map t.digit).reverse

/-- The digits at the start of a text. -/
def digitsOf : List Char → List ℕ
  | [] => []
  | c :: cs => match t.value c with
    | some d => d :: digitsOf cs
    | none => []

/-- The number at the start of a text, if it starts with a digit. -/
def parse (cs : List Char) : Option ℕ :=
  match t.digitsOf cs with
  | [] => none
  | d :: ds => some (Nat.ofDigits t.base (d :: ds).reverse)

variable {t}

theorem exists_digit_of_mem_text {n : ℕ} {c : Char} (hc : c ∈ t.text n) :
    ∃ d < t.base, c = t.digit d := by
  unfold text at hc
  split_ifs at hc
  · exact ⟨0, Nat.zero_lt_of_lt t.one_lt_base, List.mem_singleton.mp hc⟩
  · obtain ⟨d, hd, rfl⟩ := List.mem_map.mp (List.mem_reverse.mp hc)
    exact ⟨d, Nat.digits_lt_base t.one_lt_base hd, rfl⟩

theorem digitsOf_map {ds : List ℕ} (hds : ∀ d ∈ ds, d < t.base) :
    t.digitsOf (ds.map t.digit) = ds := by
  induction ds with
  | nil => rfl
  | cons d ds ih =>
    simp only [List.map_cons, digitsOf, t.value_digit d (hds d List.mem_cons_self)]
    rw [ih fun d' hd' => hds d' (List.mem_cons_of_mem _ hd')]

theorem parse_eq {cs : List Char} (h : t.digitsOf cs ≠ []) :
    t.parse cs = some (Nat.ofDigits t.base (t.digitsOf cs).reverse) := by
  unfold parse
  split
  next hnil => exact absurd hnil h
  next d ds hcons => rw [hcons]

/-- The text of a number stands for it. -/
theorem parse_text (n : ℕ) : t.parse (t.text n) = some n := by
  have hbase : 0 < t.base := Nat.zero_lt_of_lt t.one_lt_base
  unfold text
  split_ifs with hn
  · have h0 : t.digitsOf ([0].map t.digit) = [0] :=
      digitsOf_map fun d hd => by rwa [List.mem_singleton.mp hd]
    change t.digitsOf [t.digit 0] = [0] at h0
    rw [parse_eq (by rw [h0]; simp), h0, hn]
    simp
  · have hlt : ∀ d ∈ (t.base.digits n).reverse, d < t.base := fun d hd =>
      Nat.digits_lt_base t.one_lt_base (List.mem_reverse.mp hd)
    have hdigits := digitsOf_map hlt
    rw [List.map_reverse] at hdigits
    have hne : t.digitsOf ((t.base.digits n).map t.digit).reverse ≠ [] := by
      rw [hdigits, ne_eq, List.reverse_eq_nil_iff]
      exact Nat.digits_ne_nil_iff_ne_zero.mpr hn
    rw [parse_eq hne, hdigits, List.reverse_reverse, Nat.ofDigits_digits]

theorem text_ne_nil (n : ℕ) : t.text n ≠ [] := by
  intro h
  have := t.parse_text n
  rw [h] at this
  cases this

end Numeral
