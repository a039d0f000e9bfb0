import Mathlib

/-! Numbers of JavaScript, as exact rationals with two infinities and NaN. A result too large for
a double overflows to an infinity. The two zeros are one, so a quotient by zero has the sign of
its numerator. -/

namespace Js

inductive Number
  | fin (x : ℚ)
  | inf
  | negInf
  | nan
  deriving DecidableEq, Repr

/-- The magnitude from which on a result is rounded to an infinity. -/
def OVERFLOW : ℚ := 2 ^ 1024 - 2 ^ 970

namespace Number

def ofRat (x : ℚ) : Number :=
  if OVERFLOW ≤ x then inf else if x ≤ -OVERFLOW then negInf else fin x

/-- An infinity with the sign of a finite factor. -/
def signed (x : ℚ) : Number := if 0 < x then inf else if x < 0 then negInf else nan

def neg : Number → Number
  | fin x => fin (-x)
  | inf => negInf
  | negInf => inf
  | nan => nan

def add : Number → Number → Number
  | fin x, fin y => ofRat (x + y)
  | nan, _ => nan
  | _, nan => nan
  | inf, negInf => nan
  | negInf, inf => nan
  | inf, _ => inf
  | _, inf => inf
  | negInf, _ => negInf
  | _, negInf => negInf

def sub (a b : Number) : Number := add a (neg b)

def mul : Number → Number → Number
  | fin x, fin y => ofRat (x * y)
  | nan, _ => nan
  | _, nan => nan
  | fin x, inf => signed x
  | inf, fin y => signed y
  | fin x, negInf => neg (signed x)
  | negInf, fin y => neg (signed y)
  | inf, inf => inf
  | negInf, negInf => inf
  | inf, negInf => negInf
  | negInf, inf => negInf

def div : Number → Number → Number
  | fin x, fin y => if y = 0 then signed x else ofRat (x / y)
  | nan, _ => nan
  | _, nan => nan
  | fin _, _ => fin 0
  | inf, fin y => if y < 0 then negInf else inf
  | negInf, fin y => if y < 0 then inf else negInf
  | _, _ => nan

/-- `<`, which is false of NaN. -/
def lt : Number → Number → Bool
  | fin x, fin y => x < y
  | nan, _ => false
  | _, nan => false
  | negInf, negInf => false
  | negInf, _ => true
  | _, inf => true
  | _, _ => false

/-- `<=`. -/
def le : Number → Number → Bool
  | fin x, fin y => x ≤ y
  | nan, _ => false
  | _, nan => false
  | negInf, _ => true
  | _, inf => true
  | inf, _ => false
  | _, negInf => false

/-- `Math.max`: NaN if one of the two is. -/
def max (a b : Number) : Number :=
  if a = nan ∨ b = nan then nan else if lt a b then b else a

/-- `Math.min`. -/
def min (a b : Number) : Number :=
  if a = nan ∨ b = nan then nan else if lt b a then b else a

def floor : Number → Number
  | fin x => fin ⌊x⌋
  | a => a

def ceil : Number → Number
  | fin x => fin ⌈x⌉
  | a => a

/-! ### Finite numbers -/

theorem lt_overflow : (2 : ℚ) ^ 64 < OVERFLOW := by
  have hsplit : (2 : ℚ) ^ 1024 = 2 ^ 54 * 2 ^ 970 := by rw [← pow_add]
  have hmono : (2 : ℚ) ^ 64 < 2 ^ 970 := pow_lt_pow_right₀ (by norm_num) (by norm_num)
  rw [OVERFLOW, hsplit]
  generalize (2 : ℚ) ^ 970 = p at hmono
  have hp : 0 < p := lt_trans (by positivity) hmono
  calc (2 : ℚ) ^ 64 < p := hmono
    _ ≤ (2 ^ 54 - 1) * p := le_mul_of_one_le_left hp.le (by norm_num)
    _ = 2 ^ 54 * p - p := by ring

theorem overflow_pos : 0 < OVERFLOW := lt_trans (by positivity) lt_overflow

theorem ofRat_of_lt {x : ℚ} (h : |x| < OVERFLOW) : ofRat x = fin x := by
  obtain ⟨hlow, hhigh⟩ := abs_lt.mp h
  rw [ofRat, if_neg (not_le.mpr hhigh), if_neg (not_le.mpr hlow)]

/-- A positive result is finite or infinite, but a number. -/
theorem ofRat_pos {x : ℚ} (h : 0 < x) : ofRat x = fin x ∨ ofRat x = inf := by
  unfold ofRat
  have hneg : ¬ x ≤ -OVERFLOW := by
    have := overflow_pos
    linarith
  split_ifs
  · exact Or.inr rfl
  · exact Or.inl rfl

theorem add_fin {x y : ℚ} (h : |x + y| < OVERFLOW) : add (fin x) (fin y) = fin (x + y) :=
  ofRat_of_lt h

theorem sub_fin {x y : ℚ} (h : |x - y| < OVERFLOW) : sub (fin x) (fin y) = fin (x - y) := by
  rw [sub, neg, add, ← sub_eq_add_neg, ofRat_of_lt h]

@[simp] theorem lt_fin (x y : ℚ) : lt (fin x) (fin y) = decide (x < y) := rfl

@[simp] theorem le_fin (x y : ℚ) : le (fin x) (fin y) = decide (x ≤ y) := rfl

@[simp] theorem max_fin (x y : ℚ) : max (fin x) (fin y) = fin (Max.max x y) := by
  unfold max
  rw [if_neg (by simp), lt_fin]
  by_cases h : x < y
  · rw [if_pos (decide_eq_true h), max_eq_right h.le]
  · rw [if_neg (by simpa using h), max_eq_left (not_lt.mp h)]

@[simp] theorem min_fin (x y : ℚ) : min (fin x) (fin y) = fin (Min.min x y) := by
  unfold min
  rw [if_neg (by simp), lt_fin]
  by_cases h : y < x
  · rw [if_pos (decide_eq_true h), min_eq_right h.le]
  · rw [if_neg (by simpa using h), min_eq_left (not_lt.mp h)]

@[simp] theorem min_fin_inf (x : ℚ) : min (fin x) inf = fin x := rfl

@[simp] theorem max_inf_fin (x : ℚ) : max inf (fin x) = inf := rfl

/-! ### Finite or infinite -/

/-- A finite number or infinity. -/
def Above (a : Number) : Prop := (∃ x, a = fin x) ∨ a = inf

theorem above_fin (x : ℚ) : Above (fin x) := Or.inl ⟨x, rfl⟩

theorem above_inf : Above inf := Or.inr rfl

theorem above_of_pos {a : Number} (h : lt (fin 0) a = true) : Above a := by
  cases a with
  | fin x => exact above_fin x
  | inf => exact above_inf
  | negInf => cases h
  | nan => cases h

theorem ofRat_above {x : ℚ} (h : 0 < x) : Above (ofRat x) := by
  rcases ofRat_pos h with hx | hx <;> rw [hx]
  · exact above_fin x
  · exact above_inf

theorem Above.min {a b : Number} (ha : Above a) (hb : Above b) : Above (Number.min a b) := by
  obtain ⟨x, rfl⟩ | rfl := ha <;> obtain ⟨y, rfl⟩ | rfl := hb
  · rw [min_fin]
    exact above_fin _
  · exact above_fin x
  · exact above_fin y
  · exact above_inf

theorem Above.max {a b : Number} (ha : Above a) (hb : Above b) : Above (Number.max a b) := by
  obtain ⟨x, rfl⟩ | rfl := ha <;> obtain ⟨y, rfl⟩ | rfl := hb
  · rw [max_fin]
    exact above_fin _
  · exact above_inf
  · exact above_inf
  · exact above_inf

theorem Above.ceil {a : Number} (h : Above a) : Above (Number.ceil a) := by
  obtain ⟨x, rfl⟩ | rfl := h
  · exact above_fin _
  · exact above_inf

/-- A finite bound makes it finite. -/
theorem Above.min_fin {a : Number} (h : Above a) (x : ℚ) : ∃ y, Number.min (fin x) a = fin y := by
  obtain ⟨y, rfl⟩ | rfl := h
  · exact ⟨_, Number.min_fin x y⟩
  · exact ⟨x, rfl⟩

/-- A product of positive numbers. -/
theorem mul_above {a b : Number} (ha : lt (fin 0) a = true) (hb : lt (fin 0) b = true) :
    Above (mul a b) := by
  obtain ⟨x, rfl⟩ | rfl := above_of_pos ha <;> obtain ⟨y, rfl⟩ | rfl := above_of_pos hb
  · have hx : 0 < x := of_decide_eq_true ha
    have hy : 0 < y := of_decide_eq_true hb
    exact ofRat_above (mul_pos hx hy)
  · rw [mul, signed, if_pos (of_decide_eq_true ha)]
    exact above_inf
  · rw [mul, signed, if_pos (of_decide_eq_true hb)]
    exact above_inf
  · exact above_inf

/-- A quotient of positive numbers is zero, positive, or undefined. -/
theorem div_pos_cases {a b : Number} (ha : lt (fin 0) a = true) (hb : lt (fin 0) b = true) :
    div a b = fin 0 ∨ lt (fin 0) (div a b) = true ∨ a = inf ∧ b = inf := by
  obtain ⟨x, rfl⟩ | rfl := above_of_pos ha <;> obtain ⟨y, rfl⟩ | rfl := above_of_pos hb
  · have hx : 0 < x := of_decide_eq_true ha
    have hy : 0 < y := of_decide_eq_true hb
    rw [div, if_neg hy.ne']
    have hq : 0 < x / y := div_pos hx hy
    rcases ofRat_pos hq with h | h <;> rw [h]
    · exact Or.inr (Or.inl (decide_eq_true hq))
    · exact Or.inr (Or.inl rfl)
  · exact Or.inl rfl
  · have hy : 0 < y := of_decide_eq_true hb
    rw [div, if_neg (not_lt.mpr hy.le)]
    exact Or.inr (Or.inl rfl)
  · exact Or.inr (Or.inr ⟨rfl, rfl⟩)

/-! ### NaN -/

@[simp] theorem max_nan (a : Number) : max a nan = nan := if_pos (Or.inr rfl)

@[simp] theorem min_nan (a : Number) : min a nan = nan := if_pos (Or.inr rfl)

@[simp] theorem nan_max (a : Number) : max nan a = nan := if_pos (Or.inl rfl)

@[simp] theorem nan_min (a : Number) : min nan a = nan := if_pos (Or.inl rfl)

@[simp] theorem add_nan (a : Number) : add a nan = nan := by cases a <;> rfl

@[simp] theorem nan_add (a : Number) : add nan a = nan := by cases a <;> rfl

@[simp] theorem sub_nan (a : Number) : sub a nan = nan := add_nan a

@[simp] theorem mul_nan (a : Number) : mul a nan = nan := by cases a <;> rfl

@[simp] theorem le_nan (a : Number) : le nan a = false := by cases a <;> rfl

@[simp] theorem lt_nan (a : Number) : lt a nan = false := by cases a <;> rfl

/-- A sum with infinity is infinity unless the other summand cancels it or is NaN. -/
theorem add_inf_eq_inf (a : Number) : add a inf = inf ↔ a ≠ nan ∧ a ≠ negInf := by
  cases a <;> simp [add]

end Number

end Js
