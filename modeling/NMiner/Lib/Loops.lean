import Mathlib

/-! Loops with fuel: `while running s do s := step s`, where a step can fail. The rules say when a
loop ends and what holds when it does. The last one is about programs with backward jumps that do
not nest: where each jump is taken at most `k` times in a row, `n` instructions are executed in at
most `(k + 1) * n` steps. -/

namespace Loops

variable {σ τ : Type*}

/-- At most `fuel` rounds; `none` when a step fails or when the loop still runs after them. -/
def loop (running : σ → Bool) (step : σ → Option σ) : ℕ → σ → Option σ
  | 0, s => if running s then none else some s
  | fuel + 1, s => if running s then (step s).bind (loop running step fuel) else some s

theorem loop_of_not {running : σ → Bool} {step : σ → Option σ} {s : σ} (h : running s = false)
    (fuel : ℕ) : loop running step fuel s = some s := by
  cases fuel with
  | zero => simp [loop, h]
  | succ fuel => simp [loop, h]

theorem loop_succ {running : σ → Bool} {step : σ → Option σ} {s : σ} (h : running s = true)
    (fuel : ℕ) : loop running step (fuel + 1) s = (step s).bind (loop running step fuel) := by
  simp [loop, h]

/-- A loop whose steps keep an invariant and lower a measure ends, in a state with the invariant. -/
theorem exists_loop {running : σ → Bool} {step : σ → Option σ} {inv : σ → Prop} {φ : σ → ℕ}
    (hstep : ∀ s, inv s → running s = true → ∃ s', step s = some s' ∧ inv s' ∧ φ s' < φ s)
    {fuel : ℕ} {s : σ} (hs : inv s) (hφ : φ s ≤ fuel) :
    ∃ s', loop running step fuel s = some s' ∧ inv s' ∧ running s' = false := by
  induction fuel generalizing s with
  | zero =>
    have hnot : running s = false := by
      by_contra h
      obtain ⟨s', -, -, hlt⟩ := hstep s hs (by simpa using h)
      omega
    exact ⟨s, loop_of_not hnot 0, hs, hnot⟩
  | succ fuel ih =>
    by_cases h : running s = true
    · obtain ⟨s', hs', hinv, hlt⟩ := hstep s hs h
      obtain ⟨t, ht, hinv', hdone⟩ := ih hinv (by omega)
      exact ⟨t, by rw [loop_succ h, hs']; exact ht, hinv', hdone⟩
    · have hnot : running s = false := by simpa using h
      exact ⟨s, loop_of_not hnot _, hs, hnot⟩

/-- A relation between the states of two loops that their steps keep, down to the result. -/
theorem loop_rel {running : σ → Bool} {step : σ → Option σ} {R : σ → τ → Prop}
    {reach : τ → τ → Prop} (hrefl : ∀ t, reach t t)
    (htrans : ∀ a b c, reach a b → reach b c → reach a c)
    (hstep : ∀ s s' t, R s t → running s = true → step s = some s' → ∃ t', reach t t' ∧ R s' t')
    {fuel : ℕ} {s s' : σ} {t : τ} (hR : R s t) (hloop : loop running step fuel s = some s') :
    ∃ t', reach t t' ∧ R s' t' ∧ running s' = false := by
  induction fuel generalizing s t with
  | zero =>
    by_cases h : running s = true
    · simp [loop, h] at hloop
    · have hnot : running s = false := by simpa using h
      rw [loop_of_not hnot, Option.some.injEq] at hloop
      exact ⟨t, hrefl t, hloop ▸ hR, hloop ▸ hnot⟩
  | succ fuel ih =>
    by_cases h : running s = true
    · rw [loop_succ h, Option.bind_eq_some_iff] at hloop
      obtain ⟨m, hm, hrest⟩ := hloop
      obtain ⟨t₁, ht₁, hR₁⟩ := hstep s m t hR h hm
      obtain ⟨t₂, ht₂, hR₂, hdone⟩ := ih hR₁ hrest
      exact ⟨t₂, htrans _ _ _ ht₁ ht₂, hR₂, hdone⟩
    · have hnot : running s = false := by simpa using h
      rw [loop_of_not hnot, Option.some.injEq] at hloop
      exact ⟨t, hrefl t, hloop ▸ hR, hloop ▸ hnot⟩

/-- Two loops whose steps agree while they run. -/
theorem loop_congr {running : σ → Bool} {step step' : σ → Option σ}
    (h : ∀ s, running s = true → step s = step' s) (fuel : ℕ) (s : σ) :
    loop running step fuel s = loop running step' fuel s := by
  induction fuel generalizing s with
  | zero => rfl
  | succ fuel ih =>
    by_cases hr : running s = true
    · rw [loop_succ hr, loop_succ hr, h s hr]
      congr 1
      funext s'
      exact ih s'
    · have hnot : running s = false := by simpa using hr
      rw [loop_of_not hnot, loop_of_not hnot]

/-- A relation to the state before the loop that its steps keep. -/
theorem loop_trans {running : σ → Bool} {step : σ → Option σ} {R : σ → σ → Prop}
    (hrefl : ∀ s, R s s) (htrans : ∀ a b c, R a b → R b c → R a c)
    (hstep : ∀ s s', running s = true → step s = some s' → R s s') {fuel : ℕ} {s s' : σ}
    (hloop : loop running step fuel s = some s') : R s s' := by
  obtain ⟨t, hst, rfl, -⟩ := @loop_rel σ σ running step (fun a b => b = a) R hrefl htrans
    (fun a a' b hba hr ha => ⟨a', hba ▸ hstep a a' hr ha, rfl⟩) fuel s s' s rfl hloop
  exact hst

/-- More fuel does not change the result. -/
theorem loop_mono {running : σ → Bool} {step : σ → Option σ} {fuel fuel' : ℕ} {s s' : σ}
    (h : loop running step fuel s = some s') (hle : fuel ≤ fuel') :
    loop running step fuel' s = some s' := by
  induction fuel generalizing fuel' s with
  | zero =>
    by_cases hr : running s = true
    · simp [loop, hr] at h
    · have hnot : running s = false := by simpa using hr
      rw [loop_of_not hnot] at h ⊢
      exact h
  | succ fuel ih =>
    by_cases hr : running s = true
    · obtain ⟨d, rfl⟩ := Nat.exists_eq_add_of_lt hle
      rw [loop_succ hr, Option.bind_eq_some_iff] at h ⊢
      obtain ⟨t, ht, hrest⟩ := h
      exact ⟨t, ht, ih hrest (by omega)⟩
    · have hnot : running s = false := by simpa using hr
      rw [loop_of_not hnot] at h ⊢
      exact h

/-! ### Counted loops -/

/-- A step repeated a number of times. -/
def times (step : σ → Option σ) : ℕ → σ → Option σ
  | 0, s => some s
  | n + 1, s => (step s).bind (times step n)

theorem times_succ {step : σ → Option σ} {s s' : σ} (h : step s = some s') (n : ℕ) :
    times step (n + 1) s = times step n s' := by rw [times, h, Option.bind_some]

/-- Steps that succeed and keep an invariant can be repeated. -/
theorem exists_times {step : σ → Option σ} {inv : σ → Prop}
    (hstep : ∀ s, inv s → ∃ s', step s = some s' ∧ inv s') (n : ℕ) {s : σ} (hs : inv s) :
    ∃ s', times step n s = some s' ∧ inv s' := by
  induction n generalizing s with
  | zero => exact ⟨s, rfl, hs⟩
  | succ n ih =>
    obtain ⟨t, ht, hinv⟩ := hstep s hs
    obtain ⟨s', hs', hinv'⟩ := ih hinv
    exact ⟨s', by rw [times_succ ht]; exact hs', hinv'⟩

/-! ### Backward jumps -/

/-- A program of `n` instructions with backward jumps: which of them jump, to where, and how often
the jump at a place can still be taken in a row. -/
structure Jumps (σ : Type*) where
  n : ℕ
  k : ℕ
  /-- the place of the next instruction -/
  place : σ → ℕ
  step : σ → Option σ
  jumps : ℕ → Bool
  start : ℕ → ℕ
  credit : ℕ → σ → ℕ

namespace Jumps

variable (J : Jumps σ)

/-- The first jump from a place on. -/
def next (p : ℕ) : Option ℕ := (List.range' p (J.n - p)).find? J.jumps

theorem next_of_jumps {p : ℕ} (hp : p < J.n) (h : J.jumps p = true) : J.next p = some p := by
  obtain ⟨m, hm⟩ := Nat.exists_eq_add_of_lt hp
  rw [next, hm, show p + m + 1 - p = m + 1 by omega, List.range'_succ, List.find?_cons_of_pos h]

theorem next_of_not {p : ℕ} (hp : p < J.n) (h : J.jumps p = false) : J.next p = J.next (p + 1) := by
  obtain ⟨m, hm⟩ := Nat.exists_eq_add_of_lt hp
  rw [next, next, hm, show p + m + 1 - p = m + 1 by omega, show p + m + 1 - (p + 1) = m by omega,
    List.range'_succ, List.find?_cons_of_neg (by simp [h])]

theorem next_eq_some {p i : ℕ} (hi : i < J.n) (h : J.jumps i = true) (hp : p ≤ i)
    (hnone : ∀ q, p ≤ q → q < i → J.jumps q = false) : J.next p = some i := by
  obtain ⟨m, rfl⟩ := Nat.exists_eq_add_of_le hp
  induction m generalizing p with
  | zero => exact J.next_of_jumps hi h
  | succ m ih =>
    rw [J.next_of_not (by omega) (hnone p (Nat.le_refl p) (by omega))]
    rw [show p + (m + 1) = p + 1 + m by omega] at hi h hnone ⊢
    exact ih hi h (by omega) fun q hq hqi => hnone q (by omega) hqi

theorem next_spec {p i : ℕ} (h : J.next p = some i) :
    p ≤ i ∧ i < J.n ∧ J.jumps i = true ∧ ∀ q, p ≤ q → q < i → J.jumps q = false := by
  unfold next at h
  have hmem := List.mem_of_find?_eq_some h
  rw [List.mem_range'_1] at hmem
  refine ⟨hmem.1, by omega, List.find?_some h, fun q hpq hqi => ?_⟩
  obtain ⟨hi, as, bs, hsplit, has⟩ := List.find?_eq_some_iff_append.mp h
  have hq : q ∈ as := by
    have hsorted : (List.range' p (J.n - p)).Pairwise (· < ·) := List.pairwise_lt_range'
    rw [hsplit] at hsorted
    have hall : q ∈ as ++ i :: bs := by
      rw [← hsplit, List.mem_range'_1]
      omega
    rcases List.mem_append.mp hall with hq | hq
    · exact hq
    · rcases List.mem_cons.mp hq with rfl | hq
      · omega
      · have hrel := List.rel_of_pairwise_cons (List.pairwise_append.mp hsorted).2.1 hq
        omega
  simpa using has q hq

/-- How many steps are left at most: to the next jump, around its loop as often as it can still be
taken, and `k + 1` for each instruction after it. -/
def potential (s : σ) : ℕ :=
  match J.next (J.place s) with
  | none => J.n - J.place s
  | some i =>
    (i - J.place s + 1) +
      (if J.start i ≤ J.place s then J.credit i s else J.k) * (i - J.start i + 1) +
      (J.k + 1) * (J.n - i - 1)

theorem potential_of_next {s : σ} {i : ℕ} (h : J.next (J.place s) = some i) :
    J.potential s = (i - J.place s + 1) +
      (if J.start i ≤ J.place s then J.credit i s else J.k) * (i - J.start i + 1) +
      (J.k + 1) * (J.n - i - 1) := by
  simp only [potential, h]

/-- What makes the jumps of a program harmless. -/
structure Bounded (inv : σ → Prop) : Prop where
  /-- loops do not nest -/
  flat : ∀ i < J.n, J.jumps i = true → J.start i ≤ i ∧ ∀ p, J.start i ≤ p →
    p < i → J.jumps p = false
  credit_le : ∀ i s, inv s → J.credit i s ≤ J.k
  /-- inside a loop nothing gives its jump credit -/
  straight : ∀ s, inv s → J.place s < J.n → J.jumps (J.place s) = false →
    ∃ s', J.step s = some s' ∧ inv s' ∧ J.place s' = J.place s + 1 ∧
      ∀ i < J.n, J.jumps i = true → J.start i ≤ J.place s → J.place s < i →
        J.credit i s' = J.credit i s
  /-- each jump that is taken costs credit -/
  back : ∀ s, inv s → J.place s < J.n → J.jumps (J.place s) = true →
    ∃ s', J.step s = some s' ∧ inv s' ∧
      (J.place s' = J.place s + 1 ∨
        J.place s' = J.start (J.place s) ∧ J.credit (J.place s) s' < J.credit (J.place s) s)

variable {J} {inv : σ → Prop}

/-- From the start of a block on each instruction is executed at most `k + 1` times. -/
theorem Bounded.potential_le (hJ : J.Bounded inv) {s : σ} (hs : inv s)
    (hstart : ∀ i, J.next (J.place s) = some i → J.place s ≤ J.start i) :
    J.potential s ≤ (J.k + 1) * (J.n - J.place s) := by
  unfold potential
  cases hnext : J.next (J.place s) with
  | none => exact Nat.le_mul_of_pos_left _ (Nat.succ_pos _)
  | some i =>
    obtain ⟨hpi, hin, hjump, -⟩ := J.next_spec hnext
    obtain ⟨hsi, -⟩ := hJ.flat i hin hjump
    have hps := hstart i hnext
    have hcredit : (if J.start i ≤ J.place s then J.credit i s else J.k) ≤ J.k := by
      split_ifs
      · exact hJ.credit_le i s hs
      · exact Nat.le_refl _
    have hround : (if J.start i ≤ J.place s then J.credit i s else J.k) * (i - J.start i + 1) ≤
        J.k * (i - J.place s + 1) := Nat.mul_le_mul hcredit (by omega)
    have hsum : J.n - J.place s = (i - J.place s + 1) + (J.n - i - 1) := by omega
    calc (i - J.place s + 1) + _ + (J.k + 1) * (J.n - i - 1)
        ≤ (i - J.place s + 1) + J.k * (i - J.place s + 1) + (J.k + 1) * (J.n - i - 1) := by
          simpa using hround
      _ = (J.k + 1) * (J.n - J.place s) := by
          rw [hsum]
          ring

/-- A step that goes on to the next instruction lowers the potential. -/
theorem Bounded.potential_straight (hJ : J.Bounded inv) {s s' : σ} (hs' : inv s')
    (hp : J.place s < J.n) (hnot : J.jumps (J.place s) = false)
    (hplace : J.place s' = J.place s + 1)
    (hcredit : ∀ i < J.n, J.jumps i = true → J.start i ≤ J.place s → J.place s < i →
      J.credit i s' = J.credit i s) :
    J.potential s' < J.potential s := by
  have hsame : J.next (J.place s') = J.next (J.place s) := by rw [hplace, J.next_of_not hp hnot]
  unfold potential
  rw [hsame]
  cases hnext : J.next (J.place s) with
  | none => simp only [hplace]; omega
  | some i =>
    obtain ⟨-, hin, hjump, -⟩ := J.next_spec hnext
    have hsucc := (J.next_spec (hsame.trans hnext)).1
    rw [hplace] at hsucc
    have hrounds : (if J.start i ≤ J.place s' then J.credit i s' else J.k) * (i - J.start i + 1) ≤
        (if J.start i ≤ J.place s then J.credit i s else J.k) * (i - J.start i + 1) := by
      apply Nat.mul_le_mul_right
      by_cases hin' : J.start i ≤ J.place s
      · rw [if_pos hin', if_pos (by omega), hcredit i hin hjump hin' (by omega)]
      · rw [if_neg hin']
        split_ifs
        · exact hJ.credit_le i s' hs'
        · exact Nat.le_refl _
    simp only [hplace] at hrounds ⊢
    omega

theorem Bounded.potential_step (hJ : J.Bounded inv) {s : σ} (hs : inv s) (hp : J.place s < J.n) :
    ∃ s', J.step s = some s' ∧ inv s' ∧ J.potential s' < J.potential s := by
  by_cases hjump : J.jumps (J.place s) = true
  · obtain ⟨s', hstep, hs', hcases⟩ := hJ.back s hs hp hjump
    have hnext := J.next_of_jumps hp hjump
    obtain ⟨hsi, hflat⟩ := hJ.flat _ hp hjump
    refine ⟨s', hstep, hs', ?_⟩
    have hhere : J.potential s = 1 + J.credit (J.place s) s *
      (J.place s - J.start (J.place s) + 1) +
        (J.k + 1) * (J.n - J.place s - 1) := by
      rw [J.potential_of_next hnext, if_pos hsi, Nat.sub_self, Nat.zero_add]
    rcases hcases with hplace | ⟨hplace, hcredit⟩
    · -- the next block starts after the jump, and its loop does not reach back over it
      have hle : J.potential s' ≤ (J.k + 1) * (J.n - J.place s') := by
        apply hJ.potential_le hs'
        intro i hi
        obtain ⟨hpi, hin, hji, -⟩ := J.next_spec hi
        by_contra hlt
        have := (hJ.flat i hin hji).2 (J.place s) (by omega) (by omega)
        rw [hjump] at this
        cases this
      rw [hplace, show J.n - (J.place s + 1) = J.n - J.place s - 1 by omega] at hle
      omega
    · have hback : J.next (J.place s') = some (J.place s) :=
        J.next_eq_some hp hjump (by omega) fun q hq hqi => hflat q (by omega) hqi
      have hthere : J.potential s' = (J.place s - J.start (J.place s) + 1) +
          J.credit (J.place s) s' * (J.place s - J.start (J.place s) + 1) +
          (J.k + 1) * (J.n - J.place s - 1) := by
        rw [J.potential_of_next hback, hplace, if_pos (Nat.le_refl _)]
      have hmul : (J.credit (J.place s) s' + 1) * (J.place s - J.start (J.place s) + 1) ≤
          J.credit (J.place s) s * (J.place s - J.start (J.place s) + 1) :=
        Nat.mul_le_mul_right _ hcredit
      rw [Nat.add_mul, Nat.one_mul] at hmul
      omega
  · have hnot : J.jumps (J.place s) = false := by simpa using hjump
    obtain ⟨s', hstep, hs', hplace, hcredit⟩ := hJ.straight s hs hp hnot
    exact ⟨s', hstep, hs', hJ.potential_straight hs' hp hnot hplace hcredit⟩

/-- A program whose jumps are bounded ends within `(k + 1) * n` steps. -/
theorem Bounded.exists_loop (hJ : J.Bounded inv) (running : σ → Bool)
    (hrun : ∀ s, inv s → (running s = true ↔ J.place s < J.n)) {s : σ} (hs : inv s)
    (h0 : J.place s = 0) {fuel : ℕ} (hfuel : (J.k + 1) * J.n ≤ fuel) :
    ∃ s', loop running J.step fuel s = some s' ∧ inv s' ∧ running s' = false := by
  have hφ : J.potential s ≤ fuel := by
    refine (hJ.potential_le hs fun i _ => ?_).trans (by rwa [h0, Nat.sub_zero])
    rw [h0]
    exact Nat.zero_le _
  exact Loops.exists_loop (φ := J.potential)
    (fun s hs hr => hJ.potential_step hs ((hrun s hs).mp hr)) hs hφ

end Jumps

end Loops
