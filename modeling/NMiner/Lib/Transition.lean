import Mathlib

/-! Guarded deterministic transition systems. A step is a partial function of
the state and an action, a run is a list of actions that all fire, and a guard
is a condition on the state before a step and on the action it takes. -/

namespace Transition

variable {σ α : Type*}

/-- Fire the actions one after the other; `none` as soon as one is not enabled. -/
def exec (step : σ → α → Option σ) : σ → List α → Option σ
  | s, [] => some s
  | s, a :: as => (step s a).bind fun s' => exec step s' as

/-- A run that fires ends in a state with every property of the states it can end in. -/
theorem exists_exec {step : σ → α → Option σ} {s : σ} {as : List α} {P : σ → Prop}
    (h : (exec step s as).isSome = true) (hP : ∀ s', exec step s as = some s' → P s') :
    ∃ s', exec step s as = some s' ∧ P s' := by
  obtain ⟨s', hs'⟩ := Option.isSome_iff_exists.mp h
  exact ⟨s', hs', hP s' hs'⟩

/-- Every action along the run is taken in a state that meets the guard. -/
def Meets (step : σ → α → Option σ) (ok : σ → α → Prop) : σ → List α → Prop
  | _, [] => True
  | s, a :: as => ok s a ∧ match step s a with
    | none => True
    | some s' => Meets step ok s' as

instance decidableMeets (step : σ → α → Option σ) (ok : σ → α → Prop)
    [∀ s a, Decidable (ok s a)] : ∀ s as, Decidable (Meets step ok s as)
  | _, [] => isTrue trivial
  | s, a :: as =>
    match h : step s a with
    | none => decidable_of_iff (ok s a) (by rw [Meets, h, and_true])
    | some s' =>
      have := decidableMeets step ok s' as
      decidable_of_iff (ok s a ∧ Meets step ok s' as) (by rw [Meets, h])

@[simp] theorem exec_nil (step : σ → α → Option σ) (s : σ) : exec step s [] = some s := rfl

theorem exec_cons (step : σ → α → Option σ) (s : σ) (a : α) (as : List α) :
    exec step s (a :: as) = (step s a).bind fun s' => exec step s' as := rfl

theorem exec_cons_eq_some {step : σ → α → Option σ} {s s' : σ} {a : α} {as : List α} :
    exec step s (a :: as) = some s' ↔ ∃ m, step s a = some m ∧ exec step m as = some s' := by
  rw [exec_cons, Option.bind_eq_some_iff]

theorem exec_append (step : σ → α → Option σ) (s : σ) (as bs : List α) :
    exec step s (as ++ bs) = (exec step s as).bind fun m => exec step m bs := by
  induction as generalizing s with
  | nil => rfl
  | cons a as ih =>
    rw [List.cons_append, exec_cons, exec_cons, Option.bind_assoc]
    congr 1
    funext m
    exact ih m

/-- Where every action is enabled every list of actions is a run. -/
theorem exec_isSome {step : σ → α → Option σ} (htotal : ∀ s a, (step s a).isSome = true) (s : σ)
    (as : List α) : (exec step s as).isSome = true := by
  induction as generalizing s with
  | nil => rfl
  | cons a as ih =>
    obtain ⟨m, hm⟩ := Option.isSome_iff_exists.mp (htotal s a)
    rw [exec_cons, hm]
    exact ih m

@[simp] theorem meets_nil (step : σ → α → Option σ) (ok : σ → α → Prop) (s : σ) :
    Meets step ok s [] ↔ True := Iff.rfl

theorem meets_cons (step : σ → α → Option σ) (ok : σ → α → Prop) (s : σ) (a : α) (as : List α) :
    Meets step ok s (a :: as) ↔
      ok s a ∧ ∀ s', step s a = some s' → Meets step ok s' as := by
  rw [Meets]
  cases step s a with
  | none => simp
  | some m => simp

theorem meets_and {step : σ → α → Option σ} {ok ok' : σ → α → Prop} {s : σ} {as : List α}
    (h : Meets step ok s as) (h' : Meets step ok' s as) :
    Meets step (fun s a => ok s a ∧ ok' s a) s as := by
  induction as generalizing s with
  | nil => trivial
  | cons a as ih =>
    obtain ⟨ha, hnext⟩ := (meets_cons ..).mp h
    obtain ⟨ha', hnext'⟩ := (meets_cons ..).mp h'
    exact (meets_cons ..).mpr ⟨⟨ha, ha'⟩, fun m hm => ih (hnext m hm) (hnext' m hm)⟩

/-- A run meets the guard as far as it is taken. -/
theorem meets_take {step : σ → α → Option σ} {ok : σ → α → Prop} {s : σ} {as : List α}
    (h : Meets step ok s as) (n : ℕ) : Meets step ok s (as.take n) := by
  induction as generalizing s n with
  | nil => rwa [List.take_nil]
  | cons a as ih =>
    cases n with
    | zero => trivial
    | succ n =>
      obtain ⟨ha, hnext⟩ := (meets_cons ..).mp h
      exact (meets_cons ..).mpr ⟨ha, fun m hm => ih (hnext m hm) n⟩

/-- A guard on the actions alone is met by every run of such actions. -/
theorem meets_of_forall (step : σ → α → Option σ) {ok : α → Prop} (s : σ) {as : List α}
    (h : ∀ a ∈ as, ok a) : Meets step (fun _ a => ok a) s as := by
  induction as generalizing s with
  | nil => trivial
  | cons a as ih =>
    exact (meets_cons ..).mpr ⟨h a List.mem_cons_self,
      fun m _ => ih m fun b hb => h b (List.mem_cons_of_mem _ hb)⟩

/-- A property that every guarded step preserves holds at the end of every guarded run. -/
theorem exec_invariant {step : σ → α → Option σ} {ok : σ → α → Prop} {Inv : σ → Prop}
    (hstep : ∀ s a s', Inv s → ok s a → step s a = some s' → Inv s')
    {s s' : σ} {as : List α} (h0 : Inv s) (hok : Meets step ok s as)
    (hrun : exec step s as = some s') : Inv s' := by
  induction as generalizing s with
  | nil =>
    rw [exec_nil, Option.some.injEq] at hrun
    exact hrun ▸ h0
  | cons a as ih =>
    obtain ⟨m, hm, hrest⟩ := exec_cons_eq_some.mp hrun
    obtain ⟨ha, hnext⟩ := (meets_cons ..).mp hok
    exact ih (hstep s a m h0 ha hm) (hnext m hm) hrest

/-- The same for a property that every step preserves, guarded or not. -/
theorem exec_preserves {step : σ → α → Option σ} {Inv : σ → Prop}
    (hstep : ∀ s a s', Inv s → step s a = some s' → Inv s') {s s' : σ} {as : List α}
    (h0 : Inv s) (hrun : exec step s as = some s') : Inv s' := by
  have hok : Meets step (fun _ _ => True) s as := by
    induction as generalizing s with
    | nil => trivial
    | cons a as ih =>
      refine (meets_cons ..).mpr ⟨trivial, fun m hm => ?_⟩
      obtain ⟨m', hm', hrest⟩ := exec_cons_eq_some.mp hrun
      rw [hm, Option.some.injEq] at hm'
      exact ih (hstep s a m h0 hm) (hm' ▸ hrest)
  exact exec_invariant (fun s a s' hs _ h => hstep s a s' hs h) h0 hok hrun

/-- The same for a property that also speaks of what the actions before have recorded. -/
theorem exec_history {β : Type*} {step : σ → α → Option σ} {ok : σ → α → Prop} {record : α → List β}
    {Inv : List β → σ → Prop}
    (hstep : ∀ log s a s', Inv log s → ok s a → step s a = some s' → Inv (log ++ record a) s')
    {log : List β} {s s' : σ} {as : List α} (h0 : Inv log s) (hok : Meets step ok s as)
    (hrun : exec step s as = some s') : Inv (log ++ as.flatMap record) s' := by
  induction as generalizing s log with
  | nil =>
    rw [exec_nil, Option.some.injEq] at hrun
    rw [List.flatMap_nil, List.append_nil]
    exact hrun ▸ h0
  | cons a as ih =>
    obtain ⟨m, hm, hrest⟩ := exec_cons_eq_some.mp hrun
    obtain ⟨ha, hnext⟩ := (meets_cons ..).mp hok
    rw [List.flatMap_cons, ← List.append_assoc]
    exact ih (hstep log s a m h0 ha hm) (hnext m hm) hrest

/-- A guard that an invariant implies is met by every run that keeps the invariant. -/
theorem meets_of_invariant {step : σ → α → Option σ} {ok ok' : σ → α → Prop} {Inv : σ → Prop}
    (hstep : ∀ s a s', Inv s → ok s a → step s a = some s' → Inv s')
    (himp : ∀ s a, Inv s → ok s a → ok' s a) {s : σ} {as : List α} (h0 : Inv s)
    (hok : Meets step ok s as) : Meets step ok' s as := by
  induction as generalizing s with
  | nil => trivial
  | cons a as ih =>
    obtain ⟨ha, hnext⟩ := (meets_cons ..).mp hok
    exact (meets_cons ..).mpr
      ⟨himp s a h0 ha, fun m hm => ih (hstep s a m h0 ha hm) (hnext m hm)⟩

/-- A property that a step keeps exactly if it meets the guard holds in every state of a run exactly
if the run meets the guard. What it rests on needs to be kept only as long as it holds. -/
theorem meets_iff_forall {step : σ → α → Option σ} {ok : σ → α → Prop} {I P : σ → Prop}
    (hstep : ∀ s a s', I s → P s → step s a = some s' → (P s' ↔ ok s a))
    (hinv : ∀ s a s', I s → P s → step s a = some s' → P s' → I s') {s t : σ} {as : List α}
    (h0 : I s) (hP : P s) (hrun : exec step s as = some t) :
    Meets step ok s as ↔ ∀ n s', exec step s (as.take n) = some s' → P s' := by
  induction as generalizing s with
  | nil =>
    refine ⟨fun _ n s' hs' => ?_, fun _ => trivial⟩
    rw [List.take_nil, exec_nil, Option.some.injEq] at hs'
    exact hs' ▸ hP
  | cons a as ih =>
    obtain ⟨m, hm, hrest⟩ := exec_cons_eq_some.mp hrun
    have hkept := hstep s a m h0 hP hm
    rw [meets_cons]
    constructor
    · rintro ⟨hok, hnext⟩ n s' hs'
      have hPm := hkept.mpr hok
      cases n with
      | zero =>
        rw [List.take_zero, exec_nil, Option.some.injEq] at hs'
        exact hs' ▸ hP
      | succ n =>
        obtain ⟨m', hm', hs'⟩ := exec_cons_eq_some.mp hs'
        obtain rfl := Option.some.inj (hm.symm.trans hm')
        exact (ih (hinv s a m h0 hP hm hPm) hPm hrest).mp (hnext m hm) n s' hs'
    · intro hall
      have hPm : P m := hall 1 m (exec_cons_eq_some.mpr ⟨m, hm, rfl⟩)
      refine ⟨hkept.mp hPm, fun m' hm' => ?_⟩
      obtain rfl := Option.some.inj (hm.symm.trans hm')
      exact (ih (hinv s a m h0 hP hm hPm) hPm hrest).mpr fun n s' hs' =>
        hall (n + 1) s' (exec_cons_eq_some.mpr ⟨m, hm, hs'⟩)

/-- A system that can take every step of another has all its runs. -/
theorem exec_of_le {step step' : σ → α → Option σ}
    (hle : ∀ s a s', step s a = some s' → step' s a = some s') {s s' : σ} {as : List α}
    (hrun : exec step s as = some s') : exec step' s as = some s' := by
  induction as generalizing s with
  | nil => exact hrun
  | cons a as ih =>
    obtain ⟨m, hm, hrest⟩ := exec_cons_eq_some.mp hrun
    exact exec_cons_eq_some.mpr ⟨m, hle s a m hm, ih hrest⟩

/-- A guard that is met along its runs is met along those of the smaller one. -/
theorem meets_of_le {step step' : σ → α → Option σ} {ok : σ → α → Prop}
    (hle : ∀ s a s', step s a = some s' → step' s a = some s') {s : σ} {as : List α}
    (h : Meets step' ok s as) : Meets step ok s as := by
  induction as generalizing s with
  | nil => trivial
  | cons a as ih =>
    obtain ⟨ha, hnext⟩ := (meets_cons ..).mp h
    exact (meets_cons ..).mpr ⟨ha, fun m hm => ih (hnext m (hle s a m hm))⟩

end Transition
