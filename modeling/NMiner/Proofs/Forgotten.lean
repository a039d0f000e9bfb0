import NMiner.Spec.Worker

/-! What a worker keeps for a session that has been closed: nothing, unless the answer to a call of
the session comes after the close. `learn` then makes an entry that nothing will delete. -/

namespace NMiner

namespace WorkerBackend

open Transition
open Function (update)

/-- What an event does to the sessions that a login has opened and no close has closed since. -/
def opens (live : Finset SessionId) : Action.Worker → Finset SessionId
  | .login s _ _ => insert s live
  | .close s => live.erase s
  | _ => live

def opened (actions : List Action.Worker) : Finset SessionId := actions.foldl opens ∅

/-- The condition on a step: an answer that is an object, to a call that is pending, finds its
session still there. -/
def timely (w : WorkerBackend) : Action.Worker → Bool
  | .hear (.r i c (.ok (some _))) => i ∉ w.pending ∨ c ∈ w.sessions
  | _ => true

/-- The maps hold entries of open sessions only. -/
structure Tidy (live : Finset SessionId) (w : WorkerBackend) : Prop where
  sessions : w.sessions = live
  jobs : ∀ s, w.jobs s ≠ none → s ∈ live
  tallies : ∀ p ∈ w.tallies, p.1 ∈ live

variable {live : Finset SessionId} {w w' : WorkerBackend}

theorem Tidy.of_eq (h : Tidy live w) (hs : w'.sessions = w.sessions) (hj : w'.jobs = w.jobs)
    (ht : w'.tallies = w.tallies) : Tidy live w' :=
  ⟨hs.trans h.sessions, by rw [hj]; exact h.jobs, by rw [ht]; exact h.tallies⟩

theorem Tidy.send (h : Tidy live w) (m : Up) : Tidy live (w.send m) := by
  unfold WorkerBackend.send
  split
  · exact h.of_eq rfl rfl rfl
  · exact h

theorem Tidy.call (h : Tidy live w) (message : ℕ → Up) : Tidy live (w.call message) := by
  unfold WorkerBackend.call
  split
  · have hcalled : Tidy live { w with seq := w.seq + 1, pending := insert w.seq w.pending } :=
      h.of_eq rfl rfl rfl
    exact hcalled.send _
  · exact h

theorem Tidy.setJob (h : Tidy live w) {s : SessionId} (hs : s ∈ live) (known : Known) :
    Tidy live { w with jobs := update w.jobs s (some known) } := by
  refine ⟨h.sessions, fun s' hs' => ?_, h.tallies⟩
  by_cases heq : s' = s
  · exact heq ▸ hs
  · exact h.jobs s' fun hnone => hs' ((Function.update_of_ne heq _ _).trans hnone)

theorem Tidy.learn (h : Tidy live w) {s : SessionId} (hs : s ∈ live) (payload : Option Message) :
    Tidy live (w.learn s payload) := by
  cases payload with
  | none => exact h
  | some m => exact h.setJob hs _

theorem addTally_key {s : SessionId} {difficulty actual id : ℕ} {ts : List (SessionId × Tally)} :
    ∀ p ∈ Cluster.addTally s difficulty actual id ts, p.1 = s ∨ p.1 ∈ ts.map Prod.fst := by
  induction ts with
  | nil =>
    intro p hp
    rw [Cluster.addTally, List.mem_singleton] at hp
    exact Or.inl (congrArg Prod.fst hp)
  | cons q ts ih =>
    intro p hp
    rw [Cluster.addTally] at hp
    split at hp
    · rename_i hq
      rcases List.mem_cons.mp hp with rfl | hp
      · exact Or.inl hq
      · exact Or.inr (List.mem_map_of_mem (List.mem_cons_of_mem _ hp))
    · rcases List.mem_cons.mp hp with rfl | hp
      · exact Or.inr (List.mem_map_of_mem List.mem_cons_self)
      · exact (ih p hp).imp_right (List.mem_cons_of_mem _)

theorem Tidy.tally (h : Tidy live w) {s : SessionId} (hs : s ∈ live) (difficulty actual : ℕ) :
    Tidy live (w.tally s difficulty actual) := by
  refine ⟨h.sessions, h.jobs, fun p hp => ?_⟩
  rcases addTally_key p hp with hkey | hkey
  · exact hkey ▸ hs
  · obtain ⟨q, hq, hqp⟩ := List.mem_map.mp hkey
    exact hqp ▸ h.tallies q hq

theorem Tidy.submit (h : Tidy live w) (s : SessionId) (job_id nonce result : String) :
    Tidy live (w.submit s job_id nonce result) := by
  unfold WorkerBackend.submit
  split
  · exact h.call _
  · rename_i known hjob
    have hs : s ∈ live := h.jobs s (by rw [hjob]; exact Option.some_ne_none known)
    have hknown := h.setJob hs (known.submit job_id nonce result).2
    dsimp only
    split
    · exact hknown.call _
    · exact hknown
    · exact hknown
    · exact (hknown.send _).of_eq rfl rfl rfl
    · exact hknown.tally hs _ _

theorem Tidy.flush (h : Tidy live w) : Tidy live w.flush := by
  unfold WorkerBackend.flush
  split
  · exact h
  · exact (show Tidy live { w with tallies := [] } from
      ⟨h.sessions, h.jobs, fun p hp => absurd hp List.not_mem_nil⟩).send _

theorem send_tallies (w : WorkerBackend) (m : Up) : (w.send m).tallies = w.tallies := by
  unfold send
  split <;> rfl

theorem flush_tallies (w : WorkerBackend) : w.flush.tallies = [] := by
  unfold flush
  split
  · assumption
  · exact send_tallies ..

/-- `close` flushes the tallies if the session has one. -/
theorem Tidy.close (h : Tidy live w) (s : SessionId) : Tidy (live.erase s) (w.close s) := by
  unfold WorkerBackend.close
  have hflushed : ∀ v : WorkerBackend, Tidy live v → (∀ p ∈ v.tallies, p.1 ≠ s) →
      Tidy (live.erase s)
        { v with jobs := update v.jobs s none, sessions := v.sessions.erase s } := by
    intro v hv hnone
    refine ⟨congrArg (fun live => live.erase s) hv.sessions, fun s' hs' => ?_, fun p hp => ?_⟩
    · have hne : s' ≠ s := by
        rintro rfl
        exact hs' (Function.update_self ..)
      have hjob : v.jobs s' ≠ none :=
        fun hnone => hs' ((Function.update_of_ne hne _ _).trans hnone)
      exact Finset.mem_erase.mpr ⟨hne, hv.jobs s' hjob⟩
    · exact Finset.mem_erase.mpr ⟨hnone p hp, hv.tallies p hp⟩
  dsimp only
  split
  · refine (hflushed _ h.flush fun p hp => ?_).send _
    rw [flush_tallies] at hp
    exact absurd hp List.not_mem_nil
  · rename_i hany
    exact (hflushed _ h fun p hp heq =>
      hany (List.any_eq_true.mpr ⟨p, hp, decide_eq_true heq⟩)).send _

theorem Tidy.hear (h : Tidy live w) {word : Word} (htimely : w.timely (.hear word) = true) :
    Tidy live (w.hear word) := by
  cases word with
  | r i c result =>
    unfold WorkerBackend.hear
    dsimp only
    split
    · rename_i hi
      have herased : Tidy live { w with pending := w.pending.erase i } := h.of_eq rfl rfl rfl
      cases result with
      | error e => exact herased
      | ok payload =>
        cases payload with
        | none => exact herased
        | some m =>
          have hc : c ∈ w.sessions := (of_decide_eq_true htimely).resolve_left (not_not_intro hi)
          exact herased.learn (h.sessions ▸ hc) _
    · exact h
  | j c payload =>
    unfold WorkerBackend.hear
    dsimp only
    split
    · rename_i hc
      exact h.learn (h.sessions ▸ hc) _
    · exact h
  | k c message => exact h

theorem Tidy.login (h : Tidy live w) (s : SessionId) (address : String) (threads : Option ℚ) :
    Tidy (insert s live) (w.login s address threads) := by
  refine Tidy.call ?_ _
  exact ⟨congrArg (insert s) h.sessions, fun s' hs' => Finset.mem_insert_of_mem (h.jobs s' hs'),
    fun p hp => Finset.mem_insert_of_mem (h.tallies p hp)⟩

theorem step_tidy {a : Action.Worker} (h : Tidy live w) (htimely : w.timely a = true)
    (hstep : w.step a = some w') : Tidy (opens live a) w' := by
  cases a with
  | login s address threads => exact Option.some.inj hstep ▸ h.login s address threads
  | chunk s job_id hashrate => exact Option.some.inj hstep ▸ h.call _
  | submit s job_id nonce result => exact Option.some.inj hstep ▸ h.submit s job_id nonce result
  | hear word => exact Option.some.inj hstep ▸ h.hear htimely
  | flush => exact Option.some.inj hstep ▸ h.flush
  | close s => exact Option.some.inj hstep ▸ h.close s
  | expire i =>
    obtain ⟨-, hw⟩ := Option.ite_none_right_eq_some.mp hstep
    exact Option.some.inj hw ▸ h.of_eq rfl rfl rfl
  | disconnect =>
    obtain ⟨-, hw⟩ := Option.ite_none_right_eq_some.mp hstep
    exact Option.some.inj hw ▸ h.of_eq rfl rfl rfl

theorem Tidy.keeps (h : Tidy live w) {s : SessionId} (hs : w.keeps s = true) : s ∈ live := by
  simp only [WorkerBackend.keeps, Bool.or_eq_true, Option.isSome_iff_ne_none, List.any_eq_true,
    decide_eq_true_eq] at hs
  rcases hs with (hjob | ⟨p, hp, rfl⟩) | hsession
  · exact h.jobs s hjob
  · exact h.tallies p hp
  · exact h.sessions ▸ hsession

/-- An answer that is not timely leaves an entry for a session that is not open. -/
theorem untimely_keeps {a : Action.Worker} (h : Tidy live w) (hlate : w.timely a = false) :
    ∃ w' s, w.step a = some w' ∧ w'.keeps s = true ∧ s ∉ opens live a := by
  unfold timely at hlate
  split at hlate
  · rename_i i c m
    have hlate := of_decide_eq_false hlate
    rw [not_or, not_not] at hlate
    obtain ⟨hi, hc⟩ := hlate
    refine ⟨_, c, rfl, ?_, h.sessions ▸ hc⟩
    simp [hear, hi, learn, keeps]
  · exact absurd hlate (by decide)

theorem kept_of_timely {actions : List Action.Worker} (h : Tidy live w)
    (htimely : Meets step (fun w a => w.timely a = true) w actions)
    (hrun : exec step w actions = some w') : Tidy (actions.foldl opens live) w' := by
  induction actions generalizing live w with
  | nil => exact Option.some.inj hrun ▸ h
  | cons a as ih =>
    obtain ⟨m, hm, hrest⟩ := exec_cons_eq_some.mp hrun
    obtain ⟨ha, hnext⟩ := (meets_cons ..).mp htimely
    exact ih (step_tidy h ha hm) (hnext m hm) hrest

theorem timely_of_kept {actions : List Action.Worker} (h : Tidy live w)
    (hkept : ∀ n v, exec step w (actions.take n) = some v → ∀ s, v.keeps s = true →
      s ∈ (actions.take n).foldl opens live) :
    Meets step (fun w a => w.timely a = true) w actions := by
  induction actions generalizing live w with
  | nil => trivial
  | cons a as ih =>
    have ha : w.timely a = true := by
      by_contra hlate
      obtain ⟨v, s, hv, hs, hnot⟩ := untimely_keeps h (Bool.not_eq_true _ ▸ hlate)
      exact hnot (hkept 1 v (exec_cons_eq_some.mpr ⟨v, hv, rfl⟩) s hs)
    refine (meets_cons ..).mpr ⟨ha, fun m hm => ih (step_tidy h ha hm) fun n v hv => ?_⟩
    exact hkept (n + 1) v (exec_cons_eq_some.mpr ⟨m, hm, hv⟩)

theorem start_tidy : Tidy ∅ {} :=
  ⟨rfl, fun _ h => absurd rfl h, fun _ h => absurd h List.not_mem_nil⟩

/-- The maps hold entries of open sessions only, in every state of a run, exactly if every answer of
the run is timely. -/
theorem keeps_opened_iff (actions : List Action.Worker) :
    Meets step (fun w a => w.timely a = true) {} actions ↔
      ∀ n w, exec step {} (actions.take n) = some w →
        ∀ s, w.keeps s = true → s ∈ opened (actions.take n) := by
  refine ⟨fun htimely n w hrun s hs => ?_, fun hkept => timely_of_kept start_tidy hkept⟩
  refine Tidy.keeps (kept_of_timely start_tidy ?_ hrun) hs
  exact meets_take htimely n

/-- A chunk request crosses with the close of its connection. -/
def crossing : List Action.Worker :=
  [.login 1 "wallet" none, .hear (.r 1 1 (.ok (some .other))), .chunk 1 "job" none, .close 1,
    .hear (.r 2 1 (.ok (some (.range { start_nonce := 0, nonce_limit := 4095 }))))]

theorem closed_kept : ¬ ∀ actions w, exec step {} actions = some w →
    ∀ s, w.keeps s = true → s ∈ opened actions := by
  intro h
  have hany : (exec step {} crossing).any (fun w => w.keeps 1) = true := by decide +kernel
  obtain ⟨w, hrun, hkeeps⟩ := (Option.any_eq_true _ _).mp hany
  exact absurd (h crossing w hrun 1 hkeeps) (by decide +kernel)

end WorkerBackend

end NMiner
