import NMiner.Proofs.Attached
import NMiner.Proofs.Wires

/-! What is left of an upstream that has been closed. The miners that still come are turned away,
and once nothing is pending nobody is housed. A socket stays open only if its login
succeeds after `close`, which neither `open` nor `pick` notices. -/

namespace NMiner

open Transition

namespace Upstream

/-- An `attach` of the client is about to be rejected. -/
def Rejecting (u : Upstream) (c : ClientId) : Prop :=
  ∃ t ∈ u.tasks, t.client = c ∧ t.goal = .attach ∧ t.phase.rejected = true

structure Closing (u : Upstream) : Prop where
  calls : u.closed = true → ∀ c, u.Knows c → u.Rejecting c
  plugs : u.closed = true → ∀ l, (u.link l).plug = .live → (u.link l).opening = .login

/-- No call is suspended and no link is being connected. -/
def Settled (u : Upstream) : Prop :=
  u.tasks = [] ∧ ∀ l, (u.link l).opening.connecting = false

/-- No socket is open and nobody is housed. -/
structure Deserted (u : Upstream) : Prop where
  plugs : ∀ l, (u.link l).plug ≠ .live
  homes : ∀ c, u.homes c = none

theorem Closing.deserted {u : Upstream} (hu : u.Closing) (hclosed : u.closed = true)
    (hsettled : u.Settled) : u.Deserted := by
  refine ⟨fun l hl => ?_, fun c => ?_⟩
  · have hlogin := hu.plugs hclosed l hl
    have hidle := hsettled.2 l
    rw [hlogin] at hidle
    cases hidle
  · by_contra hc
    obtain ⟨t, ht, -⟩ := hu.calls hclosed c (Or.inr hc)
    rw [hsettled.1] at ht
    exact List.not_mem_nil ht

variable {u v : Upstream} {cut : LinkId → Prop}

/-! ### Shifts of a closed upstream -/

theorem pick_of_closed (h : u.closed = true) (c : ClientId) (exclude : Option LinkId) :
    u.pick c exclude = (.failed "Upstream is closed.", u) := by
  rw [pick, if_pos h]

theorem Rejecting.mono {c : ClientId} (h : u.Rejecting c) (htasks : u.tasks ⊆ v.tasks) :
    v.Rejecting c := by
  obtain ⟨t, ht, hrest⟩ := h
  exact ⟨t, htasks ht, hrest⟩

theorem Rejecting.of_tasks {c : ClientId} (h : u.Rejecting c) (htasks : v.tasks = u.tasks) :
    v.Rejecting c := h.mono fun _ ht => htasks.symm ▸ ht

/-- Any other call stays suspended when one ends. -/
theorem Rejecting.eraseIdx {i : ℕ} {t : Task} (ht : u.tasks[i]? = some t) {c : ClientId}
    (hc : u.Rejecting c) (hne : t.client = c → t.goal = .attach → t.phase.rejected = false) :
    Rejecting { u with tasks := u.tasks.eraseIdx i } c := by
  obtain ⟨t', ht', hclient, hgoal, hrejected⟩ := hc
  refine ⟨t', mem_eraseIdx_of_ne ht ht' ?_, hclient, hgoal, hrejected⟩
  rintro rfl
  rw [hne hclient hgoal] at hrejected
  cases hrejected

theorem Rejecting.setPhase {i : ℕ} {t : Task} (ht : u.tasks[i]? = some t) {c : ClientId}
    (hc : u.Rejecting c) (hopen : t.phase.rejected = false) (p : Phase) :
    (u.setPhase i t p).Rejecting c := by
  obtain ⟨t', ht', hclient, hgoal, hrejected⟩ := hc
  obtain ⟨j, hj⟩ := List.mem_iff_getElem?.mp ht'
  refine ⟨t', List.mem_iff_getElem?.mpr ⟨j, ?_⟩, hclient, hgoal, hrejected⟩
  refine (List.getElem?_set_ne ?_).trans hj
  rintro rfl
  rw [ht, Option.some.injEq] at hj
  subst hj
  rw [hopen] at hrejected
  cases hrejected

theorem Rests.knows (h : Rests u v) {c : ClientId} (hc : v.Knows c) : u.Knows c :=
  hc.imp (fun hlive => (h.turns 0).live hlive) fun hhome hnone => hhome ((h.turns 0).homes c hnone)

theorem Rests.closing (h : Rests u v) (hu : u.Closing) : v.Closing := by
  refine ⟨fun hclosed c hc => ?_, fun hclosed l hl => ?_⟩
  · exact (hu.calls ((h.turns 0).closed ▸ hclosed) c (h.knows hc)).of_tasks (h.turns 0).tasks
  · rw [(h.link l).opening]
    exact hu.plugs ((h.turns 0).closed ▸ hclosed) l ((h.link l).plug ▸ hl)

/-- A closed upstream attaches a miner only to reject it. -/
theorem launch_closing (hu : u.Closing) (hclosed : u.closed = true) (c : ClientId) (goal : Goal)
    (origin : Origin) : (u.launch c goal origin).Closing := by
  unfold launch
  rw [pick_of_closed hclosed]
  exact ⟨fun _ x hx => (hu.calls hclosed x hx).mono (List.subset_append_left _ _), hu.plugs⟩

theorem attach_closing (hu : u.Closing) (hclosed : u.closed = true) (c : ClientId)
    (origin : Origin) : (u.attach c origin).Closing := by
  have hpick : pick { u with live := insert c u.live } c (Goal.exclude .attach) =
      (.failed "Upstream is closed.", { u with live := insert c u.live }) := by
    apply pick_of_closed
    exact hclosed
  unfold attach launch
  rw [hpick]
  refine ⟨fun _ x hx => ?_, hu.plugs⟩
  by_cases hxc : x = c
  · exact ⟨_, List.mem_append_right _ (List.mem_singleton_self _), hxc.symm, rfl, rfl⟩
  · have hold : u.Knows x := hx.imp_left fun hlive => Finset.mem_of_mem_insert_of_ne hlive hxc
    exact (hu.calls hclosed x hold).mono (List.subset_append_left _ _)

theorem Closing.shift (hu : u.Closing) (h : Shift cut u v) : v.Closing := by
  have hsame : v.closed = u.closed := h.frame.1
  cases hclosed : u.closed with
  | false =>
    rw [hclosed] at hsame
    exact ⟨fun h => absurd (hsame.symm.trans h) (by simp), fun h =>
      absurd (hsame.symm.trans h) (by simp)⟩
  | true => cases h with
    | rest h => exact h.closing hu
    | drop l hcut h =>
      refine ⟨fun _ c hc => ?_, fun _ m hm => ?_⟩
      · have hold : u.Knows c := hc.imp (fun hlive => h.turns.live hlive)
          fun hhome hnone => hhome (h.turns.homes c hnone)
        exact (hu.calls hclosed c hold).of_tasks h.turns.tasks
      · have hml : m ≠ l := by
          rintro rfl
          rw [h.plug] at hm
          cases hm
        have hrest := h.turns.others m hml
        rw [hrest.opening]
        exact hu.plugs hclosed m (hrest.plug ▸ hm)
    | unlist l message h => exact ⟨hu.calls, hu.plugs⟩
    | house l c hl hc =>
      refine ⟨fun _ x hx => hu.calls hclosed x ?_, fun _ m hm => ?_⟩
      · rcases hx with hlive | hhome
        · exact Or.inl hlive
        · rw [house_homes] at hhome
          split_ifs at hhome with hxc
          · exact Or.inl (hxc ▸ hc)
          · exact Or.inr hhome
      · have hlink : (u.link m).plug = .live ∧ ((u.house l c).link m).opening =
          (u.link m).opening := by
          unfold Upstream.house setLink at hm ⊢
          dsimp only at hm ⊢
          by_cases hml : m = l
          · subst hml
            rw [Function.update_self] at hm ⊢
            exact ⟨hm, rfl⟩
          · rw [Function.update_of_ne hml] at hm ⊢
            exact ⟨hm, rfl⟩
        rw [hlink.2]
        exact hu.plugs hclosed m hlink.1
    | attach c origin => exact attach_closing hu hclosed c origin
    | migrate l c origin => exact launch_closing hu hclosed c _ origin
    | settle i t ht hgoal =>
      exact ⟨fun _ x hx => (hu.calls hclosed x hx).eraseIdx ht fun _ => hgoal, hu.plugs⟩
    | giveUp i t ht =>
      have hrest := detach_rests { u with tasks := u.tasks.eraseIdx i } t.client
      refine ⟨fun _ x hx => ?_, fun _ m hm => ?_⟩
      · obtain ⟨hne, hknows⟩ := (detach_knows _ t.client x).mp hx
        exact ((hu.calls hclosed x hknows).eraseIdx ht fun h => absurd h.symm hne).of_tasks
          (hrest.turns 0).tasks
      · rw [(hrest.link m).opening]
        exact hu.plugs hclosed m ((hrest.link m).plug ▸ hm)
    | phase i t p ht hopen hpick hp =>
      exact ⟨fun _ x hx => (hu.calls hclosed x hx).setPhase ht hopen p, hu.plugs⟩
    | repick i t ht hopen =>
      rw [pick_of_closed hclosed]
      exact ⟨fun _ x hx => (hu.calls hclosed x hx).setPhase ht hopen _, hu.plugs⟩

theorem Closing.shifts (hu : u.Closing) (h : Shifts cut u v) : v.Closing :=
  h.keeps (P := Closing) (fun _ _ hshift hw => hw.shift hshift) hu

/-! ### Steps -/

/-- The login of a socket succeeds after the upstream has been closed. -/
def opensLate (u : Upstream) : Action → Bool
  | .loggedIn _ (.ok _) => u.closed
  | _ => false

/-- A link gets another opening, and no live socket unless its login is under way. -/
theorem setLink_closing (hu : u.Closing) {l : LinkId} {f : Link → Link}
    (hl : (f (u.link l)).plug = .live → (f (u.link l)).opening = .login) :
    (u.setLink l f).Closing := by
  refine ⟨hu.calls, fun hclosed m hm => ?_⟩
  by_cases hml : m = l
  · subst hml
    have hself : (u.setLink m f).link m = f (u.link m) := Function.update_self ..
    rw [hself] at hm ⊢
    exact hl hm
  · have hrest := (setLink_turns u l f).others m hml
    rw [hrest.opening]
    exact hu.plugs hclosed m (hrest.plug ▸ hm)

theorem close_closing {N : ℕ} (hw : u.Wired N fun _ => False) (hu : u.Closing) :
    u.close.Closing := by
  refine ⟨fun _ c hc => ?_, fun _ l hl => ?_⟩
  · rcases hc with hlive | hhome
    · exact absurd hlive (Finset.notMem_empty c)
    · exact absurd rfl hhome
  · obtain ⟨hbusy, hconnecting⟩ := close_busy hw (Link.busy_iff.mpr (Or.inl hl))
    have hkept : (u.link l).plug = .live ∧ (u.close.link l).opening = (u.link l).opening := by
      rcases close_link u l with h | ⟨-, h⟩
      · rw [h] at hl ⊢
        exact ⟨hl, rfl⟩
      · rw [h] at hl
        cases hl
    rw [hkept.2]
    cases hclosed : u.closed with
    | true => exact hu.plugs hclosed l hkept.1
    | false =>
      rcases (hw.sound l).live hkept.1 with hlogin | ⟨hup, -⟩
      · exact hlogin
      · have hc := (hconnecting hclosed).2
        rw [hup] at hc
        cases hc

theorem step_closing {N : ℕ} {a : Action} (hw : u.Wired N fun _ => False) (hu : u.Closing)
    (ha : u.opensLate a = false) (h : u.step a = some v) : v.Closing := by
  cases hwiring : a.wiring with
  | false =>
    have hchain : Shifts (fun _ => False) u v := step_shifts hw.aimed hwiring h
    exact hu.shifts hchain
  | true => cases a with
    | dialed l outcome =>
      simp only [step] at h
      split_ifs at h with hl
      rw [Option.some.injEq] at h
      have hdark := (hw.sound l).dark (Or.inr hl)
      cases outcome with
      | error message =>
        exact h ▸ setLink_closing (f := fun k => { k with opening := .failed message }) hu
          fun hlive => absurd hlive (by simp [hdark])
      | ok _ =>
        exact h ▸ setLink_closing (f := fun k => { k with opening := .login, plug := .live }) hu
          fun _ => rfl
    | loggedIn l outcome =>
      simp only [step] at h
      split_ifs at h with hl
      rw [Option.some.injEq] at h
      cases outcome with
      | error message =>
        exact h ▸ setLink_closing
          (f := fun k => { k with opening := .failed message, plug := .shut }) hu (by simp)
      | ok job =>
        have hlive : (u.link l).plug = .live := (hw.login l hl).resolve_right id
        have hturn := (loggedIn_turns job (by simp [hlive]) (hw.empty_of_login hl)).1
        have hopen : v.closed = false := h ▸ hturn.closed.trans ha
        exact ⟨fun hc => absurd (hopen.symm.trans hc) (by simp),
          fun hc => absurd (hopen.symm.trans hc) (by simp)⟩
    | lost l =>
      simp only [step] at h
      split_ifs at h with hl
      rw [Option.some.injEq] at h
      have hchain : Shifts (· = l) u (u.hangUp l) := hangUp_shifts (Or.inr rfl)
      have hhang : (u.hangUp l).Closing := hu.shifts hchain
      subst h
      unfold lost
      dsimp only
      split_ifs
      · exact setLink_closing hhang fun hlive => absurd hlive (by simp [hangUp_shut])
      · exact hhang
    | close =>
      rw [step, Option.some.injEq] at h
      exact h ▸ close_closing hw hu
    | _ => cases hwiring

/-! ### Runs -/

/-- In every run in which no login succeeds after `close`: once everything pending has settled, a
closed upstream has no open socket and houses nobody. -/
theorem close_deserts (maxLinks idleTimeout : ℕ) (expand : Bool) (now : ℕ)
    (client : ClientId → Client)
    {as : List Action} {u : Upstream}
    (hguard : Meets step (fun u a => u.opensLate a = false)
      (start maxLinks idleTimeout expand now client) as)
    (hrun : exec step (start maxLinks idleTimeout expand now client) as = some u)
    (hclosed : u.closed = true)
    (hsettled : u.Settled) : u.Deserted := by
  have hstart : (start maxLinks idleTimeout expand now client).Closing :=
    ⟨fun h => absurd h (by simp [start]), fun h => absurd h (by simp [start])⟩
  have hstep : ∀ (s : Upstream) (a : Action) (s' : Upstream),
      s.Wired maxLinks (fun _ => False) ∧ s.Closing → s.opensLate a = false → s.step a = some s' →
        s'.Wired maxLinks (fun _ => False) ∧ s'.Closing :=
    fun s a s' hs ha h => ⟨step_wired s a s' hs.1 h, step_closing hs.1 hs.2 ha h⟩
  have hboth := exec_invariant hstep ⟨start_wired maxLinks idleTimeout expand now client,
    hstart⟩ hguard hrun
  exact hboth.2.deserted hclosed hsettled

def unclosed : Upstream := start 64 300000 false 1000 fun _ =>
  { hashrate := 1000, vardiff := VarDiff.new 1000 1000 }

/-- A second miner waits for the link that the first one is placed on when the upstream is closed;
a third comes later. -/
def abandoned : List Action :=
  [.attach 0 0, .attach 1 1, .dialed 0 (.ok ()), .close, .attach 2 2,
    .loggedIn 0 (.error "timeout"),
    .resume 0, .resume 0, .resume 0, .resume 0, .resume 0]

/-- Only the links that have been made have been connected. -/
theorem settled_of_made {N : ℕ} (hu : u.Wired N fun _ => False) (htasks : u.tasks = [])
    (hmade : ∀ l < u.nextLink, (u.link l).opening.connecting = false) : u.Settled := by
  refine ⟨htasks, fun l => ?_⟩
  by_cases hl : l < u.nextLink
  · exact hmade l hl
  · rw [(hu.unborn l (Nat.le_of_not_lt hl)).1]
    rfl

theorem close_deserts_abandoned : ∃ u, exec step unclosed abandoned = some u ∧ u.Deserted := by
  have hrun : (exec step unclosed abandoned).any (fun u => u.closed = true ∧ u.tasks = [] ∧
      ∀ l < u.nextLink, (u.link l).opening.connecting = false) = true := by decide +kernel
  obtain ⟨u, hu, hstate⟩ := (Option.any_eq_true _ _).mp hrun
  obtain ⟨hclosed, htasks, hmade⟩ := of_decide_eq_true hstate
  exact ⟨u, hu, close_deserts 64 300000 false 1000 _ (by decide +kernel) hu hclosed
    (settled_of_made (run_wired hu) htasks hmade)⟩

/-- The pool answers the login after `close`: the socket stays open. -/
theorem close_leaves_socket : ¬ ∀ (as : List Action) (u : Upstream),
    exec step unclosed as = some u →
    u.closed = true → u.Settled → u.Deserted := by
  intro h
  have hrun : (exec step unclosed [.attach 0 0, .dialed 0 (.ok ()), .close,
      .loggedIn 0 (.ok plainJob), .resume 0, .resume 0]).any (fun u => u.closed = true ∧
        u.tasks = [] ∧ (∀ l < u.nextLink, (u.link l).opening.connecting = false) ∧
          (u.link 0).plug = .live) = true := by decide +kernel
  obtain ⟨u, hu, hstate⟩ := (Option.any_eq_true _ _).mp hrun
  obtain ⟨hclosed, htasks, hmade, hlive⟩ := of_decide_eq_true hstate
  exact (h _ u hu hclosed (settled_of_made (run_wired hu) htasks hmade)).plugs 0 hlive

end Upstream

end NMiner
