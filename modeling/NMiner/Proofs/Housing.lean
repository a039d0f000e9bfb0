import NMiner.Proofs.Frame

/-! Who is housed where, and what it adds up to. Every operation acts on the housing as a
sequence of the four changes of the library, and only one of them has a condition: a
miner may be housed only while it has no home. `migrate` evicts first; an `attach` that
settles does not, so it must find its miner without a home. -/

namespace NMiner

open Transition

namespace Upstream

/-! ### The four changes -/

theorem rate_nonneg (u : Upstream) (c : ClientId) : 0 ≤ u.rate c := by
  unfold rate rateOf
  split_ifs with h
  · exact h.le
  · norm_num

theorem housing_house (u : Upstream) (l : LinkId) (c : ClientId) :
    (u.house l c).housing = u.housing.house l c := by
  unfold house housing setLink Housing.house rate
  simp only [update_proj, addClient, Housing.addGuest]

theorem housing_evict (u : Upstream) (c : ClientId) :
    (u.evict c).housing = u.housing.evict c := by
  unfold evict Housing.evict
  cases h : u.homes c with
  | none => simp only [housing, h]
  | some l =>
    simp only [housing, h, setLink, update_proj]
    rfl

theorem housing_detach (u : Upstream) (c : ClientId) :
    (u.detach c).housing = u.housing.evict c := by
  rw [← housing_evict]
  exact housing_evict { u with live := u.live.erase c } c |>.trans (housing_evict u c).symm

theorem housing_report (u : Upstream) (c : ClientId) (hashrate : ℚ) :
    (u.report c hashrate).housing = u.housing ∨
      (u.report c hashrate).housing = u.housing.reweigh c hashrate := by
  unfold report
  split_ifs with hpos
  · right
    have hrate : ∀ v : Upstream, v.client = u.client →
        (v.setClient c fun k => { k with hashrate := hashrate }).rate =
          Function.update u.rate c hashrate := by
      intro v hv
      unfold rate setClient
      rw [update_proj, hv]
      simp only [rateOf, if_pos hpos]
    cases hc : u.homes c with
    | none =>
      have hhome : u.housing.home c = none := hc
      unfold Housing.reweigh
      rw [hhome]
      exact congrArg (fun w => { u.housing with weight := w }) (hrate u rfl)
    | some l =>
      have hhome : u.housing.home c = some l := hc
      have hload :
        (u.setLink l fun k => { k with load := k.load + (hashrate - u.rate c) }).housing =
          { u.housing with
            load := Function.update u.housing.load l (u.housing.load l +
              (hashrate - u.rate c)) } := by
        unfold housing setLink rate
        simp only [update_proj]
        rw [Function.update_eq_self l fun x => (u.link x).clients]
      unfold Housing.reweigh
      rw [hhome]
      exact congrArg₂ (fun (h : Housing LinkId ClientId ℚ) w => { h with weight := w }) hload
        (hrate _ rfl)
  · exact Or.inl rfl

theorem housing_sever (u : Upstream) (l : LinkId) :
    (u.sever l).housing = u.housing.vacate l := by
  have hcut : ∀ v : Upstream, v.housing = u.housing.vacate l →
      ((u.link l).clients.foldl (fun u c => u.attach c .rehome) v.reslice).housing =
        u.housing.vacate l := by
    intro v hv
    rw [(attach_all _ _).1.housing, (core_eq (core_reslice v)).1, hv]
  unfold sever
  dsimp only
  split_ifs
  all_goals
    apply hcut
    unfold housing setLink Housing.vacate rate
    simp only [update_proj]

theorem housing_hangUp (u : Upstream) (l : LinkId) :
    (u.hangUp l).housing = u.housing.vacate l := by
  rw [hangUp, housing_sever, housing_setLink u l rfl rfl]

/-! ### Every operation -/

/-- The client sets and the homes are one assignment, and every load is the sum of the rates it
stands for. -/
structure Housed (u : Upstream) : Prop where
  home : ∀ l c, c ∈ (u.link l).clients ↔ u.homes c = some l
  nodup : ∀ l, (u.link l).clients.Nodup
  load : ∀ l, (u.link l).load = ((u.link l).clients.map u.rate).sum

theorem housed_iff (u : Upstream) : u.Housed ↔ u.housing.Consistent := by
  constructor
  · intro h
    exact ⟨fun c l => (h.home l c).mpr, fun l c => (h.home l c).mp, h.nodup, h.load⟩
  · intro h
    exact ⟨fun l c => ⟨h.housed l c, h.homed c l⟩, h.nodup, h.load⟩

theorem Grows.housed {u v : Upstream} (h : Grows u v) (hu : u.Housed) : v.Housed := by
  rw [housed_iff, h.housing, ← housed_iff]
  exact hu

theorem house_housed {u : Upstream} (hu : u.Housed) {c : ClientId} (hc : u.homes c = none)
    (l : LinkId) : (u.house l c).Housed := by
  rw [housed_iff, housing_house]
  exact Housing.house_consistent ((housed_iff u).mp hu) hc l

theorem evict_housed {u : Upstream} (hu : u.Housed) (c : ClientId) : (u.evict c).Housed := by
  rw [housed_iff, housing_evict]
  exact Housing.evict_consistent ((housed_iff u).mp hu) u.rate_nonneg c

theorem evict_homes (u : Upstream) (c : ClientId) : (u.evict c).homes c = none := by
  unfold evict
  cases h : u.homes c with
  | none => exact h
  | some l => exact Function.update_self ..

theorem detach_housed {u : Upstream} (hu : u.Housed) (c : ClientId) : (u.detach c).Housed := by
  rw [housed_iff, housing_detach, ← housing_evict, ← housed_iff]
  exact evict_housed hu c

theorem report_housed {u : Upstream} (hu : u.Housed) (c : ClientId) (hashrate : ℚ) :
    (u.report c hashrate).Housed := by
  rw [housed_iff] at hu ⊢
  rcases housing_report u c hashrate with h | h
  · rw [h]
    exact hu
  · rw [h]
    exact Housing.reweigh_consistent hu c hashrate

theorem hangUp_housed {u : Upstream} (hu : u.Housed) (l : LinkId) : (u.hangUp l).Housed := by
  rw [housed_iff] at hu ⊢
  rw [housing_hangUp]
  exact Housing.vacate_consistent hu l

/-- An `attach` keeps the books when its miner has no home yet, or is not attached any more. -/
theorem finishAttach_housed {u : Upstream} (hu : u.Housed) {c : ClientId}
    {picked : Except String LinkId} (hc : ∀ l, picked = .ok l → c ∈ u.live → u.homes c = none) :
    (u.finishAttach c picked).2.Housed := by
  unfold finishAttach
  cases picked with
  | error message => exact detach_housed hu c
  | ok l =>
    dsimp only
    split_ifs with hlive
    · have hhouse := house_housed hu (hc l rfl hlive) l
      have hgrant := core_grant (u.house l c) l c
      rcases hg : (u.house l c).grant l c with ⟨_ | g, v⟩
      · rw [hg] at hgrant
        exact detach_housed ((Grows.of_core hgrant).housed hhouse) c
      · rw [hg] at hgrant
        dsimp only
        cases hp : v.payload l c g with
        | none => exact detach_housed ((Grows.of_core hgrant).housed hhouse) c
        | some pw =>
          exact (Grows.of_core ((core_payload (p := pw.1) hp).trans hgrant)).housed hhouse
    · exact detach_housed hu c

/-- A `migrate` takes the miner off its home before it houses it again, also when it goes back. -/
theorem finishMigrate_housed {u : Upstream} (hu : u.Housed) (source : LinkId) (c : ClientId)
    (picked : Except String LinkId) : (u.finishMigrate source c picked).2.Housed := by
  have move : ∀ {v : Upstream}, v.Housed → ∀ l, ((v.evict c).house l c).Housed :=
    fun hv l => house_housed (evict_housed hv c) (evict_homes _ c) l
  unfold finishMigrate
  cases picked with
  | error message => exact hu
  | ok l =>
    dsimp only
    split_ifs with hlive
    · have hmove := move hu l
      have hgrant := core_grant ((u.evict c).house l c) l c
      rcases hg : ((u.evict c).house l c).grant l c with ⟨_ | g, v⟩
      · rw [hg] at hgrant
        have hv := (Grows.of_core hgrant).housed hmove
        dsimp only
        split_ifs
        · exact move hv source
        · exact hv
      · rw [hg] at hgrant
        dsimp only
        have hv := (Grows.of_core hgrant).housed hmove
        cases hp : v.payload l c g with
        | none => exact hv
        | some pw =>
          have hpay := (Grows.of_core (core_payload (p := pw.1) hp)).housed hv
          exact ⟨hpay.home, hpay.nodup, hpay.load⟩
    · exact hu

/-- What an `attach` or a `migrate` does when it is resumed with its link picked. -/
theorem finish_housed {u : Upstream} (hu : u.Housed) {t : Task} {picked : Except String LinkId}
    (hc : t.goal = .attach → ∀ l, picked = .ok l → t.client ∈ u.live → u.homes t.client = none) :
    (u.finish t picked).Housed := by
  unfold finish
  cases hgoal : t.goal with
  | attach =>
    exact (attachDone_grows ..).housed (finishAttach_housed hu (hc hgoal))
  | migrate source =>
    exact (Grows.of_core (core_migrateDone ..)).housed (finishMigrate_housed hu source _ picked)

/-- The condition: an `attach` that is resumed with its link picked finds its miner, if that is
still attached, without a home; and the upstream is not closed. -/
def unhoused (u : Upstream) : Action → Bool
  | .resume i => match u.tasks[i]? with
    | some { client := c, goal := .attach, origin := _, phase := .picked _ } =>
      c ∉ u.live || u.homes c = none
    | _ => true
  | .close => false
  | _ => true

theorem resume_housed {u v : Upstream} {i : ℕ} (hu : u.Housed)
    (hg : u.unhoused (.resume i) = true) (h : u.resume i = some v) : v.Housed := by
  have hset : ∀ {w : Upstream} (t : Task) (p : Phase), w.Housed → (w.setPhase i t p).Housed :=
    fun t p hw => ⟨hw.home, hw.nodup, hw.load⟩
  obtain ⟨⟨c, goal, origin, phase⟩, ht, h⟩ := Option.bind_eq_some_iff.mp h
  have hrest : ({ u with tasks := u.tasks.eraseIdx i } : Upstream).Housed :=
    ⟨hu.home, hu.nodup, hu.load⟩
  cases phase with
  | waiting l =>
    dsimp only at h
    split_ifs at h
    rw [Option.some.injEq] at h
    rw [← h]
    exact hset _ _ ((pick_stays u c _).grows.housed hu)
  | opening l roomiest =>
    dsimp only at h
    split at h
    · rw [Option.some.injEq] at h
      rw [← h]
      exact hset _ _ ((Grows.of_core (core_reslice u)).housed hu)
    · rw [Option.some.injEq] at h
      rw [← h]
      exact hset _ _ ⟨hu.home, hu.nodup, hu.load⟩
    · exact absurd h (by simp)
  | picked l =>
    rw [Option.some.injEq] at h
    rw [← h]
    refine finish_housed hrest ?_
    intro hgoal m hm hlive
    dsimp only at hgoal
    subst hgoal
    simp only [unhoused, ht, Bool.or_eq_true, decide_eq_true_eq] at hg
    exact hg.resolve_left fun hn => hn hlive
  | failed message =>
    rw [Option.some.injEq] at h
    rw [← h]
    refine finish_housed hrest ?_
    intro _ m hm
    exact absurd hm (by simp)

theorem foldl_housed {α : Type*} {f : Upstream → α → Upstream}
    (hf : ∀ u a, u.Housed → (f u a).Housed) (as : List α) {u : Upstream} (hu : u.Housed) :
    (as.foldl f u).Housed := by
  induction as generalizing u with
  | nil => exact hu
  | cons a as ih => exact ih (hf u a hu)

theorem sweepLink_housed (u : Upstream) (l : LinkId) (hu : u.Housed) : (u.sweepLink l).Housed := by
  unfold sweepLink
  dsimp only
  split
  · split
    · refine (setLink_stays u l ?_ ?_).grows.housed hu <;> rfl
    · split
      · exact hangUp_housed hu l
      · exact hu
  · refine (shed_stays l _ _ _).grows.housed ?_
    refine (setLink_stays u l ?_ ?_).grows.housed hu <;> rfl

/-- Every step from a state with its books in order leads to one, under the condition. -/
theorem step_housed (u : Upstream) (a : Action) (v : Upstream) (hu : u.Housed)
    (hg : u.unhoused a = true) (h : u.step a = some v) : v.Housed := by
  cases a with
  | attach call c =>
    rw [step, Option.some.injEq] at h
    exact h ▸ (attach_grows u c _).1.housed hu
  | detach c =>
    rw [step, Option.some.injEq] at h
    exact h ▸ detach_housed hu c
  | report c hashrate =>
    rw [step, Option.some.injEq] at h
    exact h ▸ report_housed hu c hashrate
  | chunk call c job_id =>
    rw [step, Option.some.injEq] at h
    exact h ▸ (chunk_stays u call c job_id).grows.housed hu
  | submit call c job_id nonce result =>
    obtain ⟨⟨l, w⟩, hw, rfl⟩ := Option.map_eq_some_iff.mp h
    exact (Grows.of_core (core_submit hw)).housed hu
  | rejected stray =>
    rw [step, Option.some.injEq] at h
    exact h ▸ (Grows.of_core (core_rejected u stray)).housed hu
  | resume i => exact resume_housed hu hg h
  | dialed l outcome =>
    simp only [step] at h
    split_ifs at h
    rw [Option.some.injEq] at h
    exact h ▸ (dialed_stays u l outcome).grows.housed hu
  | loggedIn l outcome =>
    simp only [step] at h
    split_ifs at h
    rw [Option.some.injEq] at h
    exact h ▸ (loggedIn_stays u l outcome).grows.housed hu
  | job l job =>
    simp only [step] at h
    split_ifs at h
    rw [Option.some.injEq] at h
    exact h ▸ (accept_stays u l job).grows.housed hu
  | lost l =>
    simp only [step] at h
    split_ifs at h
    rw [Option.some.injEq] at h
    rw [← h]
    unfold lost
    dsimp only
    split_ifs
    · refine (setLink_stays _ l ?_ ?_).grows.housed (hangUp_housed hu l) <;> rfl
    · exact hangUp_housed hu l
  | rebalance =>
    simp only [step] at h
    split_ifs at h
    rw [Option.some.injEq] at h
    exact h ▸ (consolidate_stays _).grows.housed (foldl_housed sweepLink_housed _ hu)
  | tick ms =>
    rw [step, Option.some.injEq] at h
    exact h ▸ ⟨hu.home, hu.nodup, hu.load⟩
  | close => simp [unhoused] at hg

/-- Every client belongs to at most one link's clients, that link is its home, and every load
is the sum of the rates of the link's clients, in every state that a guarded run reaches. -/
theorem housing_invariant (maxLinks idleTimeout : ℕ) (expand : Bool)
    (now : ℕ) (client : ClientId → Client)
    (actions : List Action) (u : Upstream)
    (hguard : Meets step (fun u a => u.unhoused a = true)
      (start maxLinks idleTimeout expand now client)
      actions) (hrun : exec step (start maxLinks idleTimeout expand now client) actions = some u) :
    u.Housed := by
  refine exec_invariant step_housed ?_ hguard hrun
  exact ⟨by simp [start], by simp [start], by simp [start]⟩

/-- A job over the whole nonce space. -/
def plainJob : StratumJob := { blob := "", target := "01000000", job_id := "1", seed_hash := "" }

/-- A miner of 30 MH/s, more than one link's headroom before the first job interval is known. -/
def largeMiner : Client := { hashrate := 30000000, vardiff := VarDiff.new 1000 1000 }

/-- The miner is moved off its overloaded link, and the new link is lost. -/
theorem housing_invariant_moved : ∃ u, exec step (start 64 300000 false 1000 fun _ => largeMiner)
    [.attach 0 0, .dialed 0 (.ok ()), .loggedIn 0 (.ok plainJob), .resume 0, .resume 0,
      .rebalance, .dialed 1 (.ok ()), .loggedIn 1 (.ok plainJob), .resume 0, .resume 0,
      .report 0 9000, .lost 1, .resume 0] = some u ∧ u.Housed :=
  exists_exec (by decide +kernel) fun u h =>
    housing_invariant 64 300000 false 1000 _ _ u (by decide +kernel) h

/-- The miner's link is lost while its migration waits for the new link to come up: the migration
houses it there, and its `attach` houses it once more. -/
theorem housed_twice : ¬ ∀ u, exec step (start 64 300000 false 1000 fun _ => largeMiner)
    [.attach 0 0, .dialed 0 (.ok ()), .loggedIn 0 (.ok plainJob), .resume 0, .resume 0,
      .rebalance, .dialed 1 (.ok ()), .lost 0, .loggedIn 1 (.ok plainJob), .resume 0, .resume 0,
      .resume 0, .dialed 2 (.ok ()), .loggedIn 2 (.ok plainJob), .resume 0, .resume 0] =
    some u → u.Housed := by
  intro h
  have hrun : (exec step (start 64 300000 false 1000 fun _ => largeMiner)
      [.attach 0 0, .dialed 0 (.ok ()), .loggedIn 0 (.ok plainJob), .resume 0, .resume 0,
        .rebalance, .dialed 1 (.ok ()), .lost 0, .loggedIn 1 (.ok plainJob), .resume 0, .resume 0,
        .resume 0, .dialed 2 (.ok ()), .loggedIn 2 (.ok plainJob), .resume 0, .resume 0]).map
      (fun u => ((u.link 1).clients, u.homes 0)) = some ([0], some 2) := by decide +kernel
  obtain ⟨u, hu, hstate⟩ := Option.map_eq_some_iff.mp hrun
  rw [Prod.mk.injEq] at hstate
  have hhome := ((h u hu).home 1 0).mp (by rw [hstate.1]; exact List.mem_singleton_self 0)
  rw [hstate.2] at hhome
  exact absurd hhome (by decide)

end Upstream

end NMiner
