import NMiner.Proofs.Housing

/-! A link's load never falls below the rates of the miners that are at home on it. Books that
are out of order because a miner was housed twice only ever count too much. -/

namespace NMiner

open Relation (ReflTransGen)
open Transition

namespace Upstream

/-- The housing changes in the ways of the library. -/
def Rehouses (u v : Upstream) : Prop := ReflTransGen Housing.Change u.housing v.housing

variable {u v w : Upstream}

theorem Rehouses.trans (h : Rehouses u v) (h' : Rehouses v w) : Rehouses u w :=
  ReflTransGen.trans h h'

theorem Rehouses.of_eq (h : v.housing = u.housing) : Rehouses u v := by
  unfold Rehouses
  rw [h]

theorem Rehouses.of_core (h : v.core = u.core) : Rehouses u v := .of_eq (core_eq h).1

theorem Grows.rehouses (h : Grows u v) : Rehouses u v := .of_eq h.housing

theorem Rehouses.foldl {α : Type*} {f : Upstream → α → Upstream} (hf : ∀ u a, Rehouses u (f u a))
    (as : List α) (u : Upstream) : Rehouses u (as.foldl f u) := by
  induction as generalizing u with
  | nil => exact .of_eq rfl
  | cons a as ih => exact (hf u a).trans (ih _)

theorem house_rehouses (u : Upstream) (l : LinkId) (c : ClientId) : Rehouses u (u.house l c) := by
  unfold Rehouses
  rw [housing_house]
  exact .single (.house l c)

theorem evict_rehouses (u : Upstream) (c : ClientId) : Rehouses u (u.evict c) := by
  unfold Rehouses
  rw [housing_evict]
  exact .single (.evict c)

theorem detach_rehouses (u : Upstream) (c : ClientId) : Rehouses u (u.detach c) := by
  unfold Rehouses
  rw [housing_detach]
  exact .single (.evict c)

theorem report_rehouses (u : Upstream) (c : ClientId) (hashrate : ℚ) :
    Rehouses u (u.report c hashrate) := by
  by_cases hpos : 0 < hashrate
  · unfold Rehouses
    rcases housing_report u c hashrate with h | h
    · rw [h]
    · rw [h]
      exact .single (.reweigh c hashrate hpos.le)
  · rw [report, if_neg hpos]
    exact .of_eq rfl

theorem hangUp_rehouses (u : Upstream) (l : LinkId) : Rehouses u (u.hangUp l) := by
  unfold Rehouses
  rw [housing_hangUp]
  exact .single (.vacate l)

/-- Cutting a range and telling a miner about it leave the housing alone. -/
theorem grant_housing {l : LinkId} {c : ClientId} {r : Option Grant}
    (h : u.grant l c = (r, v)) : v.housing = u.housing := by
  have hcore := core_grant u l c
  rw [h] at hcore
  exact (core_eq hcore).1

theorem grant_rehouses {l : LinkId} {c : ClientId} {r : Option Grant}
    (h : u.grant l c = (r, v)) : Rehouses u v := .of_eq (grant_housing h)

theorem payload_rehouses {l : LinkId} {c : ClientId} {g : Grant} {p : Payload}
    (h : u.payload l c g = some (p, v)) : Rehouses u v := .of_core (core_payload h)

theorem finishAttach_rehouses (u : Upstream) (c : ClientId) (picked : Except String LinkId) :
    Rehouses u (u.finishAttach c picked).2 := by
  unfold finishAttach
  cases picked with
  | error message => exact detach_rehouses u c
  | ok l =>
    dsimp only
    split_ifs
    · have hhouse := house_rehouses u l c
      rcases hg : (u.house l c).grant l c with ⟨_ | g, v⟩
      · exact (hhouse.trans (grant_rehouses hg)).trans (detach_rehouses v c)
      · dsimp only
        cases hp : v.payload l c g with
        | none => exact (hhouse.trans (grant_rehouses hg)).trans (detach_rehouses v c)
        | some pw =>
          exact (hhouse.trans (grant_rehouses hg)).trans (payload_rehouses (p := pw.1) hp)
    · exact detach_rehouses u c

theorem finishMigrate_rehouses (u : Upstream) (source : LinkId) (c : ClientId)
    (picked : Except String LinkId) : Rehouses u (u.finishMigrate source c picked).2 := by
  have move : ∀ (v : Upstream) l, Rehouses v ((v.evict c).house l c) :=
    fun v l => (evict_rehouses v c).trans (house_rehouses _ l c)
  unfold finishMigrate
  cases picked with
  | error message => exact .of_eq rfl
  | ok l =>
    dsimp only
    split_ifs
    · rcases hg : ((u.evict c).house l c).grant l c with ⟨_ | g, v⟩
      · have hcut := (move u l).trans (grant_rehouses hg)
        dsimp only
        split_ifs
        · exact hcut.trans (move v source)
        · exact hcut
      · have hcut := (move u l).trans (grant_rehouses hg)
        dsimp only
        cases hp : v.payload l c g with
        | none => exact hcut
        | some pw =>
          have hpay : Rehouses v pw.2 := payload_rehouses (p := pw.1) hp
          exact (hcut.trans hpay).trans (.of_eq rfl)
    · exact .of_eq rfl

theorem finish_rehouses (u : Upstream) (t : Task) (picked : Except String LinkId) :
    Rehouses u (u.finish t picked) := by
  unfold finish
  cases t.goal with
  | attach => exact (finishAttach_rehouses u t.client picked).trans (attachDone_grows ..).rehouses
  | migrate source =>
    exact (finishMigrate_rehouses u source t.client picked).trans (.of_core (core_migrateDone ..))

theorem resume_rehouses {i : ℕ} (h : u.resume i = some v) : Rehouses u v := by
  obtain ⟨t, ht, h⟩ := Option.bind_eq_some_iff.mp h
  cases hphase : t.phase with
  | waiting l =>
    rw [hphase] at h
    dsimp only at h
    split_ifs at h
    rw [Option.some.injEq] at h
    exact h ▸ .of_eq (pick_stays u t.client _).housing
  | opening l roomiest =>
    rw [hphase] at h
    dsimp only at h
    split at h
    · rw [Option.some.injEq] at h
      exact h ▸ .of_eq (core_eq (core_reslice u)).1
    · rw [Option.some.injEq] at h
      exact h ▸ .of_eq rfl
    · cases h
  | picked l =>
    rw [hphase, Option.some.injEq] at h
    exact h ▸ finish_rehouses { u with tasks := u.tasks.eraseIdx i } t _
  | failed message =>
    rw [hphase, Option.some.injEq] at h
    exact h ▸ finish_rehouses { u with tasks := u.tasks.eraseIdx i } t _

theorem sweepLink_rehouses (u : Upstream) (l : LinkId) : Rehouses u (u.sweepLink l) := by
  have hidle : ∀ t, Rehouses u (u.setLink l fun k => { k with idle_at := t }) :=
    fun t => .of_eq (housing_setLink u l rfl rfl)
  unfold sweepLink
  dsimp only
  split_ifs
  · exact hidle u.now
  · exact hangUp_rehouses u l
  · exact .of_eq rfl
  · exact (hidle 0).trans (shed_stays l _ _ _).grows.rehouses

theorem lost_rehouses (u : Upstream) (l : LinkId) : Rehouses u (u.lost l) := by
  unfold lost
  dsimp only
  split_ifs
  · exact (hangUp_rehouses u l).trans (.of_eq (housing_setLink _ l rfl rfl))
  · exact hangUp_rehouses u l

theorem close_rehouses (u : Upstream) : Rehouses u u.close := by
  have hclose : u.close.housing = { u.housing with home := fun _ => none } := by
    have hclients : ∀ l, (u.close.link l).clients = (u.link l).clients := by
      intro l
      unfold close
      dsimp only
      split_ifs <;> rfl
    have hload : ∀ l, (u.close.link l).load = (u.link l).load := by
      intro l
      unfold close
      dsimp only
      split_ifs <;> rfl
    unfold housing
    simp only [hclients, hload]
    rfl
  unfold Rehouses
  rw [hclose]
  exact .single .leave

theorem step_rehouses {a : Action} (h : u.step a = some v) : Rehouses u v := by
  cases a with
  | attach call c =>
    rw [step, Option.some.injEq] at h
    exact h ▸ (attach_grows u c _).1.rehouses
  | detach c =>
    rw [step, Option.some.injEq] at h
    exact h ▸ detach_rehouses u c
  | report c hashrate =>
    rw [step, Option.some.injEq] at h
    exact h ▸ report_rehouses u c hashrate
  | chunk call c job_id =>
    rw [step, Option.some.injEq] at h
    exact h ▸ (chunk_stays u call c job_id).grows.rehouses
  | submit call c job_id nonce result =>
    obtain ⟨⟨l, w⟩, hw, rfl⟩ := Option.map_eq_some_iff.mp h
    exact .of_core (core_submit hw)
  | rejected stray =>
    rw [step, Option.some.injEq] at h
    exact h ▸ .of_core (core_rejected u stray)
  | resume i => exact resume_rehouses h
  | dialed l outcome =>
    simp only [step] at h
    split_ifs at h
    rw [Option.some.injEq] at h
    exact h ▸ (dialed_stays u l outcome).grows.rehouses
  | loggedIn l outcome =>
    simp only [step] at h
    split_ifs at h
    rw [Option.some.injEq] at h
    exact h ▸ (loggedIn_stays u l outcome).grows.rehouses
  | job l job =>
    simp only [step] at h
    split_ifs at h
    rw [Option.some.injEq] at h
    exact h ▸ (accept_stays u l job).grows.rehouses
  | lost l =>
    simp only [step] at h
    split_ifs at h
    rw [Option.some.injEq] at h
    exact h ▸ lost_rehouses u l
  | rebalance =>
    simp only [step] at h
    split_ifs at h
    rw [Option.some.injEq] at h
    exact h ▸ (Rehouses.foldl sweepLink_rehouses _ u).trans (consolidate_stays _).grows.rehouses
  | tick ms =>
    rw [step, Option.some.injEq] at h
    exact h ▸ .of_eq rfl
  | close =>
    rw [step, Option.some.injEq] at h
    exact h ▸ close_rehouses u

/-- In every state of every run, a link's load covers the rates of the miners at home on it. -/
theorem run_covers {maxLinks idleTimeout : ℕ} {expand : Bool} {now : ℕ} {client : ClientId → Client}
    {as : List Action} {u : Upstream}
    (hrun : exec step (start maxLinks idleTimeout expand now client) as = some u) :
      u.housing.Covers := by
  have hstart : (start maxLinks idleTimeout expand now client).housing.Covers := by
    refine ⟨fun c l hc => ?_, rate_nonneg _, fun l S hS => ?_⟩
    · cases hc
    · have hnone : S = ∅ := Finset.eq_empty_of_forall_notMem fun x hx => by cases hS x hx
      rw [hnone, Finset.sum_empty]
      exact le_rfl
  have hstep : ∀ (s : Upstream) (a : Action) (s' : Upstream), s.housing.Covers →
      s.step a = some s' → s'.housing.Covers := fun s a s' hs h => hs.changes (step_rehouses h)
  exact exec_preserves hstep hstart hrun

/-- In every state of every run, a link lists no miner twice. -/
theorem run_nodup {maxLinks idleTimeout : ℕ} {expand : Bool} {now : ℕ} {client : ClientId → Client}
    {as : List Action} {u : Upstream}
    (hrun : exec step (start maxLinks idleTimeout expand now client) as = some u) (l : LinkId) :
    (u.link l).clients.Nodup := by
  have hstep : ∀ (s : Upstream) (a : Action) (s' : Upstream), (∀ l, (s.housing.guests l).Nodup) →
      s.step a = some s' → ∀ l, (s'.housing.guests l).Nodup :=
    fun s a s' hs h => Housing.nodup_changes hs (step_rehouses h)
  have hstart : ∀ l, ((start maxLinks idleTimeout expand now client).housing.guests l).Nodup :=
    fun _ => List.nodup_nil
  exact exec_preserves hstep hstart hrun l

end Upstream

end NMiner
