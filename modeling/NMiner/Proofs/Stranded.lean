import NMiner.Proofs.Housing

/-! No miner is stranded. An attached miner always has a home or an `attach` under way; this
needs no condition. Its home is a listed link as long as miners are only housed on listed
links and a link that failed to open is only removed while it houses nobody. -/

namespace NMiner

open Transition

namespace Upstream

structure Seated (u : Upstream) : Prop where
  homed : u.housing.Homed
  listed : ∀ c l, u.homes c = some l → l ∈ u.links
  attended : ∀ c ∈ u.live, u.homes c ≠ none ∨ u.Attaching c

/-- With no call pending for it, an attached miner is homed on a listed link, and a link that is not
listed is nobody's home. -/
structure NotStranded (u : Upstream) : Prop where
  settled : ∀ c ∈ u.live, (∀ t ∈ u.tasks, t.client ≠ c) → ∃ l ∈ u.links, u.homes c = some l
  unlisted : ∀ l, l ∉ u.links → (∀ c, u.homes c ≠ some l)

theorem Seated.notStranded {u : Upstream} (hu : u.Seated) : u.NotStranded := by
  refine ⟨?_, fun l hl c hc => hl (hu.listed c l hc)⟩
  intro c hc hidle
  rcases hu.attended c hc with hhome | ⟨t, ht, htc, -⟩
  · obtain ⟨l, hl⟩ := Option.ne_none_iff_exists'.mp hhome
    exact ⟨l, hu.listed c l hl, hl⟩
  · exact absurd htc (hidle t ht)

theorem Grows.homes {u v : Upstream} (h : Grows u v) : v.homes = u.homes :=
  congrArg Housing.home h.housing

theorem Grows.seated {u v : Upstream} (h : Grows u v) (hu : u.Seated) : v.Seated := by
  refine ⟨?_, ?_, ?_⟩
  · rw [h.housing]
    exact hu.homed
  · intro c l hc
    rw [h.homes] at hc
    exact h.links (hu.listed c l hc)
  · intro c hc
    rw [h.homes]
    rcases h.live c hc with hl | ha
    · exact (hu.attended c hl).imp_right (Attaching.mono h.tasks)
    · exact Or.inr ha

/-! ### Homes of others -/

theorem house_homes (u : Upstream) (l : LinkId) (c x : ClientId) :
    (u.house l c).homes x = if x = c then some l else u.homes x := by
  change Function.update u.homes c (some l) x = _
  exact Function.update_apply ..

theorem evict_homes_of_ne (u : Upstream) {c x : ClientId} (h : x ≠ c) :
    (u.evict c).homes x = u.homes x := by
  unfold evict
  cases u.homes c with
  | none => rfl
  | some l => exact Function.update_of_ne h _ _

/-- `evict` only touches the housing. -/
theorem evict_frame (u : Upstream) (c : ClientId) : (u.evict c).links = u.links ∧
    (u.evict c).live = u.live ∧ (u.evict c).tasks = u.tasks := by
  unfold evict
  cases u.homes c with
  | none => exact ⟨rfl, rfl, rfl⟩
  | some l => exact ⟨rfl, rfl, rfl⟩

/-- Moving a miner closes and opens no socket. -/
theorem move_socket (u : Upstream) (l : LinkId) (c : ClientId) :
    (fun m => (((u.evict c).house l c).link m).socket) = fun m => (u.link m).socket := by
  have hhouse : ∀ v : Upstream, (fun m => ((v.house l c).link m).socket) =
      fun m => (v.link m).socket := fun v => update_proj_same v.link l _ Link.socket rfl
  rw [hhouse]
  unfold evict
  cases u.homes c with
  | none => rfl
  | some m => exact update_proj_same u.link m _ Link.socket rfl

theorem attended_of_tasks {u v : Upstream} {c : ClientId} (h : u.Attaching c)
    (ht : v.tasks = u.tasks) : v.Attaching c := h.mono (by rw [ht]; exact List.Subset.refl _)

/-- Everybody but one miner is attended to. -/
structure SeatedBut (u : Upstream) (c : ClientId) : Prop where
  homed : u.housing.Homed
  listed : ∀ x l, u.homes x = some l → l ∈ u.links
  attended : ∀ x ∈ u.live, x ≠ c → u.homes x ≠ none ∨ u.Attaching x

theorem Seated.but {u : Upstream} (hu : u.Seated) (c : ClientId) : u.SeatedBut c :=
  ⟨hu.homed, hu.listed, fun x hx _ => hu.attended x hx⟩

/-- Housing the miner on a listed link. -/
theorem house_seated {u : Upstream} {c : ClientId} (hu : u.SeatedBut c) {l : LinkId}
    (hl : l ∈ u.links) : (u.house l c).Seated := by
  refine ⟨?_, ?_, ?_⟩
  · rw [housing_house]
    exact Housing.house_homed hu.homed l c
  · intro x m hx
    rw [house_homes] at hx
    split_ifs at hx with hxc
    · rw [Option.some.injEq] at hx
      exact hx ▸ hl
    · exact hu.listed x m hx
  · intro x hx
    rw [house_homes]
    split_ifs with hxc
    · exact Or.inl (by simp)
    · exact (hu.attended x hx hxc).imp_right fun ha => attended_of_tasks ha rfl

theorem evict_but {u : Upstream} {c : ClientId} (hu : u.SeatedBut c) :
    (u.evict c).SeatedBut c := by
  obtain ⟨hlinks, hlive, htasks⟩ := evict_frame u c
  refine ⟨?_, ?_, ?_⟩
  · rw [housing_evict]
    exact Housing.evict_homed hu.homed c
  · intro x m hx
    rw [hlinks]
    by_cases hxc : x = c
    · rw [hxc, evict_homes] at hx
      exact absurd hx (by simp)
    · rw [evict_homes_of_ne u hxc] at hx
      exact hu.listed x m hx
  · intro x hx hxc
    rw [evict_homes_of_ne u hxc]
    exact (hu.attended x (hlive ▸ hx) hxc).imp_right fun ha => attended_of_tasks ha htasks

/-- Moving a miner to a listed link. -/
theorem move_seated {u : Upstream} (hu : u.Seated) {l : LinkId} (hl : l ∈ u.links)
    (c : ClientId) : ((u.evict c).house l c).Seated :=
  house_seated (evict_but (hu.but c)) ((evict_frame u c).1 ▸ hl)

/-- A detached miner needs no attention. -/
theorem detach_seated {u : Upstream} {c : ClientId} (hu : u.SeatedBut c) :
    (u.detach c).Seated := by
  have hout : ({ u with live := u.live.erase c } : Upstream).SeatedBut c := by
    refine ⟨hu.homed, hu.listed, ?_⟩
    intro x hx hxc
    exact hu.attended x (Finset.mem_of_mem_erase hx) hxc
  obtain ⟨hhomed, hlisted, hattended⟩ := evict_but hout
  obtain ⟨-, hlive, -⟩ := evict_frame { u with live := u.live.erase c } c
  refine ⟨hhomed, hlisted, ?_⟩
  intro x hx
  change x ∈ (evict { u with live := u.live.erase c } c).live at hx
  refine hattended x hx ?_
  rw [hlive] at hx
  exact (Finset.mem_erase.mp hx).1

/-! ### Losing a link -/

theorem sever_seated {u : Upstream} (hu : u.Seated) (l : LinkId) : (u.sever l).Seated := by
  -- `v` is the state before the orphans are attached again
  have key : ∀ v : Upstream, v.housing = u.housing.vacate l → v.links = u.links.erase l →
      v.live = u.live → v.tasks = u.tasks →
        ((u.link l).clients.foldl (fun u c => u.attach c .rehome) v.reslice).Seated := by
    intro v hhousing hlinks hlive htasks
    obtain ⟨hgrow, hall⟩ := attach_all (u.link l).clients v.reslice
    have hgrow := (Grows.of_core (core_reslice v)).trans hgrow
    have hhomes : ∀ x, v.homes x = if x ∈ (u.link l).clients then none else u.homes x :=
      fun x => congrFun (congrArg Housing.home hhousing) x
    refine ⟨?_, ?_, ?_⟩
    · rw [hgrow.housing, hhousing]
      exact Housing.vacate_homed hu.homed l
    · intro x m hx
      rw [hgrow.homes, hhomes] at hx
      split_ifs at hx with hxl
      apply hgrow.links
      rw [hlinks, List.mem_erase_of_ne]
      · exact hu.listed x m hx
      · intro hm
        exact hxl (hm ▸ hu.homed x m hx)
    · intro x hx
      rw [hgrow.homes, hhomes]
      by_cases hxl : x ∈ (u.link l).clients
      · exact Or.inr (hall x hxl)
      · rw [if_neg hxl]
        rcases hgrow.live x hx with hx | ha
        · refine (hu.attended x (hlive ▸ hx)).imp_right fun ha => ?_
          exact (attended_of_tasks ha htasks).mono hgrow.tasks
        · exact Or.inr ha
  have hvacate : ({ u.setLink l (fun k => { k with
      job := none, socket := false, load := 0, clients := [] }) with
      links := u.links.erase l
      homes := fun c => if c ∈ (u.link l).clients then none else u.homes c } : Upstream).housing =
        u.housing.vacate l := by
    unfold housing setLink Housing.vacate rate
    simp only [update_proj]
  unfold sever
  dsimp only
  split_ifs
  · exact (emit_grows _ _).seated (key _ hvacate rfl rfl rfl)
  · exact key _ hvacate rfl rfl rfl

theorem hangUp_seated {u : Upstream} (hu : u.Seated) (l : LinkId) : (u.hangUp l).Seated := by
  refine sever_seated ((setLink_stays u l ?_ ?_).grows.seated hu) l <;> rfl

/-! ### Continuations -/

theorem attaching_eraseIdx {u : Upstream} {i : ℕ} {t : Task} (ht : u.tasks[i]? = some t)
    {x : ClientId} (hx : u.Attaching x) (hne : t.client ≠ x ∨ t.goal ≠ .attach) :
    Attaching { u with tasks := u.tasks.eraseIdx i } x := by
  obtain ⟨t', ht', hclient, hgoal⟩ := hx
  refine ⟨t', mem_eraseIdx_of_ne ht ht' ?_, hclient, hgoal⟩
  rintro rfl
  rcases hne with h | h
  · exact h hclient
  · exact h hgoal

/-- A suspended call stays one when its phase changes. -/
theorem setPhase_seated {u : Upstream} (hu : u.Seated) {i : ℕ} {t : Task}
    (ht : u.tasks[i]? = some t) (phase : Phase) : (u.setPhase i t phase).Seated := by
  refine ⟨hu.homed, hu.listed, ?_⟩
  intro x hx
  refine (hu.attended x hx).imp_right ?_
  rintro ⟨t', ht', hclient, hgoal⟩
  obtain ⟨j, hj⟩ := List.mem_iff_getElem?.mp ht'
  by_cases hij : i = j
  · subst hij
    rw [ht, Option.some.injEq] at hj
    refine ⟨{ t with phase := phase }, List.mem_iff_getElem?.mpr ⟨i, ?_⟩, hj ▸ hclient, hj ▸ hgoal⟩
    obtain ⟨hlt, -⟩ := List.getElem?_eq_some_iff.mp ht
    exact List.getElem?_set_self hlt
  · refine ⟨t', List.mem_iff_getElem?.mpr ⟨j, ?_⟩, hclient, hgoal⟩
    exact (List.getElem?_set_ne hij).trans hj

theorem finishAttach_seated {u : Upstream} {c : ClientId} (hu : u.SeatedBut c)
    {picked : Except String LinkId} (hl : ∀ l, picked = .ok l → c ∈ u.live → l ∈ u.links) :
    (u.finishAttach c picked).2.Seated := by
  unfold finishAttach
  cases picked with
  | error message => exact detach_seated hu
  | ok l =>
    dsimp only
    split_ifs with hlive
    · have hhouse := house_seated hu (hl l rfl hlive)
      have hgrant := core_grant (u.house l c) l c
      rcases hg : (u.house l c).grant l c with ⟨_ | g, v⟩
      · rw [hg] at hgrant
        exact detach_seated (((Grows.of_core hgrant).seated hhouse).but c)
      · rw [hg] at hgrant
        have hv := (Grows.of_core hgrant).seated hhouse
        dsimp only
        cases hp : v.payload l c g with
        | none => exact detach_seated (hv.but c)
        | some pw => exact (Grows.of_core (core_payload (p := pw.1) hp)).seated hv
    · exact detach_seated hu

theorem finishMigrate_seated {u : Upstream} (hu : u.Seated) {source : LinkId} {c : ClientId}
    {picked : Except String LinkId}
    (hl : ∀ l, picked = .ok l → c ∈ u.live →
      l ∈ u.links ∧ ((u.link source).socket = true → source ∈ u.links)) :
    (u.finishMigrate source c picked).2.Seated := by
  unfold finishMigrate
  cases picked with
  | error message => exact hu
  | ok l =>
    dsimp only
    split_ifs with hlive
    · obtain ⟨hlisted, hsource⟩ := hl l rfl hlive
      have hmove := move_seated hu hlisted c
      have hgrant := core_grant ((u.evict c).house l c) l c
      rcases hg : ((u.evict c).house l c).grant l c with ⟨_ | g, v⟩
      · rw [hg] at hgrant
        have hv := (Grows.of_core hgrant).seated hmove
        obtain ⟨-, hlinks, -, -, -, -, hsocket, -⟩ := core_eq hgrant
        rw [move_socket] at hsocket
        dsimp only
        split_ifs with hopen
        · refine move_seated hv ?_ c
          rw [hlinks]
          change source ∈ (u.evict c).links
          rw [(evict_frame u c).1]
          exact hsource ((congrFun hsocket source).symm.trans hopen)
        · exact hv
      · rw [hg] at hgrant
        have hv := (Grows.of_core hgrant).seated hmove
        dsimp only
        cases hp : v.payload l c g with
        | none => exact hv
        | some pw =>
          exact (Grows.of_core ((core_emit _ rfl).trans (core_payload (p := pw.1) hp))).seated hv
    · exact hu

/-! ### Runs -/

/-- The condition: a miner is only housed on a listed link, and a link that failed to open is
only removed while it houses nobody. -/
def housesListed (u : Upstream) : Action → Bool
  | .resume i => match u.tasks[i]? with
    | none => true
    | some t => match t.phase with
      | .picked l => t.client ∉ u.live || (l ∈ u.links &&
          match t.goal with
          | .attach => true
          | .migrate source => !(u.link source).socket || source ∈ u.links)
      | .opening l _ => match (u.link l).opening with
        | .failed _ => (u.link l).clients = []
        | _ => true
      | _ => true
  | _ => true

/-- The continuation of the `i`th call with its link picked, or with the error. -/
theorem finish_seated {u : Upstream} (hu : u.Seated) {i : ℕ} {t : Task}
    (ht : u.tasks[i]? = some t) {picked : Except String LinkId}
    (hl : ∀ l, picked = .ok l → t.client ∈ u.live → l ∈ u.links ∧
      ∀ source, t.goal = .migrate source → (u.link source).socket = true → source ∈ u.links) :
    (finish { u with tasks := u.tasks.eraseIdx i } t picked).Seated := by
  unfold finish
  cases hgoal : t.goal with
  | attach =>
    refine (attachDone_grows ..).seated (finishAttach_seated ?_ ?_)
    · refine ⟨hu.homed, hu.listed, ?_⟩
      intro x hx hxc
      exact (hu.attended x hx).imp_right fun ha => attaching_eraseIdx ht ha (Or.inl (Ne.symm hxc))
    · intro l hp hlive
      exact (hl l hp hlive).1
  | migrate source =>
    refine (Grows.of_core (core_migrateDone ..)).seated (finishMigrate_seated ?_ ?_)
    · refine ⟨hu.homed, hu.listed, ?_⟩
      intro x hx
      refine (hu.attended x hx).imp_right fun ha => attaching_eraseIdx ht ha (Or.inr ?_)
      rw [hgoal]
      simp
    · intro l hp hlive
      exact ⟨(hl l hp hlive).1, (hl l hp hlive).2 source hgoal⟩

theorem resume_seated {u v : Upstream} {i : ℕ} (hu : u.Seated)
    (hg : u.housesListed (.resume i) = true) (h : u.resume i = some v) : v.Seated := by
  obtain ⟨t, ht, h⟩ := Option.bind_eq_some_iff.mp h
  simp only [housesListed, ht] at hg
  cases hphase : t.phase with
  | waiting l =>
    rw [hphase] at h
    dsimp only at h
    split_ifs at h
    rw [Option.some.injEq] at h
    rw [← h]
    exact setPhase_seated ((pick_stays u _ _).grows.seated hu) (by rw [pick_tasks, ht]) _
  | opening l roomiest =>
    rw [hphase] at h hg
    dsimp only at h hg
    cases hopening : (u.link l).opening with
    | up =>
      rw [hopening] at h
      dsimp only at h
      rw [Option.some.injEq] at h
      rw [← h]
      have htasks := (core_eq (core_reslice u)).2.2.2.1
      exact setPhase_seated ((Grows.of_core (core_reslice u)).seated hu) (by rw [htasks, ht]) _
    | failed message =>
      rw [hopening] at h hg
      dsimp only at h hg
      rw [Option.some.injEq] at h
      rw [← h]
      have hempty : (u.link l).clients = [] := of_decide_eq_true hg
      have hcut : Seated { u with links := u.links.erase l } := by
        refine ⟨hu.homed, ?_, hu.attended⟩
        intro c m hc
        refine (List.mem_erase_of_ne ?_).mpr (hu.listed c m hc)
        rintro rfl
        have hmem : c ∈ (u.link m).clients := hu.homed c m hc
        rw [hempty] at hmem
        exact absurd hmem (by simp)
      exact setPhase_seated hcut ht _
    | idle => simp [hopening] at h
    | dialing => simp [hopening] at h
    | login => simp [hopening] at h
  | picked l =>
    rw [hphase] at h hg
    rw [Option.some.injEq] at h
    rw [← h]
    refine finish_seated hu ht ?_
    intro m hm hlive
    rw [Except.ok.injEq] at hm
    subst hm
    simp only [Bool.or_eq_true, Bool.and_eq_true, decide_eq_true_eq] at hg
    obtain ⟨hlisted, hsource⟩ := hg.resolve_left fun hn => hn hlive
    refine ⟨hlisted, ?_⟩
    intro source hgoal hopen
    rw [hgoal] at hsource
    simpa [hopen] using hsource
  | failed message =>
    rw [hphase] at h
    rw [Option.some.injEq] at h
    rw [← h]
    refine finish_seated hu ht ?_
    intro m hm
    exact absurd hm (by simp)

theorem sweepLink_seated (u : Upstream) (l : LinkId) (hu : u.Seated) : (u.sweepLink l).Seated := by
  unfold sweepLink
  dsimp only
  split
  · split
    · refine (setLink_stays u l ?_ ?_).grows.seated hu <;> rfl
    · split
      · exact hangUp_seated hu l
      · exact hu
  · refine (shed_stays l _ _ _).grows.seated ?_
    refine (setLink_stays u l ?_ ?_).grows.seated hu <;> rfl

theorem foldl_seated {α : Type*} {f : Upstream → α → Upstream}
    (hf : ∀ u a, u.Seated → (f u a).Seated) (as : List α) {u : Upstream} (hu : u.Seated) :
    (as.foldl f u).Seated := by
  induction as generalizing u with
  | nil => exact hu
  | cons a as ih => exact ih (hf u a hu)

theorem report_seated {u : Upstream} (hu : u.Seated) (c : ClientId) (hashrate : ℚ) :
    (u.report c hashrate).Seated := by
  have hframe : (u.report c hashrate).links = u.links ∧ (u.report c hashrate).live = u.live ∧
      (u.report c hashrate).tasks = u.tasks ∧ (u.report c hashrate).homes = u.homes := by
    unfold report
    split_ifs
    · cases u.homes c <;> exact ⟨rfl, rfl, rfl, rfl⟩
    · exact ⟨rfl, rfl, rfl, rfl⟩
  obtain ⟨hlinks, hlive, htasks, hhomes⟩ := hframe
  refine ⟨?_, ?_, ?_⟩
  · rcases housing_report u c hashrate with h | h
    · rw [h]
      exact hu.homed
    · rw [h]
      exact Housing.reweigh_homed hu.homed c hashrate
  · rw [hhomes, hlinks]
    exact hu.listed
  · rw [hhomes, hlive]
    intro x hx
    exact (hu.attended x hx).imp_right fun ha => attended_of_tasks ha htasks

theorem step_seated (u : Upstream) (a : Action) (v : Upstream) (hu : u.Seated)
    (hg : u.housesListed a = true) (h : u.step a = some v) : v.Seated := by
  cases a with
  | attach call c =>
    rw [step, Option.some.injEq] at h
    exact h ▸ (attach_grows u c _).1.seated hu
  | detach c =>
    rw [step, Option.some.injEq] at h
    exact h ▸ detach_seated (hu.but c)
  | report c hashrate =>
    rw [step, Option.some.injEq] at h
    exact h ▸ report_seated hu c hashrate
  | chunk call c job_id =>
    rw [step, Option.some.injEq] at h
    exact h ▸ (chunk_stays u call c job_id).grows.seated hu
  | submit call c job_id nonce result =>
    obtain ⟨⟨l, w⟩, hw, rfl⟩ := Option.map_eq_some_iff.mp h
    exact (Grows.of_core (core_submit hw)).seated hu
  | rejected stray =>
    rw [step, Option.some.injEq] at h
    exact h ▸ (Grows.of_core (core_rejected u stray)).seated hu
  | resume i => exact resume_seated hu hg h
  | dialed l outcome =>
    simp only [step] at h
    split_ifs at h
    rw [Option.some.injEq] at h
    exact h ▸ (dialed_stays u l outcome).grows.seated hu
  | loggedIn l outcome =>
    simp only [step] at h
    split_ifs at h
    rw [Option.some.injEq] at h
    exact h ▸ (loggedIn_stays u l outcome).grows.seated hu
  | job l job =>
    simp only [step] at h
    split_ifs at h
    rw [Option.some.injEq] at h
    exact h ▸ (accept_stays u l job).grows.seated hu
  | lost l =>
    simp only [step] at h
    split_ifs at h
    rw [Option.some.injEq] at h
    rw [← h]
    unfold lost
    dsimp only
    split_ifs
    · refine (setLink_stays _ l ?_ ?_).grows.seated (hangUp_seated hu l) <;> rfl
    · exact hangUp_seated hu l
  | rebalance =>
    simp only [step] at h
    split_ifs at h
    rw [Option.some.injEq] at h
    exact h ▸ (consolidate_stays _).grows.seated (foldl_seated sweepLink_seated _ hu)
  | tick ms =>
    rw [step, Option.some.injEq] at h
    exact h ▸ ⟨hu.homed, hu.listed, hu.attended⟩
  | close =>
    rw [step, Option.some.injEq] at h
    subst h
    refine ⟨?_, ?_, ?_⟩
    · intro c l hc
      exact absurd hc (by simp [housing, close])
    · intro c l hc
      exact absurd hc (by simp [close])
    · intro c hc
      exact absurd hc (by simp [close])

/-- In every state that a guarded run reaches, an attached miner with no call pending is homed on
a listed link, and no unlisted link is a miner's home. -/
theorem none_stranded (maxLinks idleTimeout : ℕ) (expand : Bool) (now : ℕ)
    (client : ClientId → Client)
    (actions : List Action) (u : Upstream)
    (hguard : Meets step (fun u a => u.housesListed a = true)
      (start maxLinks idleTimeout expand now client)
      actions) (hrun : exec step (start maxLinks idleTimeout expand now client) actions = some u) :
    u.NotStranded := by
  have hstart : (start maxLinks idleTimeout expand now client).Seated :=
    ⟨by simp [Housing.Homed, housing, start], by simp [start], by simp [start]⟩
  exact (exec_invariant step_seated hstart hguard hrun).notStranded

/-- Two miners on a link that is lost: both are attached again on a second one. -/
theorem none_stranded_rehomed : ∃ u,
    exec step (start 64 300000 false 1000 fun _ =>
      { hashrate := 1000, vardiff := VarDiff.new 1000 1000 })
      [.attach 0 0, .dialed 0 (.ok ()), .loggedIn 0 (.ok plainJob), .resume 0, .resume 0,
        .attach 1 1, .resume 0, .lost 0, .dialed 1 (.ok ()), .job 1 plainJob,
        .loggedIn 1 (.ok plainJob), .resume 1, .resume 1, .resume 0, .resume 0] = some u ∧
          u.NotStranded :=
  exists_exec (by decide +kernel) fun u h =>
    none_stranded 64 300000 false 1000 _ _ u (by decide +kernel) h

/-- A job arrives before the pool's login reply and a second miner is placed on the link; then the
login fails, the link is removed, and the miner stays homed on it. -/
theorem stranded_by_failed_login : ¬ ∀ u,
    exec step (start 64 300000 false 1000 fun _ =>
      { hashrate := 1000, vardiff := VarDiff.new 1000 1000 })
      [.attach 0 0, .dialed 0 (.ok ()), .job 0 plainJob, .attach 1 1, .resume 1,
        .loggedIn 0 (.error "Invalid address"), .resume 0, .resume 0] = some u →
      u.NotStranded := by
  intro h
  have hrun : (exec step
      (start 64 300000 false 1000 fun _ => { hashrate := 1000, vardiff := VarDiff.new 1000 1000 })
      [.attach 0 0, .dialed 0 (.ok ()), .job 0 plainJob, .attach 1 1, .resume 1,
        .loggedIn 0 (.error "Invalid address"), .resume 0, .resume 0]).map
      (fun u => (u.links, u.homes 1)) = some ([], some 0) := by decide +kernel
  obtain ⟨u, hu, hstate⟩ := Option.map_eq_some_iff.mp hrun
  rw [Prod.mk.injEq] at hstate
  exact (h u hu).unlisted 0 (by rw [hstate.1]; simp) 1 hstate.2

end Upstream

end NMiner
