import NMiner.Lib.Housing
import NMiner.Spec.Upstream

/-! What the operations of `Upstream` leave alone. The core of a state is the housing of the
miners, the list of links, who is attached, the suspended calls, how far each link has
come up, and the notable deliveries; cutting ranges, learning intervals, dealing out
slots and telling miners about jobs change none of it. -/

namespace NMiner

namespace Upstream

/-- Clients on links, as guests of hosts. -/
def housing (u : Upstream) : Housing LinkId ClientId ℚ :=
  { guests := fun l => (u.link l).clients, load := fun l => (u.link l).load, home := u.homes,
    weight := u.rate }

/-- The deliveries that change who is attached where: the outcome of a login's `attach`, and the
upstream's retirement. -/
def notable : Delivery → Bool
  | .attached _ _ => true
  | .retired => true
  | _ => false

structure Core where
  housing : Housing LinkId ClientId ℚ
  links : List LinkId
  live : Finset ClientId
  tasks : List Task
  closed : Bool
  opening : LinkId → Opening
  socket : LinkId → Bool
  notices : List Delivery

def core (u : Upstream) : Core :=
  { housing := u.housing, links := u.links, live := u.live, tasks := u.tasks, closed := u.closed,
    opening := fun l => (u.link l).opening, socket := fun l => (u.link l).socket,
    notices := u.outbox.filter notable }

/-- States with the same core agree on each of its parts. -/
theorem core_eq {u v : Upstream} (h : u.core = v.core) :
    u.housing = v.housing ∧ u.links = v.links ∧ u.live = v.live ∧ u.tasks = v.tasks ∧
      u.closed = v.closed ∧ ((fun l => (u.link l).opening) = fun l => (v.link l).opening) ∧
        ((fun l => (u.link l).socket) = fun l => (v.link l).socket) ∧
          u.outbox.filter notable = v.outbox.filter notable := by
  simpa only [core, Core.mk.injEq] using h

theorem update_proj {α β γ : Type*} [DecidableEq α] (g : α → β) (a : α) (b : β) (p : β → γ) :
    (fun x => p (Function.update g a b x)) = Function.update (fun x => p (g x)) a (p b) := by
  funext x
  by_cases hx : x = a
  · subst hx
    simp
  · simp [hx]

theorem update_proj_same {α β γ : Type*} [DecidableEq α] (g : α → β) (a : α) (b : β) (p : β → γ)
    (h : p b = p (g a)) : (fun x => p (Function.update g a b x)) = fun x => p (g x) := by
  rw [update_proj, h]
  exact Function.update_eq_self a fun x => p (g x)

/-- A change of a link that touches neither its clients nor its load. -/
theorem housing_setLink (u : Upstream) (l : LinkId) {f : Link → Link}
    (hclients : (f (u.link l)).clients = (u.link l).clients)
    (hload : (f (u.link l)).load = (u.link l).load) : (u.setLink l f).housing = u.housing := by
  unfold housing setLink rate
  simp only [update_proj_same u.link l _ Link.clients hclients,
    update_proj_same u.link l _ Link.load hload]

/-- A change of a link that also leaves its opening and its socket. -/
theorem core_setLink (u : Upstream) (l : LinkId) {f : Link → Link}
    (hclients : (f (u.link l)).clients = (u.link l).clients)
    (hload : (f (u.link l)).load = (u.link l).load)
    (hopening : (f (u.link l)).opening = (u.link l).opening)
    (hsocket : (f (u.link l)).socket = (u.link l).socket) : (u.setLink l f).core = u.core := by
  unfold core
  rw [housing_setLink u l hclients hload]
  unfold setLink
  simp only [update_proj_same u.link l _ Link.opening hopening,
    update_proj_same u.link l _ Link.socket hsocket]

theorem core_emit (u : Upstream) {d : Delivery} (h : notable d = false) :
    (u.emit d).core = u.core := by
  unfold core
  rw [show (u.emit d).outbox.filter notable = u.outbox.filter notable by
    simp [emit, List.filter_append, h]]
  rfl

@[simp] theorem core_record (u : Upstream) (c : ClientId) (l : LinkId) (job : StratumJob)
    (range : Grant) : (u.record c l job range).core = u.core := rfl

/-- Everything `grant` does: nothing, or a cut off the link's space, which is recorded when
there is a range and a job. -/
theorem grant_cases (u : Upstream) (l : LinkId) (c : ClientId) :
    u.grant l c = (none, u) ∨ ∃ space : NonceSpace,
      (∃ r, u.grant l c = (r, u.setLink l fun k => { k with space := space }) ∧
        (r = none ∨ (u.link l).job = none)) ∨
      ∃ g job, (u.link l).job = some job ∧
        u.grant l c =
          (some g, (u.setLink l fun k => { k with space := space }).record c l job g) := by
  unfold grant
  by_cases hleft : spaceLeft (u.link l).space ≤ 0
  · exact Or.inl (by rw [if_pos hleft])
  · right
    rw [if_neg hleft]
    dsimp only
    generalize chunkSize (u.rate c) _ _ = size
    refine ⟨(take (u.link l).space size).2, ?_⟩
    cases hr : (take (u.link l).space size).1 with
    | none => exact Or.inl ⟨none, rfl, Or.inl rfl⟩
    | some g => cases hj : (u.link l).job with
      | none => exact Or.inl ⟨some g, rfl, Or.inr rfl⟩
      | some job => exact Or.inr ⟨g, job, rfl, rfl⟩

theorem core_setSpace (u : Upstream) (l : LinkId) (space : NonceSpace) :
    (u.setLink l fun k => { k with space := space }).core = u.core := by
  apply core_setLink <;> rfl

@[simp] theorem core_grant (u : Upstream) (l : LinkId) (c : ClientId) :
    (u.grant l c).2.core = u.core := by
  rcases grant_cases u l c with h | ⟨space, ⟨r, h, -⟩ | ⟨g, job, -, h⟩⟩
  · rw [h]
  · rw [h]
    exact core_setSpace u l space
  · rw [h, core_record]
    exact core_setSpace u l space

theorem core_payload {u v : Upstream} {l : LinkId} {c : ClientId} {range : Grant} {p : Payload}
    (h : u.payload l c range = some (p, v)) : v.core = u.core := by
  obtain ⟨job, -, h⟩ := Option.bind_eq_some_iff.mp h
  obtain ⟨w, -, h⟩ := Option.map_eq_some_iff.mp h
  rw [Prod.mk.injEq] at h
  rw [← h.2]
  have hrate : (u.setClient c fun k => { k with vardiff := w }).rate = u.rate := by
    funext x
    unfold rate setClient rateOf
    rw [show ((Function.update u.client c { u.client c with vardiff := w }) x).hashrate =
      (u.client x).hashrate from congrFun
        (update_proj_same u.client c { u.client c with vardiff := w } Client.hashrate rfl) x]
  unfold core housing
  rw [hrate]
  rfl

/-- A fold of changes that keep the core keeps it. -/
theorem core_foldl {α : Type*} {f : Upstream → α → Upstream}
    (hf : ∀ u a, (f u a).core = u.core) (as : List α) (u : Upstream) :
    (as.foldl f u).core = u.core := by
  induction as generalizing u with
  | nil => rfl
  | cons a as ih => rw [List.foldl_cons, ih, hf]

@[simp] theorem core_observeInterval (u : Upstream) (l : LinkId) :
    (u.observeInterval l).core = u.core := by
  unfold observeInterval
  dsimp only
  split_ifs
  · rfl
  · rw [core_foldl]
    · apply core_setLink <;> rfl
    intro v m
    split_ifs
    · apply core_setLink <;> rfl
    · rfl
  · apply core_setLink <;> rfl

@[simp] theorem core_setJob (u : Upstream) (l : LinkId) (job : StratumJob) :
    (u.setJob l job).core = u.core := by
  unfold setJob
  apply core_setLink <;> rfl

@[simp] theorem core_reslice (u : Upstream) : u.reslice.core = u.core := by
  unfold reslice
  refine core_foldl (fun v _ => ?_) _ u
  apply core_setLink <;> rfl

theorem core_narrow (u : Upstream) : u.narrow.core = u.core := by
  unfold narrow
  split_ifs
  · refine (core_foldl (fun v m => ?_) _ _).trans rfl
    apply core_setLink <;> rfl
  · rfl

theorem core_rejected (u : Upstream) (stray : Bool) : (u.rejected stray).core = u.core := by
  unfold rejected
  dsimp only
  split_ifs
  · rw [core_narrow]
    rfl
  · rfl
  · rfl

theorem core_submit {u v : Upstream} {call : ℕ} {c : ClientId} {job_id nonce result : String}
    {l : LinkId} (h : u.submit call c job_id nonce result = some (l, v)) : v.core = u.core := by
  obtain ⟨m, -, h⟩ := Option.bind_eq_some_iff.mp h
  split_ifs at h
  all_goals
    simp only [Option.some.injEq, Prod.mk.injEq] at h
    rw [← h.2]
    exact core_emit _ rfl

theorem core_migrateDone (u : Upstream) (source : LinkId) (c : ClientId) (origin : Origin)
    (r : Except String Bool) : (u.migrateDone source c origin r).core = u.core := by
  unfold migrateDone
  split
  · exact core_emit _ rfl
  · exact core_emit _ rfl
  · exact core_emit _ rfl
  · exact core_emit _ rfl
  · rfl

/-! ### The sweep -/

/-- Start the migrations of these miners. -/
def drain (u : Upstream) (l : LinkId) (cs : List ClientId) : Upstream :=
  cs.foldl (fun u c => u.migrate l c .sweep) u

/-- The link that `consolidate` decides to drain. -/
def drains (u : Upstream) : Option LinkId :=
  if u.links.length < 2 then none
  else
    let staffed := u.links.filter fun l => (u.link l).job.isSome && (u.link l).clients ≠ []
    if staffed.length < 2 then none
    else
      let supply := (staffed.map fun l => (u.link l).capacity * SAFETY).sum
      let demand := (staffed.map fun l => (u.link l).load).sum
      match u.leastLoaded staffed with
      | none => none
      | some victim =>
        if supply - (u.link victim).capacity * SAFETY < demand * (12 / 10) then none
        else some victim

theorem consolidate_eq (u : Upstream) : u.consolidate = match u.drains with
    | none => u
    | some victim => u.drain victim (u.link victim).clients := by
  unfold consolidate drains
  split_ifs
  · rfl
  dsimp only
  split_ifs
  · rfl
  cases u.leastLoaded (u.links.filter fun l => (u.link l).job.isSome &&
    (u.link l).clients ≠ []) with
  | none => rfl
  | some victim =>
    dsimp only
    split_ifs
    · rfl
    · rfl

theorem consolidate_drain (u : Upstream) : ∃ l cs, u.consolidate = u.drain l cs := by
  rw [consolidate_eq]
  cases u.drains with
  | none => exact ⟨0, [], rfl⟩
  | some victim => exact ⟨victim, (u.link victim).clients, rfl⟩

theorem shed_drain (l : LinkId) (cs : List ClientId) (u : Upstream) (excess : ℚ) :
    ∃ cs', u.shed l excess cs = u.drain l cs' := by
  induction cs generalizing u excess with
  | nil => exact ⟨[], rfl⟩
  | cons c cs ih =>
    unfold shed
    split_ifs
    · exact ⟨[], rfl⟩
    · obtain ⟨cs', h⟩ := ih (u.migrate l c .sweep) (excess - u.rate c)
      exact ⟨c :: cs', h⟩

/-! ### Starting a call -/

/-- What `pick` may change: nothing, or one new link that is being dialed. -/
theorem pick_cases (u : Upstream) (c : ClientId) (exclude : Option LinkId) :
    (u.pick c exclude).2 = u ∨
      (u.pick c exclude).2 = u.addLink ∧
        (u.pick c exclude).1 = .opening u.nextLink (u.roomiest (u.usable exclude)) := by
  unfold pick
  split
  · exact Or.inl rfl
  dsimp only
  cases u.best (u.rate c) (u.usable exclude) with
  | some l => exact Or.inl rfl
  | none => cases u.links.find? fun l => (u.link l).opening.connecting with
    | some l => exact Or.inl rfl
    | none =>
      dsimp only
      split
      · cases u.roomiest (u.usable exclude) <;> exact Or.inl rfl
      · exact Or.inr ⟨rfl, rfl⟩

/-- The changes that migrations make up to their first `await`, and jobs and sockets without a
loss: nobody moves or is attached, links are only added, and so are suspended calls, all
of them migrations. -/
structure Stays (u v : Upstream) : Prop where
  housing : v.housing = u.housing
  links : u.links ⊆ v.links
  live : v.live = u.live
  tasks : ∃ ts, v.tasks = u.tasks ++ ts ∧ ∀ t ∈ ts, t.goal ≠ .attach
  notices : v.outbox.filter notable = u.outbox.filter notable

theorem Stays.of_core {u v : Upstream} (h : v.core = u.core) : Stays u v := by
  obtain ⟨hh, hl, hv, ht, -, -, -, ho⟩ := core_eq h
  exact ⟨hh, hl ▸ List.Subset.refl _, hv, ⟨[], by rw [List.append_nil, ht], by simp⟩, ho⟩

theorem Stays.trans {u v w : Upstream} (h : Stays u v) (h' : Stays v w) : Stays u w := by
  obtain ⟨ts, hts, hall⟩ := h.tasks
  obtain ⟨ts', hts', hall'⟩ := h'.tasks
  refine ⟨h'.housing.trans h.housing, List.Subset.trans h.links h'.links, h'.live.trans h.live,
    ⟨ts ++ ts', by rw [hts', hts, List.append_assoc], ?_⟩, h'.notices.trans h.notices⟩
  intro t ht
  rcases List.mem_append.mp ht with ht | ht
  · exact hall t ht
  · exact hall' t ht

theorem Stays.foldl {α : Type*} {f : Upstream → α → Upstream} (hf : ∀ u a, Stays u (f u a))
    (as : List α) (u : Upstream) : Stays u (as.foldl f u) := by
  induction as generalizing u with
  | nil => exact .of_core rfl
  | cons a as ih => exact (hf u a).trans (ih _)

theorem setLink_stays (u : Upstream) (l : LinkId) {f : Link → Link}
    (hclients : (f (u.link l)).clients = (u.link l).clients)
    (hload : (f (u.link l)).load = (u.link l).load) : Stays u (u.setLink l f) :=
  ⟨housing_setLink u l hclients hload, List.Subset.refl _, rfl,
    ⟨[], (List.append_nil _).symm, by simp⟩, rfl⟩

/-- A new link is being dialed and takes over estimates; the rest of it stays. -/
theorem freshLink_eq (u : Upstream) (k : Link) : u.freshLink k = { k with
    opening := .dialing
    interval := (u.freshLink k).interval
    interval_hi := (u.freshLink k).interval_hi } := by
  unfold freshLink
  split <;> rfl

theorem addLink_link (u : Upstream) (m : LinkId) :
    u.addLink.link m = if m = u.nextLink then u.freshLink (u.link u.nextLink) else u.link m :=
  Function.update_apply ..

theorem addLink_stays (u : Upstream) : Stays u u.addLink := by
  refine ⟨?_, List.subset_append_left _ _, rfl, ⟨[], (List.append_nil _).symm, by simp⟩, rfl⟩
  change (u.setLink u.nextLink u.freshLink).housing = u.housing
  apply housing_setLink
  all_goals rw [freshLink_eq]

/-- `pick` suspends nothing by itself. -/
theorem pick_tasks (u : Upstream) (c : ClientId) (exclude : Option LinkId) :
    (u.pick c exclude).2.tasks = u.tasks := by
  rcases pick_cases u c exclude with h | ⟨h, -⟩
  · rw [h]
  · rw [h]
    rfl

theorem pick_stays (u : Upstream) (c : ClientId) (exclude : Option LinkId) :
    Stays u (u.pick c exclude).2 := by
  rcases pick_cases u c exclude with h | ⟨h, -⟩
  · rw [h]
    exact .of_core rfl
  · rw [h]
    exact addLink_stays u

theorem migrate_stays (u : Upstream) (l : LinkId) (c : ClientId) (origin : Origin) :
    Stays u (u.migrate l c origin) := by
  obtain ⟨hh, hl, hv, -, ho⟩ := pick_stays u c (Goal.exclude (.migrate l))
  let t : Task :=
    { client := c, goal := .migrate l, origin := origin, phase := (u.pick c (some l)).1 }
  refine ⟨hh, hl, hv, ⟨[t], ?_, by simp [t]⟩, ho⟩
  change (u.pick c (some l)).2.tasks ++ [t] = u.tasks ++ [t]
  rw [pick_tasks]

theorem fanout_stays (l : LinkId) (cs : List ClientId) (u : Upstream) :
    Stays u (u.fanout l cs).2 := by
  induction cs generalizing u with
  | nil => exact .of_core rfl
  | cons c cs ih =>
    have hgrant := core_grant u l c
    unfold fanout
    rcases hg : u.grant l c with ⟨_ | g, v⟩
    · rw [hg] at hgrant
      exact ((Stays.of_core hgrant).trans (migrate_stays v l c .fanout)).trans (ih _)
    · rw [hg] at hgrant
      dsimp only
      cases hp : v.payload l c g with
      | none => exact .of_core hgrant
      | some pw =>
        have hpay : (pw.2.emit (.job c pw.1)).core = u.core :=
          (core_emit _ rfl).trans ((core_payload (p := pw.1) hp).trans hgrant)
        exact (Stays.of_core hpay).trans (ih _)

theorem accept_stays (u : Upstream) (l : LinkId) (job : StratumJob) :
    Stays u (u.accept l job).2 := by
  refine Stays.trans (.of_core ?_) (fanout_stays l _ _)
  rw [core_setJob, core_observeInterval]

theorem loggedIn_stays (u : Upstream) (l : LinkId) (outcome : Except String StratumJob) :
    Stays u (u.loggedIn l outcome) := by
  unfold loggedIn
  cases outcome with
  | error message => apply setLink_stays <;> rfl
  | ok job =>
    have hsocket : Stays u (u.setLink l fun k => { k with socket := true }) := by
      apply setLink_stays <;> rfl
    dsimp only
    split
    · refine hsocket.trans ?_
      apply setLink_stays <;> rfl
    · refine (hsocket.trans (accept_stays _ l job)).trans ?_
      apply setLink_stays <;> rfl

theorem dialed_stays (u : Upstream) (l : LinkId) (outcome : Except String Unit) :
    Stays u (u.dialed l outcome) := by
  unfold dialed
  cases outcome <;> apply setLink_stays <;> rfl

theorem drain_stays (u : Upstream) (l : LinkId) (cs : List ClientId) : Stays u (u.drain l cs) :=
  Stays.foldl (fun v c => migrate_stays v l c .sweep) cs u

theorem shed_stays (l : LinkId) (cs : List ClientId) (u : Upstream) (excess : ℚ) :
    Stays u (u.shed l excess cs) := by
  obtain ⟨cs', h⟩ := shed_drain l cs u excess
  exact h ▸ drain_stays u l cs'

theorem consolidate_stays (u : Upstream) : Stays u u.consolidate := by
  obtain ⟨l, cs, h⟩ := consolidate_drain u
  exact h ▸ drain_stays u l cs

theorem chunk_stays (u : Upstream) (call : ℕ) (c : ClientId) (job_id : String) :
    Stays u (u.chunk call c job_id) := by
  unfold chunk
  cases u.homes c with
  | none => exact .of_core (core_emit _ rfl)
  | some l =>
    dsimp only
    cases (u.link l).job with
    | none => exact .of_core (core_emit _ rfl)
    | some job =>
      have hgrant := core_grant u l c
      dsimp only
      split_ifs
      · exact .of_core (core_emit _ rfl)
      · rcases hg : u.grant l c with ⟨_ | g, v⟩
        · rw [hg] at hgrant
          exact (Stays.of_core hgrant).trans (migrate_stays v l c _)
        · rw [hg] at hgrant
          exact .of_core ((core_emit _ rfl).trans hgrant)

/-- The other calls stay suspended when one is continued. -/
theorem mem_eraseIdx_of_ne {ts : List Task} {i : ℕ} {t t' : Task} (ht : ts[i]? = some t)
    (ht' : t' ∈ ts) (hne : t' ≠ t) : t' ∈ ts.eraseIdx i := by
  obtain ⟨j, hj⟩ := List.mem_iff_getElem?.mp ht'
  refine List.mem_eraseIdx_iff_getElem?.mpr ⟨j, ?_, hj⟩
  rintro rfl
  exact hne (Option.some.inj (hj.symm.trans ht))

/-! ### Attaching -/

/-- An `attach` of the client is under way. -/
def Attaching (u : Upstream) (c : ClientId) : Prop :=
  ∃ t ∈ u.tasks, t.client = c ∧ t.goal = .attach

/-- The same with new `attach` calls: who becomes attached has one under way. -/
structure Grows (u v : Upstream) : Prop where
  housing : v.housing = u.housing
  links : u.links ⊆ v.links
  tasks : u.tasks ⊆ v.tasks
  live : ∀ c ∈ v.live, c ∈ u.live ∨ v.Attaching c

theorem Stays.grows {u v : Upstream} (h : Stays u v) : Grows u v := by
  obtain ⟨ts, hts, -⟩ := h.tasks
  exact ⟨h.housing, h.links, hts ▸ List.subset_append_left _ _, fun c hc => Or.inl (h.live ▸ hc)⟩

theorem Grows.of_core {u v : Upstream} (h : v.core = u.core) : Grows u v := (Stays.of_core h).grows

theorem Attaching.mono {u v : Upstream} {c : ClientId} (h : u.tasks ⊆ v.tasks)
    (hc : u.Attaching c) : v.Attaching c := by
  obtain ⟨t, ht, hcg⟩ := hc
  exact ⟨t, h ht, hcg⟩

theorem Grows.trans {u v w : Upstream} (h : Grows u v) (h' : Grows v w) : Grows u w := by
  refine ⟨h'.housing.trans h.housing, List.Subset.trans h.links h'.links,
    List.Subset.trans h.tasks h'.tasks, ?_⟩
  intro c hc
  rcases h'.live c hc with hv | ha
  · rcases h.live c hv with hu | ha
    · exact Or.inl hu
    · exact Or.inr (ha.mono h'.tasks)
  · exact Or.inr ha

/-- A launched `attach` is suspended, and besides changes what its `pick` changes. -/
theorem attach_grows (u : Upstream) (c : ClientId) (origin : Origin) :
    Grows u (u.attach c origin) ∧ (u.attach c origin).Attaching c := by
  obtain ⟨hh, hl, hv, -⟩ := pick_stays { u with live := insert c u.live } c none
  have htasks : u.tasks ⊆ (u.attach c origin).tasks := by
    change u.tasks ⊆ (pick { u with live := insert c u.live } c none).2.tasks ++ _
    rw [pick_tasks]
    exact List.subset_append_left _ _
  have hself : (u.attach c origin).Attaching c :=
    ⟨_, List.mem_append_right _ (List.mem_singleton_self _), rfl, rfl⟩
  refine ⟨⟨hh, hl, htasks, ?_⟩, hself⟩
  intro x hx
  change x ∈ (pick { u with live := insert c u.live } c none).2.live at hx
  rw [hv] at hx
  rcases Finset.mem_insert.mp hx with rfl | hx
  · exact Or.inr hself
  · exact Or.inl hx

/-- Attaching a list of miners leaves an `attach` under way for each of them. -/
theorem attach_all (cs : List ClientId) (u : Upstream) :
    Grows u (cs.foldl (fun u c => u.attach c .rehome) u) ∧
      ∀ c ∈ cs, (cs.foldl (fun u c => u.attach c .rehome) u).Attaching c := by
  induction cs generalizing u with
  | nil => exact ⟨.of_core rfl, by simp⟩
  | cons a cs ih =>
    obtain ⟨hgrow, hself⟩ := attach_grows u a .rehome
    obtain ⟨hrest, hall⟩ := ih (u.attach a .rehome)
    refine ⟨hgrow.trans hrest, ?_⟩
    intro c hc
    rcases List.mem_cons.mp hc with rfl | hc
    · exact hself.mono hrest.tasks
    · exact hall c hc

/-- What is delivered does not matter to who is where. -/
theorem emit_grows (u : Upstream) (d : Delivery) : Grows u (u.emit d) :=
  ⟨rfl, List.Subset.refl _, List.Subset.refl _, fun _ hc => Or.inl hc⟩

theorem attachDone_grows (u : Upstream) (c : ClientId) (origin : Origin)
    (r : Except String Payload) : Grows u (u.attachDone c origin r) := by
  unfold attachDone
  split
  · exact emit_grows u _
  · exact emit_grows u _
  · exact emit_grows u _
  · exact .of_core rfl

end Upstream

end NMiner
