import NMiner.Proofs.Stranded

/-! Who an upstream knows, as long as no link is lost. Apart from an `attach` that settles,
every event of an upstream is calm: it attaches and detaches nobody, houses only who is
attached, and keeps the `attach` calls under way. -/

namespace NMiner

namespace Upstream

/-- The client is attached or housed. -/
def Knows (u : Upstream) (c : ClientId) : Prop := c ∈ u.live ∨ u.homes c ≠ none

/-- The `attach` calls under way, by client and caller. -/
def roll (u : Upstream) : List (ClientId × Origin) :=
  (u.tasks.filter fun t => t.goal = .attach).map fun t => (t.client, t.origin)

structure Calm (u v : Upstream) : Prop where
  live : v.live = u.live
  homes : ∀ c, v.homes c ≠ none → u.Knows c
  roll : v.roll = u.roll
  /-- Nothing notable is delivered, unless it is the retirement of an upstream without miners. -/
  notices : ∀ d ∈ v.outbox, notable d = true → d ∈ u.outbox ∨ d = .retired ∧ v.live = ∅

theorem Calm.knows {u v : Upstream} (h : Calm u v) {c : ClientId} (hc : v.Knows c) : u.Knows c := by
  rcases hc with hc | hc
  · exact Or.inl (h.live ▸ hc)
  · exact h.homes c hc

theorem Calm.refl (u : Upstream) : Calm u u :=
  ⟨rfl, fun _ hc => Or.inr hc, rfl, fun _ hd _ => Or.inl hd⟩

theorem Calm.trans {u v w : Upstream} (h : Calm u v) (h' : Calm v w) : Calm u w := by
  refine ⟨h'.live.trans h.live, fun c hc => h.knows (h'.homes c hc), h'.roll.trans h.roll, ?_⟩
  intro d hd hn
  rcases h'.notices d hd hn with hv | hw
  · rcases h.notices d hv hn with hu | ⟨hr, hlive⟩
    · exact Or.inl hu
    · exact Or.inr ⟨hr, h'.live.trans hlive⟩
  · exact Or.inr hw

theorem Calm.foldl {α : Type*} {f : Upstream → α → Upstream} (hf : ∀ u a, Calm u (f u a))
    (as : List α) (u : Upstream) : Calm u (as.foldl f u) := by
  induction as generalizing u with
  | nil => exact .refl u
  | cons a as ih => exact (hf u a).trans (ih _)

theorem roll_append (ts ts' : List Task) : (((ts ++ ts').filter fun t => t.goal = .attach).map
    fun t => (t.client, t.origin)) = ((ts.filter fun t => t.goal = .attach).map
      fun t => (t.client, t.origin)) ++ ((ts'.filter fun t => t.goal = .attach).map
        fun t => (t.client, t.origin)) := by
  rw [List.filter_append, List.map_append]

theorem Stays.calm {u v : Upstream} (h : Stays u v) : Calm u v := by
  have hhomes : v.homes = u.homes := congrArg Housing.home h.housing
  obtain ⟨ts, hts, hall⟩ := h.tasks
  refine ⟨h.live, fun c hc => Or.inr (hhomes ▸ hc), ?_, ?_⟩
  · have hnone : ts.filter (fun t => t.goal = .attach) = [] :=
      List.filter_eq_nil_iff.mpr fun t ht => by simpa using hall t ht
    unfold roll
    rw [hts, roll_append, hnone]
    exact List.append_nil _
  · intro d hd hn
    have hmem : d ∈ v.outbox.filter notable := List.mem_filter.mpr ⟨hd, hn⟩
    rw [h.notices] at hmem
    exact Or.inl (List.mem_filter.mp hmem).1

theorem Calm.of_core {u v : Upstream} (h : v.core = u.core) : Calm u v := (Stays.of_core h).calm

theorem report_calm (u : Upstream) (c : ClientId) (hashrate : ℚ) :
    Calm u (u.report c hashrate) := by
  unfold report
  split_ifs
  · cases u.homes c <;> exact ⟨rfl, fun _ hc => Or.inr hc, rfl, fun _ hd _ => Or.inl hd⟩
  · exact .refl u

/-- A suspended call keeps its client, goal and caller when its phase changes. -/
theorem setPhase_calm {u : Upstream} {i : ℕ} {t : Task} (ht : u.tasks[i]? = some t)
    (phase : Phase) : Calm u (u.setPhase i t phase) := by
  refine ⟨rfl, fun _ hc => Or.inr hc, ?_, fun _ hd _ => Or.inl hd⟩
  obtain ⟨hlt, hget⟩ := List.getElem?_eq_some_iff.mp ht
  have hsplit : u.tasks = u.tasks.take i ++ t :: u.tasks.drop (i + 1) := by
    rw [← hget, ← List.drop_eq_getElem_cons hlt, List.take_append_drop]
  unfold roll setPhase
  dsimp only
  rw [List.set_eq_take_append_cons_drop, if_pos hlt]
  conv_rhs => rw [hsplit]
  rw [roll_append, roll_append, List.filter_cons, List.filter_cons]
  split_ifs <;> rfl

/-- The `attach` calls under way after one call has been continued. -/
theorem roll_eraseIdx {u : Upstream} {i : ℕ} {t : Task} (ht : u.tasks[i]? = some t) :
    (t.goal ≠ .attach → roll { u with tasks := u.tasks.eraseIdx i } = u.roll) ∧
      (t.goal = .attach →
        u.roll.Perm ((t.client, t.origin) :: roll { u with tasks := u.tasks.eraseIdx i })) := by
  obtain ⟨hlt, hget⟩ := List.getElem?_eq_some_iff.mp ht
  have hsplit : u.tasks = u.tasks.take i ++ t :: u.tasks.drop (i + 1) := by
    rw [← hget, ← List.drop_eq_getElem_cons hlt, List.take_append_drop]
  constructor
  · intro hgoal
    unfold roll
    dsimp only
    rw [List.eraseIdx_eq_take_drop_succ]
    conv_rhs => rw [hsplit]
    rw [roll_append, roll_append, List.filter_cons, if_neg (by simpa using hgoal)]
  · intro hgoal
    unfold roll
    dsimp only
    rw [List.eraseIdx_eq_take_drop_succ]
    conv_lhs => rw [hsplit]
    rw [roll_append, roll_append, List.filter_cons, if_pos (by simpa using hgoal), List.map_cons]
    exact List.perm_middle

/-! ### Moves -/

theorem Knows.of_live {u v : Upstream} {c x : ClientId} (hc : c ∈ u.live)
    (hhomes : x ≠ c → v.homes x = u.homes x) (hx : v.homes x ≠ none) : u.Knows x := by
  by_cases hxc : x = c
  · exact Or.inl (hxc ▸ hc)
  · exact Or.inr (hhomes hxc ▸ hx)

theorem house_calm {u : Upstream} {c : ClientId} (hc : c ∈ u.live) (l : LinkId) :
    Calm u (u.house l c) := by
  refine ⟨rfl, ?_, rfl, fun _ hd _ => Or.inl hd⟩
  intro x hx
  refine Knows.of_live hc (fun hxc => ?_) hx
  rw [house_homes, if_neg hxc]

theorem evict_calm (u : Upstream) (c : ClientId) : Calm u (u.evict c) := by
  obtain ⟨-, hlive, htasks⟩ := evict_frame u c
  have hout : (u.evict c).outbox = u.outbox := by
    unfold evict
    cases u.homes c <;> rfl
  refine ⟨hlive, ?_, ?_, fun d hd _ => Or.inl (hout ▸ hd)⟩
  · intro x hx
    by_cases hxc : x = c
    · rw [hxc, evict_homes] at hx
      exact absurd rfl hx
    · rw [evict_homes_of_ne u hxc] at hx
      exact Or.inr hx
  · unfold roll
    rw [htasks]

theorem finishMigrate_calm (u : Upstream) (source : LinkId) (c : ClientId)
    (picked : Except String LinkId) : Calm u (u.finishMigrate source c picked).2 := by
  have move : ∀ v : Upstream, c ∈ v.live → ∀ l, Calm v ((v.evict c).house l c) := by
    intro v hv l
    have hlive : c ∈ (v.evict c).live := by rwa [(evict_frame v c).2.1]
    exact (evict_calm v c).trans (house_calm hlive l)
  unfold finishMigrate
  cases picked with
  | error message => exact .refl u
  | ok l =>
    dsimp only
    split_ifs with hlive
    · have hgrant := core_grant ((u.evict c).house l c) l c
      rcases hg : ((u.evict c).house l c).grant l c with ⟨_ | g, v⟩
      · rw [hg] at hgrant
        have hv := (move u hlive l).trans (Calm.of_core hgrant)
        dsimp only
        split_ifs
        · exact hv.trans (move v (hv.live ▸ hlive) source)
        · exact hv
      · rw [hg] at hgrant
        have hv := (move u hlive l).trans (Calm.of_core hgrant)
        dsimp only
        cases hp : v.payload l c g with
        | none => exact hv
        | some pw =>
          exact hv.trans (.of_core ((core_emit _ rfl).trans (core_payload (p := pw.1) hp)))
    · exact .refl u

theorem emit_retired_calm {u : Upstream} (h : u.live = ∅) : Calm u (u.emit .retired) := by
  refine ⟨rfl, fun _ hc => Or.inr hc, rfl, ?_⟩
  intro d hd _
  rcases List.mem_append.mp hd with hd | hd
  · exact Or.inl hd
  · exact Or.inr ⟨List.mem_singleton.mp hd, h⟩

/-- Hanging up a link without miners. -/
theorem hangUp_calm {u : Upstream} {l : LinkId} (hempty : (u.link l).clients = []) :
    Calm u (u.hangUp l) := by
  have hclients : ((u.setLink l fun k => { k with plug := .shut }).link l).clients = [] := by
    change (Function.update u.link l _ l).clients = []
    rw [Function.update_self]
    exact hempty
  -- `v` is the state after the link is cut
  have key : ∀ v : Upstream, v.live = u.live → v.homes = u.homes → v.tasks = u.tasks →
      v.outbox = u.outbox → Calm u v := by
    intro v hlive hhomes htasks hout
    refine ⟨hlive, fun c hc => Or.inr (hhomes ▸ hc), ?_, fun d hd _ => Or.inl (hout ▸ hd)⟩
    unfold roll
    rw [htasks]
  have hcut : ∀ v : Upstream, v.live = u.live → v.homes = u.homes → v.tasks = u.tasks →
      v.outbox = u.outbox → Calm u v.reslice := fun v h1 h2 h3 h4 =>
    (key v h1 h2 h3 h4).trans (.of_core (core_reslice v))
  unfold hangUp sever
  dsimp only
  rw [hclients]
  have hhomes : (fun c => if c ∈ ([] : List ClientId) then none else
      (u.setLink l fun k => { k with plug := .shut }).homes c) = u.homes := by
    funext c
    simp [setLink]
  rw [hhomes]
  split_ifs with hend
  · refine Calm.trans ?_ (emit_retired_calm hend.2)
    exact hcut _ rfl rfl rfl rfl
  · exact hcut _ rfl rfl rfl rfl

theorem sweepLink_calm (u : Upstream) (l : LinkId) : Calm u (u.sweepLink l) := by
  unfold sweepLink
  dsimp only
  split_ifs with hempty
  · exact .of_core (by apply core_setLink <;> rfl)
  · exact hangUp_calm hempty
  · exact .refl u
  · refine ((setLink_stays u l ?_ ?_).trans (shed_stays l _ _ _)).calm <;> rfl

theorem rebalance_calm (u : Upstream) : Calm u u.rebalance :=
  (Calm.foldl sweepLink_calm u.links u).trans (consolidate_stays _).calm

/-! ### An `attach` begins and settles -/

theorem evict_outbox (u : Upstream) (c : ClientId) : (u.evict c).outbox = u.outbox := by
  unfold evict
  cases u.homes c <;> rfl

theorem detach_frame (u : Upstream) (c : ClientId) : (u.detach c).live = u.live.erase c ∧
    (u.detach c).roll = u.roll ∧ (u.detach c).outbox = u.outbox := by
  obtain ⟨-, hlive, htasks⟩ := evict_frame { u with live := u.live.erase c } c
  refine ⟨hlive, ?_, evict_outbox _ c⟩
  unfold roll detach
  dsimp only
  rw [htasks]

/-- A detached miner is forgotten, and no other. -/
theorem detach_knows (u : Upstream) (c x : ClientId) :
    (u.detach c).Knows x ↔ x ≠ c ∧ u.Knows x := by
  unfold Knows
  rw [(detach_frame u c).1, Finset.mem_erase]
  have hhomes : (u.detach c).homes x = if x = c then none else u.homes x := by
    change (evict { u with live := u.live.erase c } c).homes x = _
    split_ifs with hx
    · rw [hx, evict_homes]
    · exact evict_homes_of_ne _ hx
  rw [hhomes]
  by_cases hx : x = c <;> simp [hx]

theorem pick_frame (u : Upstream) (c : ClientId) (exclude : Option LinkId) :
    (u.pick c exclude).2.live = u.live ∧ (u.pick c exclude).2.homes = u.homes ∧
      (u.pick c exclude).2.outbox = u.outbox := by
  rcases pick_cases u c exclude with h | ⟨h, -⟩
  · rw [h]
    exact ⟨rfl, rfl, rfl⟩
  · rw [h]
    exact ⟨rfl, rfl, rfl⟩

theorem attach_frame (u : Upstream) (c : ClientId) (origin : Origin) :
    (u.attach c origin).live = insert c u.live ∧ (u.attach c origin).homes = u.homes ∧
      (u.attach c origin).roll = u.roll ++ [(c, origin)] ∧
        (u.attach c origin).outbox = u.outbox := by
  obtain ⟨hlive, hhomes, hout⟩ := pick_frame { u with live := insert c u.live } c none
  refine ⟨hlive, hhomes, ?_, hout⟩
  unfold roll attach launch
  dsimp only
  rw [pick_tasks, roll_append]
  rfl

theorem grant_outbox (u : Upstream) (l : LinkId) (c : ClientId) :
    (u.grant l c).2.outbox = u.outbox := by
  rcases grant_cases u l c with h | ⟨space, ⟨r, h, -⟩ | ⟨g, job, -, h⟩⟩
  · rw [h]
  · rw [h]
    rfl
  · rw [h]
    rfl

theorem payload_outbox {u v : Upstream} {l : LinkId} {c : ClientId} {range : Grant} {p : Payload}
    (h : u.payload l c range = some (p, v)) : v.outbox = u.outbox := by
  obtain ⟨job, -, h⟩ := Option.bind_eq_some_iff.mp h
  obtain ⟨w, -, h⟩ := Option.map_eq_some_iff.mp h
  rw [Prod.mk.injEq] at h
  rw [← h.2]
  rfl

/-- An `attach` call has settled: the miner is attached, or it is detached again. -/
structure Settles (u v : Upstream) (c : ClientId) (r : Except String Payload) : Prop where
  knows : ∀ x, v.Knows x → u.Knows x
  outbox : v.outbox = u.outbox
  roll : v.roll = u.roll
  live : v.live = u.live ∧ c ∈ u.live ∨ v.live = u.live.erase c ∧ ∀ p, r ≠ .ok p

theorem Settles.of_calm {u v w : Upstream} {c : ClientId} {r : Except String Payload}
    (h : Calm u v) (hout : v.outbox = u.outbox) (h' : Settles v w c r) : Settles u w c r := by
  refine ⟨fun x hx => h.knows (h'.knows x hx), h'.outbox.trans hout, h'.roll.trans h.roll, ?_⟩
  rw [← h.live]
  exact h'.live

theorem detach_settles (u : Upstream) (c : ClientId) (message : String) :
    Settles u (u.detach c) c (.error message) := by
  obtain ⟨hlive, hroll, hout⟩ := detach_frame u c
  exact ⟨fun x hx => ((detach_knows u c x).mp hx).2, hout, hroll, Or.inr ⟨hlive, by simp⟩⟩

theorem finishAttach_settles (u : Upstream) (c : ClientId) (picked : Except String LinkId) :
    Settles u (u.finishAttach c picked).2 c (u.finishAttach c picked).1 := by
  unfold finishAttach
  cases picked with
  | error message => exact detach_settles u c _
  | ok l =>
    dsimp only
    split_ifs with hlive
    · have hgrant := core_grant (u.house l c) l c
      have hout := grant_outbox (u.house l c) l c
      rcases hg : (u.house l c).grant l c with ⟨_ | g, v⟩
      · rw [hg] at hgrant hout
        have hv := (house_calm hlive l).trans (Calm.of_core hgrant)
        exact (detach_settles v c _).of_calm hv hout
      · rw [hg] at hgrant hout
        have hv := (house_calm hlive l).trans (Calm.of_core hgrant)
        dsimp only
        cases hp : v.payload l c g with
        | none => exact (detach_settles v c _).of_calm hv hout
        | some pw =>
          have hw := hv.trans (Calm.of_core (core_payload (p := pw.1) hp))
          have hwout : pw.2.outbox = u.outbox := (payload_outbox (p := pw.1) hp).trans hout
          exact ⟨fun x hx => hw.knows hx, hwout, hw.roll, Or.inl ⟨hw.live, hlive⟩⟩
    · exact detach_settles u c _

/-- A continued call is calm, unless it is an `attach` that settles. -/
theorem resume_cases {u v : Upstream} {i : ℕ} (h : u.resume i = some v) :
    Calm u v ∨ ∃ (c : ClientId) (o : Origin) (r : Except String Payload) (w : Upstream),
      v = w.attachDone c o r ∧ u.roll.Perm ((c, o) :: w.roll) ∧
        Settles { u with tasks := u.tasks.eraseIdx i } w c r := by
  obtain ⟨t, ht, h⟩ := Option.bind_eq_some_iff.mp h
  obtain ⟨hkeep, hperm⟩ := roll_eraseIdx ht
  have key : ∀ picked, Calm u (finish { u with tasks := u.tasks.eraseIdx i } t picked) ∨
      ∃ (c : ClientId) (o : Origin) (r : Except String Payload) (w : Upstream),
        finish { u with tasks := u.tasks.eraseIdx i } t picked = w.attachDone c o r ∧
          u.roll.Perm ((c, o) :: w.roll) ∧
            Settles { u with tasks := u.tasks.eraseIdx i } w c r := by
    intro picked
    unfold finish
    cases hgoal : t.goal with
    | attach =>
      have hsettles := finishAttach_settles { u with tasks := u.tasks.eraseIdx i } t.client picked
      exact Or.inr ⟨t.client, t.origin, _, _, rfl, hsettles.roll ▸ hperm hgoal, hsettles⟩
    | migrate source =>
      have hcut : Calm u { u with tasks := u.tasks.eraseIdx i } :=
        ⟨rfl, fun _ hc => Or.inr hc, hkeep (by rw [hgoal]; simp), fun _ hd _ => Or.inl hd⟩
      have hmove := finishMigrate_calm { u with tasks := u.tasks.eraseIdx i } source t.client picked
      exact Or.inl ((hcut.trans hmove).trans (.of_core (core_migrateDone ..)))
  cases hphase : t.phase with
  | waiting l =>
    rw [hphase] at h
    dsimp only at h
    split_ifs at h
    rw [Option.some.injEq] at h
    rw [← h]
    exact Or.inl ((pick_stays u _ _).calm.trans (setPhase_calm (by rw [pick_tasks, ht]) _))
  | opening l roomiest =>
    rw [hphase] at h
    dsimp only at h
    cases hopening : (u.link l).opening with
    | up =>
      rw [hopening] at h
      dsimp only at h
      rw [Option.some.injEq] at h
      rw [← h]
      have htasks := (core_eq (core_reslice u)).2.2.2.1
      exact Or.inl ((Calm.of_core (core_reslice u)).trans (setPhase_calm (by rw [htasks, ht]) _))
    | failed message =>
      rw [hopening] at h
      dsimp only at h
      rw [Option.some.injEq] at h
      rw [← h]
      have hcut : Calm u { u with links := u.links.erase l } :=
        ⟨rfl, fun _ hc => Or.inr hc, rfl, fun _ hd _ => Or.inl hd⟩
      exact Or.inl (hcut.trans (setPhase_calm (u := { u with links := u.links.erase l }) ht _))
    | idle => simp [hopening] at h
    | dialing => simp [hopening] at h
    | login => simp [hopening] at h
  | picked l =>
    rw [hphase] at h
    rw [Option.some.injEq] at h
    exact h ▸ key _
  | failed message =>
    rw [hphase] at h
    rw [Option.some.injEq] at h
    exact h ▸ key _

end Upstream

end NMiner
