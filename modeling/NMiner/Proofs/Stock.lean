import NMiner.Proofs.Stints

/-! What the operations of an upstream do to the spare slots of its links and to the record of
ranges. Spare slots are dealt out anew or kept, the expansion is only ever switched off, and a range
goes on record for the job of the link whose space it is cut off. -/

namespace NMiner

/-- Different values of a nonce's top byte. -/
def Spare (extra : List ℤ) : Prop := extra.Nodup ∧ ∀ b ∈ extra, 0 ≤ b ∧ b < NICEHASH_SLOTS

theorem spare_nil : Spare [] := ⟨List.nodup_nil, List.forall_mem_nil _⟩

namespace Upstream

/-- The ranges that go on record are as described. -/
structure Deals (P : Issued → Prop) (u v : Upstream) : Prop where
  spare : ∀ l, (v.link l).extra = (u.link l).extra ∨ Spare (v.link l).extra
  expand : v.expand = true → u.expand = true
  issued : ∀ c, ∃ rs, v.issued c = u.issued c ++ rs ∧ ∀ r ∈ rs, P r

variable {P Q : Issued → Prop} {u v w : Upstream}

theorem Deals.of_same (hextra : ∀ l, (v.link l).extra = (u.link l).extra)
    (hexpand : v.expand = u.expand) (hissued : v.issued = u.issued) : Deals P u v :=
  ⟨fun l => .inl (hextra l), fun h => hexpand ▸ h, fun c =>
    ⟨[], by rw [hissued, List.append_nil], List.forall_mem_nil _⟩⟩

theorem Deals.refl (u : Upstream) : Deals P u u := .of_same (fun _ => rfl) rfl rfl

theorem Deals.trans (h : Deals P u v) (h' : Deals P v w) : Deals P u w := by
  refine ⟨fun l => ?_, fun hw => h.expand (h'.expand hw), fun c => ?_⟩
  · rcases h'.spare l with heq | hspare
    · rw [heq]
      exact h.spare l
    · exact .inr hspare
  · obtain ⟨rs, hrs, hP⟩ := h.issued c
    obtain ⟨rs', hrs', hP'⟩ := h'.issued c
    refine ⟨rs ++ rs', by rw [hrs', hrs, List.append_assoc], fun r hr => ?_⟩
    rcases List.mem_append.mp hr with hr | hr
    · exact hP r hr
    · exact hP' r hr

theorem Deals.mono (h : Deals P u v) (himp : ∀ r, P r → Q r) : Deals Q u v := by
  refine ⟨h.spare, h.expand, fun c => ?_⟩
  obtain ⟨rs, hrs, hP⟩ := h.issued c
  exact ⟨rs, hrs, fun r hr => himp r (hP r hr)⟩

theorem Deals.foldl {α : Type*} {f : Upstream → α → Upstream} (hf : ∀ u a, Deals P u (f u a))
    (as : List α) (u : Upstream) : Deals P u (as.foldl f u) := by
  induction as generalizing u with
  | nil => exact .refl u
  | cons a as ih => exact (hf u a).trans (ih _)

/-! ### What is new on record -/

/-- The ranges that have gone on record for a miner since a state. -/
def since (u v : Upstream) (c : ClientId) : List Issued := (v.issued c).drop (u.issued c).length

theorem Deals.since (h : Deals P u v) {c : ClientId} :
    ∀ r ∈ u.since v c, P r := by
  obtain ⟨rs, hrs, hP⟩ := h.issued c
  rw [Upstream.since, hrs, List.drop_left]
  exact hP

theorem since_trans (h : Deals P u v) (h' : Deals Q v w) (c : ClientId) :
    u.since w c = u.since v c ++ v.since w c := by
  obtain ⟨rs, hrs, -⟩ := h.issued c
  obtain ⟨rs', hrs', -⟩ := h'.issued c
  rw [since, since, since, hrs', List.drop_left, hrs, List.append_assoc, List.drop_left,
    List.drop_left]

/-- Ranges that have gone on record are there for good. -/
theorem Deals.mem (h : Deals P u v) (h' : Deals Q v w) {c : ClientId}
    {r : Issued} (hr : r ∈ u.since v c) : r ∈ u.since w c :=
  since_trans h h' c ▸ List.mem_append_left _ hr

/-! ### Operations that cut no range -/

theorem extra_update {l : LinkId} {k : Link} (hlink : v.link = Function.update u.link l k)
    (h : k.extra = (u.link l).extra) (m : LinkId) : (v.link m).extra = (u.link m).extra := by
  rw [hlink]
  exact congrFun (update_proj_same u.link l k Link.extra h) m

theorem setLink_deals (u : Upstream) (l : LinkId) {f : Link → Link}
    (h : (f (u.link l)).extra = (u.link l).extra) : Deals P u (u.setLink l f) :=
  .of_same (extra_update rfl h) rfl rfl

theorem setClient_deals (u : Upstream) (c : ClientId) (f : Client → Client) :
    Deals P u (u.setClient c f) := .of_same (fun _ => rfl) rfl rfl

theorem emit_deals (u : Upstream) (d : Delivery) : Deals P u (u.emit d) :=
  .of_same (fun _ => rfl) rfl rfl

theorem house_deals (u : Upstream) (l : LinkId) (c : ClientId) : Deals P u (u.house l c) :=
  .of_same (extra_update rfl rfl) rfl rfl

theorem evict_deals (u : Upstream) (c : ClientId) : Deals P u (u.evict c) := by
  unfold evict
  cases u.homes c with
  | none => exact .refl u
  | some l => exact .of_same (extra_update rfl rfl) rfl rfl

theorem detach_deals (u : Upstream) (c : ClientId) : Deals P u (u.detach c) := by
  have hlive : Deals P u { u with live := u.live.erase c } := .of_same (fun _ => rfl) rfl rfl
  exact (hlive.trans (evict_deals _ c)).trans (.of_same (fun _ => rfl) rfl rfl)

theorem report_deals (u : Upstream) (c : ClientId) (hashrate : ℚ) :
    Deals P u (u.report c hashrate) := by
  unfold report
  split_ifs
  · cases u.homes c with
    | none => exact setClient_deals u c _
    | some l => exact (setLink_deals u l rfl).trans (setClient_deals _ c _)
  · exact .refl u

theorem addLink_deals (u : Upstream) : Deals P u u.addLink := by
  refine .of_same (extra_update rfl ?_) rfl rfl
  rw [freshLink_eq]

theorem pick_deals (u : Upstream) (c : ClientId) (exclude : Option LinkId) :
    Deals P u (u.pick c exclude).2 := by
  rcases pick_cases u c exclude with h | ⟨h, -⟩
  · rw [h]
    exact .refl u
  · rw [h]
    exact addLink_deals u

theorem launch_deals (u : Upstream) (c : ClientId) (goal : Goal) (origin : Origin) :
    Deals P u (u.launch c goal origin) :=
  (pick_deals u c (Goal.exclude goal)).trans (.of_same (fun _ => rfl) rfl rfl)

theorem attach_deals (u : Upstream) (c : ClientId) (origin : Origin) :
    Deals P u (u.attach c origin) := by
  have hlive : Deals P u { u with live := insert c u.live } := .of_same (fun _ => rfl) rfl rfl
  exact hlive.trans (launch_deals _ c .attach origin)

theorem migrate_deals (u : Upstream) (l : LinkId) (c : ClientId) (origin : Origin) :
    Deals P u (u.migrate l c origin) := launch_deals u c (.migrate l) origin

theorem observeInterval_deals (u : Upstream) (l : LinkId) : Deals P u (u.observeInterval l) := by
  unfold observeInterval
  dsimp only
  split_ifs
  · exact .refl u
  · refine (setLink_deals u l rfl).trans (Deals.foldl (fun v m => ?_) _ _)
    split_ifs
    · exact setLink_deals v m rfl
    · exact .refl v
  · exact setLink_deals u l rfl

theorem setJob_deals (u : Upstream) (l : LinkId) (job : StratumJob) :
    Deals P u (u.setJob l job) := by
  unfold setJob
  exact setLink_deals u l rfl

/-! ### Spare slots -/

theorem setLink_spare (u : Upstream) (l : LinkId) {f : Link → Link}
    (h : Spare (f (u.link l)).extra) : Deals P u (u.setLink l f) := by
  refine ⟨fun m => ?_, id, fun c => ⟨[], (List.append_nil _).symm, List.forall_mem_nil _⟩⟩
  rw [setLink_link]
  split_ifs
  · exact .inr h
  · exact .inl rfl

/-- What is dealt out are slots that no link has. -/
theorem spare_free (owned : List ℤ) (p : ℕ → Bool) :
    Spare ((((((List.range NICEHASH_SLOTS).map Int.ofNat).filter fun s => s ∉ owned).zipIdx.filter
      fun q => p q.2)).map Prod.fst) := by
  have hsub : ((((((List.range NICEHASH_SLOTS).map Int.ofNat).filter
      fun s => s ∉ owned).zipIdx.filter fun q => p q.2)).map Prod.fst).Sublist
      ((List.range NICEHASH_SLOTS).map Int.ofNat) := by
    refine (List.Sublist.map Prod.fst List.filter_sublist).trans ?_
    rw [List.zipIdx_map_fst]
    exact List.filter_sublist
  refine ⟨hsub.nodup (List.nodup_range.map Int.ofNat_injective), fun b hb => ?_⟩
  obtain ⟨n, hn, rfl⟩ := List.mem_map.mp (hsub.subset hb)
  exact ⟨Int.natCast_nonneg n, Int.ofNat_lt.mpr (List.mem_range.mp hn)⟩

theorem reslice_deals (u : Upstream) : Deals P u u.reslice := by
  unfold reslice
  refine Deals.foldl (fun v (p : LinkId × ℕ) => setLink_spare v p.1 ?_) _ u
  dsimp only
  split_ifs
  · exact spare_free _ fun j => decide (j % _ = p.2)
  · exact spare_nil

theorem narrow_deals (u : Upstream) : Deals P u u.narrow := by
  unfold narrow
  split_ifs with hexpand
  · have hoff : Deals P u { u with expand := false } :=
      ⟨fun _ => .inl rfl, fun h => absurd h Bool.false_ne_true,
        fun c => ⟨[], (List.append_nil _).symm, List.forall_mem_nil _⟩⟩
    exact hoff.trans (Deals.foldl (fun v l => setLink_spare v l spare_nil) _ _)
  · exact .refl u

theorem rejected_deals (u : Upstream) (stray : Bool) : Deals P u (u.rejected stray) := by
  have hcount : Deals P u { u with stray_rejects := u.stray_rejects + 1 } :=
    .of_same (fun _ => rfl) rfl rfl
  unfold rejected
  dsimp only
  split_ifs
  · exact hcount.trans (narrow_deals _)
  · exact hcount
  · exact .refl u

theorem submit_deals {call : ℕ} {c : ClientId} {job_id nonce result : String} {l : LinkId}
    (h : u.submit call c job_id nonce result = some (l, v)) : Deals P u v := by
  obtain ⟨m, -, h⟩ := Option.bind_eq_some_iff.mp h
  split_ifs at h
  · obtain ⟨-, rfl⟩ := Prod.mk.inj (Option.some.inj h)
    exact .of_same (fun _ => rfl) rfl rfl
  · obtain ⟨-, rfl⟩ := Prod.mk.inj (Option.some.inj h)
    exact emit_deals u _

/-! ### Losing a link, and the sweep -/

theorem sever_deals (u : Upstream) (l : LinkId) : Deals P u (u.sever l) := by
  have hdrop : Deals P u { u.setLink l (fun k => { k with
      job := none, socket := false, load := 0, clients := [] }) with
      links := u.links.erase l
      homes := fun c => if c ∈ (u.link l).clients then none else u.homes c } :=
    .of_same (extra_update rfl rfl) rfl rfl
  have key := (hdrop.trans (reslice_deals _)).trans
    (Deals.foldl (fun w c => attach_deals w c .rehome) (u.link l).clients _)
  unfold sever
  dsimp only
  split_ifs
  · exact key.trans (emit_deals _ _)
  · exact key

theorem hangUp_deals (u : Upstream) (l : LinkId) : Deals P u (u.hangUp l) :=
  (setLink_deals u l rfl).trans (sever_deals _ l)

theorem lost_deals (u : Upstream) (l : LinkId) : Deals P u (u.lost l) := by
  unfold lost
  dsimp only
  split_ifs
  · exact (hangUp_deals u l).trans (setLink_deals _ l rfl)
  · exact hangUp_deals u l

theorem drain_deals (u : Upstream) (l : LinkId) (cs : List ClientId) : Deals P u (u.drain l cs) :=
  Deals.foldl (fun v c => migrate_deals v l c .sweep) cs u

theorem shed_deals (l : LinkId) (cs : List ClientId) (u : Upstream) (excess : ℚ) :
    Deals P u (u.shed l excess cs) := by
  obtain ⟨cs', h⟩ := shed_drain l cs u excess
  exact h ▸ drain_deals u l cs'

theorem sweepLink_deals (u : Upstream) (l : LinkId) : Deals P u (u.sweepLink l) := by
  unfold sweepLink
  dsimp only
  split_ifs
  · exact setLink_deals u l rfl
  · exact hangUp_deals u l
  · exact .refl u
  · exact (setLink_deals u l rfl).trans (shed_deals l _ _ _)

theorem consolidate_deals (u : Upstream) : Deals P u u.consolidate := by
  obtain ⟨l, cs, h⟩ := consolidate_drain u
  exact h ▸ drain_deals u l cs

theorem rebalance_deals (u : Upstream) : Deals P u u.rebalance :=
  (Deals.foldl sweepLink_deals u.links u).trans (consolidate_deals _)

/-! ### Ranges -/

/-- A range that a single call of `take` on the link's space gives, recorded for its job. -/
def Cut (u : Upstream) (l : LinkId) (r : Issued) : Prop :=
  r.link = l ∧ (u.link l).job = some r.job ∧ 0 < spaceLeft (u.link l).space ∧
    ∃ count, (take (u.link l).space count).1 = some r.range

theorem record_deals (u : Upstream) (c : ClientId) (l : LinkId) (job : StratumJob) {g : Grant}
    (h : P { link := l, job := job, range := g }) : Deals P u (u.record c l job g) := by
  refine ⟨fun _ => .inl rfl, id, fun x => ?_⟩
  unfold record
  dsimp only
  by_cases hx : x = c
  · subst hx
    rw [Function.update_self]
    exact ⟨_, rfl, fun r hr => (List.mem_singleton.mp hr) ▸ h⟩
  · rw [Function.update_of_ne hx]
    exact ⟨[], (List.append_nil _).symm, List.forall_mem_nil _⟩

theorem grant_deals (u : Upstream) (l : LinkId) (c : ClientId) :
    Deals (Cut u l) u (u.grant l c).2 := by
  unfold grant
  by_cases hleft : spaceLeft (u.link l).space ≤ 0
  · rw [if_pos hleft]
    exact .refl u
  rw [if_neg hleft]
  dsimp only
  generalize chunkSize (u.rate c) _ _ = size
  have hcut : Deals (Cut u l) u
      (u.setLink l fun k => { k with space := (take (u.link l).space size).2 }) :=
    setLink_deals u l rfl
  cases hr : (take (u.link l).space size).1 with
  | none => exact hcut
  | some g => cases hjob : (u.link l).job with
    | none => exact hcut
    | some job => exact hcut.trans (record_deals _ c l job ⟨rfl, hjob, not_le.mp hleft, size, hr⟩)

theorem payload_deals {l : LinkId} {c : ClientId} {g : Grant} {p : Payload}
    (h : u.payload l c g = some (p, v)) : Deals P u v := by
  obtain ⟨job, -, h⟩ := Option.bind_eq_some_iff.mp h
  obtain ⟨x, -, h⟩ := Option.map_eq_some_iff.mp h
  rw [← (Prod.mk.inj h).2]
  exact setClient_deals u c _

theorem Cut.of_same {l : LinkId} {r : Issued} (h : Cut v l r)
    (hjob : (v.link l).job = (u.link l).job)
    (hspace : (v.link l).space = (u.link l).space) : Cut u l r := by
  obtain ⟨hlink, hr, hcut⟩ := h
  exact ⟨hlink, hjob ▸ hr, hspace ▸ hcut⟩

/-- A range off a link's space goes on record for the job. -/
def Off (l : LinkId) (job : StratumJob) (segments : List Segment) (r : Issued) : Prop :=
  r.link = l ∧ r.job = job ∧ ∃ s ∈ segments, r.range.nonces ⊆ s.nonces

/-- The link works on the job, or has lost it, and its space was built from the segments. -/
structure Works (u : Upstream) (l : LinkId) (job : StratumJob)
    (segments : List Segment) : Prop where
  job : (u.link l).job = some job ∨ (u.link l).job = none
  segments : (u.link l).space.segments = segments
  cursor : 0 ≤ (u.link l).space.cursor

theorem Works.thins {l : LinkId} {job : StratumJob} {segments : List Segment}
    (hu : u.Works l job segments) (h : Thins u v) : v.Works l job segments := by
  refine ⟨?_, (h.kept l).segments.trans hu.segments, (h.kept l).cursor hu.cursor⟩
  rcases (h.kept l).job with heq | hnone
  · exact heq ▸ hu.job
  · exact .inr hnone

theorem Cut.off {l : LinkId} {job : StratumJob} {segments : List Segment}
    (hu : u.Works l job segments) {r : Issued} (h : Cut u l r) : Off l job segments r := by
  obtain ⟨hlink, hr, -, count, hcut⟩ := h
  refine ⟨hlink, ?_, ?_⟩
  · rcases hu.job with hjob | hnone
    · exact Option.some.inj (hr.symm.trans hjob)
    · exact absurd (hnone.symm.trans hr) (Option.some_ne_none _).symm
  · rw [← hu.segments]
    exact (take_within _ count hu.cursor).2 r.range hcut

theorem fanout_deals {l : LinkId} {job : StratumJob} {segments : List Segment} (cs : List ClientId)
    (hu : u.Works l job segments) : Deals (Off l job segments) u (u.fanout l cs).2 := by
  induction cs generalizing u with
  | nil => exact .refl u
  | cons c cs ih =>
    have hdeals := (grant_deals u l c).mono fun r hr => hr.off hu
    have hworks := hu.thins (grant_walks u l c).thins
    unfold fanout
    rcases hg : u.grant l c with ⟨_ | g, v⟩
    · rw [hg] at hdeals hworks
      have hmigrate := hworks.thins (migrate_walks v l c .fanout).thins
      exact (hdeals.trans (migrate_deals v l c .fanout)).trans (ih hmigrate)
    · rw [hg] at hdeals hworks
      dsimp only
      cases hp : v.payload l c g with
      | none => exact hdeals
      | some pw =>
        have hpay : Walks v (pw.2.emit (.job c pw.1)) :=
          (payload_walks (p := pw.1) hp).congr ⟨rfl, rfl, rfl⟩ ⟨rfl, rfl, rfl⟩
        have hsent : Deals (Off l job segments) v (pw.2.emit (.job c pw.1)) :=
          (payload_deals (p := pw.1) hp).trans (emit_deals _ _)
        exact (hdeals.trans hsent).trans (ih (hworks.thins hpay.thins))

/-- Placing a miner on a link leaves its job and its space alone. -/
theorem house_same (u : Upstream) (l : LinkId) (c : ClientId) :
    ((u.house l c).link l).job = (u.link l).job ∧
      ((u.house l c).link l).space = (u.link l).space := by
  simp [house, setLink]

theorem move_same (u : Upstream) (l : LinkId) (c : ClientId) :
    (((u.evict c).house l c).link l).job = (u.link l).job ∧
      (((u.evict c).house l c).link l).space = (u.link l).space := by
  unfold evict
  cases u.homes c with
  | none => exact house_same u l c
  | some m =>
    by_cases hm : l = m
    · subst hm
      simp [house, setLink]
    · simp [house, setLink, hm]

/-- After its grant `attach` records nothing. -/
theorem finishAttach_after {c : ClientId} (hc : c ∈ u.live) (l : LinkId) :
    Deals P ((u.house l c).grant l c).2 (u.finishAttach c (.ok l)).2 := by
  unfold finishAttach
  dsimp only
  rw [if_pos hc]
  rcases (u.house l c).grant l c with ⟨_ | g, v⟩
  · exact detach_deals v c
  · dsimp only
    cases hp : v.payload l c g with
    | none => exact detach_deals v c
    | some pw => exact payload_deals (p := pw.1) hp

theorem finishMigrate_after {c : ClientId} (hc : c ∈ u.live) (source l : LinkId) :
    Deals P (((u.evict c).house l c).grant l c).2 (u.finishMigrate source c (.ok l)).2 := by
  unfold finishMigrate
  dsimp only
  rw [if_pos hc]
  rcases ((u.evict c).house l c).grant l c with ⟨_ | g, v⟩
  · dsimp only
    split_ifs
    · exact (evict_deals v c).trans (house_deals _ source c)
    · exact .refl v
  · dsimp only
    cases hp : v.payload l c g with
    | none => exact .refl v
    | some pw => exact (payload_deals (p := pw.1) hp).trans (emit_deals _ _)

theorem attachDone_deals (u : Upstream) (c : ClientId) (origin : Origin)
    (r : Except String Payload) : Deals P u (u.attachDone c origin r) := by
  unfold attachDone
  split
  · exact emit_deals u _
  · exact emit_deals u _
  · exact emit_deals u _
  · exact .refl u

theorem migrateDone_deals (u : Upstream) (source : LinkId) (c : ClientId) (origin : Origin)
    (r : Except String Bool) : Deals P u (u.migrateDone source c origin r) := by
  unfold migrateDone
  split
  · exact emit_deals u _
  · exact emit_deals u _
  · exact emit_deals u _
  · exact emit_deals u _
  · exact .refl u

theorem evict_issued (u : Upstream) (c : ClientId) : (u.evict c).issued = u.issued := by
  unfold evict
  cases u.homes c <;> rfl

/-- A call with its link picked cuts a range off this link for its miner, and records nothing
else. -/
theorem finish_after {t : Task} (ht : t.client ∈ u.live) (l : LinkId) :
    ∃ w : Upstream, Deals P u w ∧ (w.link l).job = (u.link l).job ∧
      (w.link l).space = (u.link l).space ∧ w.issued = u.issued ∧
      Deals P (w.grant l t.client).2 (u.finish t (.ok l)) := by
  unfold finish
  cases t.goal with
  | attach =>
    obtain ⟨hjob, hspace⟩ := house_same u l t.client
    exact ⟨u.house l t.client, house_deals u l t.client, hjob, hspace, rfl,
      (finishAttach_after ht l).trans (attachDone_deals _ _ _ _)⟩
  | migrate source =>
    obtain ⟨hjob, hspace⟩ := move_same u l t.client
    exact ⟨(u.evict t.client).house l t.client,
      (evict_deals u t.client).trans (house_deals _ l t.client), hjob, hspace,
      evict_issued u t.client,
      (finishMigrate_after ht source l).trans (migrateDone_deals _ _ _ _ _)⟩

theorem finish_deals {t : Task} (ht : t.client ∈ u.live) (l : LinkId) :
    Deals (Cut u l) u (u.finish t (.ok l)) := by
  obtain ⟨w, hw, hjob, hspace, -, hafter⟩ := finish_after (P := Cut u l) ht l
  have hgrant : Deals (Cut u l) w (w.grant l t.client).2 :=
    (grant_deals w l t.client).mono fun r hr => hr.of_same hjob hspace
  exact (hw.trans hgrant).trans hafter

theorem abort_deals (u : Upstream) (t : Task) (message : String) :
    Deals P u (u.finish t (.error message)) := by
  unfold finish
  cases t.goal with
  | attach => exact (detach_deals u t.client).trans (attachDone_deals _ _ _ _)
  | migrate source => exact migrateDone_deals u source _ _ _

theorem finish_gone_deals (u : Upstream) {t : Task} (h : t.client ∉ u.live) (l : LinkId) :
    Deals P u (u.finish t (.ok l)) := by
  unfold finish
  cases t.goal with
  | attach =>
    dsimp only
    rw [finishAttach, if_neg h]
    exact (detach_deals u t.client).trans (attachDone_deals _ _ _ _)
  | migrate source =>
    dsimp only
    rw [finishMigrate, if_neg h]
    exact migrateDone_deals u source _ _ _

/-! ### Every step -/

/-- The link that an event cuts a range off for a single miner. -/
def lone (u : Upstream) : Action → Option LinkId
  | .chunk _ c job_id => (u.homes c).bind fun l =>
    if (u.link l).job.map StratumJob.job_id = some job_id then some l else none
  | .resume i => u.tasks[i]?.bind fun t => match t.phase with
    | .picked l => if t.client ∈ u.live then some l else none
    | _ => none
  | _ => none

/-- The slots of the space that a job arriving on the link is given, as segments. -/
def stock (u : Upstream) (l : LinkId) (job : StratumJob) : List Segment :=
  if 0 < nicehashSlot job.blob then (u.slots l job).map segmentOf else fullSpace.segments

theorem accept_deals (u : Upstream) (l : LinkId) (job : StratumJob) :
    Deals (Off l job (u.stock l job)) u (u.accept l job).2 := by
  obtain ⟨hjob, -, hcursor, hsegments, -⟩ := setJob_link (u.observeInterval l) l job
  have hworks : ((u.observeInterval l).setJob l job).Works l job (u.stock l job) := by
    refine ⟨.inl hjob, ?_, hcursor.ge⟩
    rw [hsegments, observeInterval_slots]
    rfl
  exact ((observeInterval_deals u l).trans (setJob_deals _ l job)).trans (fanout_deals _ hworks)

theorem loggedIn_deals (u : Upstream) (l : LinkId) (job : StratumJob) :
    Deals (Off l job (u.stock l job)) u (u.loggedIn l (.ok job)) := by
  have hself : (u.setLink l fun k => { k with socket := true }).link l =
      { u.link l with socket := true } := Function.update_self ..
  have hstock : (u.setLink l fun k => { k with socket := true }).stock l job = u.stock l job := by
    rw [stock, stock, slots, slots, hself]
    rfl
  have hsocket : Deals (Off l job (u.stock l job)) u
      (u.setLink l fun k => { k with socket := true }) := setLink_deals u l rfl
  have haccept := accept_deals (u.setLink l fun k => { k with socket := true }) l job
  rw [hstock] at haccept
  unfold loggedIn
  dsimp only
  split
  · exact hsocket.trans (setLink_deals _ l rfl)
  · exact (hsocket.trans haccept).trans (setLink_deals _ l rfl)

theorem chunk_deals (u : Upstream) (call : ℕ) (c : ClientId) (job_id : String) :
    Deals (fun r => ∃ l, u.lone (.chunk call c job_id) = some l ∧ Cut u l r) u
      (u.chunk call c job_id) := by
  unfold chunk
  cases hl : u.homes c with
  | none => exact emit_deals u _
  | some l => cases hjob : (u.link l).job with
    | none =>
      dsimp only
      rw [hjob]
      exact emit_deals u _
    | some job =>
      dsimp only
      rw [hjob]
      dsimp only
      split_ifs with hid
      · exact emit_deals u _
      · have hlone : u.lone (.chunk call c job_id) = some l := by
          rw [lone, hl, Option.bind_some, hjob]
          exact if_pos (congrArg some (not_not.mp hid))
        have hgrant := (grant_deals u l c).mono fun r hr =>
          (⟨l, hlone, hr⟩ : ∃ l, u.lone (.chunk call c job_id) = some l ∧ Cut u l r)
        rcases hg : u.grant l c with ⟨_ | g, v⟩
        · rw [hg] at hgrant
          exact hgrant.trans (migrate_deals v l c _)
        · rw [hg] at hgrant
          exact hgrant.trans (emit_deals v _)

theorem setPhase_deals (u : Upstream) (i : ℕ) (t : Task) (p : Phase) :
    Deals P u (u.setPhase i t p) := .of_same (fun _ => rfl) rfl rfl

theorem resume_deals {i : ℕ} (h : u.resume i = some v) :
    Deals (fun r => ∃ l, u.lone (.resume i) = some l ∧ Cut u l r) u v := by
  obtain ⟨t, ht, h⟩ := Option.bind_eq_some_iff.mp h
  have herase : ∀ P, Deals P u { u with tasks := u.tasks.eraseIdx i } := fun P =>
    .of_same (fun _ => rfl) rfl rfl
  cases hphase : t.phase with
  | waiting l =>
    rw [hphase] at h
    dsimp only at h
    obtain ⟨-, h⟩ := Option.ite_none_left_eq_some.mp h
    rw [← Option.some.inj h]
    exact (pick_deals u t.client _).trans (setPhase_deals _ i t _)
  | opening l roomiest =>
    rw [hphase] at h
    dsimp only at h
    cases hopening : (u.link l).opening with
    | up =>
      rw [hopening] at h
      rw [← Option.some.inj h]
      exact (reslice_deals u).trans (setPhase_deals _ i t _)
    | failed message =>
      rw [hopening] at h
      rw [← Option.some.inj h]
      exact .of_same (fun _ => rfl) rfl rfl
    | _ =>
      rw [hopening] at h
      cases h
  | picked l =>
    rw [hphase] at h
    rw [← Option.some.inj h]
    by_cases hlive : t.client ∈ u.live
    · have hlone : u.lone (.resume i) = some l := by
        rw [lone, ht, Option.bind_some, hphase]
        exact if_pos hlive
      refine (herase _).trans ((finish_deals
        (u := { u with tasks := u.tasks.eraseIdx i }) hlive l).mono fun r hr => ⟨l, hlone, ?_⟩)
      exact hr.of_same rfl rfl
    · exact (herase _).trans (finish_gone_deals { u with tasks := u.tasks.eraseIdx i } hlive l)
  | failed message =>
    rw [hphase] at h
    rw [← Option.some.inj h]
    exact (herase _).trans (abort_deals _ t message)

/-- A range that goes on record is cut for a single miner or in a fan-out. -/
theorem step_deals {a : Action} (h : u.step a = some v) :
    Deals (fun r => (∃ l, u.lone a = some l ∧ Cut u l r) ∨
      ∃ l job, a.carried = some job ∧ Off l job (u.stock l job) r) u v := by
  cases a with
  | attach call c => exact Option.some.inj h ▸ attach_deals u c _
  | detach c => exact Option.some.inj h ▸ detach_deals u c
  | report c hashrate => exact Option.some.inj h ▸ report_deals u c hashrate
  | chunk call c job_id =>
    exact Option.some.inj h ▸ (chunk_deals u call c job_id).mono fun r hr => .inl hr
  | submit call c job_id nonce result =>
    obtain ⟨⟨l, w⟩, hw, rfl⟩ := Option.map_eq_some_iff.mp h
    exact submit_deals hw
  | rejected stray => exact Option.some.inj h ▸ rejected_deals u stray
  | resume i => exact (resume_deals h).mono fun r hr => .inl hr
  | dialed l outcome =>
    obtain ⟨-, h⟩ := Option.ite_none_right_eq_some.mp h
    rw [← Option.some.inj h]
    unfold dialed
    cases outcome <;> exact setLink_deals u l rfl
  | loggedIn l outcome =>
    obtain ⟨-, h⟩ := Option.ite_none_right_eq_some.mp h
    rw [← Option.some.inj h]
    cases outcome with
    | error message =>
      unfold loggedIn
      exact setLink_deals u l rfl
    | ok job => exact (loggedIn_deals u l job).mono fun r hr => .inr ⟨l, job, rfl, hr⟩
  | job l job =>
    simp only [step] at h
    split_ifs at h
    exact Option.some.inj h ▸ (accept_deals u l job).mono fun r hr => .inr ⟨l, job, rfl, hr⟩
  | lost l =>
    obtain ⟨-, h⟩ := Option.ite_none_right_eq_some.mp h
    exact Option.some.inj h ▸ lost_deals u l
  | rebalance =>
    simp only [step] at h
    split_ifs at h
    exact Option.some.inj h ▸ rebalance_deals u
  | tick ms => exact Option.some.inj h ▸ .of_same (fun _ => rfl) rfl rfl
  | close =>
    refine Option.some.inj h ▸ .of_same (fun l => ?_) rfl rfl
    change (if _ then _ else _ : Link).extra = _
    split_ifs <;> rfl

/-- In every state that is reached the spare slots of a link are different values of the top
byte. -/
theorem run_spare {maxLinks idleTimeout : ℕ} {expand : Bool} {now : ℕ} {client : ClientId → Client}
    {actions : List Action}
    (hrun : Transition.exec step (start maxLinks idleTimeout expand now client) actions =
      some u) (l : LinkId) : Spare (u.link l).extra := by
  have hstep : ∀ (s : Upstream) (a : Action) (s' : Upstream), (∀ l, Spare (s.link l).extra) →
      s.step a = some s' → ∀ l, Spare (s'.link l).extra := by
    intro s a s' hs h l
    rcases (step_deals h).spare l with heq | hspare
    · exact heq ▸ hs l
    · exact hspare
  exact Transition.exec_preserves hstep (fun _ => spare_nil) hrun l

end Upstream

end NMiner
