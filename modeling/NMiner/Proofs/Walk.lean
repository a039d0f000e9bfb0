import NMiner.Proofs.Frame
import NMiner.Proofs.NoncePartition

/-! What the events of an upstream do to its links, short of a job's arrival: each is a chain of
strides that tend to the links there are, or dial a new one. What is true of links as long as no job
arrives needs to be checked for these two alone. -/

namespace NMiner

open Relation (ReflTransGen)

namespace Upstream

/-- A link that has not been made yet. -/
def Unborn (k : Link) : Prop :=
  k.job = none ∧ k.plug = .absent ∧ k.opening = .idle ∧ k.socket = false

/-- The link has been dialed at some time. -/
def Begun (k : Link) : Prop := k.plug ≠ .absent ∨ k.opening ≠ .idle

theorem Begun.made {k : Link} (h : Begun k) : ¬ Unborn k := fun hu =>
  h.elim (fun hplug => hplug hu.2.1) fun hopening => hopening hu.2.2.1

/-- The link keeps its job or loses it, and its space is still built from the same segments. -/
structure Kept (k k' : Link) : Prop where
  job : k'.job = k.job ∨ k'.job = none
  slot : k'.slot = k.slot
  segments : k'.space.segments = k.space.segments
  cursor : 0 ≤ k.space.cursor → 0 ≤ k'.space.cursor

theorem Kept.of_eq {k k' : Link} (hjob : k'.job = k.job) (hslot : k'.slot = k.slot)
    (hspace : k'.space = k.space) : Kept k k' :=
  ⟨Or.inl hjob, hslot, congrArg NonceSpace.segments hspace, fun h => hspace ▸ h⟩

theorem Kept.refl (k : Link) : Kept k k := .of_eq rfl rfl rfl

theorem Kept.trans {k k' k'' : Link} (h : Kept k k') (h' : Kept k' k'') : Kept k k'' := by
  refine ⟨?_, h'.slot.trans h.slot, h'.segments.trans h.segments, fun hc => h'.cursor (h.cursor hc)⟩
  rcases h'.job with hj | hj
  · exact hj ▸ h.job
  · exact Or.inr hj

/-- What is known of the interval between the jobs of a link is the same. -/
structure SamePace (k k' : Link) : Prop where
  interval : k'.interval = k.interval
  interval_hi : k'.interval_hi = k.interval_hi
  samples : k'.samples = k.samples

/-- No job arrives on the link, and it is not dialed. -/
structure Minds (k k' : Link) : Prop where
  kept : Kept k k'
  pace : SamePace k k'
  unborn : Unborn k → Unborn k'
  begun : Begun k → Begun k'

theorem Minds.refl (k : Link) : Minds k k := ⟨.refl k, ⟨rfl, rfl, rfl⟩, id, id⟩

/-- A change of a link's load, clients, timing or spare slots. -/
def Adjusted (k k' : Link) : Prop :=
  k'.job = k.job ∧ k'.slot = k.slot ∧ k'.space = k.space ∧ k'.plug = k.plug ∧
    k'.opening = k.opening ∧ k'.socket = k.socket

theorem Adjusted.tended {k k' : Link} (h : Adjusted k k') (hpace : SamePace k k') :
    Minds k k' := by
  obtain ⟨hjob, hslot, hspace, hplug, hopening, hsocket⟩ := h
  refine ⟨.of_eq hjob hslot hspace, hpace, fun hu => ?_, fun hb => ?_⟩
  · rw [Unborn, hjob, hplug, hopening, hsocket]
    exact hu
  · rw [Begun, hplug, hopening]
    exact hb

inductive Stride (u : Upstream) : Upstream → Prop
  | tend {v : Upstream} (hnext : v.nextLink = u.nextLink) (hlinks : v.links ⊆ u.links)
      (hlink : ∀ l, Minds (u.link l) (v.link l)) : Stride u v
  | dial : Stride u u.addLink

def Walks : Upstream → Upstream → Prop := ReflTransGen Stride

theorem Walks.refl (u : Upstream) : Walks u u := ReflTransGen.refl

theorem Walks.trans {u v w : Upstream} (h : Walks u v) (h' : Walks v w) : Walks u w :=
  ReflTransGen.trans h h'

theorem Walks.foldl {α : Type*} {f : Upstream → α → Upstream} (hf : ∀ u a, Walks u (f u a))
    (as : List α) (u : Upstream) : Walks u (as.foldl f u) := by
  induction as generalizing u with
  | nil => exact .refl u
  | cons a as ih => exact (hf u a).trans (ih _)

/-- The two states have the same links. -/
def SameLinks (u v : Upstream) : Prop :=
  v.nextLink = u.nextLink ∧ v.links = u.links ∧ v.link = u.link

/-- What is no part of a link does not matter. -/
theorem Walks.same {u v : Upstream} (hnext : v.nextLink = u.nextLink) (hlinks : v.links = u.links)
    (hlink : v.link = u.link) : Walks u v :=
  .single (.tend hnext (hlinks ▸ List.Subset.refl _) fun _ => hlink ▸ .refl _)

theorem Walks.congr {u v u' v' : Upstream} (h : Walks u v) (hu : SameLinks u u')
    (hv : SameLinks v v') : Walks u' v' := by
  obtain ⟨hunext, hulinks, hulink⟩ := hu
  exact (Walks.same hunext.symm hulinks.symm hulink.symm).trans (h.trans (.same hv.1 hv.2.1 hv.2.2))

/-- Every change of one link that tends to it. -/
theorem relink_walks {u v : Upstream} {l : LinkId} {k : Link}
    (hlink : v.link = Function.update u.link l k) (h : Minds (u.link l) k)
    (hnext : v.nextLink = u.nextLink) (hlinks : v.links = u.links) : Walks u v := by
  refine .single (.tend hnext (hlinks ▸ List.Subset.refl _) fun m => ?_)
  rw [hlink, Function.update_apply]
  split_ifs with heq
  · exact heq ▸ h
  · exact .refl _

theorem setLink_walks (u : Upstream) (l : LinkId) {f : Link → Link}
    (h : Minds (u.link l) (f (u.link l))) : Walks u (u.setLink l f) := relink_walks rfl h rfl rfl

theorem adjust_walks {u v : Upstream} {l : LinkId} {k : Link}
    (hlink : v.link = Function.update u.link l k) (h : Adjusted (u.link l) k)
    (hpace : SamePace (u.link l) k) (hnext : v.nextLink = u.nextLink)
    (hlinks : v.links = u.links) : Walks u v := relink_walks hlink (h.tended hpace) hnext hlinks

theorem Walks.begun {u v : Upstream} (h : Walks u v) {l : LinkId} (hl : Begun (u.link l)) :
    Begun (v.link l) := by
  induction h with
  | refl => exact hl
  | tail _ hstride ih =>
    cases hstride with
    | tend _ _ hlink => exact (hlink l).begun ih
    | dial =>
      rw [addLink_link]
      split_ifs
      · rw [freshLink_eq]
        exact Or.inr (by simp)
      · exact ih

/-! ### Ranges and miners -/

theorem grant_walks (u : Upstream) (l : LinkId) (c : ClientId) : Walks u (u.grant l c).2 := by
  unfold grant
  by_cases hleft : spaceLeft (u.link l).space ≤ 0
  · rw [if_pos hleft]
    exact .refl u
  · rw [if_neg hleft]
    dsimp only
    generalize chunkSize (u.rate c) _ _ = size
    have hcut : Walks u (u.setLink l fun k => { k with space := (take (u.link l).space size).2 }) :=
      setLink_walks u l ⟨⟨Or.inl rfl, rfl, take_segments _ size,
        fun hc => (take_within _ size hc).1⟩, ⟨rfl, rfl, rfl⟩, id, id⟩
    cases (take (u.link l).space size).1 with
    | none => exact hcut
    | some g => cases (u.link l).job with
      | none => exact hcut
      | some job => exact hcut.trans (.same rfl rfl rfl)

theorem payload_walks {u v : Upstream} {l : LinkId} {c : ClientId} {range : Grant} {p : Payload}
    (h : u.payload l c range = some (p, v)) : Walks u v := by
  obtain ⟨job, -, h⟩ := Option.bind_eq_some_iff.mp h
  obtain ⟨w, -, h⟩ := Option.map_eq_some_iff.mp h
  rw [Prod.mk.injEq] at h
  rw [← h.2]
  exact .same rfl rfl rfl

theorem house_walks (u : Upstream) (l : LinkId) (c : ClientId) : Walks u (u.house l c) :=
  adjust_walks rfl ⟨rfl, rfl, rfl, rfl, rfl, rfl⟩ ⟨rfl, rfl, rfl⟩ rfl rfl

theorem evict_walks (u : Upstream) (c : ClientId) : Walks u (u.evict c) := by
  unfold evict
  cases u.homes c with
  | none => exact .refl u
  | some l => exact adjust_walks rfl ⟨rfl, rfl, rfl, rfl, rfl, rfl⟩ ⟨rfl, rfl, rfl⟩ rfl rfl

theorem detach_walks (u : Upstream) (c : ClientId) : Walks u (u.detach c) := by
  have hevict := evict_walks { u with live := u.live.erase c } c
  exact hevict.congr ⟨rfl, rfl, rfl⟩ ⟨rfl, rfl, rfl⟩

theorem report_walks (u : Upstream) (c : ClientId) (hashrate : ℚ) :
    Walks u (u.report c hashrate) := by
  unfold report
  split_ifs
  · cases u.homes c with
    | none => exact .same rfl rfl rfl
    | some l => exact adjust_walks rfl ⟨rfl, rfl, rfl, rfl, rfl, rfl⟩ ⟨rfl, rfl, rfl⟩ rfl rfl
  · exact .refl u

/-! ### Calls -/

theorem pick_walks (u : Upstream) (c : ClientId) (exclude : Option LinkId) :
    Walks u (u.pick c exclude).2 := by
  rcases pick_cases u c exclude with h | ⟨h, -⟩
  · rw [h]
    exact .refl u
  · rw [h]
    exact .single .dial

theorem migrate_walks (u : Upstream) (l : LinkId) (c : ClientId) (origin : Origin) :
    Walks u (u.migrate l c origin) := (pick_walks u c (some l)).trans (.same rfl rfl rfl)

theorem attach_walks (u : Upstream) (c : ClientId) (origin : Origin) :
    Walks u (u.attach c origin) := by
  have hpick := pick_walks { u with live := insert c u.live } c none
  exact hpick.congr ⟨rfl, rfl, rfl⟩ ⟨rfl, rfl, rfl⟩

theorem fanout_walks (l : LinkId) (cs : List ClientId) (u : Upstream) :
    Walks u (u.fanout l cs).2 := by
  induction cs generalizing u with
  | nil => exact .refl u
  | cons c cs ih =>
    have hgrant := grant_walks u l c
    unfold fanout
    rcases hg : u.grant l c with ⟨_ | g, v⟩
    · rw [hg] at hgrant
      exact (hgrant.trans (migrate_walks v l c .fanout)).trans (ih _)
    · rw [hg] at hgrant
      dsimp only
      cases hp : v.payload l c g with
      | none => exact hgrant
      | some pw =>
        have hpay : Walks v pw.2 := payload_walks (p := pw.1) hp
        have hemit : Walks u (pw.2.emit (.job c pw.1)) :=
          (hgrant.trans hpay).congr ⟨rfl, rfl, rfl⟩ ⟨rfl, rfl, rfl⟩
        exact hemit.trans (ih _)

theorem reslice_walks (u : Upstream) : Walks u u.reslice := by
  unfold reslice
  refine Walks.foldl (fun v p => ?_) _ u
  exact adjust_walks rfl ⟨rfl, rfl, rfl, rfl, rfl, rfl⟩ ⟨rfl, rfl, rfl⟩ rfl rfl

theorem unlist_walks (u : Upstream) (l : LinkId) : Walks u { u with links := u.links.erase l } :=
  .single (.tend rfl List.erase_subset fun _ => .refl _)

theorem sever_walks (u : Upstream) (l : LinkId) : Walks u (u.sever l) := by
  have hclear : Walks u (u.setLink l fun k => { k with
      job := none, socket := false, load := 0, clients := [] }) :=
    setLink_walks u l ⟨⟨Or.inr rfl, rfl, rfl, id⟩, ⟨rfl, rfl, rfl⟩,
      fun hu => ⟨rfl, hu.2.1, hu.2.2.1, rfl⟩, id⟩
  have hdrop : Walks u { u.setLink l (fun k => { k with
      job := none, socket := false, load := 0, clients := [] }) with
      links := u.links.erase l
      homes := fun c => if c ∈ (u.link l).clients then none else u.homes c } :=
    (hclear.trans (unlist_walks _ l)).trans (.same rfl rfl rfl)
  have key := (hdrop.trans (reslice_walks _)).trans
    (Walks.foldl (fun w c => attach_walks w c .rehome) (u.link l).clients _)
  unfold sever
  dsimp only
  split_ifs
  · exact key.trans (.same rfl rfl rfl)
  · exact key

/-- A link whose socket closes has been made. -/
theorem hangUp_walks (u : Upstream) (l : LinkId) (h : ¬ Unborn (u.link l)) :
    Walks u (u.hangUp l) := by
  have hshut : Walks u (u.setLink l fun k => { k with plug := .shut }) :=
    setLink_walks u l ⟨.of_eq rfl rfl rfl, ⟨rfl, rfl, rfl⟩, fun hu => absurd hu h,
      fun _ => Or.inl (by simp)⟩
  exact hshut.trans (sever_walks _ l)

theorem finishAttach_walks (u : Upstream) (c : ClientId) (picked : Except String LinkId) :
    Walks u (u.finishAttach c picked).2 := by
  unfold finishAttach
  cases picked with
  | error message => exact detach_walks u c
  | ok l =>
    dsimp only
    split_ifs
    · have hgrant : Walks u ((u.house l c).grant l c).2 :=
        (house_walks u l c).trans (grant_walks (u.house l c) l c)
      rcases hg : (u.house l c).grant l c with ⟨_ | g, v⟩
      · rw [hg] at hgrant
        exact hgrant.trans (detach_walks v c)
      · rw [hg] at hgrant
        dsimp only
        cases hp : v.payload l c g with
        | none => exact hgrant.trans (detach_walks v c)
        | some pw => exact hgrant.trans (payload_walks (p := pw.1) hp)
    · exact detach_walks u c

theorem finishMigrate_walks (u : Upstream) (source : LinkId) (c : ClientId)
    (picked : Except String LinkId) : Walks u (u.finishMigrate source c picked).2 := by
  unfold finishMigrate
  cases picked with
  | error message => exact .refl u
  | ok l =>
    dsimp only
    split_ifs
    · have hgrant : Walks u (((u.evict c).house l c).grant l c).2 :=
        ((evict_walks u c).trans (house_walks _ l c)).trans (grant_walks _ l c)
      rcases hg : ((u.evict c).house l c).grant l c with ⟨_ | g, v⟩
      · rw [hg] at hgrant
        dsimp only
        split_ifs
        · exact (hgrant.trans (evict_walks v c)).trans (house_walks _ source c)
        · exact hgrant
      · rw [hg] at hgrant
        dsimp only
        cases hp : v.payload l c g with
        | none => exact hgrant
        | some pw =>
          have hpay : Walks v pw.2 := payload_walks (p := pw.1) hp
          exact (hgrant.trans hpay).trans (.same rfl rfl rfl)
    · exact .refl u

theorem attachDone_walks (u : Upstream) (c : ClientId) (origin : Origin)
    (r : Except String Payload) : Walks u (u.attachDone c origin r) := by
  unfold attachDone
  split <;> exact .same rfl rfl rfl

theorem migrateDone_walks (u : Upstream) (source : LinkId) (c : ClientId) (origin : Origin)
    (r : Except String Bool) : Walks u (u.migrateDone source c origin r) := by
  unfold migrateDone
  split <;> exact .same rfl rfl rfl

theorem finish_walks (u : Upstream) (t : Task) (r : Except String LinkId) :
    Walks u (u.finish t r) := by
  unfold finish
  cases t.goal with
  | attach => exact (finishAttach_walks u t.client r).trans (attachDone_walks _ _ _ _)
  | migrate source =>
    exact (finishMigrate_walks u source t.client r).trans (migrateDone_walks _ _ _ _ _)

theorem resume_walks {u v : Upstream} {i : ℕ} (h : u.resume i = some v) : Walks u v := by
  obtain ⟨t, -, h⟩ := Option.bind_eq_some_iff.mp h
  have herase : Walks u { u with tasks := u.tasks.eraseIdx i } := .same rfl rfl rfl
  cases hphase : t.phase with
  | waiting l =>
    rw [hphase] at h
    dsimp only at h
    split_ifs at h
    rw [← Option.some.inj h]
    exact (pick_walks u t.client (Goal.exclude t.goal)).trans (.same rfl rfl rfl)
  | opening l roomiest =>
    rw [hphase] at h
    dsimp only at h
    cases hopening : (u.link l).opening with
    | up =>
      rw [hopening] at h
      rw [← Option.some.inj h]
      exact (reslice_walks u).trans (.same rfl rfl rfl)
    | failed message =>
      rw [hopening] at h
      rw [← Option.some.inj h]
      exact (unlist_walks u l).trans (.same rfl rfl rfl)
    | idle => simp [hopening] at h
    | dialing => simp [hopening] at h
    | login => simp [hopening] at h
  | picked l =>
    rw [hphase] at h
    rw [← Option.some.inj h]
    exact herase.trans (finish_walks _ t _)
  | failed message =>
    rw [hphase] at h
    rw [← Option.some.inj h]
    exact herase.trans (finish_walks _ t _)

theorem chunk_walks (u : Upstream) (call : ℕ) (c : ClientId) (job_id : String) :
    Walks u (u.chunk call c job_id) := by
  unfold chunk
  cases u.homes c with
  | none => exact .same rfl rfl rfl
  | some l =>
    dsimp only
    cases (u.link l).job with
    | none => exact .same rfl rfl rfl
    | some job =>
      have hgrant := grant_walks u l c
      dsimp only
      split_ifs
      · exact .same rfl rfl rfl
      · rcases hg : u.grant l c with ⟨_ | g, v⟩
        · rw [hg] at hgrant
          exact hgrant.trans (migrate_walks v l c _)
        · rw [hg] at hgrant
          exact hgrant.trans (.same rfl rfl rfl)

theorem submit_walks {u v : Upstream} {call : ℕ} {c : ClientId} {job_id nonce result : String}
    {l : LinkId} (h : u.submit call c job_id nonce result = some (l, v)) : Walks u v := by
  obtain ⟨m, -, h⟩ := Option.bind_eq_some_iff.mp h
  split_ifs at h
  all_goals
    simp only [Option.some.injEq, Prod.mk.injEq] at h
    rw [← h.2]
    exact .same rfl rfl rfl

theorem narrow_walks (u : Upstream) : Walks u u.narrow := by
  unfold narrow
  split_ifs
  · have hfold : Walks { u with expand := false } (u.links.foldl (fun u l =>
        u.setLink l fun k => { k with extra := [] }) { u with expand := false }) :=
      Walks.foldl (fun w l => setLink_walks w l
        (Adjusted.tended ⟨rfl, rfl, rfl, rfl, rfl, rfl⟩ ⟨rfl, rfl, rfl⟩)) _ _
    exact hfold.congr ⟨rfl, rfl, rfl⟩ ⟨rfl, rfl, rfl⟩
  · exact .refl u

theorem rejected_walks (u : Upstream) (stray : Bool) : Walks u (u.rejected stray) := by
  unfold rejected
  dsimp only
  split_ifs
  · exact (narrow_walks { u with stray_rejects := u.stray_rejects + 1 }).congr ⟨rfl, rfl, rfl⟩
      ⟨rfl, rfl, rfl⟩
  · exact .same rfl rfl rfl
  · exact .refl u

/-! ### The sweep -/

theorem drain_walks (u : Upstream) (l : LinkId) (cs : List ClientId) : Walks u (u.drain l cs) :=
  Walks.foldl (fun v c => migrate_walks v l c .sweep) cs u

theorem shed_walks (l : LinkId) (cs : List ClientId) (u : Upstream) (excess : ℚ) :
    Walks u (u.shed l excess cs) := by
  obtain ⟨cs', h⟩ := shed_drain l cs u excess
  exact h ▸ drain_walks u l cs'

theorem consolidate_walks (u : Upstream) : Walks u u.consolidate := by
  obtain ⟨l, cs, h⟩ := consolidate_drain u
  exact h ▸ drain_walks u l cs

theorem sweepLink_walks (u : Upstream) (l : LinkId) : Walks u (u.sweepLink l) := by
  unfold sweepLink
  dsimp only
  split_ifs with hclients hidle hlimit
  · exact adjust_walks rfl ⟨rfl, rfl, rfl, rfl, rfl, rfl⟩ ⟨rfl, rfl, rfl⟩ rfl rfl
  · exact hangUp_walks u l fun hu => absurd (hu.2.2.2.symm.trans hlimit.2) (by decide)
  · exact .refl u
  · refine Walks.trans ?_ (shed_walks l _ _ _)
    exact adjust_walks rfl ⟨rfl, rfl, rfl, rfl, rfl, rfl⟩ ⟨rfl, rfl, rfl⟩ rfl rfl

theorem rebalance_walks (u : Upstream) : Walks u u.rebalance :=
  (Walks.foldl sweepLink_walks u.links u).trans (consolidate_walks _)

/-! ### Sockets -/

theorem begun_of_opening {k : Link} {o : Opening} (h : k.opening = o) (ho : o ≠ .idle) :
    Begun k := Or.inr fun heq => ho (h.symm.trans heq)

/-- A change of the socket of a link that has been made. -/
theorem setLink_begun {u v : Upstream} (h : Walks u v) {l : LinkId} {f : Link → Link}
    (hl : Begun (u.link l)) (hkept : Kept (v.link l) (f (v.link l)))
    (hpace : SamePace (v.link l) (f (v.link l))) (hf : Begun (f (v.link l))) :
    Walks u (v.setLink l f) :=
  h.trans (setLink_walks v l ⟨hkept, hpace, fun hu => absurd hu (h.begun hl).made, fun _ => hf⟩)

theorem lost_walks (u : Upstream) (l : LinkId) (h : (u.link l).plug = .live) :
    Walks u (u.lost l) := by
  have hbegun : Begun (u.link l) := Or.inl fun heq => absurd (h.symm.trans heq) (by simp)
  have hshut := hangUp_walks u l hbegun.made
  unfold lost
  dsimp only
  split_ifs
  · exact setLink_begun hshut hbegun (.of_eq rfl rfl rfl) ⟨rfl, rfl, rfl⟩ (Or.inr (by simp))
  · exact hshut

theorem close_walks (u : Upstream) : Walks u u.close := by
  refine .single (.tend rfl (List.nil_subset _) fun l => ?_)
  change Minds _ (if _ then _ else _)
  split_ifs with hl
  · exact ⟨.of_eq rfl rfl rfl, ⟨rfl, rfl, rfl⟩,
      fun hu => absurd (hu.2.2.2.symm.trans hl.2) (by decide), fun _ => Or.inl (by simp)⟩
  · exact .refl _

theorem dialed_walks (u : Upstream) (l : LinkId) (outcome : Except String Unit)
    (h : (u.link l).opening = .dialing) : Walks u (u.dialed l outcome) := by
  have hbegun := begun_of_opening h (by simp)
  unfold dialed
  cases outcome
  all_goals
    exact setLink_begun (.refl u) hbegun (.of_eq rfl rfl rfl) ⟨rfl, rfl, rfl⟩ (Or.inr (by simp))

/-! ### Every step -/

/-- The link that a job arrives on in a step, and the job. -/
def accepts (u : Upstream) : Action → Option (LinkId × StratumJob)
  | .job l job => some (l, job)
  | .loggedIn l (.ok job) => if (u.link l).job.isSome then none else some (l, job)
  | _ => none

/-- The state in which a job has arrived on the link, before it is passed on to the miners. -/
def renewed (u : Upstream) (l : LinkId) (job : StratumJob) : Upstream :=
  (u.observeInterval l).setJob l job

theorem renewed_opening (u : Upstream) (l m : LinkId) (job : StratumJob) :
    ((u.renewed l job).link m).opening = (u.link m).opening := by
  have hcore : (u.renewed l job).core = u.core :=
    (core_setJob _ l job).trans (core_observeInterval u l)
  exact congrFun (core_eq hcore).2.2.2.2.2.1 m

theorem accept_walks (u : Upstream) (l : LinkId) (job : StratumJob) :
    Walks (u.renewed l job) (u.accept l job).2 := fanout_walks l _ _

/-- A job arrives on a link that has been dialed, with its socket set or not; before and after that
everything goes on. -/
structure Accepts (u : Upstream) (l : LinkId) (job : StratumJob) (w v : Upstream) : Prop where
  begun : Begun (u.link l)
  start : w = u ∨ w = u.setLink l fun k => { k with socket := true }
  rest : Walks (w.renewed l job) v

/-- What happens in a step, on which a job arrives or not. -/
def Goes (u v : Upstream) : Option (LinkId × StratumJob) → Prop
  | none => Walks u v
  | some (l, job) => ∃ w, Accepts u l job w v

theorem loggedIn_goes (u : Upstream) (l : LinkId) (outcome : Except String StratumJob)
    (h : (u.link l).opening = .login) :
    Goes u (u.loggedIn l outcome) (u.accepts (.loggedIn l outcome)) := by
  have hbegun := begun_of_opening h (by simp)
  have hself : ((u.setLink l fun k => { k with socket := true }).link l) =
      { u.link l with socket := true } := Function.update_self ..
  have hsocket : Walks u (u.setLink l fun k => { k with socket := true }) :=
    setLink_begun (.refl u) hbegun (.of_eq rfl rfl rfl) ⟨rfl, rfl, rfl⟩ hbegun
  cases outcome with
  | error message =>
    have hfailed :
      Walks u (u.setLink l fun k => { k with opening := .failed message, plug := .shut }) :=
      setLink_begun (.refl u) hbegun (.of_eq rfl rfl rfl) ⟨rfl, rfl, rfl⟩ (Or.inr (by simp))
    exact hfailed
  | ok job =>
    unfold loggedIn
    dsimp only [accepts]
    rw [hself]
    by_cases hjob : (u.link l).job.isSome = true
    · rw [if_pos hjob, if_pos hjob]
      exact setLink_begun hsocket hbegun (.of_eq rfl rfl rfl) ⟨rfl, rfl, rfl⟩ (Or.inr (by simp))
    · rw [if_neg hjob, if_neg hjob]
      refine ⟨_, hbegun, Or.inr rfl, ?_⟩
      refine setLink_begun (accept_walks _ l job) ?_ (.of_eq rfl rfl rfl)
        ⟨rfl, rfl, rfl⟩ (Or.inr ?_)
      · have hopening := renewed_opening (u.setLink l fun k => { k with socket := true }) l l job
        rw [hself] at hopening
        exact begun_of_opening (hopening.trans h) (by simp)
      · dsimp only
        split_ifs <;> simp

theorem step_goes {u v : Upstream} {a : Action} (h : u.step a = some v) :
    Goes u v (u.accepts a) := by
  cases a with
  | attach call c => exact Option.some.inj h ▸ attach_walks u c _
  | detach c => exact Option.some.inj h ▸ detach_walks u c
  | report c hashrate => exact Option.some.inj h ▸ report_walks u c hashrate
  | chunk call c job_id => exact Option.some.inj h ▸ chunk_walks u call c job_id
  | submit call c job_id nonce result =>
    obtain ⟨⟨l, w⟩, hw, rfl⟩ := Option.map_eq_some_iff.mp h
    exact submit_walks hw
  | rejected stray => exact Option.some.inj h ▸ rejected_walks u stray
  | resume i => exact resume_walks h
  | dialed l outcome =>
    obtain ⟨hopening, h⟩ := Option.ite_none_right_eq_some.mp h
    exact Option.some.inj h ▸ dialed_walks u l outcome hopening
  | loggedIn l outcome =>
    obtain ⟨hopening, h⟩ := Option.ite_none_right_eq_some.mp h
    exact Option.some.inj h ▸ loggedIn_goes u l outcome hopening
  | job l job =>
    simp only [step] at h
    split_ifs at h with hplug
    exact ⟨u, Or.inl hplug, Or.inl rfl, Option.some.inj h ▸ accept_walks u l job⟩
  | lost l =>
    obtain ⟨hplug, h⟩ := Option.ite_none_right_eq_some.mp h
    exact Option.some.inj h ▸ lost_walks u l hplug
  | rebalance =>
    simp only [step] at h
    split_ifs at h
    exact Option.some.inj h ▸ rebalance_walks u
  | tick ms => exact Option.some.inj h ▸ .same rfl rfl rfl
  | close => exact Option.some.inj h ▸ close_walks u

end Upstream

end NMiner
