import NMiner.Proofs.Frame

/-! Every event of an upstream is a chain of moves of five kinds: a call is suspended, a range is
cut off a link's space, something is delivered, a job arrives on a link, or nothing happens
that concerns ranges. What is true of ranges needs to be checked for these moves alone. -/

namespace NMiner

open Relation (ReflTransGen)

/-- The number of a caller stands for this miner. -/
def Origin.Owes (owes : ℕ → ClientId → Prop) (c : ClientId) : Origin → Prop
  | .login n => owes n c
  | .chunk n => owes n c
  | _ => True

namespace Upstream

/-- The range has been recorded for the miner. -/
def Issues (u : Upstream) (c : ClientId) (g : Grant) : Prop := ∃ r ∈ u.issued c, r.range = g

/-- What is delivered to a miner, or to the caller that stands for it, is a range of its own. -/
def Vouched (owes : ℕ → ClientId → Prop) (u : Upstream) : Delivery → Prop
  | .job c p => u.Issues c p.range
  | .attached n (.ok p) => ∃ c, owes n c ∧ u.Issues c p.range
  | .chunked n (.ok (.range g)) => ∃ c, owes n c ∧ u.Issues c g
  | _ => True

/-- Nothing happens that concerns ranges: a ledger may be emptied, a call may end or go on, and what
has been delivered may have been handled. -/
structure Keeps (u v : Upstream) : Prop where
  ledgers : ∀ c, v.ledgers c = u.ledgers c ∨ v.ledgers c = {}
  issued : v.issued = u.issued
  spaces : ∀ l, (v.link l).space = (u.link l).space
  outbox : v.outbox = u.outbox ∨ v.outbox = []
  tasks : ∀ t ∈ v.tasks, ∃ t' ∈ u.tasks, t'.client = t.client ∧ t'.origin = t.origin

inductive Move (owes : ℕ → ClientId → Prop) (places : LinkId → Prop)
    (u : Upstream) : Upstream → Prop
  | keep {v : Upstream} (h : Keeps u v) : Move owes places u v
  | suspend (t : Task) (h : t.origin.Owes owes t.client) :
      Move owes places u { u with tasks := u.tasks ++ [t] }
  | grant (l : LinkId) (c : ClientId) : Move owes places u (u.grant l c).2
  | emit (d : Delivery) (h : u.Vouched owes d) : Move owes places u (u.emit d)
  | place (l : LinkId) (job : StratumJob) (h : places l) : Move owes places u (u.setJob l job)

/-- A chain of moves; jobs arrive only on the links in `places`. -/
def Moves (owes : ℕ → ClientId → Prop) (places : LinkId → Prop) : Upstream → Upstream → Prop :=
  ReflTransGen (Move owes places)

/-- Every suspended call is for the miner that its caller's number stands for. -/
def Owed (owes : ℕ → ClientId → Prop) (u : Upstream) : Prop :=
  ∀ t ∈ u.tasks, t.origin.Owes owes t.client

variable {owes : ℕ → ClientId → Prop} {places : LinkId → Prop}

/-! ### Moves that concern no ranges -/

theorem Keeps.moves {u v : Upstream} (h : Keeps u v) : Moves owes places u v := .single (.keep h)

theorem Moves.refl (u : Upstream) : Moves owes places u u := ReflTransGen.refl

theorem Moves.trans {u v w : Upstream} (h : Moves owes places u v) (h' : Moves owes places v w) :
    Moves owes places u w := ReflTransGen.trans h h'

theorem Moves.foldl {α : Type*} {f : Upstream → α → Upstream}
    (hf : ∀ u a, Moves owes places u (f u a))
    (as : List α) (u : Upstream) : Moves owes places u (as.foldl f u) := by
  induction as generalizing u with
  | nil => exact .refl u
  | cons a as ih => exact (hf u a).trans (ih _)

/-- Only what is neither a range nor a call has changed. -/
theorem Keeps.of_same {u v : Upstream} (hledgers : v.ledgers = u.ledgers)
    (hissued : v.issued = u.issued) (houtbox : v.outbox = u.outbox) (htasks : v.tasks = u.tasks)
    (hspaces : ∀ l, (v.link l).space = (u.link l).space) : Keeps u v := by
  refine ⟨fun c => Or.inl ?_, hissued, hspaces, Or.inl houtbox, fun t ht => ?_⟩
  · rw [hledgers]
  · exact ⟨t, htasks ▸ ht, rfl, rfl⟩

theorem spaces_update {u v : Upstream} {l : LinkId} {k : Link}
    (hlink : v.link = Function.update u.link l k) (h : k.space = (u.link l).space) (m : LinkId) :
    (v.link m).space = (u.link m).space := by
  rw [hlink]
  exact congrFun (update_proj_same u.link l k Link.space h) m

theorem setLink_moves (u : Upstream) (l : LinkId) {f : Link → Link}
    (h : (f (u.link l)).space = (u.link l).space) : Moves owes places u (u.setLink l f) :=
  Keeps.moves (v := u.setLink l f) (Keeps.of_same rfl rfl rfl rfl (spaces_update rfl h))

theorem setClient_moves (u : Upstream) (c : ClientId) (f : Client → Client) :
    Moves owes places u (u.setClient c f) :=
  Keeps.moves (v := u.setClient c f) (Keeps.of_same rfl rfl rfl rfl fun _ => rfl)

theorem house_moves (u : Upstream) (l : LinkId) (c : ClientId) : Moves owes places u
    (u.house l c) := by
  exact Keeps.moves (v := u.house l c) (Keeps.of_same rfl rfl rfl rfl (spaces_update rfl rfl))

theorem evict_moves (u : Upstream) (c : ClientId) : Moves owes places u (u.evict c) := by
  unfold evict
  cases u.homes c with
  | none => exact .refl u
  | some l =>
    refine Keeps.moves (Keeps.of_same rfl rfl rfl rfl ?_)
    exact spaces_update rfl rfl

theorem detach_moves (u : Upstream) (c : ClientId) : Moves owes places u (u.detach c) := by
  have hlive : Moves owes places u { u with live := u.live.erase c } :=
    Keeps.moves (Keeps.of_same rfl rfl rfl rfl fun _ => rfl)
  have hempty : ∀ v : Upstream, Keeps v { v with ledgers := Function.update v.ledgers c {} } := by
    intro v
    refine ⟨fun x => ?_, rfl, fun _ => rfl, Or.inl rfl, fun t ht => ⟨t, ht, rfl, rfl⟩⟩
    dsimp only
    rw [Function.update_apply]
    split_ifs
    · exact Or.inr rfl
    · exact Or.inl rfl
  exact (hlive.trans (evict_moves _ c)).trans (hempty _).moves

theorem report_moves (u : Upstream) (c : ClientId) (hashrate : ℚ) :
    Moves owes places u (u.report c hashrate) := by
  unfold report
  split_ifs
  · refine Moves.trans ?_ (setClient_moves _ c _)
    cases u.homes c with
    | none => exact .refl u
    | some l => exact setLink_moves u l rfl
  · exact .refl u

theorem addLink_moves (u : Upstream) : Moves owes places u u.addLink := by
  refine Keeps.moves (Keeps.of_same rfl rfl rfl rfl (spaces_update rfl ?_))
  rw [freshLink_eq]

theorem pick_moves (u : Upstream) (c : ClientId) (exclude : Option LinkId) :
    Moves owes places u (u.pick c exclude).2 := by
  rcases pick_cases u c exclude with h | ⟨h, -⟩
  · rw [h]
    exact .refl u
  · rw [h]
    exact addLink_moves u

theorem observeInterval_moves (u : Upstream) (l : LinkId) :
    Moves owes places u (u.observeInterval l) := by
  unfold observeInterval
  dsimp only
  split_ifs
  · exact .refl u
  · refine (setLink_moves u l rfl).trans (Moves.foldl (fun v m => ?_) _ _)
    split_ifs
    · exact setLink_moves v m rfl
    · exact .refl v
  · exact setLink_moves u l rfl

theorem reslice_moves (u : Upstream) : Moves owes places u u.reslice :=
  Moves.foldl (fun v _ => setLink_moves v _ rfl) _ u

theorem setPhase_moves {u : Upstream} {i : ℕ} {t : Task} (ht : u.tasks[i]? = some t)
    (phase : Phase) :
    Moves owes places u (u.setPhase i t phase) := by
  refine Keeps.moves ⟨fun _ => Or.inl rfl, rfl, fun _ => rfl, Or.inl rfl, fun x hx => ?_⟩
  rcases List.mem_or_eq_of_mem_set hx with hx | rfl
  · exact ⟨x, hx, rfl, rfl⟩
  · exact ⟨t, List.mem_of_getElem? ht, rfl, rfl⟩

theorem eraseTask_moves (u : Upstream) (i : ℕ) :
    Moves owes places u { u with tasks := u.tasks.eraseIdx i } := by
  refine Keeps.moves ⟨fun _ => Or.inl rfl, rfl, fun _ => rfl, Or.inl rfl, fun t ht => ?_⟩
  exact ⟨t, List.mem_of_mem_eraseIdx ht, rfl, rfl⟩

theorem emit_moves (u : Upstream) {d : Delivery} (h : u.Vouched owes d) :
    Moves owes places u (u.emit d) := .single (.emit d h)

/-! ### Calls and ranges -/

theorem launch_moves (u : Upstream) (c : ClientId) (goal : Goal) (origin : Origin)
    (h : origin.Owes owes c) : Moves owes places u (u.launch c goal origin) :=
  (pick_moves u c (Goal.exclude goal)).trans (.single (.suspend _ h))

theorem attach_moves (u : Upstream) (c : ClientId) (origin : Origin) (h : origin.Owes owes c) :
    Moves owes places u (u.attach c origin) := by
  have hlive : Moves owes places u { u with live := insert c u.live } :=
    Keeps.moves (Keeps.of_same rfl rfl rfl rfl fun _ => rfl)
  exact hlive.trans (launch_moves _ c .attach origin h)

theorem migrate_moves (u : Upstream) (l : LinkId) (c : ClientId) (origin : Origin)
    (h : origin.Owes owes c) : Moves owes places u (u.migrate l c origin) :=
  launch_moves u c (.migrate l) origin h

theorem grant_moves {u v : Upstream} {l : LinkId} {c : ClientId} {r : Option Grant}
    (h : u.grant l c = (r, v)) : Moves owes places u v := by
  have hv : v = (u.grant l c).2 := by rw [h]
  exact hv ▸ .single (.grant l c)

/-- A range that is cut for a link with a job is on record. -/
theorem grant_issues {u v : Upstream} {l : LinkId} {c : ClientId} {g : Grant}
    (h : u.grant l c = (some g, v)) (hjob : (v.link l).job ≠ none) : v.Issues c g := by
  rcases grant_cases u l c with h' | ⟨space, ⟨r, h', hr⟩ | ⟨g', job, -, h'⟩⟩
  · rw [h, Prod.mk.injEq] at h'
    exact absurd h'.1 (by simp)
  · rw [h, Prod.mk.injEq] at h'
    obtain ⟨rfl, rfl⟩ := h'
    rcases hr with hr | hr
    · exact absurd hr (by simp)
    · refine absurd ?_ hjob
      simp [setLink, hr]
  · rw [h, Prod.mk.injEq] at h'
    obtain ⟨hg, rfl⟩ := h'
    obtain rfl := Option.some.inj hg
    refine ⟨{ link := l, job := job, range := g }, ?_, rfl⟩
    unfold record
    dsimp only
    rw [Function.update_self]
    exact List.mem_append_right _ (List.mem_singleton_self _)

theorem payload_moves {u v : Upstream} {l : LinkId} {c : ClientId} {g : Grant} {p : Payload}
    (h : u.payload l c g = some (p, v)) : Moves owes places u v := by
  obtain ⟨job, -, h⟩ := Option.bind_eq_some_iff.mp h
  obtain ⟨w, -, h⟩ := Option.map_eq_some_iff.mp h
  obtain ⟨-, rfl⟩ := Prod.mk.inj h
  exact setClient_moves u c _

/-- A payload carries the range it is made for, which is on record if it has just been cut. -/
theorem payload_issues {u v w : Upstream} {l : LinkId} {c : ClientId} {g : Grant} {p : Payload}
    (hg : u.grant l c = (some g, v)) (hp : v.payload l c g = some (p, w)) : w.Issues c p.range := by
  obtain ⟨job, hjob, hp⟩ := Option.bind_eq_some_iff.mp hp
  obtain ⟨tuned, -, hp⟩ := Option.map_eq_some_iff.mp hp
  obtain ⟨rfl, rfl⟩ := Prod.mk.inj hp
  have hissues : v.Issues c g := grant_issues hg (by rw [hjob]; simp)
  exact hissues

theorem fanout_moves (l : LinkId) (cs : List ClientId) (u : Upstream) :
    Moves owes places u (u.fanout l cs).2 := by
  induction cs generalizing u with
  | nil => exact .refl u
  | cons c cs ih =>
    unfold fanout
    rcases hg : u.grant l c with ⟨_ | g, v⟩
    · exact ((grant_moves hg).trans (migrate_moves v l c .fanout trivial)).trans (ih _)
    · dsimp only
      cases hp : v.payload l c g with
      | none => exact grant_moves hg
      | some pw =>
        have htune : Moves owes places v pw.2 := payload_moves (p := pw.1) hp
        have hemit : Moves owes places pw.2 (pw.2.emit (.job c pw.1)) :=
          emit_moves pw.2 (payload_issues hg hp)
        exact (((grant_moves hg).trans htune).trans hemit).trans (ih _)

theorem accept_moves (u : Upstream) {l : LinkId} (hl : places l) (job : StratumJob) :
    Moves owes places u (u.accept l job).2 :=
  ((observeInterval_moves u l).trans (.single (.place l job hl))).trans (fanout_moves l _ _)

theorem sever_moves (u : Upstream) (l : LinkId) : Moves owes places u (u.sever l) := by
  have key : ∀ v : Upstream, Moves owes places u v → Moves owes places u
      ((u.link l).clients.foldl (fun u c => u.attach c .rehome) v.reslice) := by
    intro v h
    exact (h.trans (reslice_moves v)).trans
      (Moves.foldl (fun w c => attach_moves w c .rehome trivial) _ _)
  have hdrop : Moves owes places u { u.setLink l (fun k => { k with
      job := none, socket := false, load := 0, clients := [] }) with
      links := u.links.erase l
      homes := fun c => if c ∈ (u.link l).clients then none else u.homes c } :=
    Keeps.moves (Keeps.of_same rfl rfl rfl rfl (spaces_update rfl rfl))
  unfold sever
  dsimp only
  split_ifs
  · exact (key _ hdrop).trans (emit_moves _ trivial)
  · exact key _ hdrop

theorem hangUp_moves (u : Upstream) (l : LinkId) : Moves owes places u (u.hangUp l) :=
  (setLink_moves u l rfl).trans (sever_moves _ l)

theorem finishAttach_moves (u : Upstream) (c : ClientId) (picked : Except String LinkId) :
    Moves owes places u (u.finishAttach c picked).2 := by
  unfold finishAttach
  cases picked with
  | error message => exact detach_moves u c
  | ok l =>
    dsimp only
    split_ifs
    · have hhouse : Moves owes places u (u.house l c) := house_moves u l c
      rcases hg : (u.house l c).grant l c with ⟨_ | g, v⟩
      · exact (hhouse.trans (grant_moves hg)).trans (detach_moves v c)
      · dsimp only
        cases hp : v.payload l c g with
        | none => exact (hhouse.trans (grant_moves hg)).trans (detach_moves v c)
        | some pw => exact (hhouse.trans (grant_moves hg)).trans (payload_moves (p := pw.1) hp)
    · exact detach_moves u c

/-- An `attach` that succeeds hands out a range of the miner's own. -/
theorem finishAttach_issues {u : Upstream} {c : ClientId} {picked : Except String LinkId}
    {p : Payload} (h : (u.finishAttach c picked).1 = .ok p) :
    (u.finishAttach c picked).2.Issues c p.range := by
  unfold finishAttach at h ⊢
  cases picked with
  | error message => cases h
  | ok l =>
    dsimp only at h ⊢
    split_ifs at h ⊢
    rcases hg : (u.house l c).grant l c with ⟨_ | g, v⟩
    · rw [hg] at h
      cases h
    · rw [hg] at h
      dsimp only at h ⊢
      cases hp : v.payload l c g with
      | none =>
        rw [hp] at h
        cases h
      | some pw =>
        rw [hp] at h
        obtain rfl := Except.ok.inj h
        exact payload_issues hg hp

theorem finishMigrate_moves (u : Upstream) (source : LinkId) (c : ClientId)
    (picked : Except String LinkId) : Moves owes places u (u.finishMigrate source c picked).2 := by
  unfold finishMigrate
  cases picked with
  | error message => exact .refl u
  | ok l =>
    dsimp only
    split_ifs
    · have hmove : Moves owes places u ((u.evict c).house l c) :=
        (evict_moves u c).trans (house_moves (u.evict c) l c)
      rcases hg : ((u.evict c).house l c).grant l c with ⟨_ | g, v⟩
      · have hcut := hmove.trans (grant_moves hg)
        dsimp only
        split_ifs
        · exact (hcut.trans (evict_moves v c)).trans (house_moves _ source c)
        · exact hcut
      · have hcut := hmove.trans (grant_moves hg)
        dsimp only
        cases hp : v.payload l c g with
        | none => exact hcut
        | some pw =>
          have hemit : Moves owes places pw.2 (pw.2.emit (.job c pw.1)) :=
            emit_moves pw.2 (payload_issues hg hp)
          exact (hcut.trans (payload_moves (p := pw.1) hp)).trans hemit
    · exact .refl u

theorem attachDone_moves {u : Upstream} {c : ClientId} {origin : Origin} {r : Except String Payload}
    (ho : origin.Owes owes c) (hr : ∀ p, r = .ok p → u.Issues c p.range) :
    Moves owes places u (u.attachDone c origin r) := by
  cases origin with
  | login call => cases r with
    | error message => exact emit_moves u trivial
    | ok p => exact emit_moves u ⟨c, ho, hr p rfl⟩
  | rehome => cases r with
    | error message => exact emit_moves u trivial
    | ok p => exact emit_moves u (hr p rfl)
  | fanout => exact .refl u
  | chunk call => exact .refl u
  | sweep => exact .refl u

theorem migrateDone_moves (u : Upstream) (source : LinkId) (c : ClientId) (origin : Origin)
    (r : Except String Bool) : Moves owes places u (u.migrateDone source c origin r) := by
  unfold migrateDone
  split
  · exact emit_moves u trivial
  · exact emit_moves u trivial
  · exact emit_moves u trivial
  · exact emit_moves u trivial
  · exact .refl u

theorem finish_moves (u : Upstream) {t : Task} (ht : t.origin.Owes owes t.client)
    (r : Except String LinkId) : Moves owes places u (u.finish t r) := by
  unfold finish
  cases t.goal with
  | attach =>
    exact (finishAttach_moves u t.client r).trans
      (attachDone_moves ht fun p hp => finishAttach_issues hp)
  | migrate source =>
    exact (finishMigrate_moves u source t.client r).trans (migrateDone_moves _ source t.client _ _)

theorem resume_moves {u v : Upstream} {i : ℕ} (hu : u.Owed owes) (h : u.resume i = some v) :
    Moves owes places u v := by
  obtain ⟨t, ht, h⟩ := Option.bind_eq_some_iff.mp h
  have howes := hu t (List.mem_of_getElem? ht)
  cases hphase : t.phase with
  | waiting l =>
    rw [hphase] at h
    dsimp only at h
    split_ifs at h
    rw [Option.some.injEq] at h
    refine h ▸ (pick_moves u t.client (Goal.exclude t.goal)).trans (setPhase_moves ?_ _)
    rw [pick_tasks]
    exact ht
  | opening l roomiest =>
    rw [hphase] at h
    dsimp only at h
    cases hopening : (u.link l).opening with
    | up =>
      rw [hopening, Option.some.injEq] at h
      have htasks : u.reslice.tasks = u.tasks := (core_eq (core_reslice u)).2.2.2.1
      exact h ▸ (reslice_moves u).trans (setPhase_moves (htasks ▸ ht) _)
    | failed message =>
      rw [hopening, Option.some.injEq] at h
      have hlinks : Moves owes places u { u with links := u.links.erase l } :=
        Keeps.moves (Keeps.of_same rfl rfl rfl rfl fun _ => rfl)
      refine h ▸ hlinks.trans ?_
      apply setPhase_moves
      exact ht
    | idle => simp [hopening] at h
    | dialing => simp [hopening] at h
    | login => simp [hopening] at h
  | picked l =>
    rw [hphase, Option.some.injEq] at h
    exact h ▸ (eraseTask_moves u i).trans (finish_moves _ howes _)
  | failed message =>
    rw [hphase, Option.some.injEq] at h
    exact h ▸ (eraseTask_moves u i).trans (finish_moves _ howes _)

theorem chunk_moves (u : Upstream) {call : ℕ} {c : ClientId} (h : owes call c) (job_id : String) :
    Moves owes places u (u.chunk call c job_id) := by
  unfold chunk
  cases u.homes c with
  | none => exact emit_moves u trivial
  | some l =>
    dsimp only
    cases hjob : (u.link l).job with
    | none => exact emit_moves u trivial
    | some job =>
      dsimp only
      split_ifs
      · exact emit_moves u trivial
      · rcases hg : u.grant l c with ⟨_ | g, v⟩
        · exact (grant_moves hg).trans (migrate_moves v l c (.chunk call) h)
        · have hkept : (v.link l).job = (u.link l).job := by
            rcases grant_cases u l c with h' | ⟨space, ⟨r, h', -⟩ | ⟨g', job', -, h'⟩⟩ <;>
              rw [hg, Prod.mk.injEq] at h' <;> rw [h'.2]
            · simp [setLink]
            · simp [setLink, record]
          exact (grant_moves hg).trans
            (emit_moves v ⟨c, h, grant_issues hg (by rw [hkept, hjob]; simp)⟩)

theorem submit_moves {u v : Upstream} {call : ℕ} {c : ClientId} {job_id nonce result : String}
    {l : LinkId} (h : u.submit call c job_id nonce result = some (l, v)) :
      Moves owes places u v := by
  obtain ⟨m, -, h⟩ := Option.bind_eq_some_iff.mp h
  have hstray : Moves owes places u { u with stray_shares := u.stray_shares + 1 } :=
    Keeps.moves (Keeps.of_same rfl rfl rfl rfl fun _ => rfl)
  split_ifs at h
  · obtain ⟨-, rfl⟩ := Prod.mk.inj (Option.some.inj h)
    exact hstray.trans (emit_moves _ trivial)
  · obtain ⟨-, rfl⟩ := Prod.mk.inj (Option.some.inj h)
    exact emit_moves u trivial

theorem rejected_moves (u : Upstream) (stray : Bool) : Moves owes places u (u.rejected stray) := by
  have hcount : Moves owes places u { u with stray_rejects := u.stray_rejects + 1 } :=
    Keeps.moves (Keeps.of_same rfl rfl rfl rfl fun _ => rfl)
  have hnarrow : ∀ v : Upstream, Moves owes places v v.narrow := by
    intro v
    have hoff : Moves owes places v { v with expand := false } :=
      Keeps.moves (Keeps.of_same rfl rfl rfl rfl fun _ => rfl)
    unfold narrow
    split_ifs
    · exact hoff.trans (Moves.foldl (fun w l => setLink_moves w l rfl) _ _)
    · exact .refl v
  unfold rejected
  dsimp only
  split_ifs
  · exact hcount.trans (hnarrow _)
  · exact hcount
  · exact .refl u

theorem drain_moves (u : Upstream) (l : LinkId) (cs : List ClientId) :
    Moves owes places u (u.drain l cs) :=
  Moves.foldl (fun v c => migrate_moves v l c .sweep trivial) cs u

theorem rebalance_moves (u : Upstream) : Moves owes places u u.rebalance := by
  have hsweep : ∀ (v : Upstream) (l : LinkId), Moves owes places v (v.sweepLink l) := by
    intro v l
    unfold sweepLink
    dsimp only
    split_ifs
    · exact setLink_moves v l rfl
    · exact hangUp_moves v l
    · exact .refl v
    · obtain ⟨cs, h⟩ :=
        shed_drain l (v.link l).clients (v.setLink l fun k => { k with idle_at := 0 })
        (-(v.link l).headroom)
      exact h ▸ (setLink_moves v l rfl).trans (drain_moves _ l cs)
  have hconsolidate : ∀ v : Upstream, Moves owes places v v.consolidate := by
    intro v
    obtain ⟨l, cs, h⟩ := consolidate_drain v
    exact h ▸ drain_moves v l cs
  exact (Moves.foldl hsweep u.links u).trans (hconsolidate _)

theorem dialed_moves (u : Upstream) (l : LinkId) (outcome : Except String Unit) :
    Moves owes places u (u.dialed l outcome) := by
  unfold dialed
  cases outcome <;> exact setLink_moves u l rfl

theorem loggedIn_moves (u : Upstream) {l : LinkId} {outcome : Except String StratumJob}
    (hl : ∀ job, outcome = .ok job → (u.link l).job = none → places l) :
    Moves owes places u (u.loggedIn l outcome) := by
  have hsocket : Moves owes places u (u.setLink l fun k => { k with socket := true }) :=
    setLink_moves u l rfl
  have hjob : ((u.setLink l fun k => { k with socket := true }).link l).job = (u.link l).job := by
    simp [setLink]
  unfold loggedIn
  cases outcome with
  | error message => exact setLink_moves u l rfl
  | ok job =>
    dsimp only
    split
    · exact hsocket.trans (setLink_moves _ l rfl)
    · rename_i hnone
      rw [hjob] at hnone
      have hplaces := hl job rfl (Option.not_isSome_iff_eq_none.mp hnone)
      exact (hsocket.trans (accept_moves _ hplaces job)).trans (setLink_moves _ l rfl)

theorem lost_moves (u : Upstream) (l : LinkId) : Moves owes places u (u.lost l) := by
  unfold lost
  dsimp only
  split_ifs
  · exact (hangUp_moves u l).trans (setLink_moves _ l rfl)
  · exact hangUp_moves u l

theorem close_moves (u : Upstream) : Moves owes places u u.close := by
  refine Keeps.moves ⟨fun _ => Or.inr rfl, rfl, fun l => ?_, Or.inl rfl,
    fun t ht => ⟨t, ht, rfl, rfl⟩⟩
  unfold close
  dsimp only
  split_ifs <;> rfl

/-- What is delivered has been handled. -/
theorem handled_moves (u : Upstream) : Moves owes places u { u with outbox := [] } :=
  Keeps.moves ⟨fun _ => Or.inl rfl, rfl, fun _ => rfl, Or.inr rfl, fun t ht => ⟨t, ht, rfl, rfl⟩⟩

/-! ### Steps -/

/-- The caller of a request stands for its miner. -/
def Action.Owes (owes : ℕ → ClientId → Prop) : Action → Prop
  | .attach call c => owes call c
  | .chunk call c _ => owes call c
  | _ => True

/-- A job arrives on the link, as far as it has none when its login ends. -/
def arrives (u : Upstream) (l : LinkId) : Action → Bool
  | .job m _ => m = l
  | .loggedIn m (.ok _) => m = l && (u.link l).job.isNone
  | _ => false

theorem step_moves {u v : Upstream} {a : Action} (hu : u.Owed owes) (ha : a.Owes owes)
    (hp : ∀ l, u.arrives l a = true → places l) (h : u.step a = some v) :
      Moves owes places u v := by
  cases a with
  | attach call c =>
    rw [step, Option.some.injEq] at h
    exact h ▸ attach_moves u c (.login call) ha
  | detach c =>
    rw [step, Option.some.injEq] at h
    exact h ▸ detach_moves u c
  | report c hashrate =>
    rw [step, Option.some.injEq] at h
    exact h ▸ report_moves u c hashrate
  | chunk call c job_id =>
    rw [step, Option.some.injEq] at h
    exact h ▸ chunk_moves u ha job_id
  | submit call c job_id nonce result =>
    obtain ⟨⟨l, w⟩, hw, rfl⟩ := Option.map_eq_some_iff.mp h
    exact submit_moves hw
  | rejected stray =>
    rw [step, Option.some.injEq] at h
    exact h ▸ rejected_moves u stray
  | resume i => exact resume_moves hu h
  | dialed l outcome =>
    simp only [step] at h
    split_ifs at h
    rw [Option.some.injEq] at h
    exact h ▸ dialed_moves u l outcome
  | loggedIn l outcome =>
    simp only [step] at h
    split_ifs at h
    rw [Option.some.injEq] at h
    refine h ▸ loggedIn_moves u (fun job hjob hnone => hp l ?_)
    simp [arrives, hjob, hnone]
  | job l job =>
    simp only [step] at h
    split_ifs at h
    rw [Option.some.injEq] at h
    exact h ▸ accept_moves u (hp l (by simp [arrives])) job
  | lost l =>
    simp only [step] at h
    split_ifs at h
    rw [Option.some.injEq] at h
    exact h ▸ lost_moves u l
  | rebalance =>
    simp only [step] at h
    split_ifs at h
    rw [Option.some.injEq] at h
    exact h ▸ rebalance_moves u
  | tick ms =>
    rw [step, Option.some.injEq] at h
    exact h ▸ Keeps.moves (Keeps.of_same rfl rfl rfl rfl fun _ => rfl)
  | close =>
    rw [step, Option.some.injEq] at h
    exact h ▸ close_moves u

/-! ### What moves keep -/

/-- What every single move keeps is kept by a chain of them. -/
theorem Moves.keeps {P : Upstream → Prop} (hP : ∀ u v, Move owes places u v → P u → P v)
    {u v : Upstream} (h : Moves owes places u v) (hu : P u) : P v := by
  induction h with
  | refl => exact hu
  | tail _ hmove ih => exact hP _ _ hmove ih

theorem grant_issued (u : Upstream) (l : LinkId) (c x : ClientId) :
    u.issued x <+: (u.grant l c).2.issued x := by
  rcases grant_cases u l c with h | ⟨space, ⟨r, h, -⟩ | ⟨g, job, -, h⟩⟩
  · rw [h]
  · rw [h]
    exact List.prefix_refl _
  · rw [h]
    unfold record
    dsimp only
    rw [Function.update_apply]
    split_ifs with hx
    · subst hx
      exact List.prefix_append _ _
    · exact List.prefix_refl _

/-- The record of ranges only grows. -/
theorem Moves.issued {u v : Upstream} (h : Moves owes places u v) (c : ClientId) :
    u.issued c <+: v.issued c := by
  refine h.keeps (P := fun w => u.issued c <+: w.issued c) ?_ (List.prefix_refl _)
  intro w w' hmove hw
  refine hw.trans ?_
  cases hmove with
  | keep h => rw [h.issued]
  | suspend t h => exact List.prefix_refl _
  | grant l x => exact grant_issued w l x c
  | emit d h => exact List.prefix_refl _
  | place l job h => exact List.prefix_refl _

theorem Moves.issues {u v : Upstream} (h : Moves owes places u v) {c : ClientId} {g : Grant}
    (hg : u.Issues c g) : v.Issues c g := by
  obtain ⟨r, hr, hrange⟩ := hg
  exact ⟨r, (h.issued c).subset hr, hrange⟩

theorem Owed.mono {owes' : ℕ → ClientId → Prop} {u : Upstream} (h : u.Owed owes)
    (himp : ∀ n c, owes n c → owes' n c) : u.Owed owes' := by
  intro t ht
  have howes := h t ht
  cases horigin : t.origin with
  | login n => exact himp n t.client (by simpa [horigin, Origin.Owes] using howes)
  | chunk n => exact himp n t.client (by simpa [horigin, Origin.Owes] using howes)
  | rehome => trivial
  | fanout => trivial
  | sweep => trivial

theorem Vouched.mono {owes' : ℕ → ClientId → Prop} {u v : Upstream} {d : Delivery}
    (h : u.Vouched owes d) (hissues : ∀ c g, u.Issues c g → v.Issues c g)
    (howes : ∀ n c, owes n c → owes' n c) : v.Vouched owes' d := by
  unfold Vouched at h ⊢
  split at h
  · exact hissues _ _ h
  · obtain ⟨c, hc, hg⟩ := h
    exact ⟨c, howes _ _ hc, hissues _ _ hg⟩
  · obtain ⟨c, hc, hg⟩ := h
    exact ⟨c, howes _ _ hc, hissues _ _ hg⟩
  · exact trivial

/-- The suspended calls and the deliveries are for the miners that the callers stand for. -/
structure Honest (owes : ℕ → ClientId → Prop) (u : Upstream) : Prop where
  owed : u.Owed owes
  vouched : ∀ d ∈ u.outbox, u.Vouched owes d

theorem Moves.honest {u v : Upstream} (h : Moves owes places u v) (hu : u.Honest owes) :
    v.Honest owes := by
  refine h.keeps (P := Honest owes) ?_ hu
  intro w w' hmove hw
  have hchain : Moves owes places w w' := .single hmove
  have hissues : ∀ c g, w.Issues c g → w'.Issues c g := fun c g hg => hchain.issues hg
  have hold : ∀ d ∈ w.outbox, w'.Vouched owes d := fun d hd =>
    (hw.vouched d hd).mono hissues fun _ _ hc => hc
  cases hmove with
  | keep h =>
    refine ⟨fun t ht => ?_, fun d hd => ?_⟩
    · obtain ⟨t', ht', hclient, horigin⟩ := h.tasks t ht
      rw [← hclient, ← horigin]
      exact hw.owed t' ht'
    · rcases h.outbox with hout | hout
      · exact hold d (hout ▸ hd)
      · rw [hout] at hd
        exact absurd hd List.not_mem_nil
  | suspend t h =>
    refine ⟨fun t' ht => ?_, hold⟩
    rcases List.mem_append.mp ht with ht | ht
    · exact hw.owed t' ht
    · rw [List.mem_singleton.mp ht]
      exact h
  | grant l x =>
    obtain ⟨htasks, hout⟩ : (w.grant l x).2.tasks = w.tasks ∧
      (w.grant l x).2.outbox = w.outbox := by
      rcases grant_cases w l x with h | ⟨space, ⟨r, h, -⟩ | ⟨g, job, -, h⟩⟩ <;> rw [h] <;>
        exact ⟨rfl, rfl⟩
    exact ⟨fun t ht => hw.owed t (htasks ▸ ht), fun d hd => hold d (hout ▸ hd)⟩
  | emit d h =>
    refine ⟨hw.owed, fun d' hd => ?_⟩
    rcases List.mem_append.mp hd with hd | hd
    · exact hold d' hd
    · rw [List.mem_singleton.mp hd]
      exact h.mono hissues fun _ _ hc => hc
  | place l job h => exact ⟨hw.owed, hold⟩

end Upstream

end NMiner
