import NMiner.Proofs.Stranded

/-! Every event of an upstream is a chain of shifts: a link is dialed for a pick, a miner is housed,
a suspended call goes on or ends, a link is lost, or nothing happens that concerns sockets. What is
true of the sockets of an upstream, and of who waits for them, needs to be checked for these shifts
alone. -/

namespace NMiner

open Relation (ReflTransGen)

/-- A link is neither dialed nor lost: its socket is left alone, a job it has is at most replaced,
and no miner moves in. Jobs come from a socket. -/
structure Link.Rests (k k' : Link) : Prop where
  opening : k'.opening = k.opening
  plug : k'.plug = k.plug
  socket : k'.socket = k.socket
  job : k.job.isSome = true → k'.job.isSome = true
  unplugged : k.plug = .absent → k'.job = k.job
  job_at : k'.job = none → k'.job_at = k.job_at
  clients : k.clients = [] → k'.clients = []

theorem Link.Rests.refl (k : Link) : k.Rests k :=
  ⟨rfl, rfl, rfl, id, fun _ => rfl, fun _ => rfl, id⟩

theorem Link.Rests.jobless {k k' : Link} (h : k.Rests k') (hk : k'.job = none) : k.job = none := by
  by_contra hjob
  have hsome := h.job (Option.isSome_iff_ne_none.mpr hjob)
  rw [hk] at hsome
  cases hsome

theorem Link.Rests.trans {k k' k'' : Link} (h : k.Rests k') (h' : k'.Rests k'') : k.Rests k'' :=
  ⟨h'.opening.trans h.opening, h'.plug.trans h.plug, h'.socket.trans h.socket,
    fun hjob => h'.job (h.job hjob),
    fun hplug => (h'.unplugged (h.plug.trans hplug)).trans (h.unplugged hplug),
    fun hjob => (h'.job_at hjob).trans (h.job_at (h'.jobless hjob)),
    fun hclients => h'.clients (h.clients hclients)⟩

/-- The link that the call settles on, or falls back to, as far as it is known by now. -/
def Phase.target : Phase → Option LinkId
  | .picked l => some l
  | .opening _ roomiest => roomiest
  | _ => none

/-- The link that is being opened for the call. -/
def Phase.opens : Phase → Option LinkId
  | .opening l _ => some l
  | _ => none

def Phase.rejected : Phase → Bool
  | .failed _ => true
  | _ => false

/-- `pick` may have settled on the link. -/
def Link.Known (k : Link) : Prop :=
  k.job.isSome = true ∨ k.plug = .shut ∨ k.opening = .up ∨ ∃ message, k.opening = .failed message

theorem Link.Rests.known {k k' : Link} (h : k.Rests k') (hk : k.Known) : k'.Known := by
  unfold Link.Known
  rw [h.opening, h.plug]
  exact hk.imp_left h.job

namespace Upstream

/-- No link but this one changes, no call goes on, and nobody is attached or housed. -/
structure Turns (l : LinkId) (u v : Upstream) : Prop where
  maxLinks : v.maxLinks = u.maxLinks
  nextLink : v.nextLink = u.nextLink
  closed : v.closed = u.closed
  tasks : v.tasks = u.tasks
  live : v.live ⊆ u.live
  homes : ∀ c, u.homes c = none → v.homes c = none
  others : ∀ m ≠ l, (u.link m).Rests (v.link m)

/-- Nothing happens that concerns sockets or suspended calls. -/
structure Rests (u v : Upstream) : Prop where
  turns : ∀ l, Turns l u v
  links : v.links = u.links
  link : ∀ l, (u.link l).Rests (v.link l)

/-- The socket of a link is gone, and the miners on it. -/
structure Drops (l : LinkId) (u v : Upstream) : Prop where
  turns : Turns l u v
  links : v.links = u.links.erase l
  opening : (v.link l).opening = (u.link l).opening
  plug : (v.link l).plug = .shut
  socket : (v.link l).socket = false
  clients : (v.link l).clients = []

/-- `cut` are the links that may be lost before their login has ended. -/
inductive Shift (cut : LinkId → Prop) (u : Upstream) : Upstream → Prop
  | rest {v : Upstream} (h : Rests u v) : Shift cut u v
  | drop {v : Upstream} (l : LinkId) (hcut : (u.link l).socket = true ∨ cut l) (h : Drops l u v) :
      Shift cut u v
  | unlist (l : LinkId) (message : String) (h : (u.link l).opening = .failed message) :
      Shift cut u { u with links := u.links.erase l }
  | house (l : LinkId) (c : ClientId) (hl : (u.link l).Known ∨ (u.link l).socket = true)
      (hc : c ∈ u.live) : Shift cut u (u.house l c)
  | attach (c : ClientId) (origin : Origin) : Shift cut u (u.attach c origin)
  | migrate (l : LinkId) (c : ClientId) (origin : Origin) : Shift cut u (u.migrate l c origin)
  | settle (i : ℕ) (t : Task) (ht : u.tasks[i]? = some t)
      (hgoal : t.goal = .attach → t.phase.rejected = false) :
      Shift cut u { u with tasks := u.tasks.eraseIdx i }
  | giveUp (i : ℕ) (t : Task) (ht : u.tasks[i]? = some t) :
      Shift cut u (detach { u with tasks := u.tasks.eraseIdx i } t.client)
  | phase (i : ℕ) (t : Task) (p : Phase) (ht : u.tasks[i]? = some t)
      (hopen : t.phase.rejected = false) (hpick : p.opens = none)
      (hp : ∀ l, p.target = some l → (u.link l).Known) :
      Shift cut u (u.setPhase i t p)
  | repick (i : ℕ) (t : Task) (ht : u.tasks[i]? = some t) (hopen : t.phase.rejected = false) :
      Shift cut u ((u.pick t.client (Goal.exclude t.goal)).2.setPhase i t
        (u.pick t.client (Goal.exclude t.goal)).1)

def Shifts (cut : LinkId → Prop) : Upstream → Upstream → Prop := ReflTransGen (Shift cut)

variable {cut : LinkId → Prop}

theorem Shifts.refl (u : Upstream) : Shifts cut u u := ReflTransGen.refl

theorem Shifts.trans {u v w : Upstream} (h : Shifts cut u v) (h' : Shifts cut v w) :
    Shifts cut u w := ReflTransGen.trans h h'

theorem Shifts.foldl {α : Type*} {f : Upstream → α → Upstream} (hf : ∀ u a, Shifts cut u (f u a))
    (as : List α) (u : Upstream) : Shifts cut u (as.foldl f u) := by
  induction as generalizing u with
  | nil => exact .refl u
  | cons a as ih => exact (hf u a).trans (ih _)

/-- What every single shift keeps is kept by a chain of them. -/
theorem Shifts.keeps {P : Upstream → Prop} (hP : ∀ u v, Shift cut u v → P u → P v)
    {u v : Upstream} (h : Shifts cut u v) (hu : P u) : P v := by
  induction h with
  | refl => exact hu
  | tail _ hshift ih => exact hP _ _ hshift ih

/-! ### Shifts that concern no sockets -/

theorem Rests.refl (u : Upstream) : Rests u u :=
  ⟨fun _ => ⟨rfl, rfl, rfl, rfl, Finset.Subset.refl _, fun _ h => h, fun _ _ => .refl _⟩, rfl,
    fun _ => .refl _⟩

theorem Turns.trans {l : LinkId} {u v w : Upstream} (h : Turns l u v) (h' : Turns l v w) :
    Turns l u w :=
  ⟨h'.maxLinks.trans h.maxLinks, h'.nextLink.trans h.nextLink, h'.closed.trans h.closed,
    h'.tasks.trans h.tasks, h'.live.trans h.live, fun c hc => h'.homes c (h.homes c hc),
    fun m hm => (h.others m hm).trans (h'.others m hm)⟩

theorem Rests.trans {u v w : Upstream} (h : Rests u v) (h' : Rests v w) : Rests u w :=
  ⟨fun l => (h.turns l).trans (h'.turns l), h'.links.trans h.links,
    fun l => (h.link l).trans (h'.link l)⟩

theorem Rests.foldl {α : Type*} {f : Upstream → α → Upstream} (hf : ∀ u a, Rests u (f u a))
    (as : List α) (u : Upstream) : Rests u (as.foldl f u) := by
  induction as generalizing u with
  | nil => exact .refl u
  | cons a as ih => exact (hf u a).trans (ih _)

theorem Rests.shifts {u v : Upstream} (h : Rests u v) : Shifts cut u v := .single (.rest h)

/-- Only what is neither a link nor a call has changed. -/
theorem Rests.of_same {u v : Upstream} (hmax : v.maxLinks = u.maxLinks)
    (hnext : v.nextLink = u.nextLink) (hclosed : v.closed = u.closed) (htasks : v.tasks = u.tasks)
    (hlive : v.live ⊆ u.live) (hhomes : ∀ c, u.homes c = none → v.homes c = none)
    (hlinks : v.links = u.links) (hlink : ∀ l, (u.link l).Rests (v.link l)) : Rests u v :=
  ⟨fun _ => ⟨hmax, hnext, hclosed, htasks, hlive, hhomes, fun m _ => hlink m⟩, hlinks, hlink⟩

theorem update_rests {f : LinkId → Link} {l : LinkId} {k : Link} (h : (f l).Rests k) (m : LinkId) :
    (f m).Rests (Function.update f l k m) := by
  by_cases hm : m = l
  · subst hm
    rw [Function.update_self]
    exact h
  · rw [Function.update_of_ne hm]
    exact .refl _

theorem setLink_rests (u : Upstream) (l : LinkId) {f : Link → Link}
    (h : (u.link l).Rests (f (u.link l))) : Rests u (u.setLink l f) :=
  .of_same rfl rfl rfl rfl (Finset.Subset.refl _) (fun _ h => h) rfl (update_rests h)

theorem setLink_turns (u : Upstream) (l : LinkId) (f : Link → Link) :
    Turns l u (u.setLink l f) := by
  refine ⟨rfl, rfl, rfl, rfl, Finset.Subset.refl _, fun _ h => h, fun m hm => ?_⟩
  unfold setLink
  dsimp only
  rw [Function.update_of_ne hm]
  exact .refl _

theorem emit_rests (u : Upstream) (d : Delivery) : Rests u (u.emit d) :=
  .of_same rfl rfl rfl rfl (Finset.Subset.refl _) (fun _ h => h) rfl fun _ => .refl _

theorem setClient_rests (u : Upstream) (c : ClientId) (f : Client → Client) :
    Rests u (u.setClient c f) :=
  .of_same rfl rfl rfl rfl (Finset.Subset.refl _) (fun _ h => h) rfl fun _ => .refl _

theorem evict_rests (u : Upstream) (c : ClientId) : Rests u (u.evict c) := by
  unfold evict
  cases u.homes c with
  | none => exact .refl u
  | some l =>
    refine .of_same rfl rfl rfl rfl (Finset.Subset.refl _) (fun x hx => ?_) rfl (update_rests ?_)
    · dsimp only
      rw [Function.update_apply, hx, ite_self]
    · refine ⟨rfl, rfl, rfl, id, fun _ => rfl, fun _ => rfl, fun hclients => ?_⟩
      dsimp only
      rw [hclients, List.erase_nil]

theorem detach_rests (u : Upstream) (c : ClientId) : Rests u (u.detach c) := by
  have hlive : Rests u { u with live := u.live.erase c } :=
    .of_same rfl rfl rfl rfl (Finset.erase_subset c u.live) (fun _ h => h) rfl fun _ => .refl _
  have hledger : ∀ v : Upstream, Rests v { v with ledgers := Function.update v.ledgers c {} } :=
    fun v => .of_same rfl rfl rfl rfl (Finset.Subset.refl _) (fun _ h => h) rfl fun _ => .refl _
  exact (hlive.trans (evict_rests _ c)).trans (hledger _)

theorem report_rests (u : Upstream) (c : ClientId) (hashrate : ℚ) :
    Rests u (u.report c hashrate) := by
  unfold report
  split_ifs
  · refine Rests.trans ?_ (setClient_rests _ c _)
    cases u.homes c with
    | none => exact .refl u
    | some l => exact setLink_rests u l ⟨rfl, rfl, rfl, id, fun _ => rfl, fun _ => rfl, id⟩
  · exact .refl u

theorem observeInterval_rests (u : Upstream) (l : LinkId) : Rests u (u.observeInterval l) := by
  unfold observeInterval
  dsimp only
  split_ifs
  · exact .refl u
  · refine (setLink_rests u l ⟨rfl, rfl, rfl, id, fun _ => rfl, fun _ => rfl, id⟩).trans
      (Rests.foldl (fun v m => ?_) _ _)
    split_ifs
    · exact setLink_rests v m ⟨rfl, rfl, rfl, id, fun _ => rfl, fun _ => rfl, id⟩
    · exact .refl v
  · exact setLink_rests u l ⟨rfl, rfl, rfl, id, fun _ => rfl, fun _ => rfl, id⟩

theorem setJob_rests (u : Upstream) {l : LinkId} (hl : (u.link l).plug ≠ .absent)
    (job : StratumJob) : Rests u (u.setJob l job) := by
  unfold setJob
  exact setLink_rests u l ⟨rfl, rfl, rfl, fun _ => rfl, fun h => absurd h hl,
    fun h => (by cases h), id⟩

theorem reslice_rests (u : Upstream) : Rests u u.reslice :=
  Rests.foldl (fun v _ => setLink_rests v _ ⟨rfl, rfl, rfl, id, fun _ => rfl, fun _ => rfl, id⟩) _ u

theorem grant_rests {u v : Upstream} {l : LinkId} {c : ClientId} {r : Option Grant}
    (h : u.grant l c = (r, v)) : Rests u v := by
  have hspace : ∀ space, Rests u (u.setLink l fun k => { k with space := space }) :=
    fun space => setLink_rests u l ⟨rfl, rfl, rfl, id, fun _ => rfl, fun _ => rfl, id⟩
  have hrecord : ∀ (w : Upstream) job g, Rests w (w.record c l job g) := fun w job g =>
    .of_same rfl rfl rfl rfl (Finset.Subset.refl _) (fun _ h => h) rfl fun _ => .refl _
  rcases grant_cases u l c with h' | ⟨space, ⟨r', h', -⟩ | ⟨g, job, -, h'⟩⟩ <;>
    rw [h, Prod.mk.injEq] at h' <;> rw [h'.2]
  · exact .refl u
  · exact hspace space
  · exact (hspace space).trans (hrecord _ job g)

theorem payload_rests {u v : Upstream} {l : LinkId} {c : ClientId} {g : Grant} {p : Payload}
    (h : u.payload l c g = some (p, v)) : Rests u v := by
  obtain ⟨job, -, h⟩ := Option.bind_eq_some_iff.mp h
  obtain ⟨w, -, h⟩ := Option.map_eq_some_iff.mp h
  obtain ⟨-, rfl⟩ := Prod.mk.inj h
  exact setClient_rests u c _

theorem attachDone_rests (u : Upstream) (c : ClientId) (origin : Origin)
    (r : Except String Payload) : Rests u (u.attachDone c origin r) := by
  unfold attachDone
  split
  · exact emit_rests u _
  · exact emit_rests u _
  · exact emit_rests u _
  · exact .refl u

theorem migrateDone_rests (u : Upstream) (source : LinkId) (c : ClientId) (origin : Origin)
    (r : Except String Bool) : Rests u (u.migrateDone source c origin r) := by
  unfold migrateDone
  split
  · exact emit_rests u _
  · exact emit_rests u _
  · exact emit_rests u _
  · exact emit_rests u _
  · exact .refl u

theorem submit_rests {u v : Upstream} {call : ℕ} {c : ClientId} {job_id nonce result : String}
    {l : LinkId} (h : u.submit call c job_id nonce result = some (l, v)) : Rests u v := by
  obtain ⟨m, -, h⟩ := Option.bind_eq_some_iff.mp h
  have hstray : Rests u { u with stray_shares := u.stray_shares + 1 } :=
    .of_same rfl rfl rfl rfl (Finset.Subset.refl _) (fun _ h => h) rfl fun _ => .refl _
  split_ifs at h
  · obtain ⟨-, rfl⟩ := Prod.mk.inj (Option.some.inj h)
    exact hstray.trans (emit_rests _ _)
  · obtain ⟨-, rfl⟩ := Prod.mk.inj (Option.some.inj h)
    exact emit_rests u _

theorem rejected_rests (u : Upstream) (stray : Bool) : Rests u (u.rejected stray) := by
  have hcount : Rests u { u with stray_rejects := u.stray_rejects + 1 } :=
    .of_same rfl rfl rfl rfl (Finset.Subset.refl _) (fun _ h => h) rfl fun _ => .refl _
  have hnarrow : ∀ v : Upstream, Rests v v.narrow := by
    intro v
    have hoff : Rests v { v with expand := false } :=
      .of_same rfl rfl rfl rfl (Finset.Subset.refl _) (fun _ h => h) rfl fun _ => .refl _
    unfold narrow
    split_ifs
    · exact hoff.trans (Rests.foldl (fun w l =>
        setLink_rests w l ⟨rfl, rfl, rfl, id, fun _ => rfl, fun _ => rfl, id⟩) _ _)
    · exact .refl v
  unfold rejected
  dsimp only
  split_ifs
  · exact hcount.trans (hnarrow _)
  · exact hcount
  · exact .refl u

/-! ### Links in use -/

theorem known_of_usable {u : Upstream} {exclude : Option LinkId} {l : LinkId}
    (h : l ∈ u.usable exclude) : (u.link l).Known := by
  obtain ⟨-, h⟩ := List.mem_filter.mp h
  simp only [Link.usable, Bool.and_eq_true] at h
  exact Or.inl h.2.1

/-- A choice that keeps what it has or takes the next one ends with what it had or one of them. -/
theorem foldl_choice {α : Type*} {f : Option α → α → Option α}
    (hf : ∀ r a, f r a = r ∨ f r a = some a) {as : List α} {r : Option α} {a : α}
    (h : as.foldl f r = some a) : r = some a ∨ a ∈ as := by
  induction as generalizing r with
  | nil => exact Or.inl h
  | cons b as ih =>
    rcases ih h with h | h
    · rcases hf r b with hkeep | htake
      · exact Or.inl (hkeep ▸ h)
      · rw [htake, Option.some.injEq] at h
        exact Or.inr (h ▸ List.mem_cons_self)
    · exact Or.inr (List.mem_cons_of_mem b h)

theorem best_mem {u : Upstream} {rate : ℚ} {ls : List LinkId} {l : LinkId}
    (h : u.best rate ls = some l) : l ∈ ls := by
  refine (foldl_choice (fun r m => ?_) h).resolve_left (by simp)
  cases r <;> dsimp only <;> split_ifs <;> simp

theorem roomiest_mem {u : Upstream} {ls : List LinkId} {l : LinkId}
    (h : u.roomiest ls = some l) : l ∈ ls := by
  refine (foldl_choice (fun r m => ?_) h).resolve_left (by simp)
  cases r <;> dsimp only
  · exact Or.inr rfl
  · split_ifs <;> simp

/-- What `pick` settles on, or falls back to, had a job. -/
theorem pick_target {u : Upstream} {c : ClientId} {exclude : Option LinkId} {l : LinkId}
    (h : (u.pick c exclude).1.target = some l) : (u.link l).Known := by
  unfold pick at h
  split at h
  · cases h
  dsimp only at h
  cases hbest : u.best (u.rate c) (u.usable exclude) with
  | some m =>
    rw [hbest] at h
    obtain rfl := Option.some.inj h
    exact known_of_usable (best_mem hbest)
  | none =>
    rw [hbest] at h
    cases hpending : u.links.find? fun l => (u.link l).opening.connecting with
    | some m =>
      rw [hpending] at h
      cases h
    | none =>
      rw [hpending] at h
      dsimp only at h
      cases hroom : u.roomiest (u.usable exclude) with
      | some m =>
        have hm := known_of_usable (roomiest_mem hroom)
        rw [hroom] at h
        split at h <;> exact Option.some.inj h ▸ hm
      | none =>
        rw [hroom] at h
        split at h <;> cases h

/-! ### Calls and links -/

theorem fanout_shifts (l : LinkId) (cs : List ClientId) (u : Upstream) :
    Shifts cut u (u.fanout l cs).2 := by
  induction cs generalizing u with
  | nil => exact .refl u
  | cons c cs ih =>
    unfold fanout
    rcases hg : u.grant l c with ⟨_ | g, v⟩
    · have hmigrate : Shifts cut v (v.migrate l c .fanout) := .single (.migrate l c .fanout)
      exact ((grant_rests hg).shifts.trans hmigrate).trans (ih _)
    · dsimp only
      cases hp : v.payload l c g with
      | none => exact (grant_rests hg).shifts
      | some pw =>
        have hpay : Rests u pw.2 := (grant_rests hg).trans (payload_rests (p := pw.1) hp)
        exact (hpay.trans (emit_rests pw.2 _)).shifts.trans (ih _)

/-- A link with a socket learns its job interval and has its job replaced. -/
theorem learn_rests (u : Upstream) {l : LinkId} (hl : (u.link l).plug ≠ .absent)
    (job : StratumJob) : Rests u ((u.observeInterval l).setJob l job) := by
  have hlearn := observeInterval_rests u l
  exact hlearn.trans (setJob_rests _ (by rw [(hlearn.link l).plug]; exact hl) job)

theorem accept_shifts (u : Upstream) {l : LinkId} (hl : (u.link l).plug ≠ .absent)
    (job : StratumJob) : Shifts cut u (u.accept l job).2 :=
  (learn_rests u hl job).shifts.trans (fanout_shifts l _ _)

/-- The part of `hangUp` before the miners of the link are attached again. -/
theorem hangUp_drops (u : Upstream) (l : LinkId) : ∃ v, Drops l u v ∧
    ∀ cut : LinkId → Prop, Shifts cut v (u.hangUp l) := by
  let w := u.setLink l fun k => { k with plug := .shut }
  let orphans := (w.link l).clients
  let v : Upstream := {
    w.setLink l (fun k => { k with job := none, socket := false, load := 0, clients := [] }) with
    links := w.links.erase l, homes := fun c => if c ∈ orphans then none else w.homes c }
  refine ⟨v, ⟨⟨rfl, rfl, rfl, rfl, Finset.Subset.refl _, fun c hc => ?_, fun m hm => ?_⟩, rfl,
    ?_, ?_, ?_, ?_⟩, fun cut => ?_⟩
  · simp [v, w, setLink, hc]
  · simp only [v, w, setLink, Function.update_idem, Function.update_of_ne hm]
    exact .refl _
  · simp [v, w, setLink]
  · simp [v, w, setLink]
  · simp [v, w, setLink]
  · simp [v, w, setLink]
  · have hrehome : Shifts cut v
        (orphans.foldl (fun u c => u.attach c .rehome) v.reslice) :=
      (reslice_rests v).shifts.trans
        (Shifts.foldl (fun x c => .single (.attach c .rehome)) orphans _)
    unfold hangUp sever
    dsimp only
    split_ifs
    · exact hrehome.trans (emit_rests _ _).shifts
    · exact hrehome

theorem hangUp_shifts {u : Upstream} {l : LinkId} (h : (u.link l).socket = true ∨ cut l) :
    Shifts cut u (u.hangUp l) := by
  obtain ⟨v, hdrop, hrest⟩ := hangUp_drops u l
  exact Shifts.trans (.single (.drop l h hdrop)) (hrest cut)

theorem drain_shifts (u : Upstream) (l : LinkId) (cs : List ClientId) :
    Shifts cut u (u.drain l cs) :=
  Shifts.foldl (fun _ c => .single (.migrate l c .sweep)) cs u

theorem shed_shifts (l : LinkId) (cs : List ClientId) (u : Upstream) (excess : ℚ) :
    Shifts cut u (u.shed l excess cs) := by
  obtain ⟨cs', h⟩ := shed_drain l cs u excess
  exact h ▸ drain_shifts u l cs'

theorem sweepLink_shifts (u : Upstream) (l : LinkId) : Shifts cut u (u.sweepLink l) := by
  have hidle : ∀ t, Rests u (u.setLink l fun k => { k with idle_at := t }) :=
    fun t => setLink_rests u l ⟨rfl, rfl, rfl, id, fun _ => rfl, fun _ => rfl, id⟩
  unfold sweepLink
  dsimp only
  split_ifs with _ _ hlong
  · exact (hidle u.now).shifts
  · exact hangUp_shifts (Or.inl hlong.2)
  · exact .refl u
  · exact (hidle 0).shifts.trans (shed_shifts l _ _ _)

theorem consolidate_shifts (u : Upstream) : Shifts cut u u.consolidate := by
  obtain ⟨l, cs, h⟩ := consolidate_drain u
  exact h ▸ drain_shifts u l cs

theorem rebalance_shifts (u : Upstream) : Shifts cut u u.rebalance :=
  (Shifts.foldl sweepLink_shifts u.links u).trans (consolidate_shifts _)

theorem chunk_shifts (u : Upstream) (call : ℕ) (c : ClientId) (job_id : String) :
    Shifts cut u (u.chunk call c job_id) := by
  unfold chunk
  cases u.homes c with
  | none => exact (emit_rests u _).shifts
  | some l =>
    dsimp only
    cases (u.link l).job with
    | none => exact (emit_rests u _).shifts
    | some job =>
      dsimp only
      split_ifs
      · exact (emit_rests u _).shifts
      · rcases hg : u.grant l c with ⟨_ | g, v⟩
        · exact (grant_rests hg).shifts.trans (.single (.migrate l c _))
        · exact ((grant_rests hg).trans (emit_rests v _)).shifts

/-! ### Continuations -/

theorem finishAttach_shifts {u : Upstream} {c : ClientId} {l : LinkId} (hl : (u.link l).Known) :
    Shifts cut u (u.finishAttach c (.ok l)).2 := by
  unfold finishAttach
  dsimp only
  split_ifs with hc
  · have hhouse : Shifts cut u (u.house l c) := .single (.house l c (Or.inl hl) hc)
    rcases hg : (u.house l c).grant l c with ⟨_ | g, v⟩
    · exact hhouse.trans ((grant_rests hg).trans (detach_rests v c)).shifts
    · dsimp only
      cases hp : v.payload l c g with
      | none => exact hhouse.trans ((grant_rests hg).trans (detach_rests v c)).shifts
      | some pw => exact hhouse.trans ((grant_rests hg).trans (payload_rests (p := pw.1) hp)).shifts
  · exact (detach_rests u c).shifts

theorem grant_live {u v : Upstream} {l : LinkId} {c : ClientId} {r : Option Grant}
    (h : u.grant l c = (r, v)) : v.live = u.live := by
  have hcore := core_grant u l c
  rw [h] at hcore
  exact (core_eq hcore).2.2.1

theorem finishMigrate_shifts {u : Upstream} {source : LinkId} {c : ClientId} {l : LinkId}
    (hl : (u.link l).Known) : Shifts cut u (u.finishMigrate source c (.ok l)).2 := by
  unfold finishMigrate
  dsimp only
  split_ifs with hc
  · have hevict : Rests u (u.evict c) := evict_rests u c
    have hc' : c ∈ (u.evict c).live := (evict_frame u c).2.1.symm ▸ hc
    have hmove : Shifts cut u ((u.evict c).house l c) :=
      hevict.shifts.trans (.single (.house l c (Or.inl ((hevict.link l).known hl)) hc'))
    rcases hg : ((u.evict c).house l c).grant l c with ⟨_ | g, v⟩
    · have hcut := hmove.trans (grant_rests hg).shifts
      dsimp only
      split_ifs with hsocket
      · have hback := evict_rests v c
        refine (hcut.trans hback.shifts).trans (.single (.house source c (Or.inr ?_) ?_))
        · rw [(hback.link source).socket]
          exact hsocket
        · rw [(evict_frame v c).2.1, grant_live hg]
          exact hc'
      · exact hcut
    · have hcut := hmove.trans (grant_rests hg).shifts
      dsimp only
      cases hp : v.payload l c g with
      | none => exact hcut
      | some pw =>
        exact hcut.trans ((payload_rests (p := pw.1) hp).trans (emit_rests pw.2 _)).shifts
  · exact .refl u

theorem finish_shifts {u : Upstream} (t : Task) {l : LinkId} (hl : (u.link l).Known) :
    Shifts cut u (u.finish t (.ok l)) := by
  unfold finish
  cases t.goal with
  | attach => exact (finishAttach_shifts hl).trans (attachDone_rests _ t.client t.origin _).shifts
  | migrate source =>
    exact (finishMigrate_shifts hl).trans (migrateDone_rests _ source t.client t.origin _).shifts

/-- Every link that a suspended call may settle on is known. -/
def Aimed (u : Upstream) : Prop := ∀ t ∈ u.tasks, ∀ l, t.phase.target = some l → (u.link l).Known

theorem resume_shifts {u v : Upstream} {i : ℕ} (hu : u.Aimed) (h : u.resume i = some v) :
    Shifts cut u v := by
  obtain ⟨t, ht, h⟩ := Option.bind_eq_some_iff.mp h
  have haim := hu t (List.mem_of_getElem? ht)
  cases hphase : t.phase with
  | waiting l =>
    rw [hphase] at h
    dsimp only at h
    split_ifs at h
    rw [Option.some.injEq] at h
    exact h ▸ .single (.repick i t ht (by rw [hphase]; rfl))
  | opening l roomiest =>
    have hopen : t.phase.rejected = false := by rw [hphase]; rfl
    rw [hphase] at h haim
    dsimp only at h
    cases hopening : (u.link l).opening with
    | up =>
      rw [hopening, Option.some.injEq] at h
      have hrest := reslice_rests u
      refine h ▸ hrest.shifts.trans (.single (.phase i t _ ?_ hopen rfl fun m hm => ?_))
      · rw [(hrest.turns l).tasks]
        exact ht
      · obtain rfl := Option.some.inj hm
        exact (hrest.link l).known (Or.inr (Or.inr (Or.inl hopening)))
    | failed message =>
      rw [hopening, Option.some.injEq] at h
      refine h ▸ Shifts.trans (.single (.unlist l message hopening))
        (.single (.phase i t _ ht hopen (by cases roomiest <;> rfl) fun m hm => haim m ?_))
      cases roomiest with
      | none => cases hm
      | some n => exact hm
    | idle => simp [hopening] at h
    | dialing => simp [hopening] at h
    | login => simp [hopening] at h
  | picked l =>
    rw [hphase, Option.some.injEq] at h
    have hsettle : Shifts cut u { u with tasks := u.tasks.eraseIdx i } :=
      .single (.settle i t ht fun _ => by rw [hphase]; rfl)
    refine h ▸ hsettle.trans (finish_shifts t ?_)
    exact haim l (by rw [hphase]; rfl)
  | failed message =>
    rw [hphase, Option.some.injEq] at h
    subst h
    unfold finish
    cases hgoal : t.goal with
    | attach =>
      have hgive : Shifts cut u (detach { u with tasks := u.tasks.eraseIdx i } t.client) :=
        .single (.giveUp i t ht)
      exact hgive.trans (attachDone_rests _ t.client t.origin _).shifts
    | migrate source =>
      have hsettle : Shifts cut u { u with tasks := u.tasks.eraseIdx i } :=
        .single (.settle i t ht fun hattach => by rw [hgoal] at hattach; cases hattach)
      exact hsettle.trans (migrateDone_rests _ source t.client t.origin _).shifts

/-! ### Steps -/

/-- The events in which a socket is made or closed, apart from the sweep. -/
def Action.wiring : Action → Bool
  | .dialed _ _ => true
  | .loggedIn _ _ => true
  | .lost _ => true
  | .close => true
  | _ => false

theorem step_shifts {u v : Upstream} {a : Action} (hu : u.Aimed) (ha : a.wiring = false)
    (h : u.step a = some v) : Shifts cut u v := by
  cases a with
  | attach call c =>
    rw [step, Option.some.injEq] at h
    exact h ▸ .single (.attach c (.login call))
  | detach c =>
    rw [step, Option.some.injEq] at h
    exact h ▸ (detach_rests u c).shifts
  | report c hashrate =>
    rw [step, Option.some.injEq] at h
    exact h ▸ (report_rests u c hashrate).shifts
  | chunk call c job_id =>
    rw [step, Option.some.injEq] at h
    exact h ▸ chunk_shifts u call c job_id
  | submit call c job_id nonce result =>
    obtain ⟨⟨l, w⟩, hw, rfl⟩ := Option.map_eq_some_iff.mp h
    exact (submit_rests hw).shifts
  | rejected stray =>
    rw [step, Option.some.injEq] at h
    exact h ▸ (rejected_rests u stray).shifts
  | resume i => exact resume_shifts hu h
  | dialed l outcome => cases ha
  | loggedIn l outcome => cases ha
  | job l job =>
    simp only [step] at h
    split_ifs at h with hl
    rw [Option.some.injEq] at h
    exact h ▸ accept_shifts u hl job
  | lost l => cases ha
  | rebalance =>
    simp only [step] at h
    split_ifs at h
    rw [Option.some.injEq] at h
    exact h ▸ rebalance_shifts u
  | tick ms =>
    rw [step, Option.some.injEq] at h
    have htick : Rests u { u with now := u.now + ms } :=
      .of_same rfl rfl rfl rfl (Finset.Subset.refl _) (fun _ h => h) rfl fun _ => .refl _
    exact h ▸ htick.shifts
  | close => cases ha

/-- A login that succeeds brings its link up, and tells nobody if the link is empty. -/
theorem loggedIn_turns {u : Upstream} {l : LinkId} (job : StratumJob)
    (hplug : (u.link l).plug ≠ .absent) (hempty : (u.link l).job = none → (u.link l).clients = []) :
    Turns l u (u.loggedIn l (.ok job)) ∧ (u.loggedIn l (.ok job)).links = u.links ∧
      ((u.loggedIn l (.ok job)).link l).opening = .up ∧
        ((u.loggedIn l (.ok job)).link l).socket = true ∧
          ((u.loggedIn l (.ok job)).link l).plug = (u.link l).plug ∧
            ((u.loggedIn l (.ok job)).link l).job.isSome = true := by
  let w := u.setLink l fun k => { k with socket := true }
  have hw : Turns l u w := setLink_turns u l _
  have hup : ∀ x : Upstream, Rests w x → (x.link l).job.isSome = true →
      let y := x.setLink l fun k => { k with opening := .up }
      Turns l u y ∧ y.links = u.links ∧ (y.link l).opening = .up ∧ (y.link l).socket = true ∧
        (y.link l).plug = (u.link l).plug ∧ (y.link l).job.isSome = true := by
    intro x hx hjob
    refine ⟨(hw.trans (hx.turns l)).trans (setLink_turns x l _), hx.links, ?_, ?_, ?_, ?_⟩
    · simp [setLink]
    · simpa [setLink, w] using (hx.link l).socket
    · simpa [setLink, w] using (hx.link l).plug
    · simpa [setLink] using hjob
  have hrun : ∃ x, Rests w x ∧ (x.link l).job.isSome = true ∧
      u.loggedIn l (.ok job) = x.setLink l fun k => { k with opening := .up } := by
    unfold loggedIn
    dsimp only
    split
    · rename_i hsome
      exact ⟨w, .refl w, hsome, rfl⟩
    · rename_i hnone
      have hjob : (u.link l).job = none := by simpa [setLink] using hnone
      let x := (w.observeInterval l).setJob l job
      have hx : Rests w x := learn_rests w (by simpa [w, setLink] using hplug) job
      have hclients : (x.link l).clients = [] :=
        (hx.link l).clients (by simpa [w, setLink] using hempty hjob)
      refine ⟨x, hx, by simp [x, setJob, setLink], ?_⟩
      have hquiet : w.accept l job = (false, x) := by
        change x.fanout l (x.link l).clients = (false, x)
        rw [hclients]
        rfl
      rw [hquiet]
      rfl
  obtain ⟨x, hx, hjob, hrun⟩ := hrun
  rw [hrun]
  exact hup x hx hjob

end Upstream

end NMiner
