import NMiner.Lib.Transition
import NMiner.Spec.Dataset

/-! No VM is in existence from the moment an `Execute` passes its drain loop to the moment a
`Clear` brings `pending` to zero, and the cache and the dataset of a VM hold the content of one
seed for as long as the VM exists. -/

namespace NMiner

open Transition

/-- `Execute` has passed its drain loop. -/
def Execute.past : Execute → Bool
  | .drain _ => false
  | _ => true

/-- `create_vm` has passed its check of `updating`. -/
def Create.past : Create → Bool
  | .entered _ => false
  | _ => true

/-- The `Clear` of the worker is still to come. -/
def AllocateWorker.uncleared (worker : AllocateWorker) : Bool := worker.progress ≠ .cleared

namespace Rx

/-- An `Execute` is past its drain loop: it releases the cache, initialises the next one or fills
the datasets. -/
def rebuilding (s : Rx) : Bool :=
  match s.lifecycle with
  | some (.execute _ e) => e.past
  | _ => false

/-- The cache of the VM and, in FAST mode, its dataset are those of the miner, and all of their
content comes from one seed. -/
def Uses (s : Rx) (vm : RxVm) : Prop :=
  ∃ seed, s.cache = some ⟨vm.cache, some seed⟩ ∧
    (s.m_mode = .Fast →
      ∃ id numa_id, vm.dataset = some id ∧ s.datasets numa_id = some ⟨id, some seed⟩)

/-! ### The counters -/

def outstanding (s : Rx) : ℕ := s.workers.countP AllocateWorker.uncleared

/-- What `queue_allocate` has added to `pending` for a worker that it has yet to queue. -/
def arriving : Js → ℤ
  | .counted _ => 1
  | .announced _ => 1
  | _ => 0

structure Counts (s : Rx) : Prop where
  pending : s.pending = s.outstanding + arriving s.js
  updating : s.updating = false → s.outstanding = 0 ∧ ∀ seed, s.js ≠ .announced seed
  clearing : s.js = .clearing → s.outstanding = 0
  executing : ∀ w e, s.lifecycle = some (.execute w e) →
    ∃ worker, s.workers[w]? = some worker ∧ worker.progress = .executing
  active : s.active_vms = s.vms.length + s.dying
  quiet : s.quiet = true → 0 < s.outstanding ∧ s.vms = [] ∧ s.dying = 0
  drained : s.rebuilding = true → s.quiet = true
  creating : ∀ c, s.lifecycle = some (.create c) → c.past = true → s.quiet = false

theorem countP_modify {α : Type} {p : α → Bool} {f : α → α} {l : List α} {i : ℕ} {a : α}
    (h : l[i]? = some a) :
    (l.modify i f).countP p + (if p a then 1 else 0) =
      l.countP p + if p (f a) then 1 else 0 := by
  induction l generalizing i with
  | nil => simp at h
  | cons x l ih =>
    cases i with
    | zero =>
      simp only [List.getElem?_cons_zero, Option.some.injEq] at h
      subst h
      simp only [List.modify_zero_cons, List.countP_cons]
      omega
    | succ i =>
      have := ih h
      simp only [List.modify_succ_cons, List.countP_cons]
      omega

theorem getElem?_setProgress {s : Rx} {w : ℕ} {worker : AllocateWorker} (p : Progress)
    (hw : s.workers[w]? = some worker) :
    (s.setProgress w p)[w]? = some ⟨worker.seed_hash, p⟩ := by
  rw [setProgress, List.getElem?_modify, hw]
  simp

theorem getElem?_setProgress_ne {s : Rx} {w w' : ℕ} (p : Progress) (hne : w ≠ w') :
    (s.setProgress w p)[w']? = s.workers[w']? := by
  rw [setProgress, List.getElem?_modify]
  simp [hne]

/-- A worker that goes on to another stage short of `Clear` stays outstanding. -/
theorem countP_setProgress {s : Rx} {w : ℕ} {worker : AllocateWorker} {p : Progress}
    (hw : s.workers[w]? = some worker) (hopen : worker.progress ≠ .cleared) (hp : p ≠ .cleared) :
    (s.setProgress w p).countP AllocateWorker.uncleared = s.outstanding := by
  have := countP_modify (p := AllocateWorker.uncleared)
    (f := fun worker => { worker with progress := p }) hw
  simp only [AllocateWorker.uncleared, hopen, hp, ne_eq, not_false_eq_true, decide_true,
    if_true] at this
  rw [setProgress, outstanding]
  exact Nat.add_right_cancel this

theorem countP_cleared {s : Rx} {w : ℕ} {worker : AllocateWorker}
    (hw : s.workers[w]? = some worker) (hopen : worker.progress ≠ .cleared) :
    (s.setProgress w .cleared).countP AllocateWorker.uncleared + 1 = s.outstanding := by
  have := countP_modify (p := AllocateWorker.uncleared)
    (f := fun worker => { worker with progress := .cleared }) hw
  simp only [AllocateWorker.uncleared, hopen, ne_eq, not_false_eq_true, decide_true, if_true,
    not_true_eq_false, decide_false, Bool.false_eq_true, if_false, add_zero] at this
  exact this

theorem executed_iff {s : Rx} {w : ℕ} :
    s.executed w = true ↔ ∃ seed o, s.workers[w]? = some ⟨seed, .executed o⟩ := by
  unfold executed
  split
  next seed o h => simp [h]
  next h => simpa using h

theorem queued_iff {s : Rx} {w : ℕ} :
    s.queued w = true ↔ ∃ seed, s.workers[w]? = some ⟨seed, .queued⟩ := by
  unfold queued
  split
  next seed h => simp [h]
  next h => simpa using h

/-! ### What each step does to the counters -/

theorem Counts.allocate {s : Rx} (h : s.Counts) (hjs : s.js = .idle) (seed : Seed) :
    ({ s with pending := s.pending + 1, js := .counted seed } : Rx).Counts := by
  refine ⟨?_, ?_, ?_, h.executing, h.active, h.quiet, h.drained, h.creating⟩
  · have := h.pending
    rw [hjs] at this
    simp only [arriving] at this ⊢
    change s.pending + 1 = (s.outstanding : ℤ) + 1
    omega
  · exact fun hup => ⟨(h.updating hup).1, fun _ hc => by cases hc⟩
  · exact fun hc => by cases hc

theorem Counts.announce {s : Rx} (h : s.Counts) {seed : Seed} (hjs : s.js = .counted seed) :
    ({ s with updating := true, js := .announced seed } : Rx).Counts := by
  refine ⟨?_, ?_, ?_, h.executing, h.active, h.quiet, h.drained, h.creating⟩
  · have := h.pending
    rw [hjs] at this
    exact this
  · exact fun hup => by cases hup
  · exact fun hc => by cases hc

theorem Counts.queue {s : Rx} (h : s.Counts) {seed : Seed} (hjs : s.js = .announced seed) :
    ({ s with workers := s.workers ++ [⟨seed, .queued⟩], js := .idle } : Rx).Counts := by
  have hcount : List.countP AllocateWorker.uncleared (s.workers ++ [⟨seed, .queued⟩]) =
      s.outstanding + 1 := by
    rw [List.countP_append, outstanding]
    rfl
  have hupdating : s.updating = true := by
    rcases Bool.eq_false_or_eq_true s.updating with hup | hup
    · exact hup
    · exact absurd hjs ((h.updating hup).2 seed)
  refine ⟨?_, ?_, ?_, ?_, h.active, ?_, h.drained, h.creating⟩
  · have := h.pending
    rw [hjs] at this
    rw [outstanding, hcount]
    simp only [arriving] at this ⊢
    omega
  · exact fun hup => absurd (hupdating.symm.trans hup) (by decide)
  · exact fun hc => by cases hc
  · intro w e hlife
    obtain ⟨worker, hw, hprogress⟩ := h.executing w e hlife
    have hlt := (List.getElem?_eq_some_iff.mp hw).1
    exact ⟨worker, (List.getElem?_append_left hlt).trans hw, hprogress⟩
  · intro hquiet
    rw [outstanding, hcount]
    exact ⟨Nat.succ_pos _, (h.quiet hquiet).2⟩

theorem Counts.clear {s : Rx} (h : s.Counts) {w : ℕ} (hjs : s.js = .idle)
    (hw : s.executed w = true) : (s.clear w).Counts := by
  obtain ⟨seed, o, hw⟩ := executed_iff.mp hw
  have hcount := countP_cleared hw (by simp)
  have hpending := h.pending
  rw [hjs] at hpending
  simp only [arriving, add_zero] at hpending
  have hout : (s.clear w).outstanding + 1 = s.outstanding := hcount
  refine ⟨?_, ?_, ?_, ?_, h.active, ?_, ?_, ?_⟩
  · simp only [Rx.clear]
    split_ifs with hone
    all_goals
      simp only [arriving]
      change s.pending - 1 = ((s.clear w).outstanding : ℤ) + 0
      omega
  · intro hup
    have := (h.updating hup).1
    omega
  · simp only [Rx.clear]
    split_ifs with hone
    · intro _
      change (s.clear w).outstanding = 0
      omega
    · exact fun hc => by cases hc
  · intro w' e hlife
    obtain ⟨worker, hw', hprogress⟩ := h.executing w' e hlife
    have hne : w ≠ w' := by
      rintro rfl
      rw [hw, Option.some.injEq] at hw'
      rw [← hw'] at hprogress
      cases hprogress
    exact ⟨worker, (getElem?_setProgress_ne _ hne).trans hw', hprogress⟩
  · intro hquiet
    simp only [Rx.clear, Bool.and_eq_true, decide_eq_true_eq] at hquiet
    have hrest := h.quiet hquiet.1
    exact ⟨by omega, hrest.2⟩
  · -- the worker that holds the lock is still outstanding
    intro hpast
    have hq := h.drained hpast
    obtain ⟨w', e, hlife⟩ : ∃ w' e, s.lifecycle = some (.execute w' e) := by
      unfold rebuilding at hpast
      split at hpast
      next w' e hlife => exact ⟨w', e, hlife⟩
      next => cases hpast
    obtain ⟨worker, hw', hprogress⟩ := h.executing w' e hlife
    have hne : w ≠ w' := by
      rintro rfl
      rw [hw, Option.some.injEq] at hw'
      rw [← hw'] at hprogress
      cases hprogress
    have hpos : 0 < (s.clear w).outstanding := by
      refine List.countP_pos_iff.mpr ⟨worker, List.mem_of_getElem?
        ((getElem?_setProgress_ne .cleared hne).trans hw'), ?_⟩
      rw [AllocateWorker.uncleared, hprogress]
      rfl
    simp only [Rx.clear, Bool.and_eq_true, decide_eq_true_eq]
    exact ⟨hq, by omega⟩
  · intro c hlife hpast
    have := h.creating c hlife hpast
    simp [Rx.clear, this]

theorem Counts.settle {s : Rx} (h : s.Counts) (hjs : s.js = .clearing) :
    ({ s with updating := false, js := .idle } : Rx).Counts := by
  refine ⟨?_, ?_, ?_, h.executing, h.active, h.quiet, h.drained, h.creating⟩
  · have := h.pending
    rw [hjs] at this
    exact this
  · exact fun _ => ⟨h.clearing hjs, fun _ hc => by cases hc⟩
  · exact fun hc => by cases hc

theorem Counts.lock {s : Rx} (h : s.Counts) {w : ℕ} (hw : s.queued w = true) :
    ({ s with
        lifecycle := some (.execute w (.drain 0)), workers := s.setProgress w .executing } :
      Rx).Counts := by
  obtain ⟨seed, hw⟩ := queued_iff.mp hw
  have hcount := countP_setProgress (p := .executing) hw (by simp) (by simp)
  have hout : Rx.outstanding { s with
      lifecycle := some (.execute w (.drain 0)), workers := s.setProgress w .executing } =
      s.outstanding := hcount
  refine ⟨?_, ?_, ?_, ?_, h.active, ?_, ?_, ?_⟩
  · rw [hout]
    exact h.pending
  · rw [hout]
    exact h.updating
  · rw [hout]
    exact h.clearing
  · intro w' e hlife
    cases hlife
    exact ⟨_, getElem?_setProgress .executing hw, rfl⟩
  · rw [hout]
    exact h.quiet
  · exact fun hpast => by cases hpast
  · exact fun c hlife _ => by cases hlife

theorem Counts.proceed {s : Rx} (h : s.Counts) {w : ℕ} {e : Execute}
    (hlife : s.lifecycle = some (.execute w e)) (e' : Execute)
    (hpast : e'.past = true → s.quiet = true) : (s.proceed w e').Counts := by
  refine ⟨h.pending, h.updating, h.clearing, ?_, h.active, h.quiet, hpast, ?_⟩
  · intro w' e'' hlife'
    cases hlife'
    exact h.executing w e hlife
  · exact fun c hlife' _ => by cases hlife'

theorem Counts.finish {s : Rx} (h : s.Counts) {w : ℕ} {e : Execute}
    (hlife : s.lifecycle = some (.execute w e)) (o : Except String Bool) :
    (s.finish w o).Counts := by
  obtain ⟨worker, hw, hprogress⟩ := h.executing w e hlife
  have hout : (s.finish w o).outstanding = s.outstanding :=
    countP_setProgress hw (by simp [hprogress]) (by simp)
  refine ⟨?_, ?_, ?_, ?_, h.active, ?_, ?_, ?_⟩
  · rw [hout]
    exact h.pending
  · rw [hout]
    exact h.updating
  · rw [hout]
    exact h.clearing
  · exact fun w' e' hlife' => by cases hlife'
  · rw [hout]
    exact h.quiet
  · exact fun hpast => by cases hpast
  · exact fun c hlife' _ => by cases hlife'

/-- The counters do not depend on the cache and the datasets. -/
theorem Counts.content {s : Rx} (h : s.Counts) (cache : Option Memory)
    (datasets : NumaId → Option Memory) (allocations : ℕ) :
    ({ s with cache := cache, datasets := datasets, allocations := allocations } : Rx).Counts :=
  ⟨h.pending, h.updating, h.clearing, h.executing, h.active, h.quiet, h.drained, h.creating⟩

theorem Counts.execute {s : Rx} (h : s.Counts) {w : ℕ} {e : Execute}
    (hlife : s.lifecycle = some (.execute w e)) (nodes : List NumaId) (ok : Bool) :
    (s.execute nodes w ok e).Counts := by
  have hpast : e.past = true → s.quiet = true := by
    intro hpast
    refine h.drained ?_
    rw [rebuilding, hlife]
    exact hpast
  cases e with
  | drain spins =>
    simp only [Rx.execute]
    split_ifs with hactive hspins
    · exact h.finish hlife _
    · exact h.proceed hlife _ fun hc => (by cases hc)
    · -- no VM is counted, and the worker itself is outstanding
      obtain ⟨worker, hw, hprogress⟩ := h.executing w _ hlife
      have hpos : 0 < s.outstanding := by
        refine List.countP_pos_iff.mpr ⟨worker, List.mem_of_getElem? hw, ?_⟩
        rw [AllocateWorker.uncleared, hprogress]
        rfl
      have hzero := h.active
      have hvms : s.vms = [] := List.length_eq_zero_iff.mp (by omega)
      have hdying : s.dying = 0 := by omega
      refine ⟨h.pending, h.updating, h.clearing, ?_, h.active, ?_, fun _ => rfl, ?_⟩
      · intro w' e' hlife'
        cases hlife'
        exact h.executing w _ hlife
      · exact fun _ => ⟨hpos, hvms, hdying⟩
      · exact fun c hlife' _ => by cases hlife'
  | drained => exact (h.proceed hlife _ fun _ => hpast rfl).content _ _ _
  | released =>
    simp only [Rx.execute]
    split_ifs
    · exact (h.proceed hlife _ fun _ => hpast rfl).content _ _ _
    · exact h.finish hlife _
  | allocated =>
    simp only [Rx.execute]
    split
    · exact (h.finish hlife _).content _ _ _
    · exact (h.proceed hlife _ fun _ => hpast rfl).content _ _ _
  | build todo built =>
    cases todo with
    | nil =>
      simp only [Rx.execute]
      split_ifs <;> exact h.finish hlife _
    | cons numa_id todo =>
      simp only [Rx.execute]
      split_ifs
      · exact h.proceed hlife _ fun _ => hpast rfl
      · exact (h.proceed hlife _ fun _ => hpast rfl).content _ _ _
      · exact (h.proceed hlife _ fun _ => hpast rfl).content _ _ _
  | reserved numa_id todo => exact (h.proceed hlife _ fun _ => hpast rfl).content _ _ _
  | fill numa_id todo => exact (h.proceed hlife _ fun _ => hpast rfl).content _ _ _

theorem Counts.leave {s : Rx} (h : s.Counts) : ({ s with lifecycle := none } : Rx).Counts :=
  ⟨h.pending, h.updating, h.clearing, fun _ _ hc => (by cases hc), h.active, h.quiet,
    fun hc => (by cases hc), fun _ hc _ => (by cases hc)⟩

theorem Counts.go {s : Rx} (h : s.Counts) (c : Create)
    (hquiet : c.past = true → s.quiet = false) :
    ({ s with lifecycle := some (.create c) } : Rx).Counts := by
  refine ⟨h.pending, h.updating, h.clearing, fun _ _ hc => (by cases hc), h.active, h.quiet,
    fun hc => (by cases hc), ?_⟩
  intro c' hlife hpast
  cases hlife
  exact hquiet hpast

/-- A VM is built only while every allocation has been cleared. -/
theorem Counts.quiet_of_not_updating {s : Rx} (h : s.Counts) (hup : s.updating = false) :
    s.quiet = false := by
  rcases Bool.eq_false_or_eq_true s.quiet with hquiet | hquiet
  · have hpos := (h.quiet hquiet).1
    have hzero := (h.updating hup).1
    omega
  · exact hquiet

theorem Counts.create {s : Rx} (h : s.Counts) {c : Create}
    (hlife : s.lifecycle = some (.create c)) (ok : Bool) : (s.create ok c).Counts := by
  have hquiet := h.creating c hlife
  cases c with
  | entered numa_node =>
    simp only [Rx.create]
    split_ifs with hcheck
    · exact h.leave
    · rw [not_or, Bool.not_eq_true, Bool.not_eq_true] at hcheck
      exact h.go _ fun _ => h.quiet_of_not_updating hcheck.2
  | checked numa_node =>
    simp only [Rx.create]
    split
    · exact h.go _ fun _ => hquiet rfl
    · split
      · exact h.leave
      · exact h.go _ fun _ => hquiet rfl
  | found dataset =>
    simp only [Rx.create]
    split
    · split_ifs
      · exact h.go _ fun _ => hquiet rfl
      · exact h.leave
    · exact h.leave
  | created vm =>
    refine ⟨h.pending, h.updating, h.clearing, fun _ _ hc => (by cases hc), ?_, ?_,
      fun hc => (by cases hc), fun _ _ _ => hquiet rfl⟩
    · have := h.active
      change s.active_vms + 1 = ((s.vms ++ [vm]).length : ℤ) + s.dying
      rw [List.length_append, List.length_singleton]
      omega
    · exact fun hc => absurd (hc.symm.trans (hquiet rfl)) (by decide)
  | counted => exact h.leave

theorem Counts.destroy {s : Rx} (h : s.Counts) {vm : RxVm} (hvm : vm ∈ s.vms) :
    ({ s with vms := s.vms.erase vm, dying := s.dying + 1 } : Rx).Counts := by
  refine ⟨h.pending, h.updating, h.clearing, h.executing, ?_, ?_, h.drained, h.creating⟩
  · have := h.active
    have hpos := List.length_pos_of_mem hvm
    change s.active_vms = ((s.vms.erase vm).length : ℤ) + ((s.dying + 1 : ℕ) : ℤ)
    rw [List.length_erase_of_mem hvm]
    omega
  · intro hquiet
    rw [(h.quiet hquiet).2.1] at hvm
    cases hvm

theorem Counts.uncount {s : Rx} (h : s.Counts) (hdying : s.dying > 0) :
    ({ s with dying := s.dying - 1, active_vms := s.active_vms - 1 } : Rx).Counts := by
  refine ⟨h.pending, h.updating, h.clearing, h.executing, ?_, ?_, h.drained, h.creating⟩
  · have := h.active
    change s.active_vms - 1 = (s.vms.length : ℤ) + ((s.dying - 1 : ℕ) : ℤ)
    omega
  · intro hquiet
    have := (h.quiet hquiet).2.2
    omega

theorem Counts.step {nodes : List NumaId} {s s' : Rx} {a : Action.Rx} (h : s.Counts)
    (hs : s.step nodes a = some s') : s'.Counts := by
  cases a with
  | allocate seed_hash =>
    obtain ⟨hjs, hs⟩ := Option.ite_none_right_eq_some.mp hs
    exact Option.some.inj hs ▸ h.allocate hjs seed_hash
  | announce =>
    simp only [Rx.step] at hs
    split at hs
    next seed hjs => exact Option.some.inj hs ▸ h.announce hjs
    next => cases hs
  | queue =>
    simp only [Rx.step] at hs
    split at hs
    next seed hjs => exact Option.some.inj hs ▸ h.queue hjs
    next => cases hs
  | clear w =>
    obtain ⟨⟨hjs, hw⟩, hs⟩ := Option.ite_none_right_eq_some.mp hs
    exact Option.some.inj hs ▸ h.clear hjs hw
  | settle =>
    obtain ⟨hjs, hs⟩ := Option.ite_none_right_eq_some.mp hs
    exact Option.some.inj hs ▸ h.settle hjs
  | lock w =>
    obtain ⟨⟨-, hw⟩, hs⟩ := Option.ite_none_right_eq_some.mp hs
    exact Option.some.inj hs ▸ h.lock hw
  | execute ok =>
    simp only [Rx.step] at hs
    split at hs
    next w e hlife => exact Option.some.inj hs ▸ h.execute hlife nodes ok
    next => cases hs
  | enter numa_node =>
    obtain ⟨-, hs⟩ := Option.ite_none_right_eq_some.mp hs
    exact Option.some.inj hs ▸ h.go _ fun hc => (by cases hc)
  | create ok =>
    simp only [Rx.step] at hs
    split at hs
    next c hlife => exact Option.some.inj hs ▸ h.create hlife ok
    next => cases hs
  | destroy vm =>
    obtain ⟨hvm, hs⟩ := Option.ite_none_right_eq_some.mp hs
    exact Option.some.inj hs ▸ h.destroy hvm
  | uncount =>
    obtain ⟨hdying, hs⟩ := Option.ite_none_right_eq_some.mp hs
    exact Option.some.inj hs ▸ h.uncount hdying

theorem Counts.start (mode : RxMode) : ({ m_mode := mode } : Rx).Counts := by
  refine ⟨rfl, fun _ => ⟨rfl, fun _ hc => (by cases hc)⟩, fun _ => rfl, fun _ _ hc => (by cases hc),
    rfl, fun hc => (by cases hc), fun hc => (by cases hc), fun _ hc _ => (by cases hc)⟩

/-- No VM is in existence while the miner is quiet. -/
theorem Counts.alive_eq_nil {s : Rx} (h : s.Counts) (hquiet : s.quiet = true) :
    s.alive = [] := by
  have hvms := (h.quiet hquiet).2.1
  unfold alive
  split
  next vm hlife =>
    have := h.creating _ hlife rfl
    exact absurd (hquiet.symm.trans this) (by decide)
  next => exact hvms

/-! ### What the cache and the datasets hold -/

/-- The cache holds the content of a seed, and so do the datasets but for the nodes to come. -/
structure Loaded (cache : Option Memory) (datasets : NumaId → Option Memory) (seed : Seed)
    (todo : List NumaId) : Prop where
  cache : ∃ id, cache = some ⟨id, some seed⟩
  datasets : ∀ numa_id d, datasets numa_id = some d → numa_id ∈ todo ∨ d.seed = some seed

def Coherent (s : Rx) : Prop := s.cache = none ∨ ∃ seed, Loaded s.cache s.datasets seed []

/-- The dataset that `create_vm` has found. -/
def Provides (s : Rx) (dataset : Option ℕ) : Prop :=
  s.m_mode = .Fast →
    ∃ id seed numa_id, dataset = some id ∧ s.datasets numa_id = some ⟨id, seed⟩

/-- What the cache and the datasets hold while this scope has `lifecycle`. -/
def Ready (s : Rx) : Option Holder → Prop
  | none => s.Coherent
  | some (.execute _ (.drain _)) => s.Coherent
  | some (.execute _ .drained) => True
  | some (.execute _ .released) => s.cache = none
  | some (.execute _ .allocated) => s.cache.isSome = true
  | some (.execute _ (.build todo _)) => ∃ seed, Loaded s.cache s.datasets seed todo
  | some (.execute _ (.reserved numa_id todo)) => ∃ seed, Loaded s.cache s.datasets seed
    (numa_id :: todo)
  | some (.execute _ (.fill numa_id todo)) => ∃ seed, Loaded s.cache s.datasets seed
    (numa_id :: todo)
  | some (.create (.entered _)) => s.Coherent
  | some (.create (.checked _)) => s.Coherent ∧ s.cache.isSome = true
  | some (.create (.found dataset)) => s.Coherent ∧ s.cache.isSome = true ∧ s.Provides dataset
  | some (.create (.created vm)) => s.Coherent ∧ s.Uses vm
  | some (.create .counted) => s.Coherent

/-- The nodes whose datasets are still to be filled. -/
def todo : Option Holder → List NumaId
  | some (.execute _ (.build todo _)) => todo
  | some (.execute _ (.reserved numa_id todo)) => numa_id :: todo
  | some (.execute _ (.fill numa_id todo)) => numa_id :: todo
  | _ => []

structure Contents (nodes : List NumaId) (mode : RxMode) (s : Rx) : Prop where
  fixed : s.m_mode = mode
  light : mode = .Light → ∀ numa_id, s.datasets numa_id = none
  listed : ∀ numa_id, (s.datasets numa_id).isSome = true → numa_id ∈ nodes
  ahead : ∀ numa_id ∈ todo s.lifecycle, s.m_mode = .Fast ∧ numa_id ∈ nodes
  holder : s.Ready s.lifecycle
  uses : ∀ vm ∈ s.vms, s.Uses vm

variable {nodes : List NumaId} {mode : RxMode}

theorem Coherent.loaded {s : Rx} (h : s.Coherent) (hcache : s.cache.isSome = true) :
    ∃ seed, Loaded s.cache s.datasets seed [] := by
  rcases h with hnone | hloaded
  · rw [hnone] at hcache
    cases hcache
  · exact hloaded

/-- A VM that uses a dataset of a coherent miner. -/
theorem Coherent.uses {s : Rx} (h : s.Coherent) {c : Memory} (hc : s.cache = some c)
    {dataset : Option ℕ} (hd : s.Provides dataset) : s.Uses ⟨c.id, dataset⟩ := by
  obtain ⟨seed, ⟨id, hid⟩, hdatasets⟩ := h.loaded (by rw [hc]; rfl)
  rw [hc, Option.some.injEq] at hid
  refine ⟨seed, by rw [hc, hid], fun hfast => ?_⟩
  obtain ⟨d, seed', numa_id, hdataset, hnode⟩ := hd hfast
  refine ⟨d, numa_id, hdataset, ?_⟩
  rcases hdatasets numa_id _ hnode with hmem | hseed
  · cases hmem
  · rw [hnode]
    exact congrArg some (by rw [← hseed])

theorem Contents.coherent_of_create {s : Rx} (h : s.Contents nodes mode) {c : Create}
    (hlife : s.lifecycle = some (.create c)) : s.Coherent := by
  have := h.holder
  rw [hlife] at this
  cases c with
  | entered _ => exact this
  | checked _ => exact this.1
  | found _ => exact this.1
  | created _ => exact this.1
  | counted => exact this

/-- A step of `Execute` past the drain loop, when no VM is in existence. -/
theorem Contents.rebuild {s s' : Rx} (h : s.Contents nodes mode) (hvms : s.vms = [])
    (hmode : s'.m_mode = s.m_mode) (hvms' : s'.vms = s.vms)
    (hdatasets : ∀ numa_id, (s'.datasets numa_id).isSome = true →
      s.m_mode = .Fast ∧ numa_id ∈ nodes)
    (htodo : ∀ numa_id ∈ todo s'.lifecycle, s.m_mode = .Fast ∧ numa_id ∈ nodes)
    (hready : s'.Ready s'.lifecycle) : s'.Contents nodes mode := by
  refine ⟨hmode.trans h.fixed, fun hlight numa_id => ?_, fun n hn => (hdatasets n hn).2,
    fun n hn => hmode.symm ▸ htodo n hn, hready, ?_⟩
  · rw [← Option.not_isSome_iff_eq_none]
    intro hsome
    have hfast := (hdatasets numa_id hsome).1
    rw [h.fixed, hlight] at hfast
    cases hfast
  · rw [hvms', hvms]
    exact fun vm hvm => by cases hvm

theorem Contents.fast_of_isSome {s : Rx} (h : s.Contents nodes mode) {numa_id : NumaId}
    (hsome : (s.datasets numa_id).isSome = true) : s.m_mode = .Fast ∧ numa_id ∈ nodes := by
  refine ⟨?_, h.listed numa_id hsome⟩
  cases hm : s.m_mode with
  | Fast => rfl
  | Light =>
    rw [h.light (h.fixed.symm.trans hm)] at hsome
    cases hsome

/-- The datasets of the nodes done stay as they are when that of `numa_id` is replaced. -/
theorem Loaded.update {cache : Option Memory} {datasets : NumaId → Option Memory} {seed : Seed}
    {numa_id : NumaId} {todo todo' : List NumaId} (h : Loaded cache datasets seed (numa_id :: todo))
    (d : Option Memory) (htodo : ∀ n ∈ todo, n ∈ todo')
    (hd : ∀ m, d = some m → numa_id ∈ todo' ∨ m.seed = some seed) :
    Loaded cache (Function.update datasets numa_id d) seed todo' := by
  refine ⟨h.cache, fun n m hm => ?_⟩
  rw [Function.update_apply] at hm
  split_ifs at hm with hn
  · exact hn ▸ hd m hm
  · rcases h.datasets n m hm with hmem | hseed
    · rcases List.mem_cons.mp hmem with heq | hmem
      · exact absurd heq hn
      · exact Or.inl (htodo n hmem)
    · exact Or.inr hseed

theorem Contents.execute {s : Rx} (h : s.Contents nodes mode) {w : ℕ} {e : Execute}
    (hlife : s.lifecycle = some (.execute w e)) (hvms : e.past = true → s.vms = [])
    (hw : (s.workers[w]?).isSome = true) (ok : Bool) :
    (s.execute nodes w ok e).Contents nodes mode := by
  have hholder := h.holder
  have hahead := h.ahead
  rw [hlife] at hholder hahead
  have hsame : ∀ numa_id, (s.datasets numa_id).isSome = true →
      s.m_mode = .Fast ∧ numa_id ∈ nodes := fun _ hsome => h.fast_of_isSome hsome
  have hnone : ∀ numa_id ∈ ([] : List NumaId), s.m_mode = .Fast ∧ numa_id ∈ nodes :=
    fun _ hmem => by cases hmem
  have hupdated : ∀ numa_id, s.m_mode = .Fast ∧ numa_id ∈ nodes → ∀ (d : Option Memory) n,
      (Function.update s.datasets numa_id d n).isSome = true → s.m_mode = .Fast ∧ n ∈ nodes := by
    intro numa_id hmem d n hn
    rw [Function.update_apply] at hn
    split_ifs at hn with heq
    · exact heq ▸ hmem
    · exact hsame n hn
  cases e with
  | drain spins =>
    simp only [Rx.execute]
    split_ifs with hactive hspins
    · exact ⟨h.fixed, h.light, h.listed, hnone, hholder, h.uses⟩
    · exact ⟨h.fixed, h.light, h.listed, hnone, hholder, h.uses⟩
    · exact ⟨h.fixed, h.light, h.listed, hnone, trivial, h.uses⟩
  | drained => exact h.rebuild (hvms rfl) rfl rfl hsame hnone rfl
  | released =>
    simp only [Rx.execute]
    split_ifs
    · exact h.rebuild (hvms rfl) rfl rfl hsame hnone rfl
    · exact h.rebuild (hvms rfl) rfl rfl hsame hnone (Or.inl hholder)
  | allocated =>
    -- the datasets hold the content of earlier seeds, and every one of them is filled again
    obtain ⟨c, hc⟩ := Option.isSome_iff_exists.mp hholder
    obtain ⟨worker, hworker⟩ := Option.isSome_iff_exists.mp hw
    have hcache : s.cache.map (·.filled (s.workers[w]?.map fun worker =>
        worker.seed_hash.take kMaxSeedSize)) =
          some ⟨c.id, some (worker.seed_hash.take kMaxSeedSize)⟩ := by
      rw [hc, hworker]
      rfl
    simp only [Rx.execute]
    split
    next hlight =>
      refine h.rebuild (hvms rfl) rfl rfl hsame hnone (Or.inr ⟨_, ⟨c.id, hcache⟩, ?_⟩)
      intro n d hd
      have := h.light (h.fixed.symm.trans hlight) n
      rw [show s.datasets n = some d from hd] at this
      cases this
    next hfast =>
      refine h.rebuild (hvms rfl) rfl rfl hsame (fun n hn => ⟨hfast, hn⟩)
        ⟨_, ⟨c.id, hcache⟩, fun n d hd => Or.inl ?_⟩
      exact h.listed n (Option.isSome_iff_exists.mpr ⟨d, hd⟩)
  | build todo built =>
    cases todo with
    | nil =>
      simp only [Rx.execute]
      split_ifs <;> exact h.rebuild (hvms rfl) rfl rfl hsame hnone (Or.inr hholder)
    | cons numa_id todo =>
      obtain ⟨seed, hloaded⟩ := hholder
      have hrest : ∀ n ∈ todo, s.m_mode = .Fast ∧ n ∈ nodes :=
        fun n hn => hahead n (List.mem_cons_of_mem _ hn)
      have hset := hupdated numa_id (hahead numa_id List.mem_cons_self)
      simp only [Rx.execute]
      split_ifs
      · exact h.rebuild (hvms rfl) rfl rfl hsame hahead ⟨seed, hloaded⟩
      · refine h.rebuild (hvms rfl) rfl rfl (hset _) hahead ⟨seed, ?_⟩
        exact hloaded.update _ (fun _ => List.mem_cons_of_mem _)
          fun _ _ => Or.inl List.mem_cons_self
      · refine h.rebuild (hvms rfl) rfl rfl (hset _) hrest ⟨seed, ?_⟩
        exact hloaded.update _ (fun _ hn => hn) fun _ hm => by cases hm
  | reserved numa_id todo =>
    obtain ⟨seed, hloaded⟩ := hholder
    refine h.rebuild (hvms rfl) rfl rfl (hupdated numa_id (hahead numa_id List.mem_cons_self) _)
      hahead ⟨seed, ?_⟩
    exact hloaded.update _ (fun _ => List.mem_cons_of_mem _) fun _ _ => Or.inl List.mem_cons_self
  | fill numa_id todo =>
    obtain ⟨seed, hloaded⟩ := hholder
    refine h.rebuild (hvms rfl) rfl rfl (hupdated numa_id (hahead numa_id List.mem_cons_self) _)
      (fun n hn => hahead n (List.mem_cons_of_mem _ hn)) ⟨seed, ?_⟩
    refine hloaded.update _ (fun _ hn => hn) fun m hm => Or.inr ?_
    obtain ⟨d, -, rfl⟩ := Option.map_eq_some_iff.mp hm
    obtain ⟨id, hid⟩ := hloaded.cache
    change s.seedOf = some seed
    rw [seedOf, hid]
    rfl

theorem Contents.leave {s : Rx} (h : s.Contents nodes mode) (hcoherent : s.Coherent) :
    ({ s with lifecycle := none } : Rx).Contents nodes mode :=
  ⟨h.fixed, h.light, h.listed, fun _ hmem => (by cases hmem), hcoherent, h.uses⟩

theorem Contents.go {s : Rx} (h : s.Contents nodes mode) (c : Create)
    (hready : s.Ready (some (.create c))) :
    ({ s with lifecycle := some (.create c) } : Rx).Contents nodes mode :=
  ⟨h.fixed, h.light, h.listed, fun _ hmem => (by cases hmem), by cases c <;> exact hready, h.uses⟩

theorem Contents.create {s : Rx} (h : s.Contents nodes mode) {c : Create}
    (hlife : s.lifecycle = some (.create c)) (ok : Bool) :
    (s.create ok c).Contents nodes mode := by
  have hcoherent := h.coherent_of_create hlife
  have hholder := h.holder
  rw [hlife] at hholder
  cases c with
  | entered numa_node =>
    simp only [Rx.create]
    split_ifs with hcheck
    · exact h.leave hcoherent
    · rw [not_or, Option.isNone_iff_eq_none, ← ne_eq, Option.ne_none_iff_isSome] at hcheck
      exact h.go _ ⟨hcoherent, hcheck.1⟩
  | checked numa_node =>
    simp only [Rx.create]
    split
    next hlight =>
      refine h.go _ ⟨hcoherent, hholder.2, fun hfast => ?_⟩
      rw [hlight] at hfast
      cases hfast
    next hfast =>
      split
      next => exact h.leave hcoherent
      next dataset hdataset =>
        exact h.go _ ⟨hcoherent, hholder.2, fun _ => ⟨_, _, numa_node, rfl, hdataset⟩⟩
  | found dataset =>
    simp only [Rx.create]
    split
    next cache hcache =>
      split_ifs
      · exact h.go _ ⟨hcoherent, hcoherent.uses hcache hholder.2.2⟩
      · exact h.leave hcoherent
    next => exact h.leave hcoherent
  | created vm =>
    refine ⟨h.fixed, h.light, h.listed, fun _ hmem => (by cases hmem), hcoherent, ?_⟩
    intro vm' hvm'
    rcases List.mem_append.mp hvm' with hold | hnew
    · exact h.uses vm' hold
    · exact List.mem_singleton.mp hnew ▸ hholder.2
  | counted => exact h.leave hcoherent

theorem Contents.step {s s' : Rx} {a : Action.Rx} (h : s.Contents nodes mode) (hc : s.Counts)
    (hs : s.step nodes a = some s') : s'.Contents nodes mode := by
  -- most steps leave the cache, the datasets, the lock and the VMs as they are
  cases a with
  | allocate seed_hash =>
    obtain ⟨-, hs⟩ := Option.ite_none_right_eq_some.mp hs
    exact Option.some.inj hs ▸ ⟨h.fixed, h.light, h.listed, h.ahead, h.holder, h.uses⟩
  | announce =>
    simp only [Rx.step] at hs
    split at hs
    next => exact Option.some.inj hs ▸ ⟨h.fixed, h.light, h.listed, h.ahead, h.holder, h.uses⟩
    next => cases hs
  | queue =>
    simp only [Rx.step] at hs
    split at hs
    next => exact Option.some.inj hs ▸ ⟨h.fixed, h.light, h.listed, h.ahead, h.holder, h.uses⟩
    next => cases hs
  | clear w =>
    obtain ⟨-, hs⟩ := Option.ite_none_right_eq_some.mp hs
    exact Option.some.inj hs ▸ ⟨h.fixed, h.light, h.listed, h.ahead, h.holder, h.uses⟩
  | settle =>
    obtain ⟨-, hs⟩ := Option.ite_none_right_eq_some.mp hs
    exact Option.some.inj hs ▸ ⟨h.fixed, h.light, h.listed, h.ahead, h.holder, h.uses⟩
  | lock w =>
    obtain ⟨⟨hfree, -⟩, hs⟩ := Option.ite_none_right_eq_some.mp hs
    have hcoherent : s.Ready none := hfree ▸ h.holder
    exact Option.some.inj hs ▸
      ⟨h.fixed, h.light, h.listed, fun _ hmem => (by cases hmem), hcoherent, h.uses⟩
  | execute ok =>
    simp only [Rx.step] at hs
    split at hs
    next w e hlife =>
      obtain ⟨worker, hw, -⟩ := hc.executing w e hlife
      refine Option.some.inj hs ▸ h.execute hlife (fun hpast => ?_) (by rw [hw]; rfl) ok
      refine (hc.quiet (hc.drained ?_)).2.1
      rw [rebuilding, hlife]
      exact hpast
    next => cases hs
  | enter numa_node =>
    obtain ⟨hfree, hs⟩ := Option.ite_none_right_eq_some.mp hs
    have hcoherent : s.Ready none := hfree ▸ h.holder
    exact Option.some.inj hs ▸ h.go _ hcoherent
  | create ok =>
    simp only [Rx.step] at hs
    split at hs
    next c hlife => exact Option.some.inj hs ▸ h.create hlife ok
    next => cases hs
  | destroy vm =>
    obtain ⟨-, hs⟩ := Option.ite_none_right_eq_some.mp hs
    exact Option.some.inj hs ▸ ⟨h.fixed, h.light, h.listed, h.ahead, h.holder,
      fun vm' hvm' => h.uses vm' (List.mem_of_mem_erase hvm')⟩
  | uncount =>
    obtain ⟨-, hs⟩ := Option.ite_none_right_eq_some.mp hs
    exact Option.some.inj hs ▸ ⟨h.fixed, h.light, h.listed, h.ahead, h.holder, h.uses⟩

theorem Contents.start (nodes : List NumaId) (mode : RxMode) :
    ({ m_mode := mode } : Rx).Contents nodes mode :=
  ⟨rfl, fun _ _ => rfl, fun _ hsome => (by cases hsome), fun _ hmem => (by cases hmem),
    Or.inl rfl, fun _ hvm => (by cases hvm)⟩

theorem Contents.uses_alive {s : Rx} (h : s.Contents nodes mode) : ∀ vm ∈ s.alive, s.Uses vm := by
  intro vm hvm
  unfold alive at hvm
  split at hvm
  next vm' hlife =>
    have hholder := h.holder
    rw [hlife] at hholder
    rcases List.mem_cons.mp hvm with rfl | hvm
    · exact hholder.2
    · exact h.uses vm hvm
  next => exact h.uses vm hvm

/-! ### Every run -/

/-- No VM is in existence from the moment an `Execute` passes its drain loop until a `Clear` brings
`pending` to zero, so none while the cache is replaced or a dataset is filled. For as long as a VM
exists, its cache and, in FAST mode, its dataset are the miner's and hold the content of one
seed. -/
theorem no_vm_outlives_its_dataset (nodes : List NumaId) (mode : RxMode) {as : List Action.Rx}
    {s : Rx} (hrun : exec (step nodes) { m_mode := mode } as = some s) :
    s.m_mode = mode ∧ (s.quiet = true → s.alive = []) ∧
      (s.rebuilding = true → s.quiet = true ∧ s.alive = []) ∧ ∀ vm ∈ s.alive, s.Uses vm := by
  have hstep : ∀ (s : Rx) (a : Action.Rx) (s' : Rx), s.Counts ∧ s.Contents nodes mode →
      s.step nodes a = some s' → s'.Counts ∧ s'.Contents nodes mode :=
    fun s a s' h hs => ⟨h.1.step hs, h.2.step h.1 hs⟩
  obtain ⟨hcounts, hcontents⟩ :=
    exec_preserves hstep ⟨Counts.start mode, Contents.start nodes mode⟩ hrun
  refine ⟨hcontents.fixed, hcounts.alive_eq_nil, fun hbuild => ?_, hcontents.uses_alive⟩
  have hquiet := hcounts.drained hbuild
  exact ⟨hquiet, hcounts.alive_eq_nil hquiet⟩

/-- A dataset that cannot be allocated, a VM on the other node, and a second allocation that waits
for the VM. -/
def reallocating : List Action.Rx :=
  [.allocate [1], .announce, .queue, .lock 0, .execute true, .execute true, .execute true,
    .execute true, .execute true, .execute true, .execute true, .execute false, .execute true,
    .clear 0, .settle, .enter 0, .create true, .create true, .create true, .create true,
    .create true, .allocate [2], .announce, .queue, .lock 1, .execute true,
    .destroy ⟨0, some 1⟩, .uncount, .execute true, .execute true]

theorem no_vm_outlives_its_dataset_reallocating :
    ∃ s, exec (step [0, 1]) { m_mode := .Fast } reallocating = some s ∧
      (s.m_mode = .Fast ∧ (s.quiet = true → s.alive = []) ∧
        (s.rebuilding = true → s.quiet = true ∧ s.alive = []) ∧ ∀ vm ∈ s.alive, s.Uses vm) :=
  exists_exec (by decide +kernel) fun _ hrun => no_vm_outlives_its_dataset [0, 1] .Fast hrun

example : (exec (step [0, 1]) { m_mode := .Fast } (reallocating.take 21)).map alive =
    some [⟨0, some 1⟩] := by decide +kernel

end Rx

end NMiner
