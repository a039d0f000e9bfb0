import Mathlib

/-! `Rx` and `AllocateWorker`: the cache and the datasets of a miner while allocations are queued
on the JS thread, run on worker threads and cleared, and while mining threads create and destroy
VMs. `active_vms` and `pending` are integers here, as neither comes near the bounds of an `int`. -/

namespace NMiner

abbrev Seed := List UInt8

/-- The `os_index` of a NUMA node. -/
abbrev NumaId := UInt32

def kMaxSeedSize : ℕ := 32

def kDrainSpins : ℕ := 1000

inductive RxMode
  | Light
  | Fast
  deriving DecidableEq, Repr

/-- A cache or a dataset, and the seed that all of its content comes from. -/
structure Memory where
  id : ℕ
  seed : Option Seed := none
  deriving DecidableEq, Repr

def Memory.filled (m : Memory) (seed : Option Seed) : Memory := { m with seed := seed }

structure RxVm where
  cache : ℕ
  dataset : Option ℕ
  deriving DecidableEq, Repr

/-- How far `Execute` is once it holds `lifecycle`. -/
inductive Execute
  | drain (spins : ℕ)
  /-- No VM is active. -/
  | drained
  | released
  | allocated
  /-- `BuildDataset`, with the nodes to come. -/
  | build (todo : List NumaId) (ok : Bool)
  | reserved (numa : NumaId) (todo : List NumaId)
  | fill (numa : NumaId) (todo : List NumaId)
  deriving DecidableEq, Repr

/-- How far `create_vm` is once it holds `lifecycle`. -/
inductive Create
  | entered (numa_node : NumaId)
  | checked (numa_node : NumaId)
  | found (dataset : Option ℕ)
  /-- `randomx_create_vm` has returned, and the VM is not counted. -/
  | created (vm : RxVm)
  | counted
  deriving DecidableEq, Repr

/-- The scope that holds `lifecycle`. -/
inductive Holder
  | execute (worker : ℕ) (at_ : Execute)
  | create (at_ : Create)
  deriving DecidableEq, Repr

inductive Progress
  | queued
  | executing
  | executed (outcome : Except String Bool)
  | cleared
  deriving DecidableEq, Repr

structure AllocateWorker where
  seed_hash : Seed
  progress : Progress
  deriving DecidableEq, Repr

/-- Where the JS thread is in `queue_allocate` or `Clear`. -/
inductive Js
  | idle
  | counted (seed_hash : Seed)
  | announced (seed_hash : Seed)
  | clearing
  deriving DecidableEq, Repr

structure Rx where
  m_mode : RxMode
  lifecycle : Option Holder := none
  active_vms : ℤ := 0
  pending : ℤ := 0
  updating : Bool := false
  cache : Option Memory := none
  datasets : NumaId → Option Memory := fun _ => none
  /-- The allocations so far; each gets a pointer of its own. -/
  allocations : ℕ := 0
  js : Js := .idle
  workers : List AllocateWorker := []
  /-- The VMs that mining threads hold. -/
  vms : List RxVm := []
  /-- The VMs destroyed and still counted in `active_vms`. -/
  dying : ℕ := 0
  /-- Some `Execute` has passed its drain loop and no `Clear` has brought `pending` to zero. -/
  quiet : Bool := false

inductive Action.Rx
  | allocate (seed_hash : Seed)
  | announce
  | queue
  | clear (worker : ℕ)
  | settle
  | lock (worker : ℕ)
  /-- The next step of `Execute`; `ok` is the success of the allocation the step makes. -/
  | execute (ok : Bool)
  | enter (numa_node : NumaId)
  /-- The next step of `create_vm`; `ok` is the success of the allocation the step makes. -/
  | create (ok : Bool)
  | destroy (vm : RxVm)
  | uncount
  deriving DecidableEq, Repr

namespace Rx

variable (nodes : List NumaId)

def setProgress (s : Rx) (w : ℕ) (p : Progress) : List AllocateWorker :=
  s.workers.modify w fun worker => { worker with progress := p }

/-- `Execute` returns. -/
def finish (s : Rx) (w : ℕ) (outcome : Except String Bool) : Rx :=
  { s with lifecycle := none, workers := s.setProgress w (.executed outcome) }

def proceed (s : Rx) (w : ℕ) (e : Execute) : Rx :=
  { s with lifecycle := some (.execute w e) }

def seedOf (s : Rx) : Option Seed := s.cache.bind Memory.seed

/-- The next step of `AllocateWorker::Execute`; `nodes` are the NUMA nodes of the machine. -/
def execute (s : Rx) (w : ℕ) (ok : Bool) : Execute → Rx
  | .drain spins =>
    if s.active_vms > 0 then
      if spins ≥ kDrainSpins then s.finish w (.error "timed out waiting for active VMs to release")
      else s.proceed w (.drain (spins + 1))
    else { s.proceed w .drained with quiet := true }
  | .drained => { s.proceed w .released with cache := none }
  | .released =>
    if ok then
      { s.proceed w .allocated with
        cache := some ⟨s.allocations, none⟩, allocations := s.allocations + 1 }
    else s.finish w (.error "randomx_alloc_cache failed")
  | .allocated =>
    let seed := s.workers[w]?.map fun worker => worker.seed_hash.take kMaxSeedSize
    let s : Rx := { s with cache := s.cache.map (·.filled seed) }
    match s.m_mode with
    | .Light => s.finish w (.ok true)
    | .Fast => s.proceed w (.build nodes false)
  | .build [] ok =>
    if ok then s.finish w (.ok true) else s.finish w (.error "randomx_alloc_dataset failed")
  | .build (numa_id :: todo) built =>
    -- `Reserve` keeps the dataset of the node, if there is one
    if (s.datasets numa_id).isSome then s.proceed w (.reserved numa_id todo)
    else if ok then
      { s.proceed w (.reserved numa_id todo) with
        datasets := Function.update s.datasets numa_id (some ⟨s.allocations, none⟩)
        allocations := s.allocations + 1 }
    else
      { s.proceed w (.build todo built) with
        datasets := Function.update s.datasets numa_id none }
  | .reserved numa_id todo =>
    { s.proceed w (.fill numa_id todo) with
      datasets := Function.update s.datasets numa_id
        ((s.datasets numa_id).map (·.filled none)) }
  | .fill numa_id todo =>
    { s.proceed w (.build todo true) with
      datasets := Function.update s.datasets numa_id
        ((s.datasets numa_id).map (·.filled s.seedOf)) }

/-- The next step of `create_vm`. -/
def create (s : Rx) (ok : Bool) : Create → Rx
  | .entered numa_node =>
    if s.cache.isNone ∨ s.updating then { s with lifecycle := none }
    else { s with lifecycle := some (.create (.checked numa_node)) }
  | .checked numa_node =>
    match s.m_mode with
    | .Light => { s with lifecycle := some (.create (.found none)) }
    | .Fast => match s.datasets numa_node with
      | none => { s with lifecycle := none }
      | some dataset => { s with lifecycle := some (.create (.found (some dataset.id))) }
  | .found dataset =>
    match s.cache with
    | some cache =>
      if ok then { s with lifecycle := some (.create (.created ⟨cache.id, dataset⟩)) }
      else { s with lifecycle := none }
    | none => { s with lifecycle := none }
  | .created vm =>
    { s with
      lifecycle := some (.create .counted), active_vms := s.active_vms + 1, vms := s.vms ++ [vm] }
  | .counted => { s with lifecycle := none }

/-- `Clear`. -/
def clear (s : Rx) (w : ℕ) : Rx :=
  { s with
    workers := s.setProgress w .cleared, pending := s.pending - 1
    js := if s.pending = 1 then .clearing else .idle
    quiet := s.quiet && s.pending ≠ 1 }

def executed (s : Rx) (w : ℕ) : Bool :=
  match s.workers[w]? with
  | some ⟨_, .executed _⟩ => true
  | _ => false

def queued (s : Rx) (w : ℕ) : Bool :=
  match s.workers[w]? with
  | some ⟨_, .queued⟩ => true
  | _ => false

/-- One atomic step of the JS thread, of a worker thread or of a mining thread. -/
def step (s : Rx) : Action.Rx → Option Rx
  | .allocate seed_hash =>
    if s.js = .idle then some { s with pending := s.pending + 1, js := .counted seed_hash }
    else none
  | .announce => match s.js with
    | .counted seed_hash => some { s with updating := true, js := .announced seed_hash }
    | _ => none
  | .queue => match s.js with
    | .announced seed_hash =>
      some { s with workers := s.workers ++ [⟨seed_hash, .queued⟩], js := .idle }
    | _ => none
  | .clear w => if s.js = .idle ∧ s.executed w then some (s.clear w) else none
  | .settle => if s.js = .clearing then some { s with updating := false, js := .idle } else none
  | .lock w =>
    if s.lifecycle = none ∧ s.queued w then
      some { s with
        lifecycle := some (.execute w (.drain 0)), workers := s.setProgress w .executing }
    else none
  | .execute ok => match s.lifecycle with
    | some (.execute w e) => some (s.execute nodes w ok e)
    | _ => none
  | .enter numa_node =>
    if s.lifecycle = none then some { s with lifecycle := some (.create (.entered numa_node)) }
    else none
  | .create ok => match s.lifecycle with
    | some (.create c) => some (s.create ok c)
    | _ => none
  | .destroy vm =>
    if vm ∈ s.vms then some { s with vms := s.vms.erase vm, dying := s.dying + 1 } else none
  | .uncount =>
    if s.dying > 0 then some { s with dying := s.dying - 1, active_vms := s.active_vms - 1 }
    else none

/-- The VMs in existence, counted or not. -/
def alive (s : Rx) : List RxVm :=
  match s.lifecycle with
  | some (.create (.created vm)) => vm :: s.vms
  | _ => s.vms

end Rx

end NMiner
