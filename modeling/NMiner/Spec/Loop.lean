import NMiner.Lib.HexText
import NMiner.Spec.Cursor

/-! A mining thread: `RxJob::Loop`, one step for each thing it reads of the shared state. A step
is given what the thread reads, so that a run is a sequence of events the thread sees. -/

namespace NMiner

def kNonceOffset : ℕ := 39
def kMaxBlobSize : ℕ := 408
def kNicehashMask : UInt32 := 0xFF000000

/-- The bytes of a nonce in the blob. -/
def nonceBytes (nonce : UInt32) : List UInt8 := (HexText.toBytes 4 nonce.toNat).map UInt8.ofNat

/-- The nonce in a blob. -/
def readNonce (blob : List UInt8) : UInt32 :=
  UInt32.ofNat (HexText.littleEndian (((blob.drop kNonceOffset).take 4).map UInt8.toNat))

/-- `WriteNonce`; `masked` is that the job is a NiceHash job without a range. -/
def writeNonce (masked : Bool) (blob : List UInt8) (nonce : UInt32) : List UInt8 :=
  let n := if masked then (readNonce blob &&& kNicehashMask) ||| (nonce &&& ~~~kNicehashMask)
    else nonce
  blob.take kNonceOffset ++ nonceBytes n ++ blob.drop (kNonceOffset + 4)

/-- Copy bytes over the beginning of a buffer. -/
def memcpy (buffer bytes : List UInt8) : List UInt8 := bytes ++ buffer.drop bytes.length

/-- A hashing machine, with the input it has loaded. -/
structure Vm (V : Type) where
  id : V
  loaded : List UInt8 := []

/-- A call of `SubmitShare`. -/
structure Submission where
  hash : List UInt8
  blob : List UInt8
  target : UInt64
  version : UInt32
  deriving DecidableEq, Repr

/-- A nonce written into a blob: what was loaded into the machine. -/
structure Input (V : Type) where
  vm : V
  nonce : UInt32
  blob : List UInt8
  target : UInt64
  version : UInt32
  /-- The `SendJob` that installed the range of the nonce. Nothing reads it. -/
  source : ℕ

inductive Pc
  /-- In `AcquireVm`, at the start or after an update. -/
  | acquire (again : Bool)
  /-- About to read the version after an update. -/
  | refresh
  | top
  | poll
  | check
  /-- About to copy the job under `m_job_mutex`. -/
  | copy
  | draw
  /-- About to write a nonce. -/
  | write (nonce : UInt32) (source : ℕ)
  | done
  deriving DecidableEq, Repr

/-- What a thread reads of the shared state. -/
inductive Event (V : Type)
  | acquired (vm : Option V)
  | active (b : Bool)
  | updating (b : Bool)
  | version (v : UInt32)
  /-- The job; `job` is the number of the `SendJob` that sent it, which nothing reads. -/
  | copied (blob : List UInt8) (target : UInt64) (version : UInt32) (job : ℕ)
  | nonce (n : Option (UInt32 × ℕ))
  | flags (nicehash ranged : Bool)

structure Loop (V : Type) where
  pc : Pc := .acquire false
  vm : Option (Vm V) := none
  size : ℕ := 0
  target : UInt64 := 0
  version : UInt32 := 0
  is_first : Bool := true
  cur : List UInt8 := List.replicate kMaxBlobSize 0
  nxt : List UInt8 := List.replicate kMaxBlobSize 0
  /-- What the thread has added to `m_hashes_done`. -/
  hashes_done : ℕ := 0
  submissions : List Submission := []
  /-- The number of the `SendJob` whose job was copied last. Nothing reads it. -/
  job : ℕ := 0
  /-- The nonces drawn. -/
  drawn : List UInt32 := []
  /-- The inputs loaded into a machine. -/
  inputs : List (Input V) := []

namespace Loop

variable {V : Type} (hash : V → List UInt8 → List UInt8)

/-- Count a hash and pass it to `SubmitShare`. -/
def submit (l : Loop V) (h : List UInt8) : Loop V :=
  { l with
    hashes_done := l.hashes_done + 1
    submissions := l.submissions ++
      [{ hash := h, blob := l.cur.take l.size, target := l.target, version := l.version }] }

/-- `FlushHash`. -/
def flush (l : Loop V) : Loop V :=
  match l.vm with
  | none => l
  | some vm =>
    if l.is_first = true ∨ l.size = 0 then l
    else { l.submit (hash vm.id vm.loaded) with is_first := true }

/-- Note an input that is loaded. -/
def note (l : Loop V) (vm : Vm V) (nonce : UInt32) (blob : List UInt8) (source : ℕ) : Loop V :=
  let input : Input V := ⟨vm.id, nonce, blob, l.target, l.version, source⟩
  { l with vm := some { vm with loaded := blob }, inputs := l.inputs ++ [input] }

/-- The first hash of the pipeline: `WriteNonce` and `randomx_calculate_hash_first`. -/
def first (l : Loop V) (vm : Vm V) (masked : Bool) (nonce : UInt32) (source : ℕ) : Loop V :=
  let cur := writeNonce masked l.cur nonce
  let blob := cur.take l.size
  { l.note vm nonce blob source with
    pc := .top, is_first := false, cur := cur, nxt := memcpy l.nxt blob }

/-- A later one: `WriteNonce`, `randomx_calculate_hash_next` and `SubmitShare`. -/
def next (l : Loop V) (vm : Vm V) (masked : Bool) (nonce : UInt32) (source : ℕ) : Loop V :=
  let nxt := writeNonce masked l.nxt nonce
  let blob := nxt.take l.size
  { (l.submit (hash vm.id vm.loaded)).note vm nonce blob source with
    pc := .top, cur := memcpy l.cur blob, nxt := nxt }

/-- One step, with what it reads. -/
def step (l : Loop V) : Event V → Option (Loop V)
  | .acquired vm => match l.pc, vm with
    | .acquire _, none => some { l with pc := .done }
    | .acquire again, some id =>
      some { l with vm := some { id := id }, pc := if again then .refresh else .top }
    | _, _ => none
  | .active b => match l.pc with
    | .top => some (if b then { l with pc := .poll } else { flush hash l with pc := .done })
    | _ => none
  | .updating b => match l.pc with
    | .poll =>
      some (if b then { flush hash l with pc := .acquire true, vm := none }
        else { l with pc := .check })
    | _ => none
  | .version v => match l.pc with
    | .refresh => some { l with version := v - 1, pc := .top }
    | .check =>
      some (if l.version ≠ v then { flush hash l with pc := .copy } else { l with pc := .draw })
    | _ => none
  | .copied blob target version job => match l.pc with
    | .copy => some { l with
        cur := memcpy l.cur blob, size := blob.length, target := target, version := version
        job := job, pc := .draw }
    | _ => none
  | .nonce n => match l.pc, n with
    | .draw, none => some { flush hash l with pc := .top }
    | .draw, some (nonce, source) =>
      if l.size = 0 then none
      else some { l with pc := .write nonce source, drawn := l.drawn ++ [nonce] }
    | _, _ => none
  | .flags nicehash ranged => match l.pc, l.vm with
    | .write nonce source, some vm =>
      let masked := nicehash && !ranged
      some (if l.is_first then l.first vm masked nonce source
        else l.next hash vm masked nonce source)
    | _, _ => none

end Loop

end NMiner
