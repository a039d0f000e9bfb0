import NMiner.Spec.Link

/-! The `Grant` objects that `upstream.ts` shares with a miner's ledger, and the replies of
`get_chunk` that hold on to them until they are serialised. It is the state of an upstream as far as
one of its miners is concerned: the other miners only take ranges off the spaces of the links. -/

namespace NMiner

namespace Shared

instance : NeZero NICEHASH_SLOTS := ⟨by decide⟩

/-- A reference to a `Grant`. -/
abbrev Ref := ℕ

structure Ledger where
  job_id : String := ""
  prior : List Ref := []
  ranges : List Ref := []

structure Link where
  job_id : Option String := none
  space : NonceSpace := createSpace []
  /-- How many jobs have arrived on the link. -/
  pushes : ℕ := 0

inductive Stage
  /-- `LocalBackend.chunk` waits for the reply of the upstream. -/
  | chunk
  /-- The reply waits to be serialised, as the object or as a copy with a new target. -/
  | reply (copy : Option Grant)
  | told
  deriving DecidableEq, Repr

structure Reply where
  ref : Ref
  stage : Stage := .chunk
  deriving DecidableEq, Repr

/-- A range as the miner is told it. -/
structure Told where
  ref : Ref
  range : Grant
  deriving DecidableEq, Repr

structure Upstream where
  grants : Ref → Grant := fun _ => ⟨0, 0⟩
  next : Ref := 0
  /-- The ledger of the miner. -/
  ledger : Ledger := {}
  links : LinkId → Link := fun _ => {}
  home : Option LinkId := none
  replies : List Reply := []
  told : List Told := []
  /-- The range that `take` cut for each object. -/
  cut : Ref → Grant := fun _ => ⟨0, 0⟩
  /-- The job that it was cut for: which job of which link. -/
  key : Ref → LinkId × ℕ := fun _ => (0, 0)
  /-- The slots of each job, none if it is over the whole nonce space. -/
  slots : LinkId × ℕ → List (Fin NICEHASH_SLOTS) := fun _ => []

inductive Action
  /-- A job arrives on a link. -/
  | job (l : LinkId) (job_id : String) (slot : Fin NICEHASH_SLOTS)
      (extra : List (Fin NICEHASH_SLOTS)) (count : ℚ)
  /-- `get_chunk`, up to where the reply of the upstream is awaited. -/
  | chunk (job_id : String) (count : ℚ)
  /-- `attach` or `migrate` houses the miner on a link and serves it. -/
  | house (l : LinkId) (count : ℚ)
  /-- The miner goes back to a link, or has none. -/
  | rehome (home : Option LinkId)
  /-- The miner is detached. -/
  | detach
  /-- A link is lost. -/
  | sever (l : LinkId)
  /-- Another miner is served. -/
  | other (l : LinkId) (count : ℚ)
  /-- `LocalBackend.chunk` goes on with the reply of the `i`th call, and copies it or not. -/
  | resume (i : ℕ) (copies : Bool)
  /-- The reply of the `i`th call is serialised. -/
  | serialise (i : ℕ)

namespace Upstream

open Function (update)

def setLink (u : Upstream) (l : LinkId) (f : Link → Link) : Upstream :=
  { u with links := update u.links l (f (u.links l)) }

/-- `Ledger.record`. -/
def record (u : Upstream) (job_id : String) (range : Ref) : Upstream :=
  let ledger := if u.ledger.job_id ≠ job_id then
      { job_id := job_id, prior := u.ledger.ranges, ranges := [] : Ledger }
    else u.ledger
  match ledger.ranges.getLast? with
  | some last =>
    if (u.grants last).nonce_limit = (u.grants range).start_nonce then
      { u with
        ledger := ledger
        grants := update u.grants last
          { u.grants last with nonce_limit := (u.grants range).nonce_limit } }
    else { u with ledger := { ledger with ranges := ledger.ranges ++ [range] } }
  | none => { u with ledger := { ledger with ranges := ledger.ranges ++ [range] } }

/-- A new object for a range cut off the space of a link. -/
def alloc (u : Upstream) (l : LinkId) (g : Grant) : Upstream :=
  { u with
    grants := update u.grants u.next g
    next := u.next + 1
    cut := update u.cut u.next g
    key := update u.key u.next (l, (u.links l).pushes) }

/-- `grant`; `count` is what `chunkSize` makes of the miner's rate, the load and the deadline. -/
def grant (u : Upstream) (l : LinkId) (count : ℚ) : Option Ref × Upstream :=
  if spaceLeft (u.links l).space ≤ 0 then (none, u)
  else
    let (range, space) := take (u.links l).space count
    let u := u.setLink l fun link => { link with space := space }
    match range with
    | none => (none, u)
    | some g =>
      let granted := u.alloc l g
      match (u.links l).job_id with
      | some job_id => (some u.next, granted.record job_id u.next)
      | none => (some u.next, granted)

def tell (u : Upstream) (r : Ref) (range : Grant) : Upstream :=
  { u with told := u.told ++ [⟨r, range⟩] }

/-- A range is granted and told at once, as `payload` copies it. -/
def serve (u : Upstream) (l : LinkId) (count : ℚ) : Upstream :=
  match u.grant l count with
  | (some r, u) => u.tell r (u.grants r)
  | (none, u) => u

def setJob (u : Upstream) (l : LinkId) (job_id : String) (slot : Fin NICEHASH_SLOTS)
    (extra : List (Fin NICEHASH_SLOTS)) : Upstream :=
  let pushes := (u.links l).pushes + 1
  { u with
    links := update u.links l {
      job_id := some job_id
      space := if 0 < slot.val then nicehashSpace slot.val (extra.map fun b => (b.val : ℤ))
        else fullSpace
      pushes := pushes }
    slots := update u.slots (l, pushes) (if 0 < slot.val then slot :: extra else []) }

/-- `accept`, with the miner among those that are served. -/
def accept (u : Upstream) (l : LinkId) (job_id : String) (slot : Fin NICEHASH_SLOTS)
    (extra : List (Fin NICEHASH_SLOTS)) (count : ℚ) : Upstream :=
  let u := u.setJob l job_id slot extra
  if u.home = some l then u.serve l count else u

/-- `chunk`; only the replies that are a grant matter. -/
def chunk (u : Upstream) (job_id : String) (count : ℚ) : Upstream :=
  match u.home with
  | none => u
  | some l =>
    if (u.links l).job_id ≠ some job_id then u
    else match u.grant l count with
      | (some r, u) => { u with replies := u.replies ++ [⟨r, .chunk⟩] }
      | (none, u) => u

def setStage (u : Upstream) (i : ℕ) (stage : Stage) : Upstream :=
  { u with replies := u.replies.modify i fun reply => { reply with stage := stage } }

def step (u : Upstream) : Action → Option Upstream
  | .job l job_id slot extra count => some (u.accept l job_id slot extra count)
  | .chunk job_id count => some (u.chunk job_id count)
  | .house l count => some ({ u with home := some l }.serve l count)
  | .rehome home => some { u with home := home }
  | .detach => some { u with home := none, ledger := {} }
  | .sever l => some { u.setLink l fun link => { link with job_id := none } with
      home := if u.home = some l then none else u.home }
  | .other l count => some (if spaceLeft (u.links l).space ≤ 0 then u
      else u.setLink l fun link => { link with space := (take link.space count).2 })
  | .resume i copies => (u.replies[i]?).bind fun reply =>
      if reply.stage = .chunk then
        some (u.setStage i (.reply (if copies then some (u.grants reply.ref) else none)))
      else none
  | .serialise i => (u.replies[i]?).bind fun reply => match reply.stage with
    | .reply copy =>
      some ((u.setStage i .told).tell reply.ref (copy.getD (u.grants reply.ref)))
    | _ => none

end Upstream

end Shared

end NMiner
