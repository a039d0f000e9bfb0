import NMiner.Proofs.Loads
import NMiner.Proofs.Slices
import NMiner.Proofs.Wires

/-! Miners that are placed together. `pick` reads the headroom of a link and `house` adds to its
load only later, so calls that settle on a link do not see each other. Its capacity is
respected when every call that settles on it fits into its headroom beside the calls
that have done so and are not housed yet. -/

namespace NMiner

open Relation (ReflTransGen)
open Transition

/-! ### Whether a space has a nonce to give -/

/-- It does not depend on how many are asked for. -/
theorem take_eq_none_iff (space : NonceSpace) (count : ℚ) :
    (take space count).1 = none ↔ ∀ n ∈ space.remaining, TOP ≤ n := by
  fun_induction take space count with
  | case1 space h segment left hleft ih =>
    rw [ih, remaining_next h hleft]
  | case2 space h segment left hleft size start limit rest hlimit =>
    have htop : limit ≤ TOP := min_le_right _ _
    refine ⟨fun hnone => (by cases hnone), fun hdry => ?_⟩
    have hspace : space.remaining = (Set.Ico (segment.base + space.cursor)
        (segment.base + segment.size) ∪ nonces (space.segments.drop (space.index + 1))) \ {TOP} :=
      remaining_eq space h
    have hmem : start ∈ space.remaining := by
      rw [hspace]
      refine ⟨Or.inl ⟨le_rfl, ?_⟩, fun heq => ?_⟩
      · simp only [start, left] at hleft ⊢
        omega
      · rw [Set.mem_singleton_iff] at heq
        omega
    have hle := hdry start hmem
    omega
  | case3 space h segment left hleft size start limit rest hlimit ih =>
    have hpos : 0 < size := by
      simp only [size]
      omega
    have hstart : TOP ≤ start := by
      simp only [limit] at hlimit
      omega
    have hrest : rest.remaining = (Set.Ico (segment.base + (space.cursor + size))
        (segment.base + segment.size) ∪ nonces (space.segments.drop (space.index + 1))) \ {TOP} :=
      remaining_eq rest h
    have hspace : space.remaining = (Set.Ico (segment.base + space.cursor)
        (segment.base + segment.size) ∪ nonces (space.segments.drop (space.index + 1))) \ {TOP} :=
      remaining_eq space h
    rw [ih, hrest, hspace]
    -- what the rest leaves out of the current segment lies behind the top
    refine ⟨fun hdry n hn => ?_, fun hdry n hn => hdry n ⟨hn.1.imp_left fun hin => ?_, hn.2⟩⟩
    · rcases hn.1 with hin | hin
      · simp only [start, Set.mem_Ico] at hstart hin
        omega
      · exact hdry n ⟨Or.inr hin, hn.2⟩
    · simp only [Set.mem_Ico] at hin ⊢
      omega
  | case4 space h =>
    refine ⟨fun _ n hn => ?_, fun _ => rfl⟩
    unfold NonceSpace.remaining at hn
    rw [List.drop_eq_nil_of_le (Nat.le_of_not_lt h)] at hn
    exact absurd hn (Set.notMem_empty n)

namespace Link

/-- The link has no nonce to grant. -/
def dry (k : Link) : Bool := spaceLeft k.space ≤ 0 || (take k.space 1).1 = none

/-- The link has its job, or is not being connected. -/
def ripe (k : Link) : Bool := k.job.isSome || !k.opening.connecting

end Link

/-- The link that the call is going to place its miner on. -/
def Phase.bound : Phase → Option LinkId
  | .picked l => some l
  | .opening l _ => some l
  | _ => none

namespace Upstream

/-- The calls that have settled on the link, or open it, and are not housed yet. -/
def bound (u : Upstream) (l : LinkId) : List Task := u.tasks.filter fun t => t.phase.bound = some l

/-- The rates that those calls will add to the link's load. -/
def promised (u : Upstream) (l : LinkId) : ℚ := ((u.bound l).map fun t => u.rate t.client).sum

/-- The calls that have settled on one link fit into its headroom together, or there is one only and
the link is empty. -/
def Roomy (u : Upstream) : Prop := ∀ t ∈ u.tasks, ∀ l ∈ t.phase.bound,
  u.promised l ≤ (u.link l).headroom ∨ (u.link l).clients.length + (u.bound l).length ≤ 1

instance (u : Upstream) : Decidable u.Roomy :=
  inferInstanceAs (Decidable (∀ t ∈ u.tasks, ∀ l ∈ t.phase.bound,
    u.promised l ≤ (u.link l).headroom ∨ (u.link l).clients.length + (u.bound l).length ≤ 1))

/-- A placement goes on. The list of links is not full when a call picks again, and every link that
is opened comes up with a job. -/
def places (u : Upstream) : Action → Bool
  | .resume i => match u.tasks[i]? with
    | some t => match t.phase with
      | .waiting _ => u.links.length < u.maxLinks
      | .opening l _ => (u.link l).opening = .up
      | _ => true
    | none => true
  | .dialed _ (.ok _) => true
  | .loggedIn _ (.ok _) => true
  | .detach _ => true
  | .submit .. => true
  | .tick _ => true
  | _ => false

/-- A call that picks again fits into the headroom of its best link beside the calls that have
settled on it, and a miner that has been moved meanwhile does not go back to where it was. -/
def fits (u : Upstream) : Action → Bool
  | .resume i => match u.tasks[i]? with
    | some { client := c, goal := goal, origin := _, phase := .waiting _ } =>
      match u.best (u.rate c) (u.usable (Goal.exclude goal)) with
      | some l => u.rate c + u.promised l ≤ (u.link l).headroom
      | none => true
    | some { client := c, goal := .migrate source, origin := _, phase := .picked l } =>
      u.homes c = some source || !(u.link source).socket || !(u.link l).dry
    | _ => true
  | _ => true

/-- A link on which nothing was promised or housed lately, a sole miner, or a load within the
capacity. -/
def Fit (u base : Upstream) (l : LinkId) : Prop :=
  (u.link l).ripe = true ∧ (u.link l).load + u.promised l ≤ (u.link l).capacity * SAFETY ∨
    (u.link l).clients.length + (u.bound l).length ≤ 1 ∨
      u.bound l = [] ∧ ∀ c, u.homes c = some l → base.homes c = some l

variable {base u v w : Upstream} {l : LinkId}

/-! ### What placements leave alone -/

/-- Only who is housed where has changed, apart from what no placement depends on. -/
structure Level (u v : Upstream) : Prop where
  capacity : ∀ l, (v.link l).capacity = (u.link l).capacity
  ripe : ∀ l, (v.link l).ripe = (u.link l).ripe
  tasks : v.tasks = u.tasks

theorem Level.refl (u : Upstream) : Level u u := ⟨fun _ => rfl, fun _ => rfl, rfl⟩

theorem Level.trans (h : Level u v) (h' : Level v w) : Level u w :=
  ⟨fun l => (h'.capacity l).trans (h.capacity l), fun l => (h'.ripe l).trans (h.ripe l),
    h'.tasks.trans h.tasks⟩

theorem Level.foldl {α : Type*} {f : Upstream → α → Upstream} (hf : ∀ u a, Level u (f u a))
    (as : List α) (u : Upstream) : Level u (as.foldl f u) := by
  induction as generalizing u with
  | nil => exact .refl u
  | cons a as ih => exact (hf u a).trans (ih _)

theorem Level.of_update {k : Link} (hlink : v.link = Function.update u.link l k)
    (htasks : v.tasks = u.tasks) (hcapacity : k.capacity = (u.link l).capacity)
    (hripe : k.ripe = (u.link l).ripe) : Level u v := by
  refine ⟨fun m => ?_, fun m => ?_, htasks⟩
  · rw [hlink]
    exact congrFun (update_proj_same u.link l k Link.capacity hcapacity) m
  · rw [hlink]
    exact congrFun (update_proj_same u.link l k Link.ripe hripe) m

theorem setLink_level (u : Upstream) (l : LinkId) {f : Link → Link}
    (hcapacity : (f (u.link l)).capacity = (u.link l).capacity)
    (hripe : (f (u.link l)).ripe = (u.link l).ripe) : Level u (u.setLink l f) :=
  .of_update (v := u.setLink l f) rfl rfl hcapacity hripe

theorem emit_level (u : Upstream) (d : Delivery) : Level u (u.emit d) :=
  ⟨fun _ => rfl, fun _ => rfl, rfl⟩

theorem house_level (u : Upstream) (l : LinkId) (c : ClientId) : Level u (u.house l c) :=
  .of_update (v := u.house l c) rfl rfl rfl rfl

theorem evict_level (u : Upstream) (c : ClientId) : Level u (u.evict c) := by
  unfold evict
  cases u.homes c with
  | none => exact .refl u
  | some l => exact .of_update rfl rfl rfl rfl

theorem detach_level (u : Upstream) (c : ClientId) : Level u (u.detach c) := by
  have hlive : Level u { u with live := u.live.erase c } := ⟨fun _ => rfl, fun _ => rfl, rfl⟩
  have hledger : ∀ v : Upstream, Level v { v with ledgers := Function.update v.ledgers c {} } :=
    fun v => ⟨fun _ => rfl, fun _ => rfl, rfl⟩
  exact (hlive.trans (evict_level _ c)).trans (hledger _)

theorem reslice_level (u : Upstream) : Level u u.reslice :=
  Level.foldl (fun v _ => setLink_level v _ rfl rfl) _ u

theorem grant_level {c : ClientId} {r : Option Grant} (h : u.grant l c = (r, v)) : Level u v := by
  have hrecord : ∀ (w : Upstream) job g, Level w (w.record c l job g) :=
    fun w job g => ⟨fun _ => rfl, fun _ => rfl, rfl⟩
  have hspace : ∀ size, Level u (u.setLink l fun k =>
    { k with space := (take (u.link l).space size).2 }) := by
    intro size
    refine setLink_level u l ?_ rfl
    unfold Link.capacity NMiner.capacity spaceTotal
    dsimp only
    rw [take_segments]
  unfold grant at h
  dsimp only at h
  split_ifs at h
  · obtain ⟨-, rfl⟩ := Prod.mk.inj h
    exact .refl u
  all_goals
    split at h
    · obtain ⟨-, rfl⟩ := Prod.mk.inj h
      exact (hspace _).trans (hrecord _ _ _)
    · obtain ⟨-, rfl⟩ := Prod.mk.inj h
      exact hspace _

theorem payload_level {c : ClientId} {g : Grant} {p : Payload}
    (h : u.payload l c g = some (p, v)) : Level u v := by
  obtain ⟨job, -, h⟩ := Option.bind_eq_some_iff.mp h
  obtain ⟨w, -, h⟩ := Option.map_eq_some_iff.mp h
  obtain ⟨-, rfl⟩ := Prod.mk.inj h
  exact ⟨fun _ => rfl, fun _ => rfl, rfl⟩

theorem attachDone_level (u : Upstream) (c : ClientId) (origin : Origin)
    (r : Except String Payload) : Level u (u.attachDone c origin r) := by
  unfold attachDone
  split
  · exact emit_level u _
  · exact emit_level u _
  · exact emit_level u _
  · exact .refl u

theorem migrateDone_level (u : Upstream) (source : LinkId) (c : ClientId) (origin : Origin)
    (r : Except String Bool) : Level u (u.migrateDone source c origin r) := by
  unfold migrateDone
  split
  · exact emit_level u _
  · exact emit_level u _
  · exact emit_level u _
  · exact emit_level u _
  · exact .refl u

/-! ### A call that ends -/

/-- What a call that has settled on the link may do to the housing: nobody moves in, or its miner
moves in there. -/
def Lodges (l : LinkId) (c : ClientId) (u v : Upstream) : Prop :=
  u.housing.Eases v.housing ∨
    ∃ s, u.housing.Eases s ∧ v.housing = s.house l c

/-- A link without a range for a miner is dry, whatever the miner asks for. -/
theorem dry_of_grant {c : ClientId} (h : u.grant l c = (none, v)) : (u.link l).dry = true := by
  unfold grant at h
  dsimp only at h
  unfold Link.dry
  split_ifs at h with hleft hload
  · simp [hleft]
  all_goals
    split at h
    · cases h
    · obtain ⟨hnone, -⟩ := Prod.mk.inj h
      rw [take_eq_none_iff, ← take_eq_none_iff _ 1] at hnone
      simp [hnone]

/-- Moving a miner grants nothing. -/
theorem move_dry (u : Upstream) (l : LinkId) (c : ClientId) :
    (fun m => (((u.evict c).house l c).link m).dry) = fun m => (u.link m).dry := by
  have hhouse : ∀ v : Upstream, (fun m => ((v.house l c).link m).dry) =
      fun m => (v.link m).dry := fun v => update_proj_same v.link l _ Link.dry rfl
  rw [hhouse]
  unfold evict
  cases u.homes c with
  | none => rfl
  | some m => exact update_proj_same u.link m _ Link.dry rfl

theorem finishAttach_lodges (hu : u.housing.Covers) (l : LinkId) (c : ClientId) :
    Level u (u.finishAttach c (.ok l)).2 ∧ Lodges l c u (u.finishAttach c (.ok l)).2 := by
  have hdetach : ∀ v : Upstream, v.housing = u.housing.house l c →
      u.housing.Eases (v.detach c).housing := by
    intro v hv
    rw [housing_detach, hv]
    exact Housing.house_evict_eases hu l c
  have hlodge : ∀ v : Upstream, v.housing = u.housing.house l c → Lodges l c u v :=
    fun v hv => Or.inr ⟨u.housing, .refl _, hv⟩
  unfold finishAttach
  dsimp only
  split_ifs
  · have hlevel := house_level u l c
    have hhouse := housing_house u l c
    rcases hg : (u.house l c).grant l c with ⟨_ | g, v⟩
    · have hv : v.housing = u.housing.house l c := (grant_housing hg).trans hhouse
      exact ⟨(hlevel.trans (grant_level hg)).trans (detach_level v c), Or.inl (hdetach v hv)⟩
    · have hv : v.housing = u.housing.house l c := (grant_housing hg).trans hhouse
      dsimp only
      cases hp : v.payload l c g with
      | none =>
        exact ⟨(hlevel.trans (grant_level hg)).trans (detach_level v c), Or.inl (hdetach v hv)⟩
      | some pw =>
        have hcore := core_payload (p := pw.1) hp
        exact ⟨(hlevel.trans (grant_level hg)).trans (payload_level (p := pw.1) hp),
          hlodge _ ((core_eq hcore).1.trans hv)⟩
  · refine ⟨detach_level u c, Or.inl ?_⟩
    rw [housing_detach]
    exact Housing.evict_eases hu c

/-- A migration that ends: its miner moves in, or goes back to where it has just come from. -/
theorem finishMigrate_lodges (hu : u.housing.Covers) (l source : LinkId) (c : ClientId)
    (hback : u.homes c = some source ∨ (u.link source).socket = false ∨ (u.link l).dry = false) :
    Level u (u.finishMigrate source c (.ok l)).2 ∧
      Lodges l c u (u.finishMigrate source c (.ok l)).2 := by
  have hevict := Housing.evict_eases hu c
  have hcovers : (u.evict c).housing.Covers := by
    rw [housing_evict]
    exact Housing.evict_covers hu c
  have hmove : ((u.evict c).house l c).housing = (u.housing.evict c).house l c := by
    rw [housing_house, housing_evict]
  have hlodge : ∀ v : Upstream, v.housing = ((u.evict c).house l c).housing → Lodges l c u v :=
    fun v hv => Or.inr ⟨u.housing.evict c, hevict, hv.trans hmove⟩
  unfold finishMigrate
  dsimp only
  split_ifs
  · have hlevel : Level u ((u.evict c).house l c) :=
      (evict_level u c).trans (house_level (u.evict c) l c)
    rcases hg : ((u.evict c).house l c).grant l c with ⟨_ | g, v⟩
    · have hcut := hlevel.trans (grant_level hg)
      have hv := grant_housing hg
      dsimp only
      split_ifs with hsocket
      · have hhome : u.homes c = some source := by
          refine hback.resolve_right fun h => h.elim (fun hs => ?_) fun hd => ?_
          · have hcore := core_grant ((u.evict c).house l c) l c
            rw [hg] at hcore
            have hsame := congrFun (core_eq hcore).2.2.2.2.2.2.1 source
            dsimp only at hsame
            have hmoved := congrFun (move_socket u l c) source
            rw [hsocket, hmoved, hs] at hsame
            cases hsame
          · have hmoved := congrFun (move_dry u l c) l
            rw [dry_of_grant hg, hd] at hmoved
            cases hmoved
        refine ⟨hcut.trans ((evict_level v c).trans (house_level _ source c)), Or.inl ?_⟩
        rw [housing_house, housing_evict, hv, hmove]
        exact Housing.return_eases hu hhome
          (Housing.house_evict_eases (housing_evict u c ▸ hcovers) l c)
      · exact ⟨hcut, hlodge v hv⟩
    · have hcut := hlevel.trans (grant_level hg)
      have hv := grant_housing hg
      dsimp only
      cases hp : v.payload l c g with
      | none => exact ⟨hcut, hlodge v hv⟩
      | some pw =>
        have hcore := core_payload (p := pw.1) hp
        exact ⟨(hcut.trans (payload_level (p := pw.1) hp)).trans (emit_level _ _),
          hlodge _ ((core_eq hcore).1.trans hv)⟩
  · exact ⟨.refl u, Or.inl (.refl _)⟩

/-! ### Calls and promises -/

/-- The calls of a list that are going to place a miner on the link. -/
def boundBy (ts : List Task) (l : LinkId) : List Task := ts.filter fun t => t.phase.bound = some l

def promisedBy (rate : ClientId → ℚ) (ts : List Task) (l : LinkId) : ℚ :=
  ((boundBy ts l).map fun t => rate t.client).sum

theorem boundBy_perm {ts ts' : List Task} (h : ts.Perm ts') (l : LinkId) :
    (boundBy ts l).Perm (boundBy ts' l) := h.filter _

theorem promisedBy_perm (rate : ClientId → ℚ) {ts ts' : List Task} (h : ts.Perm ts') (l : LinkId) :
    promisedBy rate ts l = promisedBy rate ts' l := ((boundBy_perm h l).map _).sum_eq

/-- The `i`th call comes first. -/
theorem tasks_perm {i : ℕ} {t : Task} (ht : u.tasks[i]? = some t) :
    u.tasks.Perm (t :: u.tasks.eraseIdx i) := by
  obtain ⟨hlt, rfl⟩ := List.getElem?_eq_some_iff.mp ht
  exact (List.getElem_cons_eraseIdx_perm hlt).symm

theorem setPhase_perm {i : ℕ} {t : Task} (ht : u.tasks[i]? = some t) (p : Phase) :
    (u.setPhase i t p).tasks.Perm ({ t with phase := p } :: u.tasks.eraseIdx i) := by
  obtain ⟨hlt, -⟩ := List.getElem?_eq_some_iff.mp ht
  exact List.set_perm_cons_eraseIdx hlt _

/-- The promise that the first call of a list makes. -/
theorem promisedBy_cons (rate : ClientId → ℚ) (t : Task) (ts : List Task) (l : LinkId) :
    promisedBy rate (t :: ts) l =
      (if t.phase.bound = some l then rate t.client else 0) + promisedBy rate ts l := by
  unfold promisedBy boundBy
  rw [List.filter_cons]
  split_ifs with h h' h'
  · rw [List.map_cons, List.sum_cons]
  · exact absurd (of_decide_eq_true h) h'
  · exact absurd (decide_eq_true h') h
  · rw [zero_add]

theorem boundBy_cons_length (t : Task) (ts : List Task) (l : LinkId) :
    (boundBy (t :: ts) l).length =
      (if t.phase.bound = some l then 1 else 0) + (boundBy ts l).length := by
  unfold boundBy
  rw [List.filter_cons]
  split_ifs with h h' h'
  · rw [List.length_cons, add_comm]
  · exact absurd (of_decide_eq_true h) h'
  · exact absurd (decide_eq_true h') h
  · rw [zero_add]

/-- The load that is on the link or promised to it, and the miners there or on their way, do not
grow; and nobody moves in where nobody was on the way. -/
theorem Fit.mono (hu : u.Fit base l) (hripe : (u.link l).ripe = true → (v.link l).ripe = true)
    (hcapacity : (v.link l).capacity = (u.link l).capacity)
    (hload : (v.link l).load + v.promised l ≤ (u.link l).load + u.promised l)
    (hcount : (v.link l).clients.length + (v.bound l).length ≤
      (u.link l).clients.length + (u.bound l).length)
    (hrest : u.bound l = [] → ∀ c, v.homes c = some l → u.homes c = some l)
    (hbound : u.bound l = [] → v.bound l = []) : v.Fit base l := by
  rcases hu with ⟨hr, hfit⟩ | hsole | ⟨hnone, hold⟩
  · refine Or.inl ⟨hripe hr, ?_⟩
    rw [hcapacity]
    exact hload.trans hfit
  · exact Or.inr (Or.inl (hcount.trans hsole))
  · exact Or.inr (Or.inr ⟨hbound hnone, fun c hc => hold c (hrest hnone c hc)⟩)

/-- Nobody moves in. -/
theorem Fit.ease (hu : u.Fit base l) (hlevel : Level u v) (hease : u.housing.Eases v.housing) :
    v.Fit base l := by
  have hbound : v.bound l = u.bound l := by rw [bound, hlevel.tasks, bound]
  have hrate : v.rate = u.rate := hease.weight
  have hpromised : v.promised l = u.promised l := by rw [promised, hbound, hrate, promised]
  refine hu.mono (fun h => (hlevel.ripe l).trans h) (hlevel.capacity l) ?_ ?_
    (fun _ c => hease.home c l) fun h => hbound.trans h
  · rw [hpromised]
    exact add_le_add_left (hease.load l) _
  · rw [hbound]
    exact Nat.add_le_add_right (hease.guests l) _

/-- The phase of a call changes, and it is going to use this link if it was before. -/
theorem Fit.rephase (hu : u.Fit base l) {i : ℕ} {t : Task} (ht : u.tasks[i]? = some t) {p : Phase}
    (hp : p.bound = some l ↔ t.phase.bound = some l) : (u.setPhase i t p).Fit base l := by
  have hlength : ((u.setPhase i t p).bound l).length = (u.bound l).length := by
    change (boundBy _ l).length = (boundBy _ l).length
    rw [(boundBy_perm (setPhase_perm ht p) l).length_eq, (boundBy_perm (tasks_perm ht) l).length_eq,
      boundBy_cons_length, boundBy_cons_length]
    simp only [hp]
  have hpromised : (u.setPhase i t p).promised l = u.promised l := by
    change promisedBy u.rate _ l = promisedBy u.rate _ l
    rw [promisedBy_perm _ (setPhase_perm ht p), promisedBy_perm _ (tasks_perm ht),
      promisedBy_cons, promisedBy_cons]
    simp only [hp]
  refine hu.mono id rfl ?_ ?_ (fun _ _ h => h) fun hnone => ?_
  · rw [hpromised]
    exact le_rfl
  · rw [hlength]
    exact le_rfl
  · rw [← List.length_eq_zero_iff, hlength, hnone]
    rfl

/-- A call settles on a link that has room for it beside the promises made. -/
theorem Fit.settle (hu : u.Fit base l) {i : ℕ} {t : Task} (ht : u.tasks[i]? = some t)
    (hnone : t.phase.bound = none) {m : LinkId} (hripe : (u.link m).ripe = true)
    (hroom : u.rate t.client + u.promised m ≤ (u.link m).headroom) :
    (u.setPhase i t (.picked m)).Fit base l := by
  by_cases hlm : l = m
  · subst hlm
    refine Or.inl ⟨hripe, ?_⟩
    have hpromised : (u.setPhase i t (.picked l)).promised l = u.rate t.client + u.promised l := by
      change promisedBy u.rate _ l = _ + promisedBy u.rate _ l
      rw [promisedBy_perm _ (setPhase_perm ht _), promisedBy_perm _ (tasks_perm ht),
        promisedBy_cons, promisedBy_cons, hnone]
      simp [Phase.bound]
    rw [hpromised]
    have hheadroom : (u.link l).headroom = (u.link l).capacity * SAFETY - (u.link l).load := rfl
    change (u.link l).load + _ ≤ (u.link l).capacity * SAFETY
    linarith
  · exact hu.rephase ht (by rw [hnone]; simp [Phase.bound, Ne.symm hlm])

/-- A call that was not going to place its miner anywhere ends. -/
theorem Fit.erase (hu : u.Fit base l) {i : ℕ} {t : Task} (ht : u.tasks[i]? = some t)
    (hnone : t.phase.bound = none) : Fit { u with tasks := u.tasks.eraseIdx i } base l := by
  have hlength : (u.bound l).length = (bound { u with tasks := u.tasks.eraseIdx i } l).length := by
    change (boundBy _ l).length = (boundBy _ l).length
    rw [(boundBy_perm (tasks_perm ht) l).length_eq, boundBy_cons_length, hnone]
    simp
  have hpromised : u.promised l = promised { u with tasks := u.tasks.eraseIdx i } l := by
    change promisedBy u.rate _ l = promisedBy u.rate _ l
    rw [promisedBy_perm _ (tasks_perm ht), promisedBy_cons, hnone]
    simp
  refine hu.mono id rfl ?_ ?_ (fun _ _ h => h) fun h => ?_
  · rw [hpromised]
  · rw [hlength]
  · rw [← List.length_eq_zero_iff, ← hlength, h]
    rfl

/-- A call ends, and its miner at most moves in where it was going to. -/
theorem Fit.lodge (hu : u.Fit base l) {i : ℕ} {t : Task} (ht : u.tasks[i]? = some t) {m : LinkId}
    (hphase : t.phase = .picked m)
    (hlevel : Level { u with tasks := u.tasks.eraseIdx i } v)
    (hlodge : Lodges m t.client { u with tasks := u.tasks.eraseIdx i } v) : v.Fit base l := by
  have htasks : v.tasks = u.tasks.eraseIdx i := hlevel.tasks
  have hlength : (u.bound l).length = (if m = l then 1 else 0) + (v.bound l).length := by
    change (boundBy _ l).length = _ + (boundBy _ l).length
    rw [(boundBy_perm (tasks_perm ht) l).length_eq, boundBy_cons_length, htasks, hphase]
    simp [Phase.bound]
  have hpromised : ∀ hrate : v.rate = u.rate,
      u.promised l = (if m = l then u.rate t.client else 0) + v.promised l := by
    intro hrate
    change promisedBy u.rate _ l = _ + promisedBy v.rate _ l
    rw [promisedBy_perm _ (tasks_perm ht), promisedBy_cons, htasks, hrate, hphase]
    simp [Phase.bound]
  have hgone : u.bound l = [] → v.bound l = [] ∧ m ≠ l := by
    intro hnone
    rw [hnone, List.length_nil] at hlength
    by_cases hml : m = l
    · rw [if_pos hml] at hlength
      omega
    · rw [if_neg hml, zero_add] at hlength
      exact ⟨List.length_eq_zero_iff.mp hlength.symm, hml⟩
  have hrate0 : ∀ c, 0 ≤ u.rate c := rate_nonneg u
  have hclient := hrate0 t.client
  rcases hlodge with hease | ⟨s, hease, hmove⟩
  · -- nobody moves in
    have hload : (v.link l).load ≤ (u.link l).load := hease.load l
    have hguests : (v.link l).clients.length ≤ (u.link l).clients.length := hease.guests l
    refine hu.mono (fun h => (hlevel.ripe l).trans h) (hlevel.capacity l) ?_ ?_
      (fun _ c => hease.home c l) fun h => (hgone h).1
    · rw [hpromised hease.weight]
      split_ifs <;> linarith
    · rw [hlength]
      split_ifs <;> omega
  · have hrate : v.rate = u.rate := by
      have hsame : v.housing.weight = s.weight := by rw [hmove]; rfl
      exact hsame.trans hease.weight
    have hload : (v.link l).load ≤ (u.link l).load + if m = l then u.rate t.client else 0 := by
      have hs : s.load l ≤ (u.link l).load := hease.load l
      have hv : (v.link l).load = (s.house m t.client).load l :=
        congrFun (congrArg Housing.load hmove) l
      have hw : s.weight t.client = u.rate t.client := congrFun hease.weight t.client
      rw [hv]
      simp only [Housing.house, Function.update_apply]
      by_cases hml : m = l
      · rw [if_pos hml.symm, if_pos hml, hw, ← hml]
        exact add_le_add_left (hml ▸ hs) _
      · rw [if_neg (Ne.symm hml), if_neg hml, add_zero]
        exact hs
    have hguests : (v.link l).clients.length ≤
        (u.link l).clients.length + if m = l then 1 else 0 := by
      have hs : (s.guests l).length ≤ (u.link l).clients.length := hease.guests l
      have hv : (v.link l).clients = (s.house m t.client).guests l :=
        congrFun (congrArg Housing.guests hmove) l
      rw [hv]
      simp only [Housing.house, Function.update_apply]
      by_cases hml : m = l
      · rw [if_pos hml.symm, if_pos hml]
        exact (Housing.addGuest_length _ _).trans (Nat.succ_le_succ (hml ▸ hs))
      · rw [if_neg (Ne.symm hml), if_neg hml]
        exact hs
    refine hu.mono (fun h => (hlevel.ripe l).trans h) (hlevel.capacity l) ?_ ?_
      (fun hnone c hc => ?_) fun h => (hgone h).1
    · rw [hpromised hrate]
      split_ifs at hload ⊢ <;> linarith
    · rw [hlength]
      split_ifs at hguests ⊢ <;> omega
    · have hv : v.homes c = (s.house m t.client).home c := congrFun (congrArg Housing.home hmove) c
      rw [hv] at hc
      simp only [Housing.house, Function.update_apply] at hc
      split_ifs at hc with hcc
      · exact absurd (Option.some.inj hc) (hgone hnone).2
      · exact hease.home c l hc

/-! ### Who waits for a link that is being opened -/

/-- Every link is opened for one call. -/
structure Opened (u : Upstream) : Prop where
  born : ∀ t ∈ u.tasks, ∀ l, t.phase.opens = some l → l < u.nextLink
  distinct : (u.tasks.filterMap fun t => t.phase.opens).Nodup

theorem Opened.of_frame (hu : u.Opened) (htasks : v.tasks = u.tasks)
    (hnext : u.nextLink ≤ v.nextLink) :
    v.Opened := by
  refine ⟨fun t ht l hl => ?_, ?_⟩
  · exact (hu.born t (htasks ▸ ht) l hl).trans_le hnext
  · rw [htasks]
    exact hu.distinct

/-- Calls end, or go on without a link being opened. -/
theorem Opened.fewer (hu : u.Opened) {ts : List Task} (ts' : List Task)
    (hnext : v.nextLink = u.nextLink) (hts : ts.Sublist u.tasks)
    (hsettled : ∀ t ∈ ts', t.phase.opens = none)
    (htasks : v.tasks.Perm (ts' ++ ts)) : v.Opened := by
  have hnone : ts'.filterMap (fun t => t.phase.opens) = [] :=
    List.filterMap_eq_nil_iff.mpr hsettled
  refine ⟨fun t ht l hl => ?_, ?_⟩
  · rw [hnext]
    rcases List.mem_append.mp (htasks.subset ht) with ht | ht
    · rw [hsettled t ht] at hl
      cases hl
    · exact hu.born t (hts.subset ht) l hl
  · rw [(htasks.filterMap _).nodup_iff, List.filterMap_append, hnone, List.nil_append]
    exact hu.distinct.sublist (hts.filterMap _)

/-- A call starts or picks again, and a link may be opened for it. -/
theorem Opened.pick (hu : u.Opened) (c : ClientId) (exclude : Option LinkId) {ts : List Task}
    (hts : ts.Sublist u.tasks) {t : Task} (ht : t.phase = (u.pick c exclude).1)
    (hnext : v.nextLink = (u.pick c exclude).2.nextLink) (htasks : v.tasks.Perm (t :: ts)) :
    v.Opened := by
  rcases pick_adds u c exclude with ⟨h, hopens⟩ | ⟨h, hopens, -⟩
  · rw [h] at hnext
    refine hu.fewer [t] hnext hts (fun x hx => ?_) htasks
    rw [List.mem_singleton.mp hx, ht]
    exact hopens
  · have hnext : v.nextLink = u.nextLink + 1 := by rw [hnext, h]; rfl
    have hself : t.phase.opens = some u.nextLink := by rw [ht, hopens]
    refine ⟨fun x hx l hl => ?_, ?_⟩
    · rw [hnext]
      rcases List.mem_cons.mp (htasks.subset hx) with rfl | hx
      · rw [hself, Option.some.injEq] at hl
        exact hl ▸ Nat.lt_succ_self _
      · exact (hu.born x (hts.subset hx) l hl).trans (Nat.lt_succ_self _)
    · have hcons : (t :: ts).filterMap (fun t => t.phase.opens) =
          u.nextLink :: ts.filterMap fun t => t.phase.opens := List.filterMap_cons_some hself
      rw [(htasks.filterMap _).nodup_iff, hcons, List.nodup_cons]
      refine ⟨fun hmem => ?_, hu.distinct.sublist (hts.filterMap _)⟩
      obtain ⟨x, hx, hopens⟩ := List.mem_filterMap.mp hmem
      exact (hu.born x (hts.subset hx) _ hopens).ne rfl

theorem launch_opened (hu : u.Opened) (c : ClientId) (goal : Goal) (origin : Origin) :
    (u.launch c goal origin).Opened := by
  let t : Task :=
    { client := c, goal := goal, origin := origin, phase := (u.pick c (Goal.exclude goal)).1 }
  refine hu.pick c (Goal.exclude goal) (List.Sublist.refl _) (t := t) rfl rfl ?_
  change ((u.pick c (Goal.exclude goal)).2.tasks ++ [t]).Perm (t :: u.tasks)
  rw [pick_tasks]
  exact List.perm_append_singleton _ _

theorem Opened.shift {cut : LinkId → Prop} (hu : u.Opened) (h : Shift cut u v) : v.Opened := by
  have herase : ∀ i, (u.tasks.eraseIdx i).Sublist u.tasks := fun i => List.eraseIdx_sublist _ _
  have hdone : ∀ i, Opened { u with tasks := u.tasks.eraseIdx i } := fun i =>
    hu.fewer [] rfl (herase i) (fun _ h => absurd h List.not_mem_nil) (List.Perm.refl _)
  cases h with
  | rest h => exact hu.of_frame (h.turns 0).tasks (h.turns 0).nextLink.ge
  | drop l hcut h => exact hu.of_frame h.turns.tasks h.turns.nextLink.ge
  | unlist l message h => exact hu.of_frame rfl le_rfl
  | house l c hl hc => exact hu.of_frame rfl le_rfl
  | attach c origin =>
    have hlive : Opened { u with live := insert c u.live } := hu.of_frame rfl le_rfl
    exact launch_opened hlive c .attach origin
  | migrate l c origin => exact launch_opened hu c (.migrate l) origin
  | settle i t ht hgoal => exact hdone i
  | giveUp i t ht =>
    have hrest := detach_rests { u with tasks := u.tasks.eraseIdx i } t.client
    exact (hdone i).of_frame (hrest.turns 0).tasks (hrest.turns 0).nextLink.ge
  | phase i t p ht hopen hpick hp =>
    refine hu.fewer [{ t with phase := p }] rfl (herase i) (fun x hx => ?_) (setPhase_perm ht p)
    rw [List.mem_singleton.mp hx]
    exact hpick
  | repick i t ht hopen =>
    refine hu.pick t.client (Goal.exclude t.goal) (herase i)
      (t := { t with phase := (u.pick t.client (Goal.exclude t.goal)).1 }) rfl rfl ?_
    have htasks : (u.pick t.client (Goal.exclude t.goal)).2.tasks = u.tasks := pick_tasks u _ _
    have hperm := setPhase_perm (u := (u.pick t.client (Goal.exclude t.goal)).2) (htasks.symm ▸ ht)
      (u.pick t.client (Goal.exclude t.goal)).1
    rw [htasks] at hperm
    exact hperm

theorem step_opened {N : ℕ} {a : Action} (hw : u.Wired N fun _ => False) (hu : u.Opened)
    (h : u.step a = some v) : v.Opened := by
  have hchain : ∀ {cut : LinkId → Prop} {w : Upstream}, Shifts cut u w → w.Opened := fun hs =>
    hs.keeps (P := Opened) (fun _ _ hshift hw => hw.shift hshift) hu
  cases ha : a.wiring with
  | false =>
    have hshifts : Shifts (fun _ => False) u v := step_shifts hw.aimed ha h
    exact hchain hshifts
  | true => cases a with
    | dialed l outcome =>
      simp only [step] at h
      split_ifs at h
      rw [Option.some.injEq] at h
      cases outcome <;> exact h ▸ hu.of_frame rfl le_rfl
    | loggedIn l outcome =>
      simp only [step] at h
      split_ifs at h with hl
      rw [Option.some.injEq] at h
      cases outcome with
      | error message => exact h ▸ hu.of_frame rfl le_rfl
      | ok job =>
        have hlive : (u.link l).plug = .live := (hw.login l hl).resolve_right id
        have hturn := (loggedIn_turns job (by simp [hlive]) (hw.empty_of_login hl)).1
        exact h ▸ hu.of_frame hturn.tasks hturn.nextLink.ge
    | lost l =>
      simp only [step] at h
      split_ifs at h
      rw [Option.some.injEq] at h
      have hhang : Shifts (· = l) u (u.hangUp l) := hangUp_shifts (Or.inr rfl)
      subst h
      unfold lost
      dsimp only
      split_ifs
      · exact (hchain hhang).of_frame rfl le_rfl
      · exact hchain hhang
    | close =>
      rw [step, Option.some.injEq] at h
      exact h ▸ hu.of_frame rfl le_rfl
    | _ => cases ha

theorem filterMap_constant {α β : Type*} {f : α → Option β} {b : β} {as : List α}
    (h : ∀ a ∈ as, f a = some b) : as.filterMap f = List.replicate as.length b := by
  induction as with
  | nil => rfl
  | cons a as ih =>
    rw [List.filterMap_cons_some (h a List.mem_cons_self),
      ih fun x hx => h x (List.mem_cons_of_mem a hx)]
    rfl

/-- A link that has not been made is not in use. -/
theorem unborn_unused {N : ℕ} (hw : u.Wired N fun _ => False) (hu : u.Opened)
    (hl : u.nextLink ≤ l) : (u.link l).clients = [] ∧ u.bound l = [] := by
  obtain ⟨hidle, hjob⟩ := hw.unborn l hl
  have hunknown : ¬ (u.link l).Known := by
    rintro (h | h | h | ⟨message, h⟩)
    · rw [hjob] at h
      cases h
    · rw [(hw.sound l).dark (Or.inl hidle)] at h
      cases h
    · rw [hidle] at h
      cases h
    · rw [hidle] at h
      cases h
  refine ⟨by_contra fun hne => hunknown (hw.housed l hne), List.filter_eq_nil_iff.mpr ?_⟩
  intro t ht hbound
  have hbound := of_decide_eq_true hbound
  cases hphase : t.phase with
  | picked m =>
    rw [hphase] at hbound
    exact hunknown (hw.aimed t ht l (by rw [hphase]; exact hbound))
  | opening m roomiest =>
    rw [hphase] at hbound
    exact (hu.born t ht l (by rw [hphase]; exact hbound)).not_ge hl
  | waiting m =>
    rw [hphase] at hbound
    cases hbound
  | failed message =>
    rw [hphase] at hbound
    cases hbound

/-- A link without its job is opened for one call, and is empty. -/
theorem sole_of_unripe {N : ℕ} (hw : u.Wired N fun _ => False) (hu : u.Opened)
    (hl : (u.link l).ripe = false) : (u.link l).clients.length + (u.bound l).length ≤ 1 := by
  simp only [Link.ripe, Bool.or_eq_false_iff, Bool.not_eq_false'] at hl
  obtain ⟨hjob, hconnecting⟩ := hl
  have hunknown : ¬ (u.link l).Known := by
    rintro (h | h | h | ⟨message, h⟩)
    · rw [hjob] at h
      cases h
    · cases hopening : (u.link l).opening with
      | dialing =>
        rw [(hw.sound l).dark (Or.inr hopening)] at h
        cases h
      | login =>
        rw [(hw.login l hopening).resolve_right id] at h
        cases h
      | _ =>
        rw [hopening] at hconnecting
        cases hconnecting
    · rw [h] at hconnecting
      cases hconnecting
    · rw [h] at hconnecting
      cases hconnecting
  have hempty : (u.link l).clients = [] := by
    by_contra hne
    exact hunknown (hw.housed l hne)
  have hopens : ∀ t ∈ u.bound l, t.phase.opens = some l := by
    intro t ht
    obtain ⟨ht, hbound⟩ := List.mem_filter.mp ht
    have hbound := of_decide_eq_true hbound
    cases hphase : t.phase with
    | picked m =>
      rw [hphase] at hbound
      exact absurd (hw.aimed t ht l (by rw [hphase]; exact hbound)) hunknown
    | opening m roomiest =>
      rw [hphase] at hbound
      exact hbound
    | waiting m =>
      rw [hphase] at hbound
      cases hbound
    | failed message =>
      rw [hphase] at hbound
      cases hbound
  have hnodup : ((u.bound l).filterMap fun t => t.phase.opens).Nodup :=
    hu.distinct.sublist (List.filter_sublist.filterMap _)
  rw [filterMap_constant hopens, List.nodup_replicate] at hnodup
  rw [hempty, List.length_nil, zero_add]
  exact hnodup

/-! ### Steps -/

theorem Fit.same (hu : u.Fit base l) (hlink : v.link l = u.link l) (htasks : v.tasks = u.tasks)
    (hclient : v.client = u.client) (hhomes : v.homes = u.homes) : v.Fit base l := by
  have hbound : v.bound l = u.bound l := by rw [bound, htasks, bound]
  have hpromised : v.promised l = u.promised l := by
    unfold promised rate
    rw [hbound, hclient]
  unfold Fit at hu ⊢
  rw [hlink, hbound, hpromised, hhomes]
  exact hu

theorem pick_best {c : ClientId} {exclude : Option LinkId} {m : LinkId}
    (hroom : u.links.length < u.maxLinks) (hopens : (u.pick c exclude).1.opens = none)
    (h : (u.pick c exclude).1.bound = some m) :
    (u.pick c exclude).1 = .picked m ∧ u.best (u.rate c) (u.usable exclude) = some m := by
  unfold pick at h hopens ⊢
  split at h
  · cases h
  dsimp only at h hopens ⊢
  cases hbest : u.best (u.rate c) (u.usable exclude) with
  | some l =>
    rw [hbest] at h
    obtain rfl := Option.some.inj h
    rename_i hclosed
    exact ⟨by rw [if_neg hclosed], rfl⟩
  | none =>
    rw [hbest] at h hopens
    rename_i hclosed
    rw [if_neg hclosed] at hopens
    cases hpending : u.links.find? fun l => (u.link l).opening.connecting with
    | some l =>
      rw [hpending] at h
      cases h
    | none =>
      rw [hpending] at hopens
      dsimp only at hopens
      rw [if_neg (Nat.not_le.mpr hroom)] at hopens
      cases hopens

/-- A call picks again, and fits into the headroom of the link it settles on. -/
theorem repick_fit {N : ℕ} (hw : u.Wired N fun _ => False) (ho : u.Opened) (hu : u.Fit base l)
    {i : ℕ} {t : Task} (ht : u.tasks[i]? = some t) (hnone : t.phase.bound = none)
    (hroom : u.links.length < u.maxLinks)
    (hfits : ∀ m, u.best (u.rate t.client) (u.usable (Goal.exclude t.goal)) = some m →
      u.rate t.client + u.promised m ≤ (u.link m).headroom) :
    ((u.pick t.client (Goal.exclude t.goal)).2.setPhase i t
      (u.pick t.client (Goal.exclude t.goal)).1).Fit base l := by
  rcases pick_adds u t.client (Goal.exclude t.goal) with ⟨h, hopens⟩ | ⟨h, hopens, -⟩
  · rw [h]
    cases hbound : (u.pick t.client (Goal.exclude t.goal)).1.bound with
    | none => exact hu.rephase ht (by rw [hbound, hnone])
    | some m =>
      obtain ⟨hpicked, hbest⟩ := pick_best hroom hopens hbound
      have husable := (List.mem_filter.mp (best_mem hbest)).2
      have hripe : (u.link m).ripe = true := by
        simp only [Link.usable, Bool.and_eq_true] at husable
        simp [Link.ripe, husable.2.1]
      rw [hpicked]
      exact hu.settle ht hnone hripe (hfits m hbest)
  · have hbound : (u.pick t.client (Goal.exclude t.goal)).1.bound = some u.nextLink := by
      cases hphase : (u.pick t.client (Goal.exclude t.goal)).1 <;> rw [hphase] at hopens
      · cases hopens
      · exact hopens
      · cases hopens
      · cases hopens
    rw [h]
    by_cases hl : l = u.nextLink
    · -- the new link is empty, and opened for this call alone
      subst hl
      obtain ⟨hempty, hunused⟩ := unborn_unused hw ho (le_refl u.nextLink)
      have hclients : (u.addLink.link u.nextLink).clients = [] := by
        rw [addLink_link, if_pos rfl, freshLink_eq]
        exact hempty
      have htasks : u.addLink.tasks[i]? = some t := ht
      refine Or.inr (Or.inl ?_)
      change (u.addLink.link u.nextLink).clients.length + (boundBy _ _).length ≤ 1
      rw [hclients, (boundBy_perm (setPhase_perm htasks _) _).length_eq, boundBy_cons_length]
      have hold : (boundBy u.tasks u.nextLink).length = 0 := by
        rw [show boundBy u.tasks u.nextLink = u.bound u.nextLink from rfl, hunused]
        rfl
      rw [(boundBy_perm (tasks_perm ht) _).length_eq, boundBy_cons_length] at hold
      have hrest : (boundBy (u.addLink.tasks.eraseIdx i) u.nextLink).length = 0 := by
        change (boundBy (u.tasks.eraseIdx i) u.nextLink).length = 0
        omega
      rw [hrest]
      split_ifs <;> simp
    · have hlink : u.addLink.link l = u.link l := by rw [addLink_link, if_neg hl]
      have hadd : u.addLink.Fit base l := hu.same hlink rfl rfl rfl
      refine hadd.rephase ht ?_
      rw [hbound, hnone]
      simp [Ne.symm hl]

theorem setLink_setLink (u : Upstream) (l : LinkId) (f g : Link → Link) :
    (u.setLink l f).setLink l g = u.setLink l fun k => g (f k) := by
  simp only [setLink, Function.update_self, Function.update_idem]

/-- A login that succeeds changes its own link only; its first job comes to an empty link. -/
theorem loggedIn_setLink {m : LinkId} (job : StratumJob)
    (hempty : (u.link m).job = none → (u.link m).clients = [])
    (hfresh : (u.link m).job = none → (u.link m).job_at = 0) :
    ∃ f : Link → Link, u.loggedIn m (.ok job) = u.setLink m f ∧
      (f (u.link m)).clients = (u.link m).clients ∧ (f (u.link m)).load = (u.link m).load ∧
      ((u.link m).job.isSome = true → (f (u.link m)).capacity = (u.link m).capacity) ∧
      (f (u.link m)).opening = .up := by
  let w := u.setLink m fun k => { k with socket := true }
  have hself : w.link m = { u.link m with socket := true } := Function.update_self ..
  cases hjob : (u.link m).job with
  | some old =>
    refine ⟨fun k => { k with socket := true, opening := .up }, ?_, rfl, rfl, fun _ => rfl, rfl⟩
    unfold loggedIn
    dsimp only
    have hsome : (w.link m).job.isSome = true := by rw [hself]; simp [hjob]
    rw [if_pos hsome]
    exact setLink_setLink u m _ _
  | none =>
    have hnone : (w.link m).job.isSome = false := by rw [hself]; simp [hjob]
    have hlearn : w.observeInterval m = w := by
      have hat : (w.link m).job_at = 0 := by
        rw [hself]
        exact hfresh hjob
      rw [observeInterval]
      exact if_pos hat
    have hquiet : w.accept m job = (false, w.setJob m job) := by
      unfold accept
      rw [hlearn]
      have hclients : ((w.setJob m job).link m).clients = [] := by
        simpa [setJob, setLink, w] using hempty hjob
      dsimp only
      rw [hclients]
      rfl
    let f : Link → Link := fun k => { k with
      socket := true, job := some job, job_at := u.now, slot := nicehashSlot job.blob
      space := if 0 < nicehashSlot job.blob then
        nicehashSpace (nicehashSlot job.blob) (if u.expand then k.extra else []) else fullSpace
      opening := .up }
    refine ⟨f, ?_, rfl, rfl, fun h => (by cases h), rfl⟩
    unfold loggedIn
    dsimp only
    rw [if_neg (by rw [hnone]; simp), hquiet]
    unfold setJob
    rw [setLink_setLink, setLink_setLink]
    rfl

/-- The first job of a link comes with its login, while only the call that opens it is on its
way. -/
theorem loggedIn_fit {N : ℕ} (hw : u.Wired N fun _ => False) (ho : u.Opened) (hu : u.Fit base l)
    {m : LinkId} (hm : (u.link m).opening = .login) (job : StratumJob) :
    (u.loggedIn m (.ok job)).Fit base l := by
  have hlive : (u.link m).plug = .live := (hw.login m hm).resolve_right id
  obtain ⟨f, hrun, hclients, hload, hcapacity, hup⟩ := loggedIn_setLink job (hw.empty_of_login hm)
    fun hjob => (hw.sound m).fresh hjob (by simp [hlive])
  rw [hrun]
  by_cases hl : l = m
  · subst hl
    have hself : (u.setLink l f).link l = f (u.link l) := Function.update_self ..
    cases hripe : (u.link l).ripe with
    | false =>
      refine Or.inr (Or.inl ?_)
      rw [hself, hclients]
      exact sole_of_unripe hw ho hripe
    | true =>
      have hjob : (u.link l).job.isSome = true := by
        simpa [Link.ripe, hm, Opening.connecting] using hripe
      refine hu.mono (fun _ => ?_) ?_ ?_ ?_ (fun _ _ h => h) id
      · rw [hself, Link.ripe, hup]
        simp [Opening.connecting]
      · rw [hself]
        exact hcapacity hjob
      · rw [hself, hload]
        exact le_rfl
      · rw [hself, hclients]
        exact le_rfl
  · have hlink : (u.setLink m f).link l = u.link l := Function.update_of_ne hl ..
    exact hu.same hlink rfl rfl rfl

theorem finish_fit (hc : u.housing.Covers) (hu : u.Fit base l) {i : ℕ} {t : Task}
    (ht : u.tasks[i]? = some t) {m : LinkId} (hphase : t.phase = .picked m)
    (hback : ∀ source, t.goal = .migrate source → u.homes t.client = some source ∨
      (u.link source).socket = false ∨ (u.link m).dry = false) :
    (finish { u with tasks := u.tasks.eraseIdx i } t (.ok m)).Fit base l := by
  have hcovers : ({ u with tasks := u.tasks.eraseIdx i } : Upstream).housing.Covers := hc
  unfold finish
  cases hgoal : t.goal with
  | attach =>
    obtain ⟨hlevel, hlodge⟩ := finishAttach_lodges hcovers m t.client
    have hdone := attachDone_level
      (finishAttach { u with tasks := u.tasks.eraseIdx i } t.client (.ok m)).2 t.client t.origin
      (finishAttach { u with tasks := u.tasks.eraseIdx i } t.client (.ok m)).1
    exact (hu.lodge ht hphase hlevel hlodge).ease hdone
      (by rw [(attachDone_grows ..).housing]; exact .refl _)
  | migrate source =>
    obtain ⟨hlevel, hlodge⟩ := finishMigrate_lodges hcovers m source t.client (hback source hgoal)
    have hdone := migrateDone_level
      (finishMigrate { u with tasks := u.tasks.eraseIdx i } source t.client (.ok m)).2 source
      t.client t.origin
      (finishMigrate { u with tasks := u.tasks.eraseIdx i } source t.client (.ok m)).1
    exact (hu.lodge ht hphase hlevel hlodge).ease hdone
      (by rw [(core_eq (core_migrateDone ..)).1]; exact .refl _)

/-- A call that ends without a link moves nobody in. -/
theorem abort_eases (hu : u.housing.Covers) (t : Task) (message : String) :
    Level u (u.finish t (.error message)) ∧
      u.housing.Eases (u.finish t (.error message)).housing := by
  unfold finish
  cases t.goal with
  | attach =>
    have hdone := attachDone_level (u.detach t.client) t.client t.origin (.error message)
    have hsame : ((u.detach t.client).attachDone t.client t.origin (.error message)).housing =
        u.housing.evict t.client := by
      rw [(attachDone_grows ..).housing, housing_detach]
    exact ⟨(detach_level u t.client).trans hdone, hsame ▸ Housing.evict_eases hu t.client⟩
  | migrate source =>
    have hdone := migrateDone_level u source t.client t.origin (.ok false)
    have hsame : (u.migrateDone source t.client t.origin (.ok false)).housing = u.housing :=
      (core_eq (core_migrateDone ..)).1
    exact ⟨hdone, hsame ▸ .refl _⟩

theorem fits_waiting {i : ℕ} {t : Task} (ht : u.tasks[i]? = some t) {m : LinkId}
    (hphase : t.phase = .waiting m) (hfits : u.fits (.resume i) = true) (n : LinkId)
    (hn : u.best (u.rate t.client) (u.usable (Goal.exclude t.goal)) = some n) :
    u.rate t.client + u.promised n ≤ (u.link n).headroom := by
  obtain ⟨c, goal, origin, phase⟩ := t
  dsimp only at hphase hn ⊢
  subst hphase
  simp only [fits, ht, hn] at hfits
  exact of_decide_eq_true hfits

theorem fits_picked {i : ℕ} {t : Task} (ht : u.tasks[i]? = some t) {m : LinkId}
    (hphase : t.phase = .picked m) (hfits : u.fits (.resume i) = true) (source : LinkId)
    (hgoal : t.goal = .migrate source) : u.homes t.client = some source ∨
      (u.link source).socket = false ∨ (u.link m).dry = false := by
  obtain ⟨c, goal, origin, phase⟩ := t
  dsimp only at hphase hgoal ⊢
  subst hphase hgoal
  simpa [fits, ht, or_assoc] using hfits

theorem resume_fit {N : ℕ} (hw : u.Wired N fun _ => False) (ho : u.Opened)
    (hc : u.housing.Covers) (hu : u.Fit base l) {i : ℕ} (hplaces : u.places (.resume i) = true)
    (hfits : u.fits (.resume i) = true) (h : u.resume i = some v) : v.Fit base l := by
  obtain ⟨t, ht, h⟩ := Option.bind_eq_some_iff.mp h
  simp only [places, ht] at hplaces
  cases hphase : t.phase with
  | waiting m =>
    rw [hphase] at h hplaces
    dsimp only at h hplaces
    split_ifs at h
    rw [Option.some.injEq] at h
    exact h ▸ repick_fit hw ho hu ht (by rw [hphase]; rfl) (of_decide_eq_true hplaces)
      (fits_waiting ht hphase hfits)
  | opening m roomiest =>
    rw [hphase] at h hplaces
    dsimp only at h hplaces
    rw [of_decide_eq_true hplaces, Option.some.injEq] at h
    have hslice : u.reslice.Fit base l :=
      hu.ease (reslice_level u) (by rw [(core_eq (core_reslice u)).1]; exact .refl _)
    refine h ▸ hslice.rephase ?_ ?_
    · rw [(reslice_level u).tasks]
      exact ht
    · rw [hphase]
      exact Iff.rfl
  | picked m =>
    rw [hphase, Option.some.injEq] at h
    exact h ▸ finish_fit hc hu ht hphase (fits_picked ht hphase hfits)
  | failed message =>
    rw [hphase, Option.some.injEq] at h
    have hrest : Fit { u with tasks := u.tasks.eraseIdx i } base l :=
      hu.erase ht (by rw [hphase]; rfl)
    have hcovers : ({ u with tasks := u.tasks.eraseIdx i } : Upstream).housing.Covers := hc
    obtain ⟨hlevel, hease⟩ := abort_eases hcovers t message
    exact h ▸ hrest.ease hlevel hease

theorem step_fit {N : ℕ} {a : Action} (hw : u.Wired N fun _ => False) (ho : u.Opened)
    (hc : u.housing.Covers) (hu : u.Fit base l) (hplaces : u.places a = true)
    (hfits : u.fits a = true) (h : u.step a = some v) : v.Fit base l := by
  cases a with
  | resume i => exact resume_fit hw ho hc hu hplaces hfits h
  | dialed m outcome =>
    simp only [step] at h
    split_ifs at h with hm
    rw [Option.some.injEq] at h
    cases outcome with
    | error message => cases hplaces
    | ok _ =>
      subst h
      have hlevel : Level u (u.setLink m fun k => { k with opening := .login, plug := .live }) :=
        setLink_level u m rfl (by simp [Link.ripe, hm, Opening.connecting])
      have hsame : (u.setLink m fun k => { k with opening := .login, plug := .live }).housing =
          u.housing := housing_setLink u m rfl rfl
      exact hu.ease hlevel (hsame ▸ .refl _)
  | loggedIn m outcome =>
    simp only [step] at h
    split_ifs at h with hm
    rw [Option.some.injEq] at h
    cases outcome with
    | error message => cases hplaces
    | ok job => exact h ▸ loggedIn_fit hw ho hu hm job
  | detach c =>
    rw [step, Option.some.injEq] at h
    subst h
    refine hu.ease (detach_level u c) ?_
    rw [housing_detach]
    exact Housing.evict_eases hc c
  | submit call c job_id nonce result =>
    obtain ⟨⟨m, w⟩, hw, rfl⟩ := Option.map_eq_some_iff.mp h
    have hlevel : Level u w := by
      obtain ⟨k, -, hw⟩ := Option.bind_eq_some_iff.mp hw
      split_ifs at hw
      all_goals
        obtain ⟨-, rfl⟩ := Prod.mk.inj (Option.some.inj hw)
        exact ⟨fun _ => rfl, fun _ => rfl, rfl⟩
    exact hu.ease hlevel (by rw [(core_eq (core_submit hw)).1]; exact .refl _)
  | tick ms =>
    rw [step, Option.some.injEq] at h
    subst h
    exact hu.ease (v := { u with now := u.now + ms }) ⟨fun _ => rfl, fun _ => rfl, rfl⟩ (.refl _)
  | _ => cases hplaces

/-! ### Runs -/

theorem Roomy.fit {N : ℕ} (hw : u.Wired N fun _ => False) (ho : u.Opened) (hroomy : u.Roomy)
    (l : LinkId) : u.Fit u l := by
  cases hbound : u.bound l with
  | nil => exact Or.inr (Or.inr ⟨hbound, fun _ h => h⟩)
  | cons t ts => cases hripe : (u.link l).ripe with
    | false => exact Or.inr (Or.inl (sole_of_unripe hw ho hripe))
    | true =>
      obtain ⟨ht, hl⟩ := List.mem_filter.mp (hbound ▸ List.mem_cons_self : t ∈ u.bound l)
      rcases hroomy t ht l (of_decide_eq_true hl) with hroom | hsole
      · refine Or.inl ⟨hripe, ?_⟩
        have hheadroom : (u.link l).headroom = (u.link l).capacity * SAFETY - (u.link l).load := rfl
        linarith
      · exact Or.inr (Or.inl hsole)

theorem run_opened {maxLinks idleTimeout : ℕ} {expand : Bool} {now : ℕ} {client : ClientId → Client}
    {as : List Action} {u : Upstream}
    (hrun : exec step (start maxLinks idleTimeout expand now client) as = some u) : u.Opened := by
  have hstart : (start maxLinks idleTimeout expand now client).Opened :=
    ⟨fun t ht => absurd ht List.not_mem_nil, List.nodup_nil⟩
  have hstep : ∀ (s : Upstream) (a : Action) (s' : Upstream),
      s.Wired maxLinks (fun _ => False) ∧ s.Opened → s.step a = some s' →
        s'.Wired maxLinks (fun _ => False) ∧ s'.Opened :=
    fun s a s' hs h => ⟨step_wired s a s' hs.1 h, step_opened hs.1 hs.2 h⟩
  exact (exec_preserves hstep ⟨start_wired maxLinks idleTimeout expand now client, hstart⟩ hrun).2

/-- A small miner has a link opened and comes to it; then two more attach in one tick. -/
def arriving : List Action :=
  [.attach 0 0, .dialed 0 (.ok ()), .loggedIn 0 (.ok plainJob), .resume 0, .resume 0,
    .attach 1 1, .attach 2 2]

/-- Both have picked the link, and are housed one after the other. -/
def placing : List Action := [.resume 0, .resume 0]

/-- The first miner has 1 kH/s, and the others this much. -/
def beside (hashrate : ℚ) (c : ClientId) : Client :=
  { hashrate := if c = 0 then 1000 else hashrate, vardiff := VarDiff.new 1000 1000 }

end Upstream

end NMiner
