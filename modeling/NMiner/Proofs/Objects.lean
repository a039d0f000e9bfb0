import NMiner.Proofs.NoncePartition
import NMiner.Spec.Shared

/-! The `Grant` objects of a miner's ledger: what recording a range changes of them, and that the
ranges cut for a job are disjoint. -/

namespace NMiner

open Function (update update_self update_of_ne update_apply)

namespace Shared

namespace Upstream

variable {u v : Upstream} {l : LinkId} {count : ℚ} {g : Grant}

/-- The objects of the ledger. -/
def held (u : Upstream) : List Ref := u.ledger.prior ++ u.ledger.ranges

/-! ### Recording a range -/

/-- The object that a range of the job is merged into when it is recorded. -/
def merged (u : Upstream) (job_id : String) (g : Grant) : Option Ref :=
  if u.ledger.job_id = job_id then
    u.ledger.ranges.getLast?.filter fun last => (u.grants last).nonce_limit = g.start_nonce
  else none

theorem mem_held_of_merged {job_id : String} {last : Ref} (h : u.merged job_id g = some last) :
    last ∈ u.held ∧ (u.grants last).nonce_limit = g.start_nonce := by
  unfold merged at h
  split_ifs at h
  obtain ⟨hlast, hlimit⟩ := Option.filter_eq_some_iff.mp h
  exact ⟨List.mem_append_right _ (List.mem_of_getLast? hlast), of_decide_eq_true hlimit⟩

/-- What `record` leaves of the objects. -/
theorem record_spec (u : Upstream) (job_id : String) (r : Ref) : ∃ ledger,
    u.record job_id r = { u with
      ledger := ledger
      grants := match u.merged job_id (u.grants r) with
        | some last => update u.grants last
          { u.grants last with nonce_limit := (u.grants r).nonce_limit }
        | none => u.grants } ∧
      ((ledger.prior ++ ledger.ranges).Sublist u.held ∨
        ∃ old, old.Sublist u.held ∧ ledger.prior ++ ledger.ranges = old ++ [r]) := by
  have hpush : u.ledger.prior ++ (u.ledger.ranges ++ [r]) = u.held ++ [r] :=
    (List.append_assoc ..).symm
  unfold record merged
  by_cases hjob : u.ledger.job_id = job_id
  · rw [if_neg (not_not.mpr hjob), if_pos hjob]
    rcases hlast : u.ledger.ranges.getLast? with _ | last
    · exact ⟨{ u.ledger with ranges := u.ledger.ranges ++ [r] }, by simp only [hlast]; rfl,
        Or.inr ⟨_, .refl _, hpush⟩⟩
    · by_cases hlimit : (u.grants last).nonce_limit = (u.grants r).start_nonce
      · refine ⟨u.ledger, ?_, Or.inl (.refl _)⟩
        rw [Option.filter_some, if_pos (decide_eq_true hlimit)]
        simp only [hlast, if_pos hlimit]
      · refine ⟨{ u.ledger with ranges := u.ledger.ranges ++ [r] }, ?_,
          Or.inr ⟨_, .refl _, hpush⟩⟩
        rw [Option.filter_some, if_neg (by rw [decide_eq_true_eq]; exact hlimit)]
        simp only [hlast, if_neg hlimit]
  · rw [if_pos hjob, if_neg hjob]
    exact ⟨⟨job_id, u.ledger.ranges, [r]⟩, rfl,
      Or.inr ⟨_, List.sublist_append_right _ _, rfl⟩⟩

/-! ### The ledger by its values -/

/-- The ledger that the references stand for. -/
def view (u : Upstream) : NMiner.Ledger where
  job_id := u.ledger.job_id
  prior := u.ledger.prior.map u.grants
  ranges := u.ledger.ranges.map u.grants

theorem appendRange_concat (ranges : List Grant) (last range : Grant) :
    appendRange (ranges ++ [last]) range = if last.nonce_limit = range.start_nonce then
      ranges ++ [{ last with nonce_limit := range.nonce_limit }]
    else ranges ++ [last, range] := by
  induction ranges with
  | nil => rfl
  | cons g ranges ih =>
    have hcons : appendRange (g :: (ranges ++ [last])) range =
        g :: appendRange (ranges ++ [last]) range := by
      cases ranges <;> rfl
    rw [List.cons_append, hcons, ih]
    split_ifs <;> rfl

/-- With objects of its own the ledger records as the one that holds values does. -/
theorem record_view (hdistinct : u.held.Nodup) (job_id : String) (r : Ref) :
    (u.record job_id r).view = u.view.record job_id (u.grants r) := by
  unfold record Ledger.record view
  by_cases hjob : u.ledger.job_id = job_id
  · rw [if_neg (not_not.mpr hjob), if_neg (not_not.mpr hjob)]
    rcases List.eq_nil_or_concat u.ledger.ranges with hnil | ⟨init, last, hconcat⟩
    · simp [hnil, appendRange]
    · rw [List.concat_eq_append] at hconcat
      simp only [hconcat, List.getLast?_append, List.getLast?_singleton, Option.some_or]
      rw [List.map_append, List.map_singleton, appendRange_concat]
      split_ifs with hlimit
      · -- the last object is at no other place
        obtain ⟨-, hranges, hprior⟩ := List.nodup_append.mp hdistinct
        rw [hconcat] at hranges hprior
        have hinit : last ∉ init := fun hmem =>
          (List.nodup_append.mp hranges).2.2 _ hmem _ (List.mem_singleton_self _) rfl
        have hold : last ∉ u.ledger.prior := fun hmem =>
          hprior _ hmem _ (List.mem_append_right _ (List.mem_singleton_self _)) rfl
        have hkept : ∀ refs : List Ref, last ∉ refs → ∀ g,
            refs.map (update u.grants last g) = refs.map u.grants := by
          refine fun refs hrefs g => List.map_congr_left fun s hs => update_of_ne ?_ _ _
          rintro rfl
          exact hrefs hs
        dsimp only
        rw [hconcat, List.map_append, List.map_singleton, hkept init hinit, update_self,
          hkept u.ledger.prior hold]
      · rw [List.append_assoc, List.map_append]
        rfl
  · rw [if_pos hjob, if_pos hjob]
    rfl

/-! ### Cutting a range -/

/-- The range that the next grant on the link is. -/
def cuts (u : Upstream) (l : LinkId) (count : ℚ) : Option Grant :=
  if spaceLeft (u.links l).space ≤ 0 then none else (take (u.links l).space count).1

/-- The object that it is merged into. -/
def mergesInto (u : Upstream) (l : LinkId) (g : Grant) : Option Ref :=
  (u.links l).job_id.bind fun job_id => u.merged job_id g

theorem take_lt {space : NonceSpace} (h : (take space count).1 = some g) :
    g.start_nonce < g.nonce_limit := by
  fun_induction take space count with
  | case1 space hi segment left hleft ih => exact ih h
  | case2 space hi segment left hleft size start limit rest hlimit =>
    exact Option.some.inj h ▸ hlimit
  | case3 space hi segment left hleft size start limit rest hlimit ih => exact ih h
  | case4 space hi => cases h

theorem setLink_links (u : Upstream) (l m : LinkId) (f : Link → Link) :
    (u.setLink l f).links m = if m = l then f (u.links l) else u.links m := update_apply ..

/-- A range is cut off the space of a link, gets a new object and may be recorded, which merges it
into the object `last` if there is one. -/
structure Gains (u v : Upstream) (l : LinkId) (count : ℚ) (g : Grant) (last : Option Ref) :
    Prop where
  cuts : u.cuts l count = some g
  pushes : ∀ m, (v.links m).pushes = (u.links m).pushes
  space : ∀ m, (v.links m).space =
    if m = l then (take (u.links l).space count).2 else (u.links m).space
  next : v.next = u.next + 1
  replies : v.replies = u.replies
  told : v.told = u.told
  slots : v.slots = u.slots
  cut : v.cut = update u.cut u.next g
  key : v.key = update u.key u.next (l, (u.links l).pushes)
  own : v.grants u.next = g
  grants : ∀ r < u.next, v.grants r =
    if last = some r then { u.grants r with nonce_limit := g.nonce_limit } else u.grants r
  held : v.held.Sublist u.held ∨ ∃ old, old.Sublist u.held ∧ v.held = old ++ [u.next]

/-- Nothing is cut for the miner; a space is used up for others, and the ledger may be dropped. -/
structure Rests (u v : Upstream) : Prop where
  pushes : ∀ m, (v.links m).pushes = (u.links m).pushes
  space : ∀ m, (v.links m).space = (u.links m).space ∨
    ∃ count, (v.links m).space = (take (u.links m).space count).2
  grants : v.grants = u.grants
  next : v.next = u.next
  replies : v.replies = u.replies
  told : v.told = u.told
  cut : v.cut = u.cut
  key : v.key = u.key
  slots : v.slots = u.slots
  held : v.held.Sublist u.held

theorem setLink_rests (u : Upstream) (l : LinkId) {f : Link → Link}
    (hpushes : (f (u.links l)).pushes = (u.links l).pushes)
    (hspace : (f (u.links l)).space = (u.links l).space ∨
      ∃ count, (f (u.links l)).space = (take (u.links l).space count).2) :
    Rests u (u.setLink l f) := by
  refine ⟨fun m => ?_, fun m => ?_, rfl, rfl, rfl, rfl, rfl, rfl, rfl, .refl _⟩
  · rw [setLink_links]
    split_ifs with heq
    · exact heq ▸ hpushes
    · rfl
  · rw [setLink_links]
    split_ifs with heq
    · exact heq ▸ hspace
    · exact Or.inl rfl

theorem take_rests (u : Upstream) (l : LinkId) (count : ℚ) :
    Rests u (u.setLink l fun link => { link with space := (take link.space count).2 }) :=
  setLink_rests u l rfl (Or.inr ⟨count, rfl⟩)

theorem Rests.refl (u : Upstream) : Rests u u :=
  ⟨fun _ => rfl, fun _ => Or.inl rfl, rfl, rfl, rfl, rfl, rfl, rfl, rfl, .refl _⟩

theorem alloc_gains (h : u.cuts l count = some g) :
    Gains u ((u.setLink l fun link => { link with space := (take link.space count).2 }).alloc l g)
      l count g none := by
  refine ⟨h, fun m => ?_, fun m => ?_, rfl, rfl, rfl, rfl, rfl, ?_, update_self .., fun r hr => ?_,
    Or.inl (.refl _)⟩
  · rw [alloc, setLink_links]
    split_ifs with heq
    · exact heq ▸ rfl
    · rfl
  · rw [alloc, setLink_links]
    split_ifs with heq
    · rfl
    · rfl
  · rw [alloc, setLink_links, if_pos rfl]
    rfl
  · rw [if_neg (Option.some_ne_none _).symm]
    exact update_of_ne hr.ne _ _

/-- The new object is not part of what a range is merged into. -/
theorem Gains.merged (h : Gains u v l count g none) (hheld : ∀ r ∈ u.held, r < u.next)
    (hledger : v.ledger = u.ledger) (job_id : String) : v.merged job_id g = u.merged job_id g := by
  unfold Upstream.merged
  rw [hledger]
  rcases hlast : u.ledger.ranges.getLast? with _ | last
  · rfl
  · have hlt := hheld last (List.mem_append_right _ (List.mem_of_getLast? hlast))
    have hold := h.grants last hlt
    rw [if_neg (Option.some_ne_none _).symm] at hold
    rw [Option.filter_some, Option.filter_some, hold]

theorem Gains.record (h : Gains u v l count g none) (hheld : ∀ r ∈ u.held, r < u.next)
    (hledger : v.ledger = u.ledger) (job_id : String) :
    Gains u (v.record job_id u.next) l count g (u.merged job_id g) := by
  obtain ⟨ledger, hrecord, hsub⟩ := v.record_spec job_id u.next
  have hmerged := h.merged hheld hledger job_id
  rw [h.own] at hrecord
  rw [hrecord, hmerged]
  refine ⟨h.cuts, h.pushes, h.space, h.next, h.replies, h.told, h.slots, h.cut, h.key, ?_,
    fun r hr => ?_, ?_⟩
  · rcases hlast : u.merged job_id g with _ | last
    · exact h.own
    · have hlt := hheld last (mem_held_of_merged hlast).1
      exact (update_of_ne hlt.ne' _ _).trans h.own
  · have hold := h.grants r hr
    rw [if_neg (Option.some_ne_none _).symm] at hold
    rcases hlast : u.merged job_id g with _ | last
    · rw [if_neg (Option.some_ne_none _).symm]
      exact hold
    · dsimp only
      rw [update_apply]
      by_cases heq : r = last
      · rw [if_pos heq, if_pos (congrArg some heq.symm), ← heq, hold]
      · rw [if_neg heq, if_neg fun hsome => heq (Option.some.inj hsome).symm, hold]
  · rw [Upstream.held, hledger] at hsub
    exact hsub

theorem grant_none (h : u.cuts l count = none) :
    (u.grant l count).1 = none ∧ Rests u (u.grant l count).2 := by
  unfold cuts at h
  unfold grant
  split_ifs at h ⊢ with hleft
  · exact ⟨rfl, .refl u⟩
  · dsimp only
    rw [h]
    exact ⟨rfl, take_rests u l count⟩

theorem grant_some (hheld : ∀ r ∈ u.held, r < u.next) (h : u.cuts l count = some g) :
    (u.grant l count).1 = some u.next ∧
      Gains u (u.grant l count).2 l count g (u.mergesInto l g) := by
  have hgains := alloc_gains h
  unfold cuts at h
  split_ifs at h with hleft
  unfold grant
  rw [if_neg hleft]
  dsimp only
  rw [h]
  dsimp only
  rw [setLink_links, if_pos rfl]
  unfold mergesInto
  cases (u.links l).job_id with
  | none => exact ⟨rfl, hgains⟩
  | some job_id => exact ⟨rfl, hgains.record hheld rfl job_id⟩

/-- A link gives a miner nothing, or what `take` cuts as a new object. -/
theorem grant_cases (hheld : ∀ r ∈ u.held, r < u.next) (l : LinkId) (count : ℚ) :
    (u.cuts l count = none ∧ ∃ v, u.grant l count = (none, v) ∧ Rests u v) ∨
      ∃ g v, u.cuts l count = some g ∧ u.grant l count = (some u.next, v) ∧
        Gains u v l count g (u.mergesInto l g) := by
  rcases hcuts : u.cuts l count with _ | g
  · obtain ⟨hnone, hrests⟩ := grant_none hcuts
    exact Or.inl ⟨rfl, _, Prod.ext hnone rfl, hrests⟩
  · obtain ⟨hsome, hgains⟩ := grant_some hheld hcuts
    exact Or.inr ⟨g, _, rfl, Prod.ext hsome rfl, hgains⟩

/-! ### The ranges cut for a job -/

/-- The ranges cut for a job whose slots are distinct are disjoint, and so is what is left of the
space of a link's job. -/
structure Partitioned (u : Upstream) : Prop where
  pushes : ∀ r < u.next, (u.key r).2 ≤ (u.links (u.key r).1).pushes
  space : ∀ l, (u.slots (l, (u.links l).pushes)).Nodup → (u.links l).space.WellFormed
  behind : ∀ r < u.next, ∀ l, u.key r = (l, (u.links l).pushes) → (u.slots (u.key r)).Nodup →
    Disjoint (u.cut r).nonces (u.links l).space.remaining
  apart : ∀ r < u.next, ∀ s < u.next, r ≠ s → u.key r = u.key s → (u.slots (u.key r)).Nodup →
    Disjoint (u.cut r).nonces (u.cut s).nonces

theorem take_shrinks {space : NonceSpace} (hw : space.WellFormed) (count : ℚ) :
    (take space count).2.WellFormed ∧ (take space count).2.remaining ⊆ space.remaining := by
  obtain ⟨hw', -, -, hunion, -, -⟩ := take_spec space count hw
  exact ⟨hw', hunion ▸ Set.subset_union_right⟩

theorem Rests.partitioned (h : Rests u v) (hu : u.Partitioned) : v.Partitioned := by
  have hshrinks : ∀ l, (u.links l).space.WellFormed → (v.links l).space.WellFormed ∧
      (v.links l).space.remaining ⊆ (u.links l).space.remaining := by
    intro l hw
    rcases h.space l with heq | ⟨count, heq⟩
    · rw [heq]
      exact ⟨hw, subset_rfl⟩
    · rw [heq]
      exact take_shrinks hw count
  refine ⟨fun r hr => ?_, fun l hl => ?_, fun r hr l hkey hslots => ?_,
    fun r hr s hs hne hkey hslots => ?_⟩
  · rw [h.next] at hr
    rw [h.key, h.pushes]
    exact hu.pushes r hr
  · rw [h.slots, h.pushes] at hl
    exact (hshrinks l (hu.space l hl)).1
  · rw [h.next] at hr
    rw [h.key, h.pushes] at hkey
    rw [h.key, h.slots] at hslots
    rw [h.cut]
    exact (hu.behind r hr l hkey hslots).mono_right
      (hshrinks l (hu.space l (hkey ▸ hslots))).2
  · rw [h.next] at hr hs
    rw [h.key] at hkey
    rw [h.key, h.slots] at hslots
    rw [h.cut]
    exact hu.apart r hr s hs hne hkey hslots

/-- The range that is cut is new to the job. -/
theorem Partitioned.fresh (hu : u.Partitioned) (hcuts : u.cuts l count = some g)
    (hslots : (u.slots (l, (u.links l).pushes)).Nodup) {r : Ref} (hr : r < u.next)
    (hkey : u.key r = (l, (u.links l).pushes)) : Disjoint (u.cut r).nonces g.nonces := by
  unfold Upstream.cuts at hcuts
  split_ifs at hcuts
  obtain ⟨-, -, -, hunion, -, -⟩ := take_spec _ count (hu.space l hslots)
  refine (hu.behind r hr l hkey (hkey ▸ hslots)).mono_right ?_
  rw [← hunion, hcuts]
  exact Set.subset_union_left

theorem Gains.partitioned {last : Option Ref} (h : Gains u v l count g last)
    (hu : u.Partitioned) : v.Partitioned := by
  have hold : ∀ r < v.next, r = u.next ∨ r < u.next ∧ v.cut r = u.cut r ∧ v.key r = u.key r := by
    intro r hr
    rw [h.next] at hr
    rcases Nat.lt_succ_iff_lt_or_eq.mp hr with hlt | heq
    · rw [h.cut, h.key]
      exact Or.inr ⟨hlt, update_of_ne hlt.ne _ _, update_of_ne hlt.ne _ _⟩
    · exact Or.inl heq
  have hcut : v.cut u.next = g := by rw [h.cut, update_self]
  have hkey : v.key u.next = (l, (u.links l).pushes) := by rw [h.key, update_self]
  have hspec := fun hw => take_spec (u.links l).space count hw
  have htake : (take (u.links l).space count).1 = some g := by
    have hcuts := h.cuts
    unfold Upstream.cuts at hcuts
    split_ifs at hcuts
    exact hcuts
  refine ⟨fun r hr => ?_, fun m hm => ?_, fun r hr m hm hslots => ?_,
    fun r hr s hs hne hsame hslots => ?_⟩
  · rcases hold r hr with rfl | ⟨hlt, -, hk⟩
    · rw [hkey, h.pushes]
    · rw [hk, h.pushes]
      exact hu.pushes r hlt
  · rw [h.slots, h.pushes] at hm
    rw [h.space]
    split_ifs with heq
    · exact (take_shrinks (hu.space l (heq ▸ hm)) count).1
    · exact hu.space m hm
  · rw [h.slots] at hslots
    rw [h.pushes] at hm
    rw [h.space]
    rcases hold r hr with rfl | ⟨hlt, hc, hk⟩
    · rw [hkey] at hm hslots
      obtain ⟨rfl, -⟩ := Prod.mk.inj hm
      obtain ⟨-, -, hdisjoint, -, -, -⟩ := hspec (hu.space l hslots)
      rw [htake] at hdisjoint
      rw [if_pos rfl, hcut]
      exact hdisjoint
    · rw [hk] at hm hslots
      rw [hc]
      have hbehind := hu.behind r hlt m hm hslots
      split_ifs with heq
      · rw [heq] at hbehind hm
        exact hbehind.mono_right (take_shrinks (hu.space l (hm ▸ hslots)) count).2
      · exact hbehind
  · rw [h.slots] at hslots
    rcases hold r hr with rfl | ⟨hlt, hc, hk⟩ <;> rcases hold s hs with rfl | ⟨hlt', hc', hk'⟩
    · exact absurd rfl hne
    · rw [hkey] at hslots hsame
      rw [hcut, hc']
      exact (hu.fresh h.cuts hslots hlt' (hk'.symm.trans hsame.symm)).symm
    · rw [hsame, hkey] at hslots
      rw [hcut, hc]
      exact hu.fresh h.cuts hslots hlt (hk.symm.trans (hsame.trans hkey))
    · rw [hk] at hslots
      rw [hc, hc']
      exact hu.apart r hlt s hlt' hne (hk.symm.trans (hsame.trans hk')) hslots

/-! ### A job that arrives -/

theorem slot_nonces {b n : ℤ}
    (h : n ∈ (⟨b * NICEHASH_SPAN, NICEHASH_SPAN⟩ : Segment).nonces) : n / NICEHASH_SPAN = b := by
  simp only [Segment.nonces, Set.mem_Ico, NICEHASH_SPAN] at h ⊢
  omega

theorem nicehash_wellFormed (slot : Fin NICEHASH_SLOTS) {extra : List (Fin NICEHASH_SLOTS)}
    (hslots : (slot :: extra).Nodup) :
    (nicehashSpace slot.val (extra.map fun b => (b.val : ℤ))).WellFormed := by
  have hlist : ((slot.val : ℤ) :: extra.map fun b => (b.val : ℤ)) =
      (slot :: extra).map fun b => (b.val : ℤ) := rfl
  unfold nicehashSpace
  rw [hlist, List.map_map]
  refine createSpace_wellFormed _ (List.pairwise_map.mpr (hslots.imp fun {b c} hne => ?_))
    fun s hs => ?_
  · refine Set.disjoint_left.mpr fun n hb hc => hne (Fin.ext ?_)
    have heq : (b.val : ℤ) = c.val := (slot_nonces hb).symm.trans (slot_nonces hc)
    exact_mod_cast heq
  · obtain ⟨b, -, rfl⟩ := List.mem_map.mp hs
    intro n hn
    have hb : b.val < 256 := b.isLt
    simp only [Function.comp, Segment.nonces, Set.mem_Ico, NICEHASH_SPAN, NONCE_SPACE] at hn ⊢
    omega

theorem full_wellFormed : fullSpace.WellFormed := by
  refine createSpace_wellFormed _ (List.pairwise_singleton _ _) fun s hs => ?_
  rw [List.mem_singleton.mp hs]
  intro n hn
  simpa [Segment.nonces] using hn

theorem setJob_partitioned (hu : u.Partitioned) (l : LinkId) (job_id : String)
    (slot : Fin NICEHASH_SLOTS) (extra : List (Fin NICEHASH_SLOTS)) :
    (u.setJob l job_id slot extra).Partitioned := by
  have hlinks : ∀ m, m ≠ l → (u.setJob l job_id slot extra).links m = u.links m :=
    fun m hm => update_of_ne hm _ _
  have hself : (u.setJob l job_id slot extra).links l = {
      job_id := some job_id
      space := if 0 < slot.val then nicehashSpace slot.val (extra.map fun b => (b.val : ℤ))
        else fullSpace
      pushes := (u.links l).pushes + 1 } := update_self ..
  -- no range has been cut for the new job
  have hold : ∀ r < u.next, u.key r ≠ (l, (u.links l).pushes + 1) := by
    intro r hr hkey
    have hle := hu.pushes r hr
    rw [hkey] at hle
    exact Nat.not_succ_le_self _ hle
  have hslots : ∀ k, k ≠ (l, (u.links l).pushes + 1) →
      (u.setJob l job_id slot extra).slots k = u.slots k := fun k hk => update_of_ne hk _ _
  have hslot : (u.setJob l job_id slot extra).slots (l, (u.links l).pushes + 1) =
      if 0 < slot.val then slot :: extra else [] := update_self ..
  refine ⟨fun r hr => ?_, fun m hm => ?_, fun r hr m hkey hnodup => ?_,
    fun r hr s hs hne hkey hnodup => ?_⟩
  · have hle := hu.pushes r hr
    change (u.key r).2 ≤ ((u.setJob l job_id slot extra).links (u.key r).1).pushes
    by_cases heq : (u.key r).1 = l
    · rw [heq] at hle ⊢
      rw [hself]
      exact hle.trans (Nat.le_succ _)
    · rw [hlinks _ heq]
      exact hle
  · by_cases heq : m = l
    · subst heq
      rw [hself] at hm ⊢
      change ((u.setJob m job_id slot extra).slots (m, (u.links m).pushes + 1)).Nodup at hm
      rw [hslot] at hm
      dsimp only
      split_ifs at hm ⊢
      · exact nicehash_wellFormed slot hm
      · exact full_wellFormed
    · rw [hlinks m heq] at hm ⊢
      rw [hslots _ fun h => heq (Prod.mk.inj h).1] at hm
      exact hu.space m hm
  · change u.key r = _ at hkey
    change ((u.setJob l job_id slot extra).slots (u.key r)).Nodup at hnodup
    rw [hslots _ (hold r hr)] at hnodup
    by_cases heq : m = l
    · rw [heq, hself] at hkey
      exact absurd hkey (hold r hr)
    · rw [hlinks m heq] at hkey ⊢
      exact hu.behind r hr m hkey hnodup
  · change ((u.setJob l job_id slot extra).slots (u.key r)).Nodup at hnodup
    rw [hslots _ (hold r hr)] at hnodup
    exact hu.apart r hr s hs hne hkey hnodup

end Upstream

end Shared

end NMiner
