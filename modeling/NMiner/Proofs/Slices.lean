import NMiner.Proofs.Walk

/-! The nonce spaces of links with the same job are disjoint, as long as no job arrives on a link
whose slots are in use by another link for that job. -/

namespace NMiner

open Transition

/-- The jobs are the same apart from the reserved nonce byte. -/
def SameJob (j k : StratumJob) : Prop :=
  j.blob.toList.take 84 = k.blob.toList.take 84 ∧ j.blob.toList.drop 86 = k.blob.toList.drop 86

instance (j k : StratumJob) : Decidable (SameJob j k) :=
  inferInstanceAs (Decidable (_ ∧ _))

theorem SameJob.symm {j k : StratumJob} (h : SameJob j k) : SameJob k j := ⟨h.1.symm, h.2.symm⟩

namespace Upstream

/-- Two links mine the same job under different slots. -/
structure Rivals (u : Upstream) (l m : LinkId) : Prop where
  left : l ∈ u.links
  right : m ∈ u.links
  ne : l ≠ m
  job : ∃ j k, (u.link l).job = some j ∧ (u.link m).job = some k ∧ SameJob j k
  slot_left : (u.link l).slot ≠ 0
  slot_right : (u.link m).slot ≠ 0
  slots : (u.link l).slot ≠ (u.link m).slot

/-- Links that mine the same job under different slots cut their ranges off disjoint segments. -/
def Sliced (u : Upstream) : Prop :=
  ∀ l m, u.Rivals l m → Disjoint (nonces (u.link l).space.segments)
    (nonces (u.link m).space.segments)

/-- The slots that a job arriving on a link gets. -/
def slots (u : Upstream) (l : LinkId) (job : StratumJob) : List ℤ :=
  nicehashSlot job.blob :: if u.expand then (u.link l).extra else []

def segmentOf (slot : ℤ) : Segment := { base := slot * NICEHASH_SPAN, size := NICEHASH_SPAN }

/-- The slots of an arriving job are not those that another link uses for the same job. -/
def clear (u : Upstream) (l : LinkId) (job : StratumJob) : Bool :=
  l ∈ u.links → ∀ m ∈ u.links, m ≠ l → ∀ k ∈ (u.link m).job, SameJob job k →
    nicehashSlot job.blob ≠ 0 → (u.link m).slot ≠ 0 → nicehashSlot job.blob ≠ (u.link m).slot →
      0 < nicehashSlot job.blob ∧ 0 < (u.link m).slot ∧
        ∀ b ∈ u.slots l job, segmentOf b ∉ (u.link m).space.segments

/-- The condition on a step: a job arrives on slots that are clear. -/
def unshared (u : Upstream) : Action → Bool
  | .job l job => u.clear l job
  | .loggedIn l (.ok job) => (u.link l).job.isSome || u.clear l job
  | _ => true

/-! ### What leaves the spaces alone -/

/-- No job arrives: links keep their spaces, and a new one has no job. -/
structure Thins (u v : Upstream) : Prop where
  next : u.nextLink ≤ v.nextLink
  links : ∀ l ∈ v.links, l ∈ u.links ∨ u.nextLink ≤ l
  known : (∀ l ∈ u.links, l < u.nextLink) → ∀ l ∈ v.links, l < v.nextLink
  kept : ∀ l, Kept (u.link l) (v.link l)
  unborn : ∀ l, v.nextLink ≤ l → Unborn (u.link l) → Unborn (v.link l)

theorem Thins.trans {u v w : Upstream} (h : Thins u v) (h' : Thins v w) : Thins u w := by
  refine ⟨h.next.trans h'.next, fun l hl => ?_, fun hk => h'.known (h.known hk),
    fun l => (h.kept l).trans (h'.kept l),
    fun l hl hu => h'.unborn l hl (h.unborn l (h'.next.trans hl) hu)⟩
  rcases h'.links l hl with hv | hle
  · exact h.links l hv
  · exact Or.inr (h.next.trans hle)

/-- What is no part of a link does not matter. -/
theorem Thins.same {u v : Upstream} (hnext : v.nextLink = u.nextLink) (hlinks : v.links = u.links)
    (hlink : v.link = u.link) : Thins u v := by
  refine ⟨hnext.ge, fun l hl => Or.inl (hlinks ▸ hl), fun hk l hl => ?_, fun l => ?_,
    fun l _ hu => hlink ▸ hu⟩
  · rw [hnext]
    exact hk l (hlinks ▸ hl)
  · rw [hlink]
    exact .refl _

theorem Stride.thins {u v : Upstream} (h : Stride u v) : Thins u v := by
  cases h with
  | tend hnext hlinks hlink =>
    exact ⟨hnext.ge, fun _ hl => Or.inl (hlinks hl), fun hk l hl => hnext ▸ hk l (hlinks hl),
      fun l => (hlink l).kept, fun l _ => (hlink l).unborn⟩
  | dial =>
    refine ⟨Nat.le_succ _, fun l hl => ?_, fun hk l hl => ?_, fun m => ?_, fun m hm hu => ?_⟩
    · rcases List.mem_append.mp hl with hl | hl
      · exact Or.inl hl
      · exact Or.inr (List.mem_singleton.mp hl).ge
    · rcases List.mem_append.mp hl with hl | hl
      · exact Nat.lt_succ_of_lt (hk l hl)
      · exact List.mem_singleton.mp hl ▸ Nat.lt_succ_self _
    · rw [addLink_link]
      split_ifs with heq
      · rw [heq, freshLink_eq]
        exact Kept.of_eq rfl rfl rfl
      · exact .refl _
    · have hne : m ≠ u.nextLink := (Nat.lt_of_succ_le hm).ne'
      rw [addLink_link, if_neg hne]
      exact hu

theorem Walks.thins {u v : Upstream} (h : Walks u v) : Thins u v := by
  induction h with
  | refl => exact .same rfl rfl rfl
  | tail _ hstride ih => exact ih.trans hstride.thins

/-- A change of one link that keeps its job and its space. -/
theorem relink_thins {u v : Upstream} {l : LinkId} {k : Link}
    (hlink : v.link = Function.update u.link l k) (hk : Kept (u.link l) k)
    (hu : Unborn (u.link l) → Unborn k) (hnext : v.nextLink = u.nextLink)
    (hlinks : v.links = u.links) : Thins u v := by
  have happly : ∀ m, v.link m = if m = l then k else u.link m := fun m => by
    rw [hlink, Function.update_apply]
  refine ⟨hnext.ge, fun m hm => Or.inl (hlinks ▸ hm), fun hknown m hm => ?_, fun m => ?_,
    fun m _ hm => ?_⟩
  · rw [hnext]
    exact hknown m (hlinks ▸ hm)
  · rw [happly]
    split_ifs with heq
    · exact heq ▸ hk
    · exact .refl _
  · rw [happly]
    split_ifs with heq
    · exact hu (heq ▸ hm)
    · exact hm

theorem observeInterval_thins (u : Upstream) (l : LinkId) : Thins u (u.observeInterval l) := by
  have hset : ∀ (v : Upstream) m f, Kept (v.link m) (f (v.link m)) →
      (Unborn (v.link m) → Unborn (f (v.link m))) → Thins v (v.setLink m f) :=
    fun v m f hk hu => relink_thins rfl hk hu rfl rfl
  unfold observeInterval
  dsimp only
  split_ifs
  · exact .same rfl rfl rfl
  · have hfirst := hset u l (fun k => { k with
        samples := 1
        interval := min MAX_INTERVAL (max MIN_INTERVAL ((u.now : ℚ) - (u.link l).job_at))
        interval_hi := min MAX_INTERVAL (max MIN_INTERVAL ((u.now : ℚ) - (u.link l).job_at)) })
      (Kept.of_eq rfl rfl rfl) id
    refine List.foldlRecOn (motive := fun w => Thins u w) _ _ hfirst fun v hv m _ => ?_
    split_ifs
    · exact hv.trans (hset v m _ (Kept.of_eq rfl rfl rfl) id)
    · exact hv
  · exact hset u l _ (Kept.of_eq rfl rfl rfl) id

/-! ### A job arrives -/

/-- A job arrives on a link that has been made; the other links keep their spaces. -/
structure Arrives (u : Upstream) (l : LinkId) (job : StratumJob) (v : Upstream) : Prop where
  next : u.nextLink ≤ v.nextLink
  links : ∀ m ∈ v.links, m ∈ u.links ∨ u.nextLink ≤ m
  known : (∀ m ∈ u.links, m < u.nextLink) → ∀ m ∈ v.links, m < v.nextLink
  made : ¬ Unborn (u.link l)
  kept : ∀ m, m ≠ l → Kept (u.link m) (v.link m)
  unborn : ∀ m, v.nextLink ≤ m → m ≠ l → Unborn (u.link m) → Unborn (v.link m)
  held : (v.link l).job = some job ∨ (v.link l).job = none
  slot : (v.link l).slot = nicehashSlot job.blob
  segments : (v.link l).space.segments = if 0 < nicehashSlot job.blob
    then (u.slots l job).map segmentOf else fullSpace.segments
  cursor : 0 ≤ (v.link l).space.cursor

theorem setLink_link (u : Upstream) (l : LinkId) (f : Link → Link) (m : LinkId) :
    (u.setLink l f).link m = if m = l then f (u.link l) else u.link m :=
  Function.update_apply ..

theorem Arrives.of_setLink {u v : Upstream} {l : LinkId} {job : StratumJob} {f : Link → Link}
    (h : Arrives (u.setLink l f) l job v) (hmade : ¬ Unborn (u.link l))
    (hf : (f (u.link l)).extra = (u.link l).extra) : Arrives u l job v := by
  have hslots : (u.setLink l f).slots l job = u.slots l job := by
    rw [slots, slots, setLink_link, if_pos rfl, hf]
    rfl
  refine ⟨h.next, h.links, h.known, hmade, fun m hm => ?_, fun m hle hm hu => ?_, h.held, h.slot,
    hslots ▸ h.segments, h.cursor⟩
  · have := h.kept m hm
    rwa [setLink_link, if_neg hm] at this
  · refine h.unborn m hle hm ?_
    rwa [setLink_link, if_neg hm]

theorem segments_nicehashSpace (slot : ℤ) (extra : List ℤ) :
    (nicehashSpace slot extra).segments = (slot :: extra).map segmentOf := by
  refine List.filter_eq_self.mpr fun s hs => ?_
  obtain ⟨b, -, rfl⟩ := List.mem_map.mp hs
  exact decide_eq_true (by norm_num [NICEHASH_SPAN])

/-- Learning an interval leaves the spare slots alone. -/
theorem observeInterval_slots (u : Upstream) (l : LinkId) (job : StratumJob) :
    (u.observeInterval l).slots l job = u.slots l job := by
  have hset : ∀ (v : Upstream) m (k : Link), k.extra = (v.link m).extra →
      (Function.update v.link m k l).extra = (v.link l).extra := by
    intro v m k hk
    rw [Function.update_apply]
    split_ifs with heq
    · rw [hk, heq]
    · rfl
  have hsame : (u.observeInterval l).expand = u.expand ∧
      ((u.observeInterval l).link l).extra = (u.link l).extra := by
    unfold observeInterval
    dsimp only
    split_ifs
    · exact ⟨rfl, rfl⟩
    · refine List.foldlRecOn (motive := fun (v : Upstream) => v.expand = u.expand ∧
        (v.link l).extra = (u.link l).extra) _ _ ⟨rfl, hset u l _ rfl⟩ ?_
      intro v hv m _
      split_ifs
      · refine ⟨hv.1, (hset v m _ ?_).trans hv.2⟩
        rfl
      · exact hv
    · exact ⟨rfl, hset u l _ rfl⟩
  rw [slots, slots, hsame.1, hsame.2]

theorem setJob_link (u : Upstream) (l : LinkId) (job : StratumJob) :
    ((u.setJob l job).link l).job = some job ∧
      ((u.setJob l job).link l).slot = nicehashSlot job.blob ∧
      ((u.setJob l job).link l).space.cursor = 0 ∧
      ((u.setJob l job).link l).space.segments = (if 0 < nicehashSlot job.blob
        then (u.slots l job).map segmentOf else fullSpace.segments) ∧
      ∀ m, m ≠ l → (u.setJob l job).link m = u.link m := by
  have hself : (u.setJob l job).link l = { u.link l with
      job := some job, job_at := u.now, slot := nicehashSlot job.blob
      space := if 0 < nicehashSlot job.blob then
        nicehashSpace (nicehashSlot job.blob) (if u.expand then (u.link l).extra else [])
        else fullSpace } := Function.update_self ..
  rw [hself]
  refine ⟨rfl, rfl, ?_, ?_, fun m hm => Function.update_of_ne hm ..⟩
  · dsimp only
    split_ifs <;> rfl
  · by_cases hpos : 0 < nicehashSlot job.blob
    · rw [if_pos hpos, if_pos hpos]
      exact segments_nicehashSpace _ _
    · rw [if_neg hpos, if_neg hpos]

theorem renewed_arrives {u v : Upstream} {l : LinkId} {job : StratumJob} (h : ¬ Unborn (u.link l))
    (hrest : Walks (u.renewed l job) v) : Arrives u l job v := by
  have hobserve := observeInterval_thins u l
  have hslots := observeInterval_slots u l job
  obtain ⟨hjob, hslot, hcursor, hsegments, hother⟩ := setJob_link (u.observeInterval l) l job
  have hfan : Thins ((u.observeInterval l).setJob l job) v := hrest.thins
  have hown := hfan.kept l
  refine ⟨hobserve.next.trans hfan.next, ?_, fun hk => hfan.known (hobserve.known hk), h, ?_, ?_,
    ?_, hown.slot.trans hslot, ?_, hown.cursor hcursor.ge⟩
  · intro m hm
    rcases hfan.links m hm with hm | hle
    · exact hobserve.links m hm
    · exact Or.inr (hobserve.next.trans hle)
  · intro m hm
    have := hfan.kept m
    rw [hother m hm] at this
    exact (hobserve.kept m).trans this
  · intro m hle hm hu
    refine hfan.unborn m hle ?_
    rw [hother m hm]
    exact hobserve.unborn m (hfan.next.trans hle) hu
  · rcases hown.job with hj | hj
    · exact Or.inl (hj.trans hjob)
    · exact Or.inr hj
  · rw [hown.segments, hsegments, hslots]

theorem Accepts.arrives {u v w : Upstream} {l : LinkId} {job : StratumJob}
    (h : Accepts u l job w v) : Arrives u l job v := by
  rcases h.start with rfl | rfl
  · exact renewed_arrives h.begun.made h.rest
  · have hmade : ¬ Unborn ((u.setLink l fun k => { k with socket := true }).link l) := by
      rw [setLink_link, if_pos rfl]
      exact fun hu => (by cases hu.2.2.2)
    exact (renewed_arrives hmade h.rest).of_setLink h.begun.made rfl

/-! ### Every step -/

theorem clear_of_accepts {u : Upstream} {a : Action} {l : LinkId} {job : StratumJob}
    (h : u.accepts a = some (l, job)) (hok : u.unshared a = true) : u.clear l job = true := by
  cases a with
  | job m job' =>
    obtain ⟨rfl, rfl⟩ := Prod.mk.inj (Option.some.inj h)
    exact hok
  | loggedIn m outcome =>
    cases outcome with
    | error message => cases h
    | ok job' =>
      rw [unshared, Bool.or_eq_true] at hok
      obtain ⟨hnone, heq⟩ := Option.ite_none_left_eq_some.mp h
      obtain ⟨rfl, rfl⟩ := Prod.mk.inj (Option.some.inj heq)
      exact hok.resolve_left hnone
  | _ => cases h

/-- A job arrives in the step, on slots that are clear if the step meets the condition, or none
does. -/
theorem step_cases {u v : Upstream} {a : Action} (h : u.step a = some v) :
    Thins u v ∨ ∃ l job, (u.unshared a = true → u.clear l job = true) ∧ Arrives u l job v := by
  have hgoes := step_goes h
  rcases haccepts : u.accepts a with _ | ⟨l, job⟩
  · rw [haccepts] at hgoes
    exact Or.inl (Walks.thins hgoes)
  · rw [haccepts] at hgoes
    obtain ⟨w, hw⟩ := hgoes
    exact Or.inr ⟨l, job, clear_of_accepts haccepts, hw.arrives⟩

/-! ### Every run -/

structure Orderly (u : Upstream) : Prop where
  known : ∀ l ∈ u.links, l < u.nextLink
  unborn : ∀ l, u.nextLink ≤ l → Unborn (u.link l)
  cursor : ∀ l, 0 ≤ (u.link l).space.cursor
  cut : ∀ l, 0 < (u.link l).slot → ∀ s ∈ (u.link l).space.segments, ∃ b, s = segmentOf b
  sliced : u.Sliced

theorem Rivals.symm {u : Upstream} {l m : LinkId} (h : u.Rivals l m) : u.Rivals m l := by
  obtain ⟨j, k, hj, hk, hsame⟩ := h.job
  exact ⟨h.right, h.left, h.ne.symm, ⟨k, j, hk, hj, hsame.symm⟩, h.slot_right, h.slot_left,
    h.slots.symm⟩

/-- A link with a job has been made. -/
theorem Orderly.lt_of_job {u : Upstream} (h : u.Orderly) {l : LinkId} {j : StratumJob}
    (hj : (u.link l).job = some j) : l < u.nextLink := by
  by_contra hle
  have := (h.unborn l (not_lt.mp hle)).1
  rw [hj] at this
  cases this

theorem segmentOf_nonces {b n : ℤ} (h : n ∈ (segmentOf b).nonces) : n / NICEHASH_SPAN = b := by
  simp only [Segment.nonces, segmentOf, Set.mem_Ico, NICEHASH_SPAN] at h ⊢
  omega

/-- Links that keep their jobs and spaces were rivals before. -/
theorem Rivals.of_kept {u v : Upstream} (hu : u.Orderly)
    (hlinks : ∀ l ∈ v.links, l ∈ u.links ∨ u.nextLink ≤ l) {l m : LinkId}
    (hl : Kept (u.link l) (v.link l)) (hm : Kept (u.link m) (v.link m)) (h : v.Rivals l m) :
    u.Rivals l m := by
  obtain ⟨j, k, hj, hk, hsame⟩ := h.job
  have hkept : ∀ x i, Kept (u.link x) (v.link x) → (v.link x).job = some i → x ∈ v.links →
      (u.link x).job = some i ∧ x ∈ u.links := by
    intro x i hx hi hmem
    rcases hx.job with heq | hnone
    · have hjob := heq.symm.trans hi
      refine ⟨hjob, (hlinks x hmem).resolve_right ?_⟩
      exact not_le.mpr (hu.lt_of_job hjob)
    · rw [hi] at hnone
      cases hnone
  obtain ⟨hlj, hlmem⟩ := hkept l j hl hj h.left
  obtain ⟨hmk, hmmem⟩ := hkept m k hm hk h.right
  refine ⟨hlmem, hmmem, h.ne, ⟨j, k, hlj, hmk, hsame⟩, ?_, ?_, ?_⟩
  · rw [← hl.slot]
    exact h.slot_left
  · rw [← hm.slot]
    exact h.slot_right
  · rw [← hl.slot, ← hm.slot]
    exact h.slots

theorem Thins.orderly {u v : Upstream} (h : Thins u v) (hu : u.Orderly) : v.Orderly := by
  refine ⟨h.known hu.known, fun l hl => h.unborn l hl (hu.unborn l (h.next.trans hl)),
    fun l => (h.kept l).cursor (hu.cursor l), fun l hl => ?_, fun l m hlm => ?_⟩
  · rw [(h.kept l).segments]
    exact hu.cut l ((h.kept l).slot ▸ hl)
  · rw [(h.kept l).segments, (h.kept m).segments]
    exact hu.sliced l m (hlm.of_kept hu h.links (h.kept l) (h.kept m))

/-- The space of the job that has arrived is disjoint from those of the rivals of its link. -/
theorem Arrives.disjoint {u v : Upstream} {l m : LinkId} {job : StratumJob}
    (h : Arrives u l job v) (hu : u.Orderly) (hclear : u.clear l job = true)
    (hlm : v.Rivals l m) :
    Disjoint (nonces (v.link l).space.segments) (nonces (v.link m).space.segments) := by
  obtain ⟨j, k, hj, hk, hsame⟩ := hlm.job
  have hm := h.kept m hlm.ne.symm
  have hjob : job = j := by
    rcases h.held with hheld | hnone
    · exact Option.some.inj (hheld.symm.trans hj)
    · rw [hj] at hnone
      cases hnone
  have hmk : (u.link m).job = some k := by
    rcases hm.job with heq | hnone
    · exact heq.symm.trans hk
    · rw [hk] at hnone
      cases hnone
  have hlu : l ∈ u.links := by
    refine (h.links l hlm.left).resolve_right fun hle => ?_
    exact h.made (hu.unborn l hle)
  have hmu : m ∈ u.links :=
    (h.links m hlm.right).resolve_right (not_le.mpr (hu.lt_of_job hmk))
  have hslotl := hlm.slot_left
  have hslotm := hlm.slot_right
  have hslots := hlm.slots
  rw [h.slot] at hslotl hslots
  rw [hm.slot] at hslotm hslots
  obtain ⟨hpos, hposm, hfree⟩ := of_decide_eq_true hclear hlu m hmu hlm.ne.symm k hmk
    (hjob ▸ hsame) hslotl hslotm hslots
  rw [h.segments, if_pos hpos, hm.segments, Set.disjoint_left]
  rintro n ⟨s, hs, hns⟩ ⟨s', hs', hns'⟩
  obtain ⟨b, hb, rfl⟩ := List.mem_map.mp hs
  obtain ⟨b', rfl⟩ := hu.cut m hposm s' hs'
  refine hfree b hb ?_
  rw [← segmentOf_nonces hns, segmentOf_nonces hns']
  exact hs'

theorem Arrives.orderly {u v : Upstream} {l : LinkId} {job : StratumJob} (h : Arrives u l job v)
    (hu : u.Orderly) (hclear : u.clear l job = true) : v.Orderly := by
  have hlt : l < u.nextLink := by
    by_contra hle
    exact h.made (hu.unborn l (not_lt.mp hle))
  refine ⟨h.known hu.known, fun m hm => ?_, fun m => ?_, fun m hm s hs => ?_, fun a b hab => ?_⟩
  · have hne : m ≠ l := (hlt.trans_le (h.next.trans hm)).ne'
    exact h.unborn m hm hne (hu.unborn m (h.next.trans hm))
  · by_cases hm : m = l
    · exact hm ▸ h.cursor
    · exact (h.kept m hm).cursor (hu.cursor m)
  · by_cases hml : m = l
    · rw [hml, h.slot] at hm
      rw [hml, h.segments, if_pos hm] at hs
      obtain ⟨b, -, rfl⟩ := List.mem_map.mp hs
      exact ⟨b, rfl⟩
    · rw [(h.kept m hml).slot] at hm
      rw [(h.kept m hml).segments] at hs
      exact hu.cut m hm s hs
  · by_cases ha : a = l
    · exact ha ▸ h.disjoint hu hclear (ha ▸ hab)
    by_cases hb : b = l
    · exact (hb ▸ h.disjoint hu hclear (hb ▸ hab.symm)).symm
    · rw [(h.kept a ha).segments, (h.kept b hb).segments]
      exact hu.sliced a b (hab.of_kept hu h.links (h.kept a ha) (h.kept b hb))

theorem start_orderly (maxLinks idleTimeout : ℕ) (expand : Bool) (now : ℕ)
    (client : ClientId → Client) :
    (start maxLinks idleTimeout expand now client).Orderly := by
  refine ⟨fun _ hl => (by cases hl), fun _ _ => ⟨rfl, rfl, rfl, rfl⟩, fun _ => le_rfl,
    fun _ hl => absurd hl (lt_irrefl _), fun l m hlm => ?_⟩
  exact absurd hlm.left List.not_mem_nil

/-- In every run in which jobs arrive on clear slots, links with the same job and different slots
have disjoint segments, and the ranges cut off their spaces are disjoint. -/
theorem nicehash_slices_disjoint (maxLinks idleTimeout : ℕ) (expand : Bool) (now : ℕ)
    (client : ClientId → Client) (actions : List Action) (u : Upstream)
    (hguard : Meets step (fun u a => u.unshared a = true)
      (start maxLinks idleTimeout expand now client)
      actions) (hrun : exec step (start maxLinks idleTimeout expand now client) actions = some u) :
    ∀ l m, u.Rivals l m →
      Disjoint (nonces (u.link l).space.segments) (nonces (u.link m).space.segments) ∧
      ∀ count count' g g', (take (u.link l).space count).1 = some g →
        (take (u.link m).space count').1 = some g' → Disjoint g.nonces g'.nonces := by
  have hstep : ∀ (u : Upstream) (a : Action) (v : Upstream), u.Orderly → u.unshared a = true →
      u.step a = some v → v.Orderly := by
    intro u a v hu hok hs
    rcases step_cases hs with hthins | ⟨l, job, hclear, harrives⟩
    · exact hthins.orderly hu
    · exact harrives.orderly hu (hclear hok)
  have hu := exec_invariant hstep (start_orderly maxLinks idleTimeout expand now client) hguard hrun
  intro l m hlm
  have hdisjoint := Orderly.sliced hu l m hlm
  refine ⟨hdisjoint, fun count count' g g' hg hg' => ?_⟩
  obtain ⟨s, hs, hsub⟩ := (take_within _ count (Orderly.cursor hu l)).2 g hg
  obtain ⟨s', hs', hsub'⟩ := (take_within _ count' (Orderly.cursor hu m)).2 g' hg'
  rw [Set.disjoint_left] at hdisjoint ⊢
  exact fun n hn hn' => hdisjoint ⟨s, hs, hsub hn⟩ ⟨s', hs', hsub' hn'⟩

/-- A job whose reserved byte reads `byte`. -/
def niceJob (byte : List Char) : StratumJob :=
  { blob := String.ofList (List.replicate 84 '0' ++ byte ++ List.replicate 66 '0'),
    target := "01000000", job_id := "1", seed_hash := "" }

/-- Miners that are each more than one link's headroom. -/
def niceStart : Upstream := start 64 300000 true 1000 fun _ =>
  { hashrate := 2000000000, vardiff := VarDiff.new 1000 1000 }

/-- Two links come up on slots 1 and 2, and each gets the job again with its spare slots. -/
def slicing : List Action :=
  [.attach 0 0, .dialed 0 (.ok ()), .loggedIn 0 (.ok (niceJob ['0', '1'])), .resume 0, .resume 0,
    .attach 1 1, .dialed 1 (.ok ()), .loggedIn 1 (.ok (niceJob ['0', '2'])), .resume 0, .resume 0,
    .job 0 (niceJob ['0', '1']), .job 1 (niceJob ['0', '2'])]

theorem nicehash_slices_disjoint_two : ∃ u, exec step niceStart slicing = some u ∧
    ∀ l m, u.Rivals l m →
      Disjoint (nonces (u.link l).space.segments) (nonces (u.link m).space.segments) ∧
      ∀ count count' g g', (take (u.link l).space count).1 = some g →
        (take (u.link m).space count').1 = some g' → Disjoint g.nonces g'.nonces :=
  exists_exec (by decide +kernel) fun u h =>
    nicehash_slices_disjoint 64 300000 true 1000 _ _ u (by decide +kernel) h

/-- The first link is alone on slot 1; it gets the job again with every other slot, and then a
second link comes up on slot 2. -/
def sharing : List Action :=
  [.attach 0 0, .dialed 0 (.ok ()), .loggedIn 0 (.ok (niceJob ['0', '1'])), .resume 0, .resume 0,
    .job 0 (niceJob ['0', '1']), .attach 1 1, .dialed 1 (.ok ()),
    .loggedIn 1 (.ok (niceJob ['0', '2']))]

theorem nicehash_slices_shared : ¬ ∀ u, exec step niceStart sharing = some u → u.Sliced := by
  intro h
  have hrun : (exec step niceStart sharing).any (fun u =>
      u.links = [0, 1] ∧ (u.link 0).job = some (niceJob ['0', '1']) ∧
        (u.link 1).job = some (niceJob ['0', '2']) ∧ (u.link 0).slot = 1 ∧ (u.link 1).slot = 2 ∧
        segmentOf 2 ∈ (u.link 0).space.segments ∧ (u.link 1).space.segments = [segmentOf 2]) =
      true := by decide +kernel
  obtain ⟨u, hu, hstate⟩ := (Option.any_eq_true _ _).mp hrun
  obtain ⟨hlinks, hjob, hjob', hslot, hslot', hmem, hsegments⟩ := of_decide_eq_true hstate
  have hrivals : u.Rivals 0 1 := by
    refine ⟨by rw [hlinks]; decide, by rw [hlinks]; decide, by decide,
      ⟨_, _, hjob, hjob', by decide +kernel⟩, by rw [hslot]; decide, by rw [hslot']; decide, ?_⟩
    rw [hslot, hslot']
    decide
  have hin : 2 * NICEHASH_SPAN ∈ (segmentOf 2).nonces := by
    simp only [Segment.nonces, segmentOf, Set.mem_Ico, NICEHASH_SPAN]
    omega
  have hdisjoint := h u hu 0 1 hrivals
  rw [hsegments] at hdisjoint
  exact Set.disjoint_left.mp hdisjoint ⟨_, hmem, hin⟩
    ⟨_, List.mem_singleton_self _, hin⟩

end Upstream

end NMiner
