import NMiner.Proofs.Stock

/-! Ranges after the expansion has been switched off. A space is built from the spare slots as they
are when its job arrives and is not built again before the next job, so what is cut off it lies in
the link's own slot as long as that slot has a nonce left. -/

namespace NMiner

open Transition

/-! ### The current segment of a space -/

/-- The first segment that has a nonce left to grant, with the cursor in the first one. -/
def firstOpen : List Segment → ℤ → Option Segment
  | [], _ => none
  | s :: rest, cursor =>
    if s.base + cursor < min (s.base + s.size) TOP then some s else firstOpen rest 0

def NonceSpace.current (space : NonceSpace) : Option Segment :=
  firstOpen (space.segments.drop space.index) space.cursor

theorem current_cons {space : NonceSpace} (h : space.index < space.segments.length) :
    space.current = if (space.segments[space.index]).base + space.cursor <
        min ((space.segments[space.index]).base + (space.segments[space.index]).size) TOP
      then some (space.segments[space.index])
      else firstOpen (space.segments.drop (space.index + 1)) 0 := by
  rw [NonceSpace.current, List.drop_eq_getElem_cons h, firstOpen]

theorem mem_of_firstOpen {segments : List Segment} {cursor : ℤ} {s : Segment}
    (h : firstOpen segments cursor = some s) : s ∈ segments := by
  induction segments generalizing cursor with
  | nil => cases h
  | cons t rest ih =>
    unfold firstOpen at h
    split_ifs at h
    · exact Option.some.inj h ▸ List.mem_cons_self
    · exact List.mem_cons_of_mem _ (ih h)

/-- There is a grant exactly if there is a current segment, and the grant starts in it. -/
theorem take_current (space : NonceSpace) (count : ℚ) (hc : 0 ≤ space.cursor) :
    (∀ g, (take space count).1 = some g → g.start_nonce < g.nonce_limit ∧
      ∃ s, space.current = some s ∧ g.start_nonce ∈ s.nonces) ∧
      ((take space count).1 = none → space.current = none) := by
  fun_induction take space count with
  | case1 space h segment left hleft ih =>
    have hnext : space.current = firstOpen (space.segments.drop (space.index + 1)) 0 := by
      rw [current_cons h, if_neg]
      simp only [left, segment] at hleft
      omega
    rw [hnext]
    exact ih le_rfl
  | case2 space h segment left hleft size start limit rest hlimit =>
    have hle : limit ≤ start + size := min_le_left _ _
    have hsize : size ≤ left := min_le_right _ _
    have htop : limit ≤ TOP := min_le_right _ _
    have hcurrent : space.current = some segment := by
      rw [current_cons h, if_pos]
      simp only [start, left, segment] at hleft hlimit htop ⊢
      omega
    refine ⟨fun g hg => ?_, fun hnone => (by cases hnone)⟩
    obtain rfl := Option.some.inj hg
    refine ⟨hlimit, segment, hcurrent, ?_⟩
    simp only [Segment.nonces, Set.mem_Ico, start, left] at hsize hlimit hle ⊢
    omega
  | case3 space h segment left hleft size start limit rest hlimit ih =>
    have hpos : 0 < size := by
      simp only [size]
      omega
    -- nothing but the nonce that is never granted is left of the segment
    have htop : TOP ≤ start := by
      simp only [limit] at hlimit
      omega
    have hnext : space.current = rest.current := by
      rw [@current_cons rest h, current_cons h, if_neg, if_neg]
      · simp only [rest, start, segment] at htop ⊢
        omega
      · simp only [start, segment] at htop
        omega
    rw [hnext]
    exact ih (add_nonneg hc hpos.le)
  | case4 space h =>
    refine ⟨fun g hg => (by cases hg), fun _ => ?_⟩
    rw [NonceSpace.current, List.drop_eq_nil_of_le (not_lt.mp h)]
    rfl

namespace Upstream

variable {u v w : Upstream} {l : LinkId}

/-! ### The own slot -/

/-- The range lies in the slot of the job it is recorded for, if that job has one. -/
def OwnSlot (r : Issued) : Prop :=
  0 < nicehashSlot r.job.blob → ∀ n ∈ r.range.nonces, n / NICEHASH_SPAN = nicehashSlot r.job.blob

/-- The condition on a step: the segment that a range for a single miner is cut off is the link's
own slot. -/
def inSlot (u : Upstream) (a : Action) : Bool := match u.lone a with
  | none => true
  | some l => (u.link l).usable → 0 < (u.link l).slot →
      ∀ s ∈ (u.link l).space.current, s = segmentOf (u.link l).slot

/-- A link's slot is that of its job, and its space is built from slots. -/
structure Shelved (u : Upstream) : Prop where
  slot : ∀ l job, (u.link l).job = some job → (u.link l).slot = nicehashSlot job.blob
  built : ∀ l, 0 < (u.link l).slot → ∀ s ∈ (u.link l).space.segments, ∃ b, s = segmentOf b
  cursor : ∀ l, 0 ≤ (u.link l).space.cursor

theorem Kept.shelved {k k' : Link} (h : Kept k k')
    (hslot : ∀ job, k.job = some job → k.slot = nicehashSlot job.blob) :
    ∀ job, k'.job = some job → k'.slot = nicehashSlot job.blob := by
  intro job hjob
  rcases h.job with heq | hnone
  · rw [h.slot]
    exact hslot job (heq ▸ hjob)
  · rw [hjob] at hnone
    cases hnone

theorem step_shelved {a : Action} (hu : u.Shelved) (h : u.step a = some v) : v.Shelved := by
  rcases step_cases h with hthins | ⟨l, job, -, harrives⟩
  · refine ⟨fun l => (hthins.kept l).shelved (hu.slot l), fun l hl => ?_,
      fun l => (hthins.kept l).cursor (hu.cursor l)⟩
    rw [(hthins.kept l).segments]
    exact hu.built l ((hthins.kept l).slot ▸ hl)
  · refine ⟨fun m => ?_, fun m hm s hs => ?_, fun m => ?_⟩ <;> by_cases hml : m = l
    · subst hml
      intro k hk
      rcases harrives.held with hheld | hnone
      · rw [harrives.slot, Option.some.inj (hheld.symm.trans hk)]
      · rw [hk] at hnone
        cases hnone
    · exact (harrives.kept m hml).shelved (hu.slot m)
    · subst hml
      rw [harrives.slot] at hm
      rw [harrives.segments, if_pos hm] at hs
      obtain ⟨b, -, rfl⟩ := List.mem_map.mp hs
      exact ⟨b, rfl⟩
    · rw [(harrives.kept m hml).segments] at hs
      exact hu.built m ((harrives.kept m hml).slot ▸ hm) s hs
    · exact hml ▸ harrives.cursor
    · exact (harrives.kept m hml).cursor (hu.cursor m)

theorem start_shelved (maxLinks idleTimeout : ℕ) (expand : Bool) (now : ℕ)
    (client : ClientId → Client) :
    (start maxLinks idleTimeout expand now client).Shelved :=
  ⟨fun _ _ h => (by cases h), fun _ h => absurd h (lt_irrefl _), fun _ => le_rfl⟩

/-- A range that is cut off the link's slot lies in it. -/
theorem Cut.ownSlot (hu : u.Shelved) {r : Issued} (h : u.Cut l r)
    (hcurrent : 0 < (u.link l).slot → ∀ s ∈ (u.link l).space.current,
      s = segmentOf (u.link l).slot) : OwnSlot r := by
  obtain ⟨-, hjob, -, count, hcut⟩ := h
  have hslot := hu.slot l r.job hjob
  intro hpos n hn
  rw [← hslot] at hpos ⊢
  obtain ⟨hlt, s, hs, hstart⟩ := (take_current _ count (hu.cursor l)).1 r.range hcut
  rw [hcurrent hpos s hs] at hstart
  obtain ⟨t, ht, hsub⟩ := (take_within _ count (hu.cursor l)).2 r.range hcut
  obtain ⟨b, rfl⟩ := hu.built l hpos t ht
  have hfirst : r.range.start_nonce ∈ r.range.nonces := ⟨le_rfl, hlt⟩
  rw [segmentOf_nonces (hsub hn), ← segmentOf_nonces (hsub hfirst), segmentOf_nonces hstart]

/-- In a fan-out with the expansion off every range is one of the own slot. -/
theorem Off.ownSlot (hoff : u.expand = false) {job : StratumJob} {r : Issued}
    (h : Off l job (u.stock l job) r) : OwnSlot r := by
  obtain ⟨-, rfl, s, hs, hsub⟩ := h
  intro hpos n hn
  have hslots : u.slots l r.job = [nicehashSlot r.job.blob] := by
    rw [slots, hoff]
    rfl
  rw [stock, if_pos hpos, hslots, List.map_singleton, List.mem_singleton] at hs
  subst hs
  exact segmentOf_nonces (hsub hn)

/-- A grant on a link with a current segment goes on record, starting in it. -/
theorem grant_current {s : Segment} (husable : (u.link l).usable = true)
    (hc : 0 ≤ (u.link l).space.cursor) (hs : (u.link l).space.current = some s) (c : ClientId) :
    ∃ r ∈ u.since (u.grant l c).2 c, (u.link l).job = some r.job ∧
      ∃ n ∈ r.range.nonces, n ∈ s.nonces := by
  obtain ⟨hsome, hleft⟩ := (Bool.and_eq_true _ _).mp husable
  obtain ⟨job, hjob⟩ := Option.isSome_iff_exists.mp hsome
  unfold grant
  rw [if_neg (not_le.mpr (of_decide_eq_true hleft))]
  dsimp only
  generalize chunkSize (u.rate c) _ _ = size
  obtain ⟨hcut, hnone⟩ := take_current (u.link l).space size hc
  rcases hg : (take (u.link l).space size).1 with _ | g
  · exact absurd (hs.symm.trans (hnone hg)) (Option.some_ne_none s)
  · obtain ⟨hlt, t, ht, hstart⟩ := hcut g hg
    obtain rfl := Option.some.inj (hs.symm.trans ht)
    have hrecord : ∀ w : Upstream, w.issued = u.issued →
        u.since (w.record c l job g) c = [{ link := l, job := job, range := g }] := by
      intro w hw
      have hissued : (w.record c l job g).issued c =
          u.issued c ++ [{ link := l, job := job, range := g }] := by
        rw [← hw]
        exact Function.update_self ..
      rw [since, hissued, List.drop_left]
    rw [hjob]
    dsimp only
    rw [hrecord (u.setLink l fun k => { k with space := (take (u.link l).space size).2 }) rfl]
    exact ⟨_, List.mem_singleton_self _, rfl, g.start_nonce, ⟨le_rfl, hlt⟩, hstart⟩

/-- A range off the link's current segment is cut for the miner in the step. -/
theorem lone_current {a : Action} {s : Segment} (ha : u.lone a = some l)
    (husable : (u.link l).usable = true) (hc : 0 ≤ (u.link l).space.cursor)
    (hs : (u.link l).space.current = some s) (h : u.step a = some v) :
    ∃ c, ∃ r ∈ u.since v c, (u.link l).job = some r.job ∧ ∃ n ∈ r.range.nonces, n ∈ s.nonces := by
  cases a with
  | chunk call c job_id =>
    refine ⟨c, ?_⟩
    obtain ⟨m, hm, ha⟩ := Option.bind_eq_some_iff.mp ha
    obtain ⟨hid, hml⟩ := Option.ite_none_right_eq_some.mp ha
    obtain rfl : m = l := Option.some.inj hml
    obtain ⟨job, hjob, hid⟩ := Option.map_eq_some_iff.mp hid
    obtain ⟨r, hr, hcut⟩ := grant_current husable hc hs c
    refine ⟨r, ?_, hcut⟩
    rw [← Option.some.inj h, chunk, hm]
    dsimp only
    rw [hjob]
    dsimp only
    rw [if_neg (not_not.mpr hid)]
    have hgrant := grant_deals u m c
    rcases hg : u.grant m c with ⟨_ | g, w⟩
    · rw [hg] at hr hgrant
      exact hgrant.mem (migrate_deals (P := fun _ => True) w m c _) hr
    · rw [hg] at hr
      exact hr
  | resume i =>
    obtain ⟨t, ht, ha⟩ := Option.bind_eq_some_iff.mp ha
    rw [step, resume, ht, Option.bind_some] at h
    cases hphase : t.phase with
    | picked m =>
      rw [hphase] at h ha
      obtain ⟨hlive, hml⟩ := Option.ite_none_right_eq_some.mp ha
      obtain rfl : m = l := Option.some.inj hml
      obtain ⟨w, hw, hjob, hspace, hissued, hafter⟩ := finish_after (P := fun _ => True)
        (u := { u with tasks := u.tasks.eraseIdx i }) hlive m
      have husable' : (w.link m).usable = true := by
        rw [Link.usable, hjob, hspace]
        exact husable
      obtain ⟨r, hr, hrjob, hn⟩ := grant_current husable' (hspace ▸ hc) (hspace ▸ hs) t.client
      rw [since, hissued] at hr
      refine ⟨t.client, r, ?_, hjob ▸ hrjob, hn⟩
      have hgrant : Deals (fun _ => True) { u with tasks := u.tasks.eraseIdx i }
          (w.grant m t.client).2 := hw.trans ((grant_deals w m _).mono fun _ _ => trivial)
      rw [← Option.some.inj h]
      exact hgrant.mem hafter hr
    | _ =>
      rw [hphase] at ha
      cases ha
  | _ => cases ha

/-! ### Every step and every run -/

/-- In a step with the expansion off the ranges are of the own slot exactly if the step meets the
condition. -/
theorem step_ownSlot {a : Action} (hoff : u.expand = false) (hu : u.Shelved)
    (h : u.step a = some v) :
    (∀ c, ∀ r ∈ u.since v c, OwnSlot r) ↔ u.inSlot a = true := by
  constructor
  · intro hall
    unfold inSlot
    cases ha : u.lone a with
    | none => rfl
    | some l =>
      refine decide_eq_true fun husable hpos s hs => ?_
      obtain ⟨b, rfl⟩ := hu.built l hpos s (List.mem_of_mem_drop (mem_of_firstOpen hs))
      obtain ⟨c, r, hr, hjob, n, hn, hmem⟩ := lone_current ha husable (hu.cursor l) hs h
      have hslot := hu.slot l r.job hjob
      rw [hslot] at hpos ⊢
      rw [← hall c r hr hpos n hn, segmentOf_nonces hmem]
  · intro hok c r hr
    rcases (step_deals h).since r hr with ⟨l, ha, hcut⟩ | ⟨l, job, -, hfan⟩
    · rw [inSlot, ha] at hok
      have husable : (u.link l).usable = true := by
        rw [Link.usable, hcut.2.1]
        exact decide_eq_true hcut.2.2.1
      exact hcut.ownSlot hu (of_decide_eq_true hok husable)
    · exact hfan.ownSlot hoff

theorem run_deals {actions : List Action} (h : exec step u actions = some v) :
    Deals (fun _ => True) u v := by
  have hstep : ∀ (s : Upstream) (a : Action) (s' : Upstream), Deals (fun _ => True) u s →
      s.step a = some s' → Deals (fun _ => True) u s' :=
    fun _ _ _ hu hs => hu.trans ((step_deals hs).mono fun _ _ => trivial)
  exact exec_preserves hstep (.refl u) h

/-- From a state with the expansion off on, all ranges cut in a run are of their links' own slots
exactly if all its steps meet the condition. -/
theorem run_ownSlot {actions : List Action} (hoff : u.expand = false) (hu : u.Shelved)
    (h : exec step u actions = some v) :
    (∀ c, ∀ r ∈ u.since v c, OwnSlot r) ↔ Meets step (fun u a => u.inSlot a = true) u actions := by
  induction actions generalizing u with
  | nil =>
    obtain rfl := Option.some.inj h
    refine iff_of_true (fun c r hr => ?_) trivial
    rw [since, List.drop_length] at hr
    cases hr
  | cons a actions ih =>
    obtain ⟨m, hm, hrest⟩ := exec_cons_eq_some.mp h
    have hdeals := (step_deals hm).mono fun _ _ => trivial
    have hoffm : m.expand = false := by
      rw [Bool.eq_false_iff]
      exact fun hon => Bool.false_ne_true (hoff.symm.trans (hdeals.expand hon))
    have hhere := step_ownSlot hoff hu hm
    have hthere := ih hoffm (step_shelved hu hm) hrest
    have hboth : (∀ c, ∀ r ∈ u.since v c, OwnSlot r) ↔
        (∀ c, ∀ r ∈ u.since m c, OwnSlot r) ∧ ∀ c, ∀ r ∈ m.since v c, OwnSlot r := by
      simp only [since_trans hdeals (run_deals hrest), List.forall_mem_append, forall_and]
    rw [hboth, hhere, hthere, meets_cons]
    refine and_congr_right fun _ => ⟨fun hmeets s hs => ?_, fun hmeets => hmeets m hm⟩
    exact Option.some.inj (hm.symm.trans hs) ▸ hmeets

/-- Once the expansion is off, all ranges that are cut from then on are of their links' own slots
exactly as long as no range for a single miner is cut off a link that has come to the spare slots
its space was built with. -/
theorem own_slot_iff (maxLinks idleTimeout : ℕ) (expand : Bool) (now : ℕ)
    (client : ClientId → Client)
    (before after : List Action) (u v : Upstream)
    (hu : exec step (start maxLinks idleTimeout expand now client) before = some u)
    (hoff : u.expand = false)
    (hv : exec step u after = some v) :
    (∀ c, ∀ r ∈ u.since v c, OwnSlot r) ↔ Meets step (fun u a => u.inSlot a = true) u after :=
  run_ownSlot hoff
    (exec_preserves (fun _ _ _ => step_shelved)
      (start_shelved maxLinks idleTimeout expand now client) hu) hv

/-- One link is alone on slot 1. It gets the job again with every other slot, its miner works
through slot 1, is given slot 0, and the pool rejects the shares it finds there. -/
def straying : List Action :=
  [.attach 0 0, .dialed 0 (.ok ()), .loggedIn 0 (.ok (niceJob ['0', '1'])), .resume 0, .resume 0,
    .job 0 (niceJob ['0', '1']), .chunk 1 0 "1"] ++
    List.replicate STRAY_SAMPLE (.submit 2 0 "1" "00000000" "") ++
    List.replicate STRAY_SAMPLE (.rejected true)

/-- The job comes again, and the miner asks for more. -/
theorem own_slot_iff_again : ∃ u v, exec step niceStart straying = some u ∧ u.expand = false ∧
    exec step u [.job 0 (niceJob ['0', '1']), .chunk 3 0 "1"] = some v ∧
    ∀ c, ∀ r ∈ u.since v c, OwnSlot r := by
  have hrun : (exec step niceStart straying).any (fun u => u.expand = false ∧
      (exec step u [.job 0 (niceJob ['0', '1']), .chunk 3 0 "1"]).isSome = true ∧
      Meets step (fun u a => u.inSlot a = true) u [.job 0 (niceJob ['0', '1']), .chunk 3 0 "1"]) =
      true := by decide +kernel
  obtain ⟨u, hu, hstate⟩ := (Option.any_eq_true _ _).mp hrun
  obtain ⟨hoff, hsome, hmeets⟩ := of_decide_eq_true hstate
  obtain ⟨v, hv⟩ := Option.isSome_iff_exists.mp hsome
  exact ⟨u, v, hu, hoff, hv,
    (own_slot_iff 64 300000 true 1000 _ straying _ u v hu hoff hv).mpr hmeets⟩

/-- After the shares have been rejected the miner is given slot 2. -/
theorem own_slot_left : ∃ u v, exec step niceStart straying = some u ∧ u.expand = false ∧
    exec step u [.chunk 3 0 "1"] = some v ∧ ¬ ∀ c, ∀ r ∈ u.since v c, OwnSlot r := by
  have hrun : (exec step niceStart straying).any (fun u => u.expand = false ∧
      (exec step u [.chunk 3 0 "1"]).any fun v =>
        u.since v 0 =
          [⟨0, niceJob ['0', '1'], ⟨2 * NICEHASH_SPAN, 3 * NICEHASH_SPAN⟩⟩]) = true := by
    decide +kernel
  obtain ⟨u, hu, hstate⟩ := (Option.any_eq_true _ _).mp hrun
  obtain ⟨hoff, hafter⟩ := of_decide_eq_true hstate
  obtain ⟨v, hv, hsince⟩ := (Option.any_eq_true _ _).mp hafter
  refine ⟨u, v, hu, hoff, hv, fun hall => ?_⟩
  have hown := hall 0 _ (of_decide_eq_true hsince ▸ List.mem_singleton_self _)
  have hslot : nicehashSlot (niceJob ['0', '1']).blob = 1 := by decide +kernel
  have htop := hown (hslot ▸ one_pos) (2 * NICEHASH_SPAN) ⟨le_rfl, by decide⟩
  rw [hslot] at htop
  exact absurd htop (by decide)

/-! ### An upstream that never had the expansion -/

/-- Every space is the link's own slot alone. -/
structure Plain (u : Upstream) : Prop where
  expand : u.expand = false
  segments : ∀ l, 0 < (u.link l).slot → (u.link l).space.segments = [segmentOf (u.link l).slot]

theorem step_plain {a : Action} (hu : u.Plain) (h : u.step a = some v) : v.Plain := by
  refine ⟨?_, fun l hl => ?_⟩
  · rw [Bool.eq_false_iff]
    exact fun hon => Bool.false_ne_true (hu.expand.symm.trans ((step_deals h).expand hon))
  rcases step_cases h with hthins | ⟨m, job, -, harrives⟩
  · rw [(hthins.kept l).segments, (hthins.kept l).slot]
    exact hu.segments l ((hthins.kept l).slot ▸ hl)
  · by_cases hlm : l = m
    · subst hlm
      have hslots : u.slots l job = [nicehashSlot job.blob] := by
        rw [slots, hu.expand]
        rfl
      rw [harrives.slot] at hl ⊢
      rw [harrives.segments, if_pos hl, hslots, List.map_singleton]
    · rw [(harrives.kept l hlm).segments, (harrives.kept l hlm).slot]
      exact hu.segments l ((harrives.kept l hlm).slot ▸ hl)

theorem Plain.inSlot (hu : u.Plain) (a : Action) : u.inSlot a = true := by
  unfold Upstream.inSlot
  cases u.lone a with
  | none => rfl
  | some l =>
    refine decide_eq_true fun _ hpos s hs => ?_
    have hmem := List.mem_of_mem_drop (mem_of_firstOpen hs)
    rw [hu.segments l hpos] at hmem
    exact List.mem_singleton.mp hmem

/-- Without the option every range that is ever cut is of its link's own slot. -/
theorem own_slot_of_never (maxLinks idleTimeout : ℕ) (now : ℕ) (client : ClientId → Client)
    (actions : List Action) (u : Upstream)
    (hu : exec step (start maxLinks idleTimeout false now client) actions = some u) (c : ClientId) :
    ∀ r ∈ u.issued c, OwnSlot r := by
  have hplain : (start maxLinks idleTimeout false now client).Plain :=
    ⟨rfl, fun _ h => absurd h (lt_irrefl _)⟩
  have hfree : Meets step (fun _ _ => True) (start maxLinks idleTimeout false now client) actions :=
    meets_of_forall step _ fun _ _ => trivial
  have hmeets : Meets step (fun u a => u.inSlot a = true)
    (start maxLinks idleTimeout false now client) actions :=
    meets_of_invariant (fun _ _ _ h _ hs => step_plain h hs) (fun u a h _ =>
      h.inSlot a) hplain hfree
  exact (run_ownSlot rfl (start_shelved maxLinks idleTimeout false now client) hu).mpr hmeets c

end Upstream

end NMiner
