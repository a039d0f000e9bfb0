import NMiner.Proofs.Slices

/-! The worst job interval of a link stays at or above the mean as long as no interval is observed
that is below the mean and pulls it down by less than the worst one decays. Both are in range from
the first sample on. -/

namespace NMiner

open Transition

namespace Upstream

/-- The interval that the next job on the link ends, as `accept` counts it. -/
def observed (u : Upstream) (l : LinkId) : ℚ :=
  min MAX_INTERVAL (max MIN_INTERVAL ((u.now : ℚ) - (u.link l).job_at))

/-- A job may arrive on the link: there is no interval to be averaged, or the one observed is not
below the mean, or the mean is far enough below the worst. -/
def steady (u : Upstream) (l : LinkId) : Bool :=
  (u.link l).job_at = 0 ∨ (u.link l).samples = 0 ∨ (u.link l).interval ≤ u.observed l ∨
    7 * (u.link l).interval + 3 * u.observed l ≤ 9 * (u.link l).interval_hi

/-- The condition on a step. -/
def paced (u : Upstream) (a : Action) : Bool := (u.accepts a).all fun p => u.steady p.1

/-- The worst interval of every link is at least the mean. -/
def Ordered (u : Upstream) : Prop := ∀ l, (u.link l).interval ≤ (u.link l).interval_hi

/-- The intervals of a link that has seen one are in range, a link that has not been made has seen
none, and no space is of a negative size. -/
structure Timed (u : Upstream) : Prop where
  unborn : ∀ l, u.nextLink ≤ l → Unborn (u.link l)
  unseen : ∀ l, u.nextLink ≤ l → (u.link l).samples = 0
  mean : ∀ l, 0 < (u.link l).samples →
    MIN_INTERVAL ≤ (u.link l).interval ∧ (u.link l).interval ≤ MAX_INTERVAL
  worst : ∀ l, 0 < (u.link l).samples →
    MIN_INTERVAL ≤ (u.link l).interval_hi ∧ (u.link l).interval_hi ≤ MAX_INTERVAL
  total : ∀ l, 0 ≤ spaceTotal (u.link l).space

variable {u v w : Upstream} {l : LinkId} {job : StratumJob}

/-! ### While no job arrives -/

theorem Walks.samePace (h : Walks u v) {m : LinkId} (hm : m < u.nextLink) :
    SamePace (u.link m) (v.link m) := by
  have key : u.nextLink ≤ v.nextLink ∧ SamePace (u.link m) (v.link m) := by
    induction h with
    | refl => exact ⟨le_rfl, rfl, rfl, rfl⟩
    | tail _ hstride ih =>
      obtain ⟨hnext, hsame⟩ := ih
      cases hstride with
      | tend hnext' _ hlink =>
        have hpace := (hlink m).pace
        exact ⟨hnext'.symm ▸ hnext, hpace.interval.trans hsame.interval,
          hpace.interval_hi.trans hsame.interval_hi, hpace.samples.trans hsame.samples⟩
      | dial =>
        rw [addLink_link, if_neg (hm.trans_le hnext).ne]
        exact ⟨hnext.trans (Nat.le_succ _), hsame⟩
  exact key.2

/-- A new link has the intervals of some link, and has seen none itself. -/
theorem freshLink_pace (u : Upstream) (k : Link) : (u.freshLink k).samples = k.samples ∧
    ((u.freshLink k).interval = k.interval ∧ (u.freshLink k).interval_hi = k.interval_hi ∨
      ∃ m, (u.freshLink k).interval = (u.link m).interval ∧
        (u.freshLink k).interval_hi = (u.link m).interval_hi) := by
  unfold freshLink
  split
  · exact ⟨rfl, Or.inl ⟨rfl, rfl⟩⟩
  · exact ⟨rfl, Or.inr ⟨_, rfl, rfl⟩⟩

theorem Walks.ordered (h : Walks u v) (hu : u.Ordered) : v.Ordered := by
  induction h with
  | refl => exact hu
  | tail _ hstride ih =>
    intro l
    cases hstride with
    | tend _ _ hlink =>
      rw [(hlink l).pace.interval, (hlink l).pace.interval_hi]
      exact ih l
    | dial =>
      rw [addLink_link]
      split_ifs
      · rcases (freshLink_pace _ _).2 with ⟨hmean, hworst⟩ | ⟨m, hmean, hworst⟩
        · rw [hmean, hworst]
          exact ih _
        · rw [hmean, hworst]
          exact ih m
      · exact ih l

theorem Walks.timed (h : Walks u v) (hu : u.Timed) : v.Timed := by
  induction h with
  | refl => exact hu
  | @tail v' w' _ hstride ih =>
    have hthins := hstride.thins
    have hunborn : ∀ l, w'.nextLink ≤ l → Unborn (w'.link l) := fun l hl =>
      hthins.unborn l hl (ih.unborn l (hthins.next.trans hl))
    have htotal : ∀ l, 0 ≤ spaceTotal (w'.link l).space := by
      intro l
      rw [spaceTotal, (hthins.kept l).segments]
      exact ih.total l
    cases hstride with
    | tend hnext _ hlink =>
      have hpace := fun l => (hlink l).pace
      refine ⟨hunborn, fun l hl => ?_, fun l hl => ?_, fun l hl => ?_, htotal⟩
      · rw [(hpace l).samples]
        exact ih.unseen l (hnext ▸ hl)
      · rw [(hpace l).interval]
        exact ih.mean l ((hpace l).samples ▸ hl)
      · rw [(hpace l).interval_hi]
        exact ih.worst l ((hpace l).samples ▸ hl)
    | dial =>
      have hsame : ∀ l, 0 < (v'.addLink.link l).samples → v'.addLink.link l = v'.link l := by
        intro l hl
        rw [addLink_link] at hl ⊢
        split_ifs with heq
        · rw [if_pos heq, (freshLink_pace _ _).1, ih.unseen _ le_rfl] at hl
          exact absurd hl (lt_irrefl 0)
        · rfl
      refine ⟨hunborn, fun l hl => ?_, fun l hl => ?_, fun l hl => ?_, htotal⟩
      · have hlt : v'.nextLink < l := hl
        rw [addLink_link, if_neg hlt.ne']
        exact ih.unseen l hlt.le
      · have heq := hsame l hl
        rw [heq] at hl ⊢
        exact ih.mean l hl
      · have heq := hsame l hl
        rw [heq] at hl ⊢
        exact ih.worst l hl

/-! ### When a job arrives -/

theorem setJob_pace (u : Upstream) (l m : LinkId) (job : StratumJob) :
    SamePace (u.link m) ((u.setJob l job).link m) := by
  unfold setJob
  rw [setLink_link]
  by_cases heq : m = l
  · subst heq
    rw [if_pos rfl]
    exact ⟨rfl, rfl, rfl⟩
  · rw [if_neg heq]
    exact ⟨rfl, rfl, rfl⟩

/-- The first sample is passed on to the links that have none. -/
theorem share_link (o : ℚ) (links : List LinkId) (u : Upstream) (m : LinkId) :
    (links.foldl (fun u m => if (u.link m).samples = 0 then
      u.setLink m fun k => { k with interval := o, interval_hi := o } else u) u).link m =
      if m ∈ links ∧ (u.link m).samples = 0 then
        { u.link m with interval := o, interval_hi := o } else u.link m := by
  induction links generalizing u with
  | nil => simp
  | cons x links ih =>
    rw [List.foldl_cons, ih]
    by_cases hx : (u.link x).samples = 0
    · rw [if_pos hx, setLink_link]
      by_cases hm : m = x
      · subst hm
        simp [hx]
      · simp [hm]
    · rw [if_neg hx]
      by_cases hm : m = x
      · subst hm
        simp [hx]
      · simp [hm]

/-- What is known of a link's interval once a job has arrived on a link. -/
theorem observeInterval_link (u : Upstream) (l m : LinkId) :
    (u.observeInterval l).link m =
      if (u.link l).job_at = 0 then u.link m
      else if (u.link l).samples = 0 then
        if m = l then { u.link l with
          samples := 1, interval := u.observed l, interval_hi := u.observed l }
        else if m ∈ u.links ∧ (u.link m).samples = 0 then
          { u.link m with interval := u.observed l, interval_hi := u.observed l }
        else u.link m
      else if m = l then { u.link l with
        samples := (u.link l).samples + 1
        interval := (u.link l).interval * (7 / 10) + u.observed l * (3 / 10)
        interval_hi := max (u.observed l) ((u.link l).interval_hi * (9 / 10)) }
      else u.link m := by
  unfold observeInterval
  dsimp only
  by_cases hfirst : (u.link l).job_at = 0
  · rw [if_pos hfirst, if_pos hfirst]
  rw [if_neg hfirst, if_neg hfirst]
  by_cases hsamples : (u.link l).samples = 0
  · rw [if_pos hsamples, if_pos hsamples]
    refine (share_link (u.observed l) u.links _ m).trans ?_
    rw [setLink_link]
    by_cases hm : m = l
    · simp [hm, observed]
    · simp [hm]
  · rw [if_neg hsamples, if_neg hsamples, setLink_link]
    rfl

theorem observed_range (u : Upstream) (l : LinkId) :
    MIN_INTERVAL ≤ u.observed l ∧ u.observed l ≤ MAX_INTERVAL := by
  have hrange : MIN_INTERVAL ≤ MAX_INTERVAL := by norm_num [MIN_INTERVAL, MAX_INTERVAL]
  exact ⟨le_min hrange (le_max_left _ _), min_le_left _ _⟩

/-- The mean with an interval in it is at most the worst one exactly if the job may arrive. -/
theorem mean_le_worst_iff (mean worst o : ℚ) :
    mean * (7 / 10) + o * (3 / 10) ≤ max o (worst * (9 / 10)) ↔
      mean ≤ o ∨ 7 * mean + 3 * o ≤ 9 * worst := by
  rw [le_max_iff]
  constructor
  · rintro (h | h)
    · exact Or.inl (by linarith)
    · exact Or.inr (by linarith)
  · rintro (h | h)
    · exact Or.inl (by linarith)
    · exact Or.inr (by linarith)

theorem observeInterval_ordered_iff (hu : u.Ordered) (l : LinkId) :
    (u.observeInterval l).Ordered ↔ u.steady l = true := by
  unfold steady
  rw [decide_eq_true_eq]
  by_cases hfirst : (u.link l).job_at = 0
  · refine ⟨fun _ => Or.inl hfirst, fun _ m => ?_⟩
    rw [observeInterval_link, if_pos hfirst]
    exact hu m
  by_cases hsamples : (u.link l).samples = 0
  · refine ⟨fun _ => Or.inr (Or.inl hsamples), fun _ m => ?_⟩
    rw [observeInterval_link, if_neg hfirst, if_pos hsamples]
    split_ifs
    · exact le_rfl
    · exact le_rfl
    · exact hu m
  · rw [or_iff_right hfirst, or_iff_right hsamples, ← mean_le_worst_iff]
    refine ⟨fun h => ?_, fun h m => ?_⟩
    · have hl := h l
      rw [observeInterval_link, if_neg hfirst, if_neg hsamples, if_pos rfl] at hl
      exact hl
    · rw [observeInterval_link, if_neg hfirst, if_neg hsamples]
      split_ifs
      · exact h
      · exact hu m

/-- Whatever has been seen is in range after another job. -/
theorem observeInterval_range (hu : u.Timed) (l m : LinkId)
    (hm : 0 < ((u.observeInterval l).link m).samples) :
    (MIN_INTERVAL ≤ ((u.observeInterval l).link m).interval ∧
      ((u.observeInterval l).link m).interval ≤ MAX_INTERVAL) ∧
    MIN_INTERVAL ≤ ((u.observeInterval l).link m).interval_hi ∧
      ((u.observeInterval l).link m).interval_hi ≤ MAX_INTERVAL := by
  obtain ⟨hmin, hmax⟩ := u.observed_range l
  rw [observeInterval_link] at hm ⊢
  split_ifs at hm ⊢ with hfirst hsamples hml hshared hml
  · exact ⟨hu.mean m hm, hu.worst m hm⟩
  · exact ⟨⟨hmin, hmax⟩, hmin, hmax⟩
  · exact absurd hshared.2 hm.ne'
  · exact ⟨hu.mean m hm, hu.worst m hm⟩
  · -- an average of two values in range, and the larger of one of them and a smaller one
    obtain ⟨hmean, hmean'⟩ := hu.mean l (Nat.pos_of_ne_zero hsamples)
    obtain ⟨-, hworst⟩ := hu.worst l (Nat.pos_of_ne_zero hsamples)
    have hpos : (0 : ℚ) ≤ MAX_INTERVAL := by norm_num [MAX_INTERVAL]
    refine ⟨⟨?_, ?_⟩, le_max_of_le_left hmin, max_le hmax ?_⟩
    · dsimp only
      linarith
    · dsimp only
      linarith
    · linarith
  · exact ⟨hu.mean m hm, hu.worst m hm⟩

theorem SamePace.renewed (u : Upstream) (l m : LinkId) (job : StratumJob) :
    SamePace ((u.observeInterval l).link m) ((u.renewed l job).link m) :=
  setJob_pace _ l m job

theorem renewed_ordered_iff (hu : u.Ordered) (l : LinkId) (job : StratumJob) :
    (u.renewed l job).Ordered ↔ u.steady l = true := by
  rw [← observeInterval_ordered_iff hu]
  refine forall_congr' fun m => ?_
  rw [(SamePace.renewed u l m job).interval, (SamePace.renewed u l m job).interval_hi]

theorem renewed_timed (hu : u.Timed) (hl : Begun (u.link l)) (job : StratumJob) :
    (u.renewed l job).Timed := by
  have harrives : Arrives u l job (u.renewed l job) := renewed_arrives hl.made (.refl _)
  have hlt : l < u.nextLink := not_le.mp fun hle => hl.made (hu.unborn l hle)
  have hpace := fun m => SamePace.renewed u l m job
  refine ⟨fun m hm => ?_, fun m hm => ?_, fun m hm => ?_, fun m hm => ?_, fun m => ?_⟩
  · have hle := harrives.next.trans hm
    exact harrives.unborn m hm (hlt.trans_le hle).ne' (hu.unborn m hle)
  · have hle := harrives.next.trans hm
    have hne : m ≠ l := (hlt.trans_le hle).ne'
    rw [(hpace m).samples, observeInterval_link, if_neg hne, if_neg hne]
    split_ifs <;> exact hu.unseen m hle
  · rw [(hpace m).interval]
    exact (observeInterval_range hu l m ((hpace m).samples ▸ hm)).1
  · rw [(hpace m).interval_hi]
    exact (observeInterval_range hu l m ((hpace m).samples ▸ hm)).2
  · by_cases hm : m = l
    · rw [spaceTotal, hm, harrives.segments]
      refine List.sum_nonneg fun n hn => ?_
      obtain ⟨s, hs, rfl⟩ := List.mem_map.mp hn
      split_ifs at hs
      · obtain ⟨b, -, rfl⟩ := List.mem_map.mp hs
        norm_num [segmentOf, NICEHASH_SPAN]
      · exact (of_decide_eq_true (List.mem_filter.mp hs).2).le
    · rw [spaceTotal, (harrives.kept m hm).segments]
      exact hu.total m

theorem Accepts.walks (h : Accepts u l job w v) : Walks u w := by
  rcases h.start with rfl | rfl
  · exact .refl w
  · exact setLink_begun (.refl u) h.begun (.of_eq rfl rfl rfl) ⟨rfl, rfl, rfl⟩ h.begun

theorem Accepts.steady (h : Accepts u l job w v) : w.steady l = u.steady l := by
  rcases h.start with rfl | rfl
  · rfl
  · unfold Upstream.steady observed
    rw [setLink_link, if_pos rfl]
    rfl

theorem Accepts.timed (h : Accepts u l job w v) (hu : u.Timed) : v.Timed :=
  h.rest.timed (renewed_timed (h.walks.timed hu) (h.walks.begun h.begun) job)

theorem Accepts.ordered_iff (h : Accepts u l job w v) (ht : u.Timed) (hu : u.Ordered) :
    v.Ordered ↔ u.steady l = true := by
  have hw := h.walks.ordered hu
  have hlt : l < w.nextLink := not_le.mp fun hle =>
    (h.walks.begun h.begun).made ((h.walks.timed ht).unborn l hle)
  rw [← h.steady, ← renewed_ordered_iff hw l job]
  refine ⟨fun hv m => ?_, h.rest.ordered⟩
  by_cases hm : m < (w.renewed l job).nextLink
  · have hsame := h.rest.samePace hm
    rw [← hsame.interval, ← hsame.interval_hi]
    exact hv m
  · -- a link that has not been made has not changed
    have hne : m ≠ l := (hlt.trans_le ((observeInterval_thins w l).next.trans (not_lt.mp hm))).ne'
    rw [(SamePace.renewed w l m job).interval, (SamePace.renewed w l m job).interval_hi,
      observeInterval_link, if_neg hne, if_neg hne]
    split_ifs
    · exact hw m
    · exact le_rfl
    · exact hw m
    · exact hw m

/-! ### Steps and runs -/

theorem step_timed (u : Upstream) (a : Action) (v : Upstream) (hu : u.Timed)
    (h : u.step a = some v) : v.Timed := by
  have hgoes := step_goes h
  rcases haccepts : u.accepts a with _ | ⟨l, job⟩
  · rw [haccepts] at hgoes
    exact Walks.timed hgoes hu
  · rw [haccepts] at hgoes
    obtain ⟨w, hw⟩ := hgoes
    exact hw.timed hu

/-- A step keeps the order exactly if it meets the condition. -/
theorem step_ordered_iff (u : Upstream) (a : Action) (v : Upstream) (ht : u.Timed) (hu : u.Ordered)
    (h : u.step a = some v) : v.Ordered ↔ u.paced a = true := by
  have hgoes := step_goes h
  unfold paced
  rcases haccepts : u.accepts a with _ | ⟨l, job⟩
  · rw [haccepts] at hgoes
    exact ⟨fun _ => rfl, fun _ => Walks.ordered hgoes hu⟩
  · rw [haccepts] at hgoes
    obtain ⟨w, hw⟩ := hgoes
    exact hw.ordered_iff ht hu

theorem start_timed (maxLinks idleTimeout : ℕ) (expand : Bool) (now : ℕ)
    (client : ClientId → Client) :
    (start maxLinks idleTimeout expand now client).Timed :=
  ⟨fun _ _ => ⟨rfl, rfl, rfl, rfl⟩, fun _ _ => rfl, fun _ hl => absurd hl (lt_irrefl 0),
    fun _ hl => absurd hl (lt_irrefl 0), fun _ => le_rfl⟩

/-- What a capacity is derived from the worst interval for: it is no more than that of the mean. -/
theorem Timed.capacity_le (ht : u.Timed) (hu : u.Ordered) (l : LinkId) :
    (u.link l).capacity ≤ NMiner.capacity (u.link l).space (u.link l).interval := by
  have hpos : (0 : ℚ) < max (1 / 2) ((u.link l).interval / 1000) :=
    lt_of_lt_of_le (by norm_num) (le_max_left _ _)
  have hle := div_le_div_of_nonneg_right (hu l) (by norm_num : (0 : ℚ) ≤ 1000)
  exact div_le_div_of_nonneg_left (by exact_mod_cast ht.total l) hpos (max_le_max le_rfl hle)

/-- In every state of a run the worst interval of each link is at least the mean, so that its
capacity is a cautious one, if and only if every job of the run arrives steadily. In range they are
in any run. -/
theorem worst_interval_iff (maxLinks idleTimeout : ℕ) (expand : Bool)
    (now : ℕ) (client : ClientId → Client)
    (actions : List Action) (u : Upstream)
    (hrun : exec step (start maxLinks idleTimeout expand now client) actions = some u) :
    (Meets step (fun u a => u.paced a = true)
      (start maxLinks idleTimeout expand now client) actions ↔
      ∀ n v, exec step (start maxLinks idleTimeout expand now client)
        (actions.take n) = some v → ∀ l,
        (v.link l).interval ≤ (v.link l).interval_hi ∧
          (v.link l).capacity ≤ NMiner.capacity (v.link l).space (v.link l).interval) ∧
      ∀ l, 0 < (u.link l).samples →
        MIN_INTERVAL ≤ (u.link l).interval ∧ (u.link l).interval ≤ MAX_INTERVAL ∧
          MIN_INTERVAL ≤ (u.link l).interval_hi ∧ (u.link l).interval_hi ≤ MAX_INTERVAL := by
  have hstart := start_timed maxLinks idleTimeout expand now client
  have htimed : ∀ actions v, exec step (start maxLinks idleTimeout expand now client)
    actions = some v →
      v.Timed := fun _ _ h => exec_preserves step_timed hstart h
  have hiff := meets_iff_forall step_ordered_iff
    (fun u a v ht _ h _ => step_timed u a v ht h) hstart (fun _ => le_rfl) hrun
  refine ⟨hiff.trans ⟨fun h n v hv l => ?_, fun h n v hv l => (h n v hv l).1⟩, fun l hl => ?_⟩
  · exact ⟨h n v hv l, (htimed _ v hv).capacity_le (h n v hv) l⟩
  · obtain ⟨hmin, hmax⟩ := (htimed _ u hrun).mean l hl
    exact ⟨hmin, hmax, (htimed _ u hrun).worst l hl⟩

/-- Jobs arrive after 100, 200 and 120 seconds: the last interval is below the mean of 130, but the
worst one is still 200. -/
theorem worst_interval_iff_steady : ∃ u, exec step niceStart
    [.attach 0 0, .dialed 0 (.ok ()), .loggedIn 0 (.ok (niceJob ['0', '1'])), .resume 0, .resume 0,
      .tick 100000, .job 0 (niceJob ['0', '1']), .tick 200000, .job 0 (niceJob ['0', '1']),
      .tick 120000, .job 0 (niceJob ['0', '1'])] = some u ∧
    u.Ordered ∧ MIN_INTERVAL ≤ (u.link 0).interval ∧ (u.link 0).interval ≤ MAX_INTERVAL := by
  have hrun : (exec step niceStart
      [.attach 0 0, .dialed 0 (.ok ()), .loggedIn 0 (.ok (niceJob ['0', '1'])), .resume 0,
        .resume 0, .tick 100000, .job 0 (niceJob ['0', '1']), .tick 200000,
        .job 0 (niceJob ['0', '1']), .tick 120000, .job 0 (niceJob ['0', '1'])]).any
      (fun u => 0 < (u.link 0).samples) = true := by decide +kernel
  obtain ⟨u, hu, hsamples⟩ := (Option.any_eq_true _ _).mp hrun
  obtain ⟨hiff, hrange⟩ := worst_interval_iff 64 300000 true 1000 _ _ u hu
  obtain ⟨hmin, hmax, -⟩ := hrange 0 (of_decide_eq_true hsamples)
  exact ⟨u, hu, fun l => (hiff.mp (by decide +kernel) 11 u hu l).1, hmin, hmax⟩

/-- Jobs arrive after 100 seconds and after 90: the mean is 97, and the worst interval decays to
90. -/
theorem worst_interval_below : ¬ ∀ u, exec step niceStart
    [.attach 0 0, .dialed 0 (.ok ()), .loggedIn 0 (.ok (niceJob ['0', '1'])), .resume 0, .resume 0,
      .tick 100000, .job 0 (niceJob ['0', '1']), .tick 90000, .job 0 (niceJob ['0', '1'])] =
    some u → u.Ordered := by
  intro h
  have hrun : (exec step niceStart
      [.attach 0 0, .dialed 0 (.ok ()), .loggedIn 0 (.ok (niceJob ['0', '1'])), .resume 0,
        .resume 0, .tick 100000, .job 0 (niceJob ['0', '1']), .tick 90000,
        .job 0 (niceJob ['0', '1'])]).map
      (fun u => ((u.link 0).interval, (u.link 0).interval_hi)) = some (97000, 90000) := by
    decide +kernel
  obtain ⟨u, hu, hstate⟩ := Option.map_eq_some_iff.mp hrun
  rw [Prod.mk.injEq] at hstate
  have hle := h u hu 0
  rw [hstate.1, hstate.2] at hle
  norm_num at hle

end Upstream

end NMiner
