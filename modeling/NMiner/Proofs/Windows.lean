import NMiner.Spec.Nonce

/-! What a ledger owns after any sequence of records: the ranges of the last two runs of equal job
ids, however they were merged. A job id that comes back starts a run of its own, and the ranges of
its earlier run are lost. -/

namespace NMiner

/-- A call of `Ledger.record`. -/
abbrev Entered := String × Grant

/-- The ledger after the records, the oldest first. -/
def replay (records : List Entered) : Ledger :=
  records.foldl (fun l r => l.record r.1 r.2) {}

/-! ### Runs of equal ids, the newest record first -/

def newestRun : List Entered → List Entered
  | [] => []
  | r :: rs => r :: rs.takeWhile fun x => x.1 = r.1

def beforeRun : List Entered → List Entered
  | [] => []
  | r :: rs => rs.dropWhile fun x => x.1 = r.1

theorem newestRun_append_beforeRun (rs : List Entered) : newestRun rs ++ beforeRun rs = rs := by
  cases rs with
  | nil => rfl
  | cons r rs =>
    unfold newestRun beforeRun
    rw [List.cons_append, List.takeWhile_append_dropWhile]

theorem newestRun_same {r x : Entered} (h : x.1 = r.1) (rs : List Entered) :
    newestRun (r :: x :: rs) = r :: newestRun (x :: rs) ∧
      beforeRun (r :: x :: rs) = beforeRun (x :: rs) := by
  simp [newestRun, beforeRun, h]

theorem newestRun_new {r x : Entered} (h : x.1 ≠ r.1) (rs : List Entered) :
    newestRun (r :: x :: rs) = [r] ∧ beforeRun (r :: x :: rs) = x :: rs := by
  simp [newestRun, beforeRun, h]

/-- The records of the last two runs of equal ids. -/
def lastRuns (records : List Entered) : List Entered :=
  newestRun records.reverse ++ newestRun (beforeRun records.reverse)

/-- The records before them. -/
def earlier (records : List Entered) : List Entered := beforeRun (beforeRun records.reverse)

theorem mem_records {records : List Entered} {r : Entered} :
    r ∈ records ↔ r ∈ lastRuns records ∨ r ∈ earlier records := by
  rw [← List.mem_reverse, ← newestRun_append_beforeRun records.reverse, List.mem_append,
    ← newestRun_append_beforeRun (beforeRun records.reverse), List.mem_append, lastRuns,
    List.mem_append, or_assoc, earlier]

/-! ### The ids -/

def latest (records : List Entered) : Option String := records.getLast?.map Prod.fst

/-- The most recently used id that differs from the latest. -/
def former (records : List Entered) : Option String :=
  (records.reverse.find? fun r => some r.1 ≠ latest records).map Prod.fst

theorem mem_newestRun {rs : List Entered} {r : Entered} (h : r ∈ newestRun rs) :
    rs.head?.map Prod.fst = some r.1 := by
  cases rs with
  | nil => exact absurd h List.not_mem_nil
  | cons x rs =>
    rcases List.mem_cons.mp h with rfl | h
    · rfl
    · have hid := List.mem_takeWhile_imp h
      exact congrArg some (of_decide_eq_true hid).symm

theorem latest_reverse (records : List Entered) :
    latest records = records.reverse.head?.map Prod.fst := by
  rw [latest, List.head?_reverse]

theorem former_reverse (records : List Entered) :
    former records = (beforeRun records.reverse).head?.map Prod.fst := by
  unfold former
  rw [latest_reverse]
  cases records.reverse with
  | nil => rfl
  | cons x rs =>
    have hfind := List.find?_not_eq_head?_dropWhile (fun y : Entered => decide (y.1 = x.1)) rs
    rw [List.find?_cons_of_neg (by simp)]
    unfold beforeRun
    dsimp only
    rw [← hfind]
    simp

/-- The last two runs are of the latest id and of the one before it. -/
theorem lastRuns_ids {records : List Entered} {r : Entered} (h : r ∈ lastRuns records) :
    latest records = some r.1 ∨ former records = some r.1 := by
  rw [latest_reverse, former_reverse]
  exact (List.mem_append.mp h).imp mem_newestRun mem_newestRun

/-! ### The ledger -/

def Grant.nonEmpty (g : Grant) : Prop := g.start_nonce < g.nonce_limit

/-- Merging neither adds nor removes a nonce. -/
theorem appendRange_has {gs : List Grant} {g : Grant} (hgs : ∀ x ∈ gs, x.nonEmpty)
    (hg : g.nonEmpty) (n : ℤ) :
    (appendRange gs g).any (·.has n) = true ↔ gs.any (·.has n) = true ∨ g.has n = true := by
  induction gs with
  | nil => simp [appendRange]
  | cons x gs ih =>
    cases gs with
    | nil =>
      have hx : x.nonEmpty := hgs x List.mem_cons_self
      unfold appendRange
      split_ifs with hmerge
      · unfold Grant.nonEmpty at hx hg
        simp only [List.any_cons, List.any_nil, Bool.or_false, Grant.has, decide_eq_true_eq]
        omega
      · simp
    | cons y gs =>
      have hrest := ih fun z hz => hgs z (List.mem_cons_of_mem _ hz)
      rw [appendRange, List.any_cons, Bool.or_eq_true, hrest, List.any_cons (a := x),
        Bool.or_eq_true,
        or_assoc]
      simp

theorem appendRange_nonEmpty {gs : List Grant} {g : Grant} (hgs : ∀ x ∈ gs, x.nonEmpty)
    (hg : g.nonEmpty) : ∀ x ∈ appendRange gs g, x.nonEmpty := by
  induction gs with
  | nil =>
    intro x hx
    rw [appendRange, List.mem_singleton] at hx
    exact hx ▸ hg
  | cons y gs ih =>
    have hy : y.nonEmpty := hgs y List.mem_cons_self
    cases gs with
    | nil =>
      unfold appendRange
      split_ifs with hmerge
      · intro x hx
        rw [List.mem_singleton.mp hx]
        unfold Grant.nonEmpty at hy hg ⊢
        dsimp only
        omega
      · intro x hx
        simp only [List.mem_cons, List.not_mem_nil, or_false] at hx
        rcases hx with rfl | rfl
        · exact hy
        · exact hg
    | cons z gs =>
      intro x hx
      rcases List.mem_cons.mp hx with rfl | hx
      · exact hy
      · exact ih (fun w hw => hgs w (List.mem_cons_of_mem _ hw)) x hx

/-- The ledger's two lists hold the ranges of the last two runs; the newest record comes first. -/
structure Ledger.Follows (l : Ledger) (rs : List Entered) : Prop where
  ranges : ∀ n, l.ranges.any (·.has n) = true ↔ ∃ r ∈ newestRun rs, r.2.has n = true
  prior : ∀ n, l.prior.any (·.has n) = true ↔ ∃ r ∈ newestRun (beforeRun rs), r.2.has n = true
  nonEmpty : ∀ g ∈ l.ranges, g.nonEmpty
  current : rs = [] ∧ l = {} ∨ ∃ r rest, rs = r :: rest ∧ r.1 = l.job_id

theorem Ledger.follows_empty : Ledger.Follows {} [] :=
  ⟨fun n => by simp [newestRun], fun n => by simp [newestRun, beforeRun],
    fun g hg => absurd hg List.not_mem_nil, Or.inl ⟨rfl, rfl⟩⟩

theorem Ledger.Follows.record {l : Ledger} {rs : List Entered} (h : l.Follows rs) {r : Entered}
    (hr : r.2.nonEmpty) : (l.record r.1 r.2).Follows (r :: rs) := by
  by_cases hid : l.job_id = r.1
  · have hrecord : l.record r.1 r.2 = { l with ranges := appendRange l.ranges r.2 } := by
      simp [Ledger.record, hid]
    rw [hrecord]
    refine ⟨fun n => ?_, fun n => ?_, appendRange_nonEmpty h.nonEmpty hr,
      Or.inr ⟨r, rs, rfl, hid.symm⟩⟩
    all_goals rcases h.current with ⟨rfl, rfl⟩ | ⟨x, rest, rfl, hx⟩
    · simp [newestRun, appendRange]
    · rw [appendRange_has h.nonEmpty hr, h.ranges, (newestRun_same (hx.trans hid) rest).1]
      simp [or_comm]
    · simp [newestRun, beforeRun]
    · rw [(newestRun_same (hx.trans hid) rest).2]
      exact h.prior n
  · have hrecord : l.record r.1 r.2 = { job_id := r.1, prior := l.ranges, ranges := [r.2] } := by
      simp [Ledger.record, hid, appendRange]
    rw [hrecord]
    refine ⟨fun n => ?_, fun n => ?_, fun g hg => List.mem_singleton.mp hg ▸ hr,
      Or.inr ⟨r, rs, rfl, rfl⟩⟩
    all_goals rcases h.current with ⟨rfl, rfl⟩ | ⟨x, rest, rfl, hx⟩
    · simp [newestRun]
    · rw [(newestRun_new (hx.trans_ne hid) rest).1]
      simp
    · simp [newestRun, beforeRun]
    · rw [(newestRun_new (hx.trans_ne hid) rest).2]
      exact h.ranges n

theorem replay_follows {records : List Entered} (h : ∀ r ∈ records, r.2.nonEmpty) :
    (replay records).Follows records.reverse := by
  induction records using List.reverseRecOn with
  | nil => exact Ledger.follows_empty
  | append_singleton records r ih =>
    have hrest := ih fun x hx => h x (List.mem_append_left _ hx)
    unfold replay at hrest ⊢
    rw [List.foldl_append, List.reverse_append]
    exact hrest.record (h r (List.mem_append_right _ (List.mem_singleton_self r)))

/-- What a ledger owns, for every sequence of records. -/
theorem owns_replay {records : List Entered} (h : ∀ r ∈ records, r.2.nonEmpty) (n : ℤ) :
    (replay records).owns n = true ↔ ∃ r ∈ lastRuns records, r.2.has n = true := by
  have hfollows := replay_follows h
  rw [Ledger.owns, Bool.or_eq_true, hfollows.ranges, hfollows.prior, lastRuns]
  simp only [List.mem_append, or_and_right, exists_or]

/-! ### The window -/

/-- The nonce lies in a range recorded under the latest id or the one used before it. -/
def Windowed (records : List Entered) (n : ℤ) : Prop :=
  ∃ r ∈ records, (latest records = some r.1 ∨ former records = some r.1) ∧ r.2.has n = true

/-- What an id of the last two runs had been granted earlier is granted again in these runs. -/
def Regained (records : List Entered) : Prop :=
  ∀ r ∈ earlier records, latest records = some r.1 ∨ former records = some r.1 →
    ∀ n, r.2.has n = true → ∃ x ∈ lastRuns records, x.2.has n = true

/-- A ledger owns what its window says, and merging does no harm, exactly if its ids have nothing
from an earlier run that the last two do not cover. -/
theorem window_law_iff (records : List Entered) (h : ∀ r ∈ records, r.2.nonEmpty) :
    (∀ n, (replay records).owns n = true ↔ Windowed records n) ↔ Regained records := by
  refine ⟨fun hlaw r hr hid n hn => ?_, fun hregained n => ⟨fun howns => ?_, ?_⟩⟩
  · exact (owns_replay h n).mp ((hlaw n).mpr ⟨r, mem_records.mpr (Or.inr hr), hid, hn⟩)
  · obtain ⟨r, hr, hn⟩ := (owns_replay h n).mp howns
    exact ⟨r, mem_records.mpr (Or.inl hr), lastRuns_ids hr, hn⟩
  · rintro ⟨r, hr, hid, hn⟩
    apply (owns_replay h n).mpr
    rcases mem_records.mp hr with hr | hr
    · exact ⟨r, hr, hn⟩
    · exact hregained r hr hid n hn

/-- An id that has not been used before the last two runs has nothing to lose. -/
theorem regained_of_fresh {records : List Entered}
    (h : ∀ r ∈ earlier records, latest records ≠ some r.1 ∧ former records ≠ some r.1) :
    Regained records :=
  fun r hr hid => absurd hid (not_or.mpr (h r hr))

/-- Three jobs, and a chunk of the second that continues the one before. -/
def chunked : List Entered :=
  [("a", ⟨0, 4096⟩), ("b", ⟨0, 4096⟩), ("b", ⟨4096, 8192⟩), ("c", ⟨0, 4096⟩)]

theorem window_law_chunked :
    Regained chunked ∧ ∀ n, (replay chunked).owns n = true ↔ Windowed chunked n := by
  have hranges : ∀ r ∈ chunked, r.2.nonEmpty := by
    unfold Grant.nonEmpty
    decide
  have hregained : Regained chunked := regained_of_fresh (by decide +kernel)
  exact ⟨hregained, (window_law_iff chunked hranges).mpr hregained⟩

/-- A miner goes to another link and back while the first one's job is still current. -/
def visiting : List Entered := [("a", ⟨0, 4096⟩), ("b", ⟨0, 16⟩), ("a", ⟨8192, 12288⟩)]

theorem window_law_visiting :
    ¬ ∀ records, (∀ r ∈ records, r.2.nonEmpty) →
      ∀ n, (replay records).owns n = true ↔ Windowed records n := by
  intro h
  have hranges : ∀ r ∈ visiting, r.2.nonEmpty := by
    unfold Grant.nonEmpty
    decide
  have howns := (h visiting hranges 100).mpr
    ⟨("a", ⟨0, 4096⟩), List.mem_cons_self, Or.inl rfl, by decide⟩
  exact absurd howns (by decide +kernel)

end NMiner
