import NMiner.Proofs.Stints

/-! A blob's nonces are granted once. As long as a link keeps the blob of its job, the ranges cut
off its spaces are pairwise disjoint, also those of one miner, provided a job that announces the
blob again finds nothing cut off yet: `accept` starts a new space for every job. -/

namespace NMiner

open Transition

/-- Nothing has been cut off the space. -/
def NonceSpace.untouched (space : NonceSpace) : Prop := space.index = 0 ∧ space.cursor = 0

instance (space : NonceSpace) : Decidable space.untouched := inferInstanceAs (Decidable (_ ∧ _))

/-- `take` leaves a mark on every space that it changes, and when it cuts a range. -/
theorem take_touched {space : NonceSpace} (hc : 0 ≤ space.cursor) (count : ℚ)
    (h : (take space count).2.untouched) :
    (take space count).1 = none ∧ (take space count).2 = space := by
  fun_induction take space count with
  | case1 space hi segment left hleft ih =>
    have hsame := (ih le_rfl h).2
    rw [hsame] at h
    exact absurd h.1 (Nat.succ_ne_zero _)
  | case2 space hi segment left hleft size start limit rest hlimit =>
    have hzero : space.cursor + size = 0 := h.2
    omega
  | case3 space hi segment left hleft size start limit rest hlimit ih =>
    have hrest : 0 ≤ space.cursor + size := by omega
    have hsame := (ih hrest h).2
    rw [hsame] at h
    have hzero : space.cursor + size = 0 := h.2
    omega
  | case4 space hi => exact ⟨rfl, rfl⟩

namespace Upstream

/-- The ranges cut off the link since `base` are disjoint, and if there are any the space shows
it. -/
structure Single (l : LinkId) (base : ClientId → ℕ) (u : Upstream) : Prop
    extends Parted l base u where
  own : ∀ c, (u.cuts l (base c) c).Pairwise fun r r' => Disjoint r.range.nonces r'.range.nonces
  idle : (u.link l).space.untouched → ∀ c, u.cuts l (base c) c = []

theorem Single.of_same {l : LinkId} {base : ClientId → ℕ} {u v : Upstream} (h : u.Single l base)
    (hspace : (v.link l).space = (u.link l).space) (hissued : v.issued = u.issued) :
    v.Single l base := by
  have hcuts : ∀ n c, v.cuts l n c = u.cuts l n c := fun n c => by rw [cuts, cuts, hissued]
  refine ⟨h.toParted.of_same hspace hissued, fun c => ?_, fun hidle c => ?_⟩
  · rw [hcuts]
    exact h.own c
  · rw [hcuts]
    exact h.idle (hspace ▸ hidle) c

/-- A range on record adds at most itself to the ranges cut since. -/
theorem cuts_record_sublist (u : Upstream) (x : ClientId) (m : LinkId)
    (job : StratumJob) (g : Grant)
    (l : LinkId) (n : ℕ) (c : ClientId) :
    (u.record x m job g).cuts l n c = u.cuts l n c ∨
      m = l ∧ (u.record x m job g).cuts l n c = u.cuts l n c ++ [⟨m, job, g⟩] := by
  unfold cuts record
  dsimp only
  by_cases hc : c = x
  · subst hc
    rw [Function.update_self, List.drop_append, List.filter_append]
    by_cases hn : n ≤ (u.issued c).length
    · rw [show n - (u.issued c).length = 0 by omega, List.drop_zero]
      by_cases hm : m = l
      · exact Or.inr ⟨hm, by simp [hm]⟩
      · exact Or.inl (by simp [hm])
    · have hnil : List.drop (n - (u.issued c).length) [(⟨m, job, g⟩ : Issued)] = [] :=
        List.drop_eq_nil_of_le (by rw [List.length_singleton]; omega)
      rw [hnil, List.filter_nil, List.append_nil]
      exact Or.inl rfl
  · rw [Function.update_of_ne hc]
    exact Or.inl rfl

theorem grant_single {u : Upstream} {l : LinkId} {base : ClientId → ℕ} (h : u.Single l base)
    (m : LinkId) (x : ClientId) : (u.grant m x).2.Single l base := by
  suffices hrest : (∀ c, ((u.grant m x).2.cuts l (base c) c).Pairwise
      fun r r' => Disjoint r.range.nonces r'.range.nonces) ∧
      (((u.grant m x).2.link l).space.untouched → ∀ c, (u.grant m x).2.cuts l (base c) c = []) from
    ⟨grant_parted h.toParted m x, hrest.1, hrest.2⟩
  unfold grant
  by_cases hleft : spaceLeft (u.link m).space ≤ 0
  · rw [if_pos hleft]
    exact ⟨h.own, h.idle⟩
  rw [if_neg hleft]
  dsimp only
  generalize chunkSize (u.rate x) _ _ = size
  have hpiece := fun hm : m = l =>
    take_apart (u.link m).space size (hm ▸ h.cursor) (hm ▸ h.segments)
  have htouched := fun hm : m = l => take_touched (hm ▸ h.cursor : 0 ≤ (u.link m).space.cursor) size
  rcases htake : take (u.link m).space size with ⟨r, space⟩
  rw [htake] at hpiece htouched
  dsimp only at hpiece htouched ⊢
  have hspace : ∀ n, ((u.setLink m fun k => { k with space := space }).link n).space =
      if n = m then space else (u.link n).space := by
    intro n
    rw [setLink_link]
    split_ifs <;> rfl
  -- the space alone: a mark is never taken off
  have hidle : ((u.setLink m fun k => { k with space := space }).link l).space.untouched →
      ∀ c, u.cuts l (base c) c = [] := by
    intro hu
    apply h.idle
    rw [hspace] at hu
    by_cases hm : m = l
    · subst hm
      rw [if_pos rfl] at hu
      exact (htouched rfl hu).2 ▸ hu
    · rwa [if_neg (fun heq => hm heq.symm)] at hu
  rcases r with _ | g
  · exact ⟨h.own, hidle⟩
  cases (u.link m).job with
  | none => exact ⟨h.own, hidle⟩
  | some job =>
    dsimp only
    refine ⟨fun c => ?_, fun hu c => ?_⟩
    · rcases cuts_record_sublist (u.setLink m fun k => { k with space := space })
        x m job g l (base c)
        c with heq | ⟨hm, heq⟩ <;> rw [heq]
      · exact h.own c
      · refine List.pairwise_append.mpr ⟨h.own c, List.pairwise_singleton _ _,
          fun r hr r' hr' => ?_⟩
        rw [List.mem_singleton.mp hr']
        exact (h.ahead c r hr).mono_right (hm ▸ (hpiece hm).1)
    · rcases cuts_record_sublist (u.setLink m fun k => { k with space := space })
        x m job g l (base c)
        c with heq | ⟨hm, heq⟩
      · rw [heq]
        exact hidle hu c
      · refine absurd ?_ (Option.some_ne_none g)
        refine (htouched hm ?_).1
        have hsame : ((u.setLink m fun k => { k with space := space }).link l).space.untouched := hu
        rwa [hspace, if_pos hm.symm] at hsame

theorem Moves.single_kept {owes : ℕ → ClientId → Prop} {places : LinkId → Prop} {l : LinkId}
    {base : ClientId → ℕ} {u v : Upstream} (h : Moves owes places u v) (hl : ¬ places l)
    (hu : u.Single l base) : v.Single l base := by
  refine h.keeps (P := Single l base) (fun w w' hmove hw => ?_) hu
  cases hmove with
  | keep h => exact hw.of_same (h.spaces l) h.issued
  | suspend t h => exact hw.of_same rfl rfl
  | grant m c => exact grant_single hw m c
  | emit d h => exact hw.of_same rfl rfl
  | place m job h =>
    refine hw.of_same ?_ rfl
    have hne : l ≠ m := fun heq => hl (heq ▸ h)
    rw [(setJob_link w m job).2.2.2.2 l hne]

/-! ### Jobs -/

def blobOf (u : Upstream) (l : LinkId) : Option String := (u.link l).job.map StratumJob.blob

/-- The space of the job is built from different slots. -/
def different (u : Upstream) (l : LinkId) (job : StratumJob) : Bool :=
  0 < nicehashSlot job.blob → (u.slots l job).Nodup

/-- A job that arrives has another blob than the link's job, or finds nothing cut off its space yet,
and starts a space from different slots. -/
def renews (u : Upstream) : Action → Bool
  | .job l job =>
    (u.blobOf l ≠ some job.blob || (u.link l).space.untouched) && u.different l job
  | .loggedIn l (.ok job) => (u.link l).job.isSome || u.different l job
  | _ => true

theorem segments_nodup {u : Upstream} {l : LinkId} {job : StratumJob}
    (h : u.different l job = true) : ((u.setJob l job).link l).space.segments.Nodup := by
  rw [(setJob_link u l job).2.2.2.1]
  split_ifs with hpos
  · refine ((of_decide_eq_true h) hpos).map fun b b' hb => ?_
    have hbase : b * NICEHASH_SPAN = b' * NICEHASH_SPAN := congrArg Segment.base hb
    unfold NICEHASH_SPAN at hbase
    omega
  · exact List.nodup_singleton _

/-- A job arrives while nothing has been cut: the ranges of its fan-out are the first. -/
theorem arrives_single {u v : Upstream} {a : Action} {l : LinkId} {base : ClientId → ℕ}
    (ha : u.arrives l a = true) (hnone : ∀ c, u.cuts l (base c) c = [])
    (hdifferent : ∀ job, a.carried = some job → u.different l job = true)
    (h : u.step a = some v) : v.Single l base := by
  obtain ⟨w, job, hjob, hissued, hslots, hmoves⟩ := arrives_placed ha h
  have hd : w.different l job = true := by
    rw [different, hslots]
    exact hdifferent job hjob
  have hcuts : ∀ c, (w.setJob l job).cuts l (base c) c = [] := by
    intro c
    rw [cuts, show (w.setJob l job).issued = u.issued from hissued]
    exact hnone c
  refine hmoves.single_kept id ⟨⟨setJob_disjoint w l job (segments_nodup hd), ?_, ?_, ?_⟩, ?_, ?_⟩
  · rw [(setJob_link w l job).2.2.1]
  · intro c r hr
    rw [hcuts] at hr
    exact absurd hr List.not_mem_nil
  · intro c c' _ r hr
    rw [hcuts] at hr
    exact absurd hr List.not_mem_nil
  · intro c
    rw [hcuts]
    exact List.Pairwise.nil
  · exact fun _ => hcuts

/-- A job that arrives is the link's, unless the link is lost in the same step. -/
theorem arrives_blob {u v : Upstream} {l : LinkId} {job : StratumJob} {blob : String}
    (h : u.step (.job l job) = some v) (hblob : v.blobOf l = some blob) : job.blob = blob := by
  obtain ⟨w, hw⟩ : ∃ w, Accepts u l job w v := step_goes h
  unfold blobOf at hblob
  rcases hw.arrives.held with hj | hj <;> rw [hj] at hblob
  · exact Option.some.inj hblob
  · cases hblob

/-- As long as the blob stays, a step keeps the ranges cut since apart. -/
theorem step_single {u v : Upstream} {a : Action} {l : LinkId} {blob : String}
    {base : ClientId → ℕ} (hu : u.Single l base) (hblob : u.blobOf l = some blob)
    (hnext : v.blobOf l = some blob) (hok : u.renews a = true) (h : u.step a = some v) :
    v.Single l base := by
  by_cases ha : u.arrives l a = true
  · cases a with
    | job m job =>
      obtain rfl : m = l := of_decide_eq_true ha
      have hsame : u.blobOf m = some job.blob := by rw [hblob, arrives_blob h hnext]
      simp only [renews, hsame, ne_eq, not_true_eq_false, decide_false, Bool.false_or,
        Bool.and_eq_true, decide_eq_true_eq] at hok
      refine arrives_single ha (hu.idle hok.1) (fun j hj => ?_) h
      rw [← Option.some.inj hj]
      exact hok.2
    | loggedIn m outcome =>
      cases outcome with
      | error message => exact absurd ha (by simp [arrives])
      | ok job =>
        simp only [arrives, Bool.and_eq_true, Option.isNone_iff_eq_none] at ha
        rw [blobOf, ha.2] at hblob
        cases hblob
    | _ => exact absurd ha (by simp [arrives])
  · have howes : ∀ o : Origin, ∀ c, o.Owes (fun _ _ => True) c := fun o c => by cases o <;> trivial
    have hmoves : Moves (fun _ _ => True) (fun m => u.arrives m a = true) u v :=
      step_moves (fun t _ => howes t.origin t.client) (by cases a <;> trivial) (fun m hm => hm) h
    exact hmoves.single_kept ha hu

/-- All ranges that were cut off the link since `base` are disjoint, whoever they were cut for. -/
def GrantedOnce (l : LinkId) (base : ClientId → ℕ) (u : Upstream) : Prop :=
  (∀ c, (u.cuts l (base c) c).Pairwise fun r r' => Disjoint r.range.nonces r'.range.nonces) ∧
    ∀ c c', c ≠ c' → ∀ r ∈ u.cuts l (base c) c, ∀ r' ∈ u.cuts l (base c') c',
      Disjoint r.range.nonces r'.range.nonces

theorem stays_single {l : LinkId} {blob : String} {base : ClientId → ℕ} {v w : Upstream}
    {actions : List Action} (hv : v.Single l base)
    (hstay : Meets step (fun s _ => s.blobOf l = some blob) v actions)
    (hend : w.blobOf l = some blob) (hok : Meets step (fun s a => s.renews a = true) v actions)
    (hrun : exec step v actions = some w) : w.Single l base := by
  induction actions generalizing v with
  | nil =>
    rw [exec_nil, Option.some.injEq] at hrun
    exact hrun ▸ hv
  | cons a actions ih =>
    obtain ⟨m, hm, hrest⟩ := exec_cons_eq_some.mp hrun
    obtain ⟨hblob, hstay⟩ := (meets_cons ..).mp hstay
    obtain ⟨hrenews, hok⟩ := (meets_cons ..).mp hok
    have hnext : m.blobOf l = some blob := by
      cases actions with
      | nil =>
        rw [exec_nil, Option.some.injEq] at hrest
        exact hrest ▸ hend
      | cons b actions => exact ((meets_cons ..).mp (hstay m hm)).1
    exact ih (step_single hv hblob hnext hrenews hm) (hstay m hm) (hok m hm) hrest

/-- From a job's arrival on, as long as the link keeps its blob, no nonce of the link is granted
twice, in every run in which jobs renew the blob or find nothing cut yet. -/
theorem blob_nonces_granted_once (u v w : Upstream) (a : Action)
    (actions : List Action) (l : LinkId)
    (blob : String) (harrives : u.arrives l a = true) (h : u.step a = some v)
    (hstay : Meets step (fun s _ => s.blobOf l = some blob) v actions)
    (hend : w.blobOf l = some blob)
    (hok : Meets step (fun s b => s.renews b = true) u (a :: actions))
    (hrun : exec step v actions = some w) : w.GrantedOnce l fun c => (u.issued c).length := by
  obtain ⟨hrenews, hok⟩ := (meets_cons ..).mp hok
  have hnone : ∀ c, u.cuts l (u.issued c).length c = [] := by
    intro c
    rw [cuts, List.drop_length]
    rfl
  have hdifferent : ∀ job, a.carried = some job → u.different l job = true := by
    intro job hjob
    cases a with
    | job m j =>
      obtain rfl : m = l := of_decide_eq_true harrives
      rw [← Option.some.inj hjob]
      simp only [renews, Bool.and_eq_true] at hrenews
      exact hrenews.2
    | loggedIn m outcome =>
      cases outcome with
      | error message => cases hjob
      | ok j =>
        simp only [arrives, Bool.and_eq_true, decide_eq_true_eq] at harrives
        obtain ⟨rfl, hfree⟩ := harrives
        rw [← Option.some.inj hjob]
        simp only [renews, Bool.or_eq_true] at hrenews
        exact hrenews.resolve_left fun hs => by
          rw [Option.isNone_iff_eq_none] at hfree
          rw [hfree] at hs
          cases hs
    | _ => cases hjob
  have hsingle :=
    stays_single (arrives_single harrives hnone hdifferent h) hstay hend (hok v h) hrun
  exact ⟨hsingle.own, hsingle.apart⟩

/-- A job of the blob of `niceJob` without a reserved byte. -/
def again (job_id : String) : StratumJob := { niceJob ['0', '0'] with job_id := job_id }

def once : Upstream := start 64 300000 false 1000 fun _ =>
  { hashrate := 1000, vardiff := VarDiff.new 1000 1000 }

/-- The blob is announced twice before anything is granted; then two miners come, and one asks for
more. -/
def announcing : List Action :=
  [.job 0 (again "2"), .loggedIn 0 (.ok (again "1")), .resume 0, .resume 0, .attach 1 1, .resume 0,
    .chunk 2 0 "2"]

theorem blob_nonces_granted_once_pair : ∃ u v w,
    exec step once [.attach 0 0, .dialed 0 (.ok ())] = some u ∧
      u.step (.job 0 (again "1")) = some v ∧ exec step v announcing = some w ∧
        w.GrantedOnce 0 fun c => (u.issued c).length := by
  have hrun : (exec step once [.attach 0 0, .dialed 0 (.ok ())]).any (fun u =>
      (u.step (.job 0 (again "1"))).any fun v => (exec step v announcing).any fun w =>
        u.arrives 0 (.job 0 (again "1")) = true ∧
        Meets step (fun s _ => s.blobOf 0 = some (again "1").blob) v announcing ∧
        w.blobOf 0 = some (again "1").blob ∧
        Meets step (fun s b => s.renews b = true) u (.job 0 (again "1") :: announcing)) = true := by
    decide +kernel
  obtain ⟨u, hu, hrun⟩ := (Option.any_eq_true _ _).mp hrun
  obtain ⟨v, hv, hrun⟩ := (Option.any_eq_true _ _).mp hrun
  obtain ⟨w, hw, hstate⟩ := (Option.any_eq_true _ _).mp hrun
  obtain ⟨harrives, hstay, hend, hok⟩ := of_decide_eq_true hstate
  exact ⟨u, v, w, hu, hv, hw,
    blob_nonces_granted_once u v w _ _ 0 _ harrives hv hstay hend hok hw⟩

def repeating : List Action := [.resume 0, .resume 0, .chunk 1 0 "1", .job 0 (again "2")]

/-- A miner has two ranges when the blob is announced again under a new job id, and gets the
beginning of its first range again. -/
theorem blob_nonces_granted_twice : ¬ ∀ (u v w : Upstream) (a : Action) (actions : List Action)
    (l : LinkId) (blob : String), exec step once [.attach 0 0, .dialed 0 (.ok ())] = some u →
    u.arrives l a = true → u.step a = some v →
    Meets step (fun s _ => s.blobOf l = some blob) v actions → w.blobOf l = some blob →
    exec step v actions = some w → w.GrantedOnce l fun c => (u.issued c).length := by
  intro h
  have hrun : (exec step once [.attach 0 0, .dialed 0 (.ok ())]).any (fun u =>
      (u.step (.loggedIn 0 (.ok (again "1")))).any fun v => (exec step v repeating).any fun w =>
        u.arrives 0 (.loggedIn 0 (.ok (again "1"))) = true ∧
        Meets step (fun s _ => s.blobOf 0 = some (again "1").blob) v repeating ∧
        w.blobOf 0 = some (again "1").blob ∧
        (w.cuts 0 (u.issued 0).length 0).map Issued.range =
          [⟨0, 20000⟩, ⟨20000, 40000⟩, ⟨0, 4096⟩]) = true := by
    decide +kernel
  obtain ⟨u, hu, hrun⟩ := (Option.any_eq_true _ _).mp hrun
  obtain ⟨v, hv, hrun⟩ := (Option.any_eq_true _ _).mp hrun
  obtain ⟨w, hw, hstate⟩ := (Option.any_eq_true _ _).mp hrun
  obtain ⟨harrives, hstay, hend, hranges⟩ := of_decide_eq_true hstate
  have hown := (h u v w _ repeating 0 _ hu harrives hv hstay hend hw).1 0
  have hpairs : ((w.cuts 0 (u.issued 0).length 0).map Issued.range).Pairwise
      fun g g' => Disjoint g.nonces g'.nonces := List.pairwise_map.mpr hown
  rw [hranges] at hpairs
  have hfirst := (List.pairwise_cons.mp hpairs).1 ⟨0, 4096⟩ (by simp)
  have hzero : (0 : ℤ) ∈ (⟨0, 20000⟩ : Grant).nonces := ⟨le_rfl, by norm_num⟩
  exact Set.disjoint_left.mp hfirst hzero ⟨le_rfl, by norm_num⟩

end Upstream

end NMiner
