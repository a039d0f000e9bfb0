import NMiner.Proofs.Everywhere
import NMiner.Proofs.Slices

/-! The ranges that are cut off a link's nonce space from one job on it to the next are disjoint,
whoever they are cut for, if the space was built from different slots. -/

namespace NMiner

/-- A grant is cut off what the space has to give, and what it has to give afterwards is the rest or
less. -/
theorem take_apart (space : NonceSpace) (count : ℚ) (hc : 0 ≤ space.cursor)
    (hd : space.segments.Pairwise fun s t => Disjoint s.nonces t.nonces) :
    granted (take space count).1 ⊆ space.remaining ∧
      (take space count).2.remaining ⊆ space.remaining ∧
      Disjoint (granted (take space count).1) (take space count).2.remaining := by
  fun_induction take space count with
  | case1 space h segment left hleft ih =>
    have hsame := remaining_next h hleft
    rw [hsame] at ih
    exact ih le_rfl hd
  | case2 space h segment left hleft size start limit rest hlimit =>
    have hsize : size ≤ left := min_le_right _ _
    have hpos : 0 < size := by
      simp only [size]
      omega
    have hbehind := current_disjoint hd h
    have hspace : space.remaining = (Set.Ico (segment.base + space.cursor)
        (segment.base + segment.size) ∪ nonces (space.segments.drop (space.index + 1))) \ {TOP} :=
      remaining_eq space h
    have hrest : rest.remaining = (Set.Ico (segment.base + (space.cursor + size))
        (segment.base + segment.size) ∪ nonces (space.segments.drop (space.index + 1))) \ {TOP} :=
      remaining_eq rest h
    -- the piece lies before the new cursor, in the current segment
    have hpiece : ∀ n ∈ Set.Ico start limit, n ∈ Set.Ico (segment.base + space.cursor)
        (segment.base + space.cursor + size) ∧ n < TOP := by
      intro n hn
      have hle : limit ≤ start + size := min_le_left _ _
      have htop : limit ≤ TOP := min_le_right _ _
      simp only [Set.mem_Ico, start] at hn hle ⊢
      omega
    have hcurrent : ∀ n ∈ Set.Ico (segment.base + space.cursor)
        (segment.base + space.cursor + size), n ∈ segment.nonces := by
      intro n hn
      simp only [Set.mem_Ico, Segment.nonces, left] at hn hsize ⊢
      omega
    refine ⟨fun n hn => ?_, fun n hn => ?_, Set.disjoint_left.mpr fun n hn hn' => ?_⟩
    · obtain ⟨hn, htop⟩ := hpiece n hn
      rw [hspace]
      refine ⟨Or.inl ?_, fun heq => absurd heq htop.ne⟩
      simp only [Set.mem_Ico, left] at hn hsize ⊢
      omega
    · rw [hrest] at hn
      rw [hspace]
      refine ⟨hn.1.imp_left fun hin => ?_, hn.2⟩
      simp only [Set.mem_Ico] at hin ⊢
      omega
    · obtain ⟨hn, -⟩ := hpiece n hn
      rw [hrest] at hn'
      rcases hn'.1 with hin | hin
      · simp only [Set.mem_Ico] at hn hin
        omega
      · exact Set.disjoint_left.mp hbehind (hcurrent n hn) hin
  | case3 space h segment left hleft size start limit rest hlimit ih =>
    have hpos : 0 < size := by
      simp only [size]
      omega
    obtain ⟨hgrant, hrest, hdisjoint⟩ := ih (add_nonneg hc hpos.le) hd
    have hless : rest.remaining ⊆ space.remaining := by
      intro n hn
      rw [remaining_eq space h]
      have hin : n ∈ rest.remaining := hn
      rw [remaining_eq rest h] at hin
      refine ⟨hin.1.imp_left fun hin => ?_, hin.2⟩
      simp only [Set.mem_Ico, rest] at hin ⊢
      omega
    exact ⟨hgrant.trans hless, hrest.trans hless, hdisjoint⟩
  | case4 space h => exact ⟨Set.empty_subset _, fun _ hn => hn, Set.empty_disjoint _⟩

namespace Upstream

/-- The ranges cut off the link's space for a miner that had `base` ranges on record before. -/
def cuts (u : Upstream) (l : LinkId) (base : ℕ) (c : ClientId) : List Issued :=
  ((u.issued c).drop base).filter fun r => r.link = l

structure Parted (l : LinkId) (base : ClientId → ℕ) (u : Upstream) : Prop where
  segments : (u.link l).space.segments.Pairwise fun s t => Disjoint s.nonces t.nonces
  cursor : 0 ≤ (u.link l).space.cursor
  ahead : ∀ c, ∀ r ∈ u.cuts l (base c) c, Disjoint r.range.nonces (u.link l).space.remaining
  apart : ∀ c c', c ≠ c' → ∀ r ∈ u.cuts l (base c) c, ∀ r' ∈ u.cuts l (base c') c',
    Disjoint r.range.nonces r'.range.nonces

theorem Parted.of_same {l : LinkId} {base : ClientId → ℕ} {u v : Upstream} (h : u.Parted l base)
    (hspace : (v.link l).space = (u.link l).space) (hissued : v.issued = u.issued) :
    v.Parted l base := by
  have hcuts : ∀ n c, v.cuts l n c = u.cuts l n c := fun n c => by rw [cuts, cuts, hissued]
  refine ⟨?_, ?_, fun c r hr => ?_, fun c c' hc r hr r' hr' => ?_⟩
  · rw [hspace]
    exact h.segments
  · rw [hspace]
    exact h.cursor
  · rw [hspace]
    exact h.ahead c r (hcuts _ c ▸ hr)
  · exact h.apart c c' hc r (hcuts _ c ▸ hr) r' (hcuts _ c' ▸ hr')

/-- A range on record besides the old ones is the new one. -/
theorem mem_cuts_record {u : Upstream} {c x : ClientId} {l m : LinkId} {job : StratumJob}
    {g : Grant} {n : ℕ} {r : Issued} (hr : r ∈ (u.record x m job g).cuts l n c) :
    r ∈ u.cuts l n c ∨ c = x ∧ m = l ∧ r.range = g := by
  obtain ⟨hmem, hlink⟩ := List.mem_filter.mp hr
  unfold record at hmem
  dsimp only at hmem
  by_cases hc : c = x
  · subst hc
    rw [Function.update_self] at hmem
    rw [List.drop_append] at hmem
    rcases List.mem_append.mp hmem with hold | hnew
    · exact Or.inl (List.mem_filter.mpr ⟨hold, hlink⟩)
    · obtain rfl := List.mem_singleton.mp (List.mem_of_mem_drop hnew)
      exact Or.inr ⟨rfl, of_decide_eq_true hlink, rfl⟩
  · rw [Function.update_of_ne hc] at hmem
    exact Or.inl (List.mem_filter.mpr ⟨hmem, hlink⟩)

/-- A range goes on record that is new and behind the link's space. -/
theorem record_parted {u : Upstream} {l : LinkId} {base : ClientId → ℕ} (h : u.Parted l base)
    (x : ClientId) (m : LinkId) (job : StratumJob) (g : Grant)
    (hahead : m = l → Disjoint g.nonces (u.link l).space.remaining)
    (hnew : m = l → ∀ c, ∀ r ∈ u.cuts l (base c) c, Disjoint r.range.nonces g.nonces) :
    (u.record x m job g).Parted l base := by
  refine ⟨h.segments, h.cursor, fun c r hr => ?_, fun c c' hc r hr r' hr' => ?_⟩
  · rcases mem_cuts_record hr with hr | ⟨-, hm, hg⟩
    · exact h.ahead c r hr
    · rw [hg]
      exact hahead hm
  · rcases mem_cuts_record hr with hr | ⟨rfl, hm, hg⟩
    · rcases mem_cuts_record hr' with hr' | ⟨-, hm, hg⟩
      · exact h.apart c c' hc r hr r' hr'
      · rw [hg]
        exact hnew hm c r hr
    · rcases mem_cuts_record hr' with hr' | ⟨rfl, -, -⟩
      · rw [hg]
        exact (hnew hm c' r' hr').symm
      · exact absurd rfl hc

theorem grant_parted {u : Upstream} {l : LinkId} {base : ClientId → ℕ} (h : u.Parted l base)
    (m : LinkId) (x : ClientId) : (u.grant m x).2.Parted l base := by
  unfold grant
  by_cases hleft : spaceLeft (u.link m).space ≤ 0
  · rw [if_pos hleft]
    exact h
  rw [if_neg hleft]
  dsimp only
  generalize chunkSize (u.rate x) _ _ = size
  rcases htake : take (u.link m).space size with ⟨r, space⟩
  have hspace : ∀ n, ((u.setLink m fun k => { k with space := space }).link n).space =
      if n = m then space else (u.link n).space := by
    intro n
    rw [setLink_link]
    split_ifs <;> rfl
  have hpiece := fun hm : m = l =>
    take_apart (u.link m).space size (hm ▸ h.cursor) (hm ▸ h.segments)
  rw [htake] at hpiece
  dsimp only at hpiece ⊢
  have hcut : (u.setLink m fun k => { k with space := space }).Parted l base := by
    by_cases hm : l = m
    · subst hm
      have hkept := (take_within (u.link l).space size h.cursor).1
      have hsegments := take_segments (u.link l).space size
      rw [htake] at hkept hsegments
      refine ⟨?_, ?_, fun c r hr => ?_, h.apart⟩ <;> rw [hspace, if_pos rfl]
      · exact hsegments ▸ h.segments
      · exact hkept
      · exact (h.ahead c r hr).mono_right (hpiece rfl).2.1
    · exact h.of_same ((hspace l).trans (if_neg hm)) rfl
  rcases r with _ | g
  · exact hcut
  · cases (u.link m).job with
    | none => exact hcut
    | some job =>
      refine record_parted hcut x m job g (fun hm => ?_) fun hm c r hr => ?_
      · rw [hspace, if_pos hm.symm]
        exact (hpiece hm).2.2
      · subst hm
        exact (h.ahead c r hr).mono_right (hpiece rfl).1

/-- Moves keep the ranges apart as long as no job arrives on the link. -/
theorem Moves.parted {owes : ℕ → ClientId → Prop} {places : LinkId → Prop} {l : LinkId}
    {base : ClientId → ℕ} {u v : Upstream} (h : Moves owes places u v) (hl : ¬ places l)
    (hu : u.Parted l base) : v.Parted l base := by
  refine h.keeps (P := Parted l base) (fun w w' hmove hw => ?_) hu
  cases hmove with
  | keep h => exact hw.of_same (h.spaces l) h.issued
  | suspend t h => exact hw.of_same rfl rfl
  | grant m c => exact grant_parted hw m c
  | emit d h => exact hw.of_same rfl rfl
  | place m job h =>
    refine hw.of_same ?_ rfl
    have hne : l ≠ m := fun heq => hl (heq ▸ h)
    rw [(setJob_link w m job).2.2.2.2 l hne]

/-- A space keeps its segments as long as no job arrives on the link. -/
theorem Moves.segments {owes : ℕ → ClientId → Prop} {places : LinkId → Prop} {l : LinkId}
    {u v : Upstream} (h : Moves owes places u v) (hl : ¬ places l) :
    (v.link l).space.segments = (u.link l).space.segments := by
  refine h.keeps (P := fun w => (w.link l).space.segments = (u.link l).space.segments) ?_ rfl
  intro w w' hmove hw
  refine Eq.trans ?_ hw
  cases hmove with
  | keep h => rw [h.spaces l]
  | suspend t h => rfl
  | grant m c => exact ((grant_walks w m c).thins.kept l).segments
  | emit d h => rfl
  | place m job h =>
    have hne : l ≠ m := fun heq => hl (heq ▸ h)
    rw [(setJob_link w m job).2.2.2.2 l hne]

/-! ### Arrivals -/

/-- The segments of a new space are disjoint unless one occurs twice. -/
theorem setJob_disjoint (u : Upstream) (l : LinkId) (job : StratumJob)
    (h : ((u.setJob l job).link l).space.segments.Nodup) :
    ((u.setJob l job).link l).space.segments.Pairwise fun s t => Disjoint s.nonces t.nonces := by
  rw [(setJob_link u l job).2.2.2.1] at h ⊢
  split_ifs at h ⊢
  · refine List.Pairwise.imp_of_mem (fun {s t} hs ht hne => ?_) h
    obtain ⟨b, -, rfl⟩ := List.mem_map.mp hs
    obtain ⟨b', -, rfl⟩ := List.mem_map.mp ht
    refine Set.disjoint_left.mpr fun n hn hn' => hne ?_
    rw [← segmentOf_nonces hn, ← segmentOf_nonces hn']
  · exact List.pairwise_singleton _ _

theorem observeInterval_issued (u : Upstream) (l : LinkId) :
    (u.observeInterval l).issued = u.issued := by
  unfold observeInterval
  dsimp only
  split_ifs
  · rfl
  · refine List.foldlRecOn (motive := fun v : Upstream => v.issued = u.issued) _ _ rfl ?_
    intro v hv m _
    split_ifs
    · exact hv
    · exact hv
  · rfl

/-- The job that an event brings. -/
def Action.carried : Action → Option StratumJob
  | .job _ j => some j
  | .loggedIn _ (.ok j) => some j
  | _ => none

/-- When a job arrives it is placed on the link, and the fan-out follows. -/
theorem arrives_placed {u v : Upstream} {a : Action} {l : LinkId} (ha : u.arrives l a = true)
    (h : u.step a = some v) : ∃ (w : Upstream) (job : StratumJob), a.carried = some job ∧
      w.issued = u.issued ∧ w.slots l job = u.slots l job ∧
      Moves (fun _ _ => True) (fun _ => False) (w.setJob l job) v := by
  cases a with
  | job m job =>
    obtain rfl : m = l := of_decide_eq_true ha
    simp only [step] at h
    split_ifs at h
    rw [Option.some.injEq] at h
    exact ⟨u.observeInterval m, job, rfl, observeInterval_issued u m, observeInterval_slots u m job,
      h ▸ fanout_moves m _ _⟩
  | loggedIn m outcome => cases outcome with
    | error message => exact absurd ha (by simp [arrives])
    | ok job =>
      simp only [arrives, Bool.and_eq_true, decide_eq_true_eq] at ha
      obtain ⟨rfl, hnone⟩ := ha
      simp only [step] at h
      split_ifs at h
      rw [Option.some.injEq] at h
      have hself : (u.setLink m fun k => { k with socket := true }).link m =
          { u.link m with socket := true } := Function.update_self ..
      have hslots : (u.setLink m fun k => { k with socket := true }).slots m job =
        u.slots m job := by
        rw [slots, slots, hself]
        rfl
      unfold loggedIn at h
      dsimp only at h
      rw [hself, if_neg (by simpa using hnone)] at h
      exact ⟨(u.setLink m fun k => { k with socket := true }).observeInterval m, job, rfl,
        observeInterval_issued _ m, (observeInterval_slots _ m job).trans hslots,
        h ▸ (fanout_moves m _ _).trans (setLink_moves _ m rfl)⟩
  | _ => exact absurd ha (by simp [arrives])

/-- The first ranges of a space that was built from different slots. -/
theorem arrives_parted {u v : Upstream} {a : Action} {l : LinkId} (ha : u.arrives l a = true)
    (h : u.step a = some v) (hnodup : (v.link l).space.segments.Nodup) :
    v.Parted l fun c => (u.issued c).length := by
  obtain ⟨w, job, -, hissued, -, hmoves⟩ := arrives_placed ha h
  have hsegments := hmoves.segments (l := l) id
  refine hmoves.parted id ⟨setJob_disjoint w l job (hsegments ▸ hnodup), ?_, ?_, ?_⟩
  · rw [(setJob_link w l job).2.2.1]
  all_goals
    have hnone : ∀ c, (w.setJob l job).cuts l (u.issued c).length c = [] := by
      intro c
      have hsame : (w.setJob l job).issued c = u.issued c := congrFun hissued c
      rw [cuts, hsame, List.drop_length]
      rfl
  · intro c r hr
    rw [hnone] at hr
    exact absurd hr List.not_mem_nil
  · intro c c' _ r hr
    rw [hnone] at hr
    exact absurd hr List.not_mem_nil

end Upstream

end NMiner
