import NMiner.Spec.Cursor

/-! The ranges of a job are drawn exactly once. What has been returned, what the cursor has left
and what is queued make up, in some order, the nonces of the job's range and of the accepted
ones; every step moves nonces from one place to another. -/

namespace NMiner

open Transition

/-! ### Packed ranges -/

@[simp] theorem currentOf_pack (start limit : UInt32) :
    currentOf (pack_range start limit) = start := by
  apply UInt32.toBitVec_inj.mp
  unfold currentOf pack_range
  ext i hi
  simp

@[simp] theorem limitOf_pack (start limit : UInt32) :
    limitOf (pack_range start limit) = limit := by
  apply UInt32.toBitVec_inj.mp
  unfold limitOf pack_range
  ext i hi
  have hlow : i < 64 := by omega
  have hhigh : 32 + i < 64 := by omega
  simp [hi, hlow, hhigh]

theorem toNat_succ {n m : UInt32} (h : n < m) : (n + 1).toNat = n.toNat + 1 := by
  have hm := m.toNat_lt
  rw [UInt32.lt_iff_toNat_lt] at h
  rw [UInt32.toNat_add, UInt32.toNat_one]
  omega

/-- The nonces from one to another, in order. -/
def between (start limit : UInt32) : List ℕ :=
  List.range' start.toNat (limit.toNat - start.toNat)

def NonceRange.nonces (r : NonceRange) : List ℕ := between r.start r.limit

def NonceRange.Disjoint (r r' : NonceRange) : Prop := List.Disjoint r.nonces r'.nonces

theorem mem_between {start limit : UInt32} {n : ℕ} :
    n ∈ between start limit ↔ start.toNat ≤ n ∧ n < limit.toNat := by
  unfold between
  rw [List.mem_range'_1]
  omega

theorem between_nodup (start limit : UInt32) : (between start limit).Nodup := List.nodup_range'

theorem between_cons {start limit : UInt32} (h : start < limit) :
    between start limit = start.toNat :: between (start + 1) limit := by
  unfold between
  have hnat := UInt32.lt_iff_toNat_lt.mp h
  obtain ⟨k, hk⟩ : ∃ k, limit.toNat - start.toNat = k + 1 :=
    ⟨limit.toNat - start.toNat - 1, by omega⟩
  rw [toNat_succ h, hk, List.range'_succ]
  have hrest : limit.toNat - (start.toNat + 1) = k := by omega
  rw [hrest]

theorem between_empty {start limit : UInt32} (h : ¬ start < limit) : between start limit = [] := by
  rw [UInt32.lt_iff_toNat_lt] at h
  unfold between
  have hzero : limit.toNat - start.toNat = 0 := by omega
  rw [hzero]
  rfl

namespace Cursor

/-- What the cursor has left of its range. -/
def left (c : Cursor) : List ℕ := between (currentOf c.m_range) (limitOf c.m_range)

/-! ### Ranged jobs -/

/-- Each nonce of the job and of the accepted ranges is at one place. -/
structure Partitions (job : NonceRange) (c : Cursor) : Prop where
  idle : c.sending = none
  nonces : (c.returned.map UInt32.toNat ++ c.left ++ c.m_queued.flatMap NonceRange.nonces).Perm
    ((job :: c.accepted).flatMap NonceRange.nonces)
  refused : c.refused = true → c.left = [] ∧ c.m_queued = []

theorem sendRanged_partitions {c : Cursor} (h : c.sending = none) (start limit : UInt32) :
    (c.sendRanged start limit).Partitions ⟨start, max start limit⟩ := by
  refine ⟨h, ?_, by simp [sendRanged]⟩
  simp [sendRanged, left, NonceRange.nonces]

/-- A step that changes neither the ranges nor the logs. -/
theorem Partitions.same {job : NonceRange} {c c' : Cursor} (h : c.Partitions job)
    (hsending : c'.sending = c.sending) (hrange : c'.m_range = c.m_range)
    (hqueued : c'.m_queued = c.m_queued) (hreturned : c'.returned = c.returned)
    (haccepted : c'.accepted = c.accepted) (hrefused : c'.refused = c.refused) :
    c'.Partitions job := by
  have hleft : c'.left = c.left := by
    unfold left
    rw [hrange]
  refine ⟨hsending ▸ h.idle, ?_, ?_⟩
  · rw [hreturned, hleft, hqueued, haccepted]
    exact h.nonces
  · rw [hrefused, hleft, hqueued]
    exact h.refused

theorem queueRange_partitions {job : NonceRange} {c : Cursor} (h : c.Partitions job)
    (start limit : UInt32) : (c.queueRange start limit).Partitions job := by
  unfold queueRange
  split_ifs
  · exact h
  · refine ⟨h.idle, ?_, by simp⟩
    have hmore := h.nonces.append_right (NonceRange.nonces ⟨start, limit⟩)
    simpa [left] using hmore

/-- A successful compare-exchange moves the next nonce from the cursor to its caller. -/
theorem exchange_partitions {job : NonceRange} {c : Cursor} (h : c.Partitions job) (t : ThreadId)
    {packed : UInt64} (hlt : currentOf packed < limitOf packed) (spurious : Bool) :
    (c.exchange t packed spurious).Partitions job := by
  unfold exchange
  dsimp only
  split_ifs with hsame
  · obtain ⟨hrange, -⟩ := hsame
    have hcons : c.left = (currentOf packed).toNat :: between (currentOf packed + 1)
      (limitOf packed) := by
      unfold left
      rw [hrange]
      exact between_cons hlt
    refine ⟨h.idle, ?_, ?_⟩
    · have hnonces := h.nonces
      rw [hcons] at hnonces
      simpa [left, setThread] using hnonces
    · intro hrefused
      have hempty := (h.refused hrefused).1
      rw [hcons] at hempty
      exact absurd hempty (List.cons_ne_nil _ _)
  · exact h.same rfl rfl rfl rfl rfl rfl

/-- An exhausted range gives way to the next one, or the call is refused. -/
theorem advanceRange_partitions {job : NonceRange} {c : Cursor} (h : c.Partitions job)
    (t : ThreadId) {exhausted : UInt64} (hge : ¬ currentOf exhausted < limitOf exhausted) :
    (c.advanceRange t exhausted).Partitions job := by
  unfold advanceRange
  split_ifs with hother
  · exact h.same rfl rfl rfl rfl rfl rfl
  · have hsame : c.m_range = exhausted := not_not.mp hother
    have hempty : c.left = [] := by
      unfold left
      rw [hsame]
      exact between_empty hge
    have hnonces := h.nonces
    split
    · rename_i hqueued
      exact ⟨h.idle, hnonces, fun _ => ⟨hempty, hqueued⟩⟩
    · rename_i next rest hqueued
      refine ⟨h.idle, ?_, ?_⟩
      · rw [hqueued, hempty] at hnonces
        simpa [left, setThread, NonceRange.nonces] using hnonces
      · intro hrefused
        have hnone := (h.refused hrefused).2
        rw [hqueued] at hnone
        exact absurd hnone (List.cons_ne_nil _ _)

theorem step_partitions {job : NonceRange} (c : Cursor) (a : Action) (c' : Cursor)
    (h : c.Partitions job) (hsends : a.sends = false) (hstep : c.step a = some c') :
    c'.Partitions job := by
  cases a with
  | sendRanged start limit => cases hsends
  | sendFresh nicehash_active => cases hsends
  | sendLoad nicehash_active => cases hsends
  | sendStore => cases hsends
  | queueRange start limit =>
    simp only [step] at hstep
    split_ifs at hstep
    rw [Option.some.injEq] at hstep
    exact hstep ▸ queueRange_partitions h start limit
  | pause paused =>
    rw [step, Option.some.injEq] at hstep
    exact hstep ▸ h.same rfl rfl rfl rfl rfl rfl
  | call t =>
    simp only [step] at hstep
    split at hstep
    · rw [Option.some.injEq] at hstep
      rw [← hstep]
      split_ifs
      · exact h
      · exact h.same rfl rfl rfl rfl rfl rfl
    · exact absurd hstep (by simp)
  | load t =>
    simp only [step] at hstep
    split at hstep
    · rw [Option.some.injEq] at hstep
      exact hstep ▸ h.same rfl rfl rfl rfl rfl rfl
    · exact absurd hstep (by simp)
  | exchange t spurious =>
    simp only [step] at hstep
    split at hstep
    · split_ifs at hstep with hlt
      rw [Option.some.injEq] at hstep
      exact hstep ▸ exchange_partitions h t hlt spurious
    · exact absurd hstep (by simp)
  | advance t =>
    simp only [step] at hstep
    split at hstep
    · split_ifs at hstep with hlt
      rw [Option.some.injEq] at hstep
      exact hstep ▸ advanceRange_partitions h t (fun hcur => hlt (Or.inl hcur))
    · exact absurd hstep (by simp)

/-! ### Runs of a ranged job -/

theorem nodup_of_disjoint {rs : List NonceRange} (h : rs.Pairwise NonceRange.Disjoint) :
    (rs.flatMap NonceRange.nonces).Nodup :=
  List.nodup_flatMap.mpr ⟨fun r _ => between_nodup r.start r.limit, h⟩

/-- No nonce is returned twice, and once a call has found nothing left, the nonces returned are
those of the job's range and of the accepted ranges. -/
theorem ranges_consumed_once (c₀ : Cursor) (start limit : UInt32) (actions : List Action)
    (c : Cursor) (hsends : ∀ a ∈ actions, a.sends = false)
    (hrun : exec step c₀ (.sendRanged start limit :: actions) = some c)
    (hdisjoint : (⟨start, max start limit⟩ :: c.accepted).Pairwise NonceRange.Disjoint) :
    c.returned.Nodup ∧ (c.refused = true → ∀ n, n ∈ c.returned ↔
      ∃ r ∈ ⟨start, max start limit⟩ :: c.accepted, r.start ≤ n ∧ n < r.limit) := by
  obtain ⟨c₁, hsend, hrest⟩ := exec_cons_eq_some.mp hrun
  simp only [step] at hsend
  split_ifs at hsend with hidle
  rw [Option.some.injEq] at hsend
  have hstart := hsend ▸ sendRanged_partitions hidle start limit
  have hmeets : Meets step (fun _ a => a.sends = false) c₁ actions := meets_of_forall step c₁ hsends
  have h := exec_invariant step_partitions hstart hmeets hrest
  have hnodup := h.nonces.nodup_iff.mpr (nodup_of_disjoint hdisjoint)
  refine ⟨((hnodup.of_append_left).of_append_left).of_map _, ?_⟩
  intro hrefused n
  obtain ⟨hleft, hqueued⟩ := h.refused hrefused
  have hperm := h.nonces
  rw [hleft, hqueued, List.append_nil, List.flatMap_nil, List.append_nil] at hperm
  have hmem := hperm.mem_iff (a := n.toNat)
  rw [List.mem_map_of_injective fun _ _ => UInt32.toNat_inj.mp] at hmem
  rw [hmem, List.mem_flatMap]
  simp only [NonceRange.nonces, mem_between, UInt32.le_iff_toNat_le, UInt32.lt_iff_toNat_lt]

/-- Two threads on the ranges 5 to 7 and 9 to 10; the second waits on a stale word. -/
def draining : List Action :=
  [.call 0, .call 1, .load 0, .load 1, .exchange 0 false, .queueRange 9 10, .exchange 1 false,
    .exchange 1 true, .exchange 1 false, .call 0, .load 0, .advance 0, .load 0, .exchange 0 false,
    .call 1, .load 1, .advance 1]

theorem ranges_consumed_once_draining :
    ∃ c, exec step {} (.sendRanged 5 7 :: draining) = some c ∧ c.refused = true ∧
      c.returned = [5, 6, 9] ∧ c.returned.Nodup ∧
      ∀ n, n ∈ c.returned ↔ ∃ r ∈ [⟨5, 7⟩, ⟨9, 10⟩], NonceRange.start r ≤ n ∧ n < r.limit := by
  have hrun : (exec step {} (.sendRanged 5 7 :: draining)).map (fun c =>
      (c.refused, c.returned, c.accepted)) = some (true, [5, 6, 9], [⟨9, 10⟩]) := by decide
  obtain ⟨c, hc, hview⟩ := Option.map_eq_some_iff.mp hrun
  simp only [Prod.mk.injEq] at hview
  obtain ⟨hrefused, hreturned, haccepted⟩ := hview
  have hdisjoint : (⟨5, max 5 7⟩ :: c.accepted).Pairwise NonceRange.Disjoint := by
    rw [haccepted]
    refine List.pairwise_pair.mpr fun n hn hn' => ?_
    have hlow := (mem_between.mp hn).2
    have hhigh := (mem_between.mp hn').1
    exact absurd (hlow.trans_le (by decide)) (not_lt_of_ge hhigh)
  obtain ⟨hnodup, hall⟩ := ranges_consumed_once {} 5 7 draining c (by decide) hc hdisjoint
  rw [haccepted] at hall
  exact ⟨c, hc, hrefused, hreturned, hnodup, hall hrefused⟩

/-! ### Jobs without a range -/

/-- The condition on a step: no compare-exchange succeeds between the load and the store of a
`SendJob`, and the range that a `SendJob` keeps on with does not end before the cursor. -/
def keeps (c : Cursor) : Action → Bool
  | .exchange t spurious => c.sending = none || spurious || c.threads t ≠ .loaded c.m_range
  | .sendLoad nicehash_active => currentOf c.m_range ≤ rangeEnd nicehash_active
  | _ => true

/-- What has been returned lies below the cursor, in order. -/
structure Ascends (c : Cursor) : Prop where
  ranged : c.m_ranged = false
  queued : c.m_queued = []
  sorted : c.returned.Pairwise (· < ·)
  below : ∀ n ∈ c.returned, n < currentOf c.m_range
  sending : ∀ loaded range_end, c.sending = some (loaded, range_end) →
    loaded = currentOf c.m_range ∧ loaded ≤ range_end

theorem sendFresh_ascends {c : Cursor} (h : c.sending = none) (nicehash_active : Bool) :
    (c.sendFresh nicehash_active).Ascends :=
  ⟨rfl, rfl, .nil, by simp [sendFresh], by simp [sendFresh, h]⟩

theorem Ascends.setThread {c : Cursor} (h : c.Ascends) (t : ThreadId) (d : Drawing) :
    (c.setThread t d).Ascends :=
  ⟨h.ranged, h.queued, h.sorted, h.below, h.sending⟩

theorem sendStore_ascends {c : Cursor} (h : c.Ascends) {loaded range_end : UInt32}
    (hsending : c.sending = some (loaded, range_end)) :
    (c.sendStore loaded range_end).Ascends := by
  obtain ⟨hloaded, hend⟩ := h.sending _ _ hsending
  have hmin : min loaded range_end = currentOf c.m_range := (if_pos hend).trans hloaded
  refine ⟨h.ranged, h.queued, h.sorted, ?_, by simp [sendStore]⟩
  intro n hn
  simp only [sendStore, currentOf_pack, hmin]
  exact h.below n hn

theorem exchange_ascends {c : Cursor} (h : c.Ascends) {t : ThreadId} {packed : UInt64}
    (hloaded : c.threads t = .loaded packed) (hlt : currentOf packed < limitOf packed)
    {spurious : Bool} (hkeeps : c.keeps (.exchange t spurious) = true) :
    (c.exchange t packed spurious).Ascends := by
  unfold exchange
  dsimp only
  split_ifs with hsame
  · obtain ⟨hrange, hspurious⟩ := hsame
    have hidle : c.sending = none := by
      simp only [keeps, hloaded, hrange, hspurious] at hkeeps
      simpa using hkeeps
    have hnext : currentOf packed < currentOf packed + 1 := by
      rw [UInt32.lt_iff_toNat_lt, toNat_succ hlt]
      omega
    have hbelow : ∀ n ∈ c.returned, n < currentOf packed := hrange ▸ h.below
    refine ⟨h.ranged, h.queued, ?_, ?_, by simp [Cursor.setThread, hidle]⟩
    · refine List.pairwise_append.mpr ⟨h.sorted, List.pairwise_singleton _ _, ?_⟩
      intro n hn m hm
      rw [List.mem_singleton.mp hm]
      exact hbelow n hn
    · intro n hn
      simp only [currentOf_pack]
      rcases List.mem_append.mp hn with hn | hn
      · exact UInt32.lt_trans (hbelow n hn) hnext
      · rw [List.mem_singleton.mp hn]
        exact hnext
  · exact h.setThread t _

theorem advanceRange_ascends {c : Cursor} (h : c.Ascends) (t : ThreadId) (exhausted : UInt64) :
    (c.advanceRange t exhausted).Ascends := by
  unfold advanceRange
  rw [h.queued]
  split_ifs
  · exact h.setThread t _
  · exact ⟨h.ranged, h.queued, h.sorted, h.below, h.sending⟩

theorem step_ascends (c : Cursor) (a : Action) (c' : Cursor) (h : c.Ascends)
    (hguard : a.installs = false ∧ c.keeps a = true) (hstep : c.step a = some c') :
    c'.Ascends := by
  obtain ⟨hinstalls, hkeeps⟩ := hguard
  cases a with
  | sendRanged start limit => cases hinstalls
  | sendFresh nicehash_active => cases hinstalls
  | sendLoad nicehash_active =>
    simp only [step] at hstep
    split_ifs at hstep
    rw [Option.some.injEq] at hstep
    rw [← hstep]
    refine ⟨rfl, rfl, h.sorted, h.below, ?_⟩
    intro loaded range_end hsending
    simp only [sendLoad, Option.some.injEq, Prod.mk.injEq] at hsending
    obtain ⟨rfl, rfl⟩ := hsending
    exact ⟨rfl, of_decide_eq_true hkeeps⟩
  | sendStore =>
    simp only [step] at hstep
    obtain ⟨⟨loaded, range_end⟩, hsending, hstep⟩ := Option.map_eq_some_iff.mp hstep
    exact hstep ▸ sendStore_ascends h hsending
  | queueRange start limit =>
    simp only [step] at hstep
    split_ifs at hstep
    rw [Option.some.injEq] at hstep
    have hrejected : c.queueRange start limit = c := if_pos (Or.inr h.ranged)
    exact hstep ▸ hrejected.symm ▸ h
  | pause paused =>
    rw [step, Option.some.injEq] at hstep
    rw [← hstep]
    exact ⟨h.ranged, h.queued, h.sorted, h.below, h.sending⟩
  | call t =>
    simp only [step] at hstep
    split at hstep
    · rw [Option.some.injEq] at hstep
      rw [← hstep]
      split_ifs
      · exact h
      · exact h.setThread t _
    · exact absurd hstep (by simp)
  | load t =>
    simp only [step] at hstep
    split at hstep
    · rw [Option.some.injEq] at hstep
      exact hstep ▸ h.setThread t _
    · exact absurd hstep (by simp)
  | exchange t spurious =>
    simp only [step] at hstep
    split at hstep
    · rename_i packed hloaded
      split_ifs at hstep with hlt
      rw [Option.some.injEq] at hstep
      exact hstep ▸ exchange_ascends h hloaded hlt hkeeps
    · exact absurd hstep (by simp)
  | advance t =>
    simp only [step] at hstep
    split at hstep
    · split_ifs at hstep
      rw [Option.some.injEq] at hstep
      exact hstep ▸ advanceRange_ascends h t _
    · exact absurd hstep (by simp)

/-- As long as no `SendJob` moves the cursor back, a job that is sent again with the same blob
repeats no nonce. -/
theorem resent_job_repeats_none (c₀ : Cursor) (nicehash_active : Bool) (actions : List Action)
    (c : Cursor) (hidle : c₀.sending = none)
    (hguard : Meets step (fun c a => a.installs = false ∧ c.keeps a = true)
      (c₀.sendFresh nicehash_active) actions)
    (hrun : exec step (c₀.sendFresh nicehash_active) actions = some c) : c.returned.Nodup := by
  have h := exec_invariant step_ascends (sendFresh_ascends hidle nicehash_active) hguard hrun
  exact h.sorted.imp UInt32.ne_of_lt

/-- The job is sent again while a thread has its next nonce in hand. -/
def resending : List Action :=
  [.call 0, .load 0, .exchange 0 false, .call 0, .load 0, .sendLoad false, .exchange 0 true,
    .sendStore, .exchange 0 false]

theorem resent_job_repeats_none_resending :
    ∃ c, exec step (sendFresh {} false) resending = some c ∧ c.returned = [0, 1] ∧
      c.returned.Nodup := by
  have hrun : (exec step (sendFresh {} false) resending).map returned = some [0, 1] := by decide
  obtain ⟨c, hc, hview⟩ := Option.map_eq_some_iff.mp hrun
  exact ⟨c, hc, hview, resent_job_repeats_none {} false _ c rfl (by decide) hc⟩

/-- A compare-exchange between the load and the store of `SendJob` is undone by the store. -/
theorem resent_job_repeats : ¬ ∀ (actions : List Action) c, (∀ a ∈ actions, a.installs = false) →
    exec step (sendFresh {} false) actions = some c → c.returned.Nodup := by
  intro h
  have hrun : (exec step (sendFresh {} false) [.call 0, .load 0, .sendLoad false, .exchange 0 false,
      .sendStore, .call 0, .load 0, .exchange 0 false]).map returned = some [0, 0] := by decide
  obtain ⟨c, hc, hview⟩ := Option.map_eq_some_iff.mp hrun
  have hnodup := h _ c (by decide) hc
  rw [hview] at hnodup
  exact absurd hnodup (by decide)

end Cursor

end NMiner
