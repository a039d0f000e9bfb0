import NMiner.Proofs.Followed
import NMiner.Spec.Polling

/-! The ranges that an `NMiner` queues. Between a request for a chunk and its answer the generation
counter is bumped whenever another job is sent, so an answer that is taken belongs to the job sent
last; and the flag that a request sets is released once only, so there is one request at a time. -/

namespace NMiner

open Transition

/-- A job that is sent comes last, and the ranges queued for the job before it are dropped. -/
theorem Miner.send_job_jobs {V : Type} {m m' : Miner V} {j : SendJob} {diff : UInt64}
    {version : UInt32} (h : m.send_job j = some (m', diff, version)) :
    m'.jobs = m.jobs ++ [j] ∧ m'.m_queued = [] := by
  unfold send_job at h
  split_ifs at h with hreject
  obtain ⟨rfl, -, -⟩ := h
  have hsend : (m.send j).jobs = m.jobs ++ [j] := by rw [send, if_neg hreject]
  exact ⟨hsend, rfl⟩

/-- A draw takes ranges off the front of the queue. -/
theorem nextNonce_suffix (packed : UInt64) (queued : List NonceRange) :
    (nextNonce packed queued).2.2 <:+ queued := by
  induction queued generalizing packed with
  | nil =>
    unfold nextNonce
    split_ifs <;> exact List.suffix_refl _
  | cons next rest ih =>
    unfold nextNonce
    split_ifs
    · exact List.suffix_refl _
    · exact (ih _).trans (List.suffix_cons next rest)

namespace NMinerClient

variable {V : Type} {hash : V → List UInt8 → List UInt8} {s s' s'' : NMinerClient V}

/-- The calls of `on_job` for a chunk, from the call to where the poll goes on. -/
def polls (s : NMinerClient V) : ℕ :=
  (s.calls.map (·.1)).count .poll + (s.settled.map (·.1)).count .poll

/-! ### Steps that send no job -/

/-- No range is queued. -/
structure Unqueued (s s' : NMinerClient V) : Prop where
  calls : s'.queue_ranges = s.queue_ranges
  queued : s'.rx_job.m_queued ⊆ s.rx_job.m_queued

theorem Unqueued.same (hcalls : s'.queue_ranges = s.queue_ranges)
    (hqueued : s'.rx_job.m_queued = s.rx_job.m_queued) : Unqueued s s' :=
  ⟨hcalls, hqueued ▸ List.Subset.refl _⟩

theorem Unqueued.trans (h : Unqueued s s') (h' : Unqueued s' s'') : Unqueued s s'' :=
  ⟨h'.calls.trans h.calls, List.Subset.trans h'.queued h.queued⟩

/-- No job is sent, no range is queued, no request is sent or answered, and no call for a chunk is
made or ends. -/
structure Still (s s' : NMinerClient V) : Prop where
  m_job : s'.m_job = s.m_job
  jobs : s'.rx_job.jobs = s.rx_job.jobs
  unqueued : Unqueued s s'
  chunk_gen : s.chunk_gen ≤ s'.chunk_gen
  requesting : s'.requesting_chunk = s.requesting_chunk
  asked : s'.asked = s.asked
  polls : s'.polls = s.polls

theorem Still.refl (s : NMinerClient V) : Still s s :=
    ⟨rfl, rfl, .same rfl rfl, le_rfl, rfl, rfl, rfl⟩

theorem Still.trans (h : Still s s') (h' : Still s' s'') : Still s s'' :=
  ⟨h'.m_job.trans h.m_job, h'.jobs.trans h.jobs, h.unqueued.trans h'.unqueued,
    h.chunk_gen.trans h'.chunk_gen, h'.requesting.trans h.requesting,
      h'.asked.trans h.asked, h'.polls.trans h.polls⟩

theorem schedule_reconnect_still (s : NMinerClient V) : Still s s.schedule_reconnect := by
  unfold schedule_reconnect
  split_ifs
  · exact .refl s
  · exact ⟨rfl, rfl, .same rfl rfl, le_rfl, rfl, rfl, rfl⟩

theorem start_still (s : NMinerClient V) : Still s s.start := by
  unfold start
  split_ifs
  · exact .refl s
  · exact ⟨rfl, rfl, .same rfl rfl, le_rfl, rfl, rfl, rfl⟩

theorem closeStratum_still (s : NMinerClient V) (c : StratumId) : Still s (s.closeStratum c) := by
  unfold closeStratum
  cases s.stratums[c]? with
  | none => exact .refl s
  | some stratum =>
    dsimp only
    split_ifs
    · exact .refl s
    · refine Still.trans ?_ (schedule_reconnect_still _)
      exact ⟨rfl, rfl, .same rfl rfl, Nat.le_succ _, rfl, rfl, rfl⟩
    · exact ⟨rfl, rfl, .same rfl rfl, le_rfl, rfl, rfl, rfl⟩

theorem goTo_still (s : NMinerClient V) (c : StratumId) (r : Reconnect) : Still s (s.goTo c r) :=
  ⟨rfl, rfl, .same rfl rfl, le_rfl, rfl, rfl, rfl⟩

theorem caught_still (s : NMinerClient V) (c : StratumId) : Still s (s.caught c) := by
  have hgo := goTo_still s c .done
  unfold caught
  dsimp only
  cases (s.goTo c .done).stratum with
  | none => exact hgo.trans (schedule_reconnect_still _)
  | some c' => exact hgo.trans (closeStratum_still _ c')

theorem apply_algo_still {job : RangedJob} (h : s.apply_algo job = some s') : Still s s' := by
  unfold apply_algo at h
  cases hjob : job.algo with
  | none =>
    rw [hjob] at h
    exact Option.some.inj h ▸ .refl s
  | some algo =>
    rw [hjob] at h
    dsimp only at h
    split_ifs at h
    · exact Option.some.inj h ▸ .refl s
    · exact Option.some.inj h ▸ ⟨rfl, rfl, .same rfl rfl, le_rfl, rfl, rfl, rfl⟩

/-- A call of `on_job` that is not for a chunk. -/
theorem call_still (s : NMinerClient V) {caller : Caller} (hcaller : caller ≠ .poll)
    (job : RangedJob) : Still s (s.call caller job) := by
  refine ⟨rfl, rfl, .same rfl rfl, le_rfl, rfl, rfl, ?_⟩
  simp [polls, call, hcaller]

theorem loggedIn_still (s : NMinerClient V) (c : StratumId) (job : RangedJob) :
    Still s (s.loggedIn c job) := by
  unfold loggedIn
  cases halgo : s.apply_algo job with
  | none => exact (goTo_still s c .done).trans (closeStratum_still _ c)
  | some s' =>
    exact ((apply_algo_still halgo).trans (goTo_still s' c .on_job)).trans
      (call_still _ (by simp) job)

theorem onJobEvent_still (s : NMinerClient V) (c : StratumId) (job : RangedJob) :
    Still s (s.onJobEvent c job) := by
  unfold onJobEvent
  split_ifs
  · exact .refl s
  · cases halgo : s.apply_algo job with
    | none => exact closeStratum_still s c
    | some s' => exact (apply_algo_still halgo).trans (call_still s' (by simp) job)

theorem shut_still (s : NMinerClient V) : Still s s.shut := by
  unfold shut
  split_ifs
  · exact .refl s
  · have hleft : Still s { ({ s with closed := true, reconnecting := false }.stop_chunk_poll.stop)
        with stratum := none } := ⟨rfl, rfl, .same rfl rfl, Nat.le_succ _, rfl, rfl, rfl⟩
    dsimp only
    cases s.stratum with
    | none => exact hleft
    | some c => exact hleft.trans (closeStratum_still _ c)

/-! ### The calls of `on_job` -/

/-- The call at the head waits on. -/
theorem await_polls {caller : Caller} {job : RangedJob} {at_ : OnJob}
    {rest : List (Caller × RangedJob × OnJob)} (hcalls : s.calls = (caller, job, at_) :: rest)
    (next : OnJob) : (s.await caller job next).polls = s.polls := by
  simp [polls, await, hcalls]

/-- The call at the head ends. -/
theorem settle_polls {caller : Caller} {job : RangedJob} {at_ : OnJob}
    {rest : List (Caller × RangedJob × OnJob)} (hcalls : s.calls = (caller, job, at_) :: rest)
    (o : Outcome) : (s.settle caller o).polls = s.polls := by
  simp only [polls, settle, hcalls, List.tail_cons, List.map_append, List.map_cons, List.map_nil,
    List.count_append, List.count_cons, List.count_nil]
  omega

theorem settle_still {caller : Caller} {job : RangedJob} {at_ : OnJob}
    {rest : List (Caller × RangedJob × OnJob)} (hcalls : s.calls = (caller, job, at_) :: rest)
    (o : Outcome) : Still s (s.settle caller o) :=
  ⟨rfl, rfl, .same rfl rfl, le_rfl, rfl, rfl, settle_polls hcalls o⟩

theorem closeStratum_calls (s : NMinerClient V) (c : StratumId) :
    (s.closeStratum c).calls = s.calls := by
  unfold closeStratum schedule_reconnect
  cases s.stratums[c]? with
  | none => rfl
  | some stratum =>
    dsimp only
    split_ifs <;> rfl

theorem failed_still {caller : Caller} {job : RangedJob} {at_ : OnJob}
    {rest : List (Caller × RangedJob × OnJob)} (hcalls : s.calls = (caller, job, at_) :: rest) :
    Still s (s.failed caller) := by
  unfold failed
  cases s.stratum with
  | none => exact settle_still hcalls _
  | some c =>
    exact (closeStratum_still s c).trans
      (settle_still ((closeStratum_calls s c).trans hcalls) _)

/-- The job is sent, the generation goes up, and no request is sent or answered. -/
structure Sends (s : NMinerClient V) (job : RangedJob) (s' : NMinerClient V) : Prop where
  m_job : s'.m_job = some job
  jobs : ∃ j, s'.rx_job.jobs = s.rx_job.jobs ++ [j] ∧ j.blob = hexBuffer job.blob
  unqueued : Unqueued s s'
  chunk_gen : s.chunk_gen < s'.chunk_gen
  requesting : s'.requesting_chunk = s.requesting_chunk
  asked : s'.asked = s.asked
  polls : s'.polls = s.polls

/-- What a step does to the job that is sent. -/
def Relays (s : NMinerClient V) (sent : Option RangedJob) (s' : NMinerClient V) : Prop :=
  match sent with
  | none => Still s s'
  | some job => Sends s job s'

theorem Still.relays {sent : Option RangedJob} (h : Still s s') (h' : Relays s' sent s'') :
    Relays s sent s'' := by
  cases sent with
  | none => exact h.trans h'
  | some job =>
    exact ⟨h'.m_job, h.jobs ▸ h'.jobs, h.unqueued.trans h'.unqueued,
      h.chunk_gen.trans_lt h'.chunk_gen, h'.requesting.trans h.requesting,
        h'.asked.trans h.asked, h'.polls.trans h.polls⟩

theorem Relays.unqueued {sent : Option RangedJob} (h : Relays s sent s') : Unqueued s s' := by
  cases sent with
  | none => exact Still.unqueued h
  | some job => exact Sends.unqueued h

theorem apply_relays {caller : Caller} {job : RangedJob} {at_ : OnJob}
    {rest : List (Caller × RangedJob × OnJob)} (hcalls : s.calls = (caller, job, at_) :: rest) :
    Relays s (s.takes job) (s.apply caller job) := by
  unfold takes apply
  cases hsent : s.rx_job.send_job (s.sending job) with
  | none => exact settle_still hcalls _
  | some sent =>
    obtain ⟨rx_job, diff, version⟩ := sent
    have hjobs : ∃ j, rx_job.jobs = s.rx_job.jobs ++ [j] ∧ j.blob = hexBuffer job.blob :=
      ⟨s.sending job, (Miner.send_job_jobs hsent).1, rfl⟩
    have hqueued : rx_job.m_queued ⊆ s.rx_job.m_queued :=
      (Miner.send_job_jobs hsent).2 ▸ List.nil_subset _
    dsimp only
    split_ifs
    · exact ⟨rfl, hjobs, ⟨rfl, hqueued⟩, Nat.lt_succ_self _, rfl, rfl,
        settle_polls (s := s) hcalls _⟩
    · exact ⟨rfl, hjobs, ⟨rfl, hqueued⟩, Nat.lt_succ_self _, rfl, rfl,
        settle_polls (s := s) hcalls _⟩

theorem on_job_relays {caller : Caller} {job : RangedJob}
    {rest : List (Caller × RangedJob × OnJob)} (hcalls : s.calls = (caller, job, .lock) :: rest) :
    Relays s (s.sends .lock) (s.on_job caller job) := by
  have hsends : s.sends .lock =
      if s.identical job ∨ s.stale job then none else s.takes job := by rw [sends, hcalls]
  rw [hsends]
  unfold on_job
  by_cases hsame : s.identical job = true
  · rw [if_pos (.inl hsame), if_pos hsame]
    exact ⟨rfl, rfl, .same rfl rfl, le_rfl, rfl, rfl,
      settle_polls (s := { s with followed := job :: s.followed }) hcalls _⟩
  by_cases hstale : s.stale job = true
  · rw [if_pos (.inr hstale), if_neg hsame, if_pos hstale]
    exact ⟨rfl, rfl, .same rfl rfl, le_rfl, rfl, rfl, await_polls (s := { s.stop with
      m_seed := none, variant := if s.algo = "" then s.variant else s.algo }) hcalls _⟩
  · rw [if_neg (not_or.mpr ⟨hsame, hstale⟩), if_neg hsame, if_neg hstale]
    exact apply_relays hcalls

theorem start_calls (s : NMinerClient V) : s.start.calls = s.calls := by
  unfold start
  split_ifs <;> rfl

/-- The flag is released when a call for a chunk has ended. -/
structure Releases (s s' : NMinerClient V) : Prop where
  m_job : s'.m_job = s.m_job
  jobs : s'.rx_job.jobs = s.rx_job.jobs
  unqueued : Unqueued s s'
  chunk_gen : s'.chunk_gen = s.chunk_gen
  requesting : s'.requesting_chunk = false
  asked : s'.asked = s.asked
  polls : s'.polls + 1 = s.polls

theorem eraseSettled_polls {k : ℕ} {caller : Caller} {o : Outcome}
    (hk : s.settled[k]? = some (caller, o)) :
    ({ s with settled := s.settled.eraseIdx k } : NMinerClient V).polls +
      (if caller = .poll then 1 else 0) = s.polls := by
  obtain ⟨hlt, hget⟩ := List.getElem?_eq_some_iff.mp hk
  have hperm := (List.getElem_cons_eraseIdx_perm hlt).map (·.1)
  have hcount := hperm.count_eq Caller.poll
  rw [hget, List.map_cons, List.count_cons] at hcount
  simp only [polls]
  rw [← hcount]
  simp only [beq_iff_eq]
  omega

theorem resumed_still (s : NMinerClient V) {caller : Caller} (hcaller : caller ≠ .poll)
    (o : Outcome) : Still s (s.resumed caller o) := by
  cases caller with
  | job c =>
    cases o with
    | returned b => exact .refl s
    | thrown => exact closeStratum_still s c
  | reconnect c =>
    cases o with
    | returned b => cases b <;> exact goTo_still s c _
    | thrown => exact caught_still s c
  | poll => exact absurd rfl hcaller

theorem resume_relays {k : ℕ} {caller : Caller} {o : Outcome}
    (hk : s.settled[k]? = some (caller, o)) :
    Still s ({ s with settled := s.settled.eraseIdx k }.resumed caller o) ∨
      Releases s ({ s with settled := s.settled.eraseIdx k }.resumed caller o) := by
  have hpolls := eraseSettled_polls hk
  by_cases hcaller : caller = .poll
  · subst hcaller
    exact .inr ⟨rfl, rfl, .same rfl rfl, rfl, rfl, rfl, hpolls⟩
  · rw [if_neg hcaller, add_zero] at hpolls
    have hended : Still s { s with settled := s.settled.eraseIdx k } :=
      ⟨rfl, rfl, .same rfl rfl, le_rfl, rfl, rfl, hpolls⟩
    exact .inl (hended.trans (resumed_still _ hcaller o))

/-- A request is sent. -/
structure Asks (s s' : NMinerClient V) : Prop where
  free : s.requesting_chunk = false
  some : s.m_job.isSome = true
  m_job : s'.m_job = s.m_job
  jobs : s'.rx_job.jobs = s.rx_job.jobs
  unqueued : Unqueued s s'
  chunk_gen : s'.chunk_gen = s.chunk_gen
  requesting : s'.requesting_chunk = true
  asked : s'.asked = .some s.chunk_gen
  polls : s'.polls = s.polls

theorem thread_jobs {m m' : Miner V} {t : ThreadId} {e : Event V}
    (h : m.step hash (.thread t e) = some m') :
    m'.jobs = m.jobs ∧ m'.m_queued ⊆ m.m_queued := by
  simp only [Miner.step, Option.bind_eq_some_iff, Option.map_eq_some_iff] at h
  obtain ⟨seen, hseen, l, -, rfl⟩ := h
  rcases Miner.see_cases hseen with rfl | rfl
  · exact ⟨rfl, List.Subset.refl _⟩
  · exact ⟨rfl, (nextNonce_suffix m.m_range m.m_queued).subset⟩

/-- Everything that a step other than an answer can do. -/
theorem step_relays {a : Action.Client V} (ha : ∀ reply, a ≠ .chunk reply)
    (h : s.step hash a = some s') :
    Relays s (s.sends a) s' ∧ s.asks a = none ∨
      Releases s s' ∧ s.sends a = none ∧ s.asks a = none ∨ Asks s s' ∧ a = .poll := by
  cases a with
  | reconnect =>
    simp only [step] at h
    split_ifs at h
    all_goals exact .inl ⟨Option.some.inj h ▸ ⟨rfl, rfl, .same rfl rfl, le_rfl, rfl, rfl, rfl⟩, rfl⟩
  | connected c ok =>
    refine .inl ⟨?_, rfl⟩
    simp only [step] at h
    split_ifs at h
    · rw [← Option.some.inj h]
      refine Still.trans ?_ (closeStratum_still _ c)
      exact ⟨rfl, rfl, .same rfl rfl, le_rfl, rfl, rfl, rfl⟩
    · exact Option.some.inj h ▸ ⟨rfl, rfl, .same rfl rfl, le_rfl, rfl, rfl, rfl⟩
    · exact Option.some.inj h ▸ caught_still s c
  | measured c ok =>
    refine .inl ⟨?_, rfl⟩
    simp only [step] at h
    split_ifs at h
    · exact Option.some.inj h ▸ ⟨rfl, rfl, .same rfl rfl, le_rfl, rfl, rfl, rfl⟩
    · exact Option.some.inj h ▸ caught_still s c
  | login c reply =>
    refine .inl ⟨?_, rfl⟩
    simp only [step] at h
    split at h
    · split_ifs at h
      obtain ⟨job, -, rfl⟩ := Option.map_eq_some_iff.mp h
      exact loggedIn_still s c job
    · cases h
  | refused c =>
    refine .inl ⟨?_, rfl⟩
    simp only [step] at h
    split_ifs at h
    exact Option.some.inj h ▸ caught_still s c
  | job c job =>
    refine .inl ⟨?_, rfl⟩
    simp only [step] at h
    split at h
    · split_ifs at h
      · rw [← Option.some.inj h]
        refine Still.trans ?_ (onJobEvent_still _ c job)
        exact ⟨rfl, rfl, .same rfl rfl, le_rfl, rfl, rfl, rfl⟩
      · exact Option.some.inj h ▸ ⟨rfl, rfl, .same rfl rfl, le_rfl, rfl, rfl, rfl⟩
    · cases h
  | hangUp c =>
    refine .inl ⟨?_, rfl⟩
    simp only [step] at h
    split_ifs at h
    exact Option.some.inj h ▸ closeStratum_still s c
  | lock =>
    simp only [step] at h
    split at h
    · rename_i caller job rest hcalls
      exact .inl ⟨Option.some.inj h ▸ on_job_relays hcalls, rfl⟩
    · cases h
  | reallocated ok =>
    refine .inl ⟨?_, rfl⟩
    simp only [step] at h
    split at h
    · rename_i caller job rest hcalls
      rw [← Option.some.inj h]
      split_ifs
      · exact ⟨rfl, rfl, .same rfl rfl, le_rfl, rfl, rfl,
          await_polls (s := { s with m_seed := some job.seed_hash }) hcalls _⟩
      · exact failed_still hcalls
    · cases h
  | planned ok =>
    refine .inl ⟨?_, rfl⟩
    simp only [step] at h
    split at h
    · rename_i caller job rest hcalls
      rw [← Option.some.inj h]
      cases ok with
      | false => exact failed_still hcalls
      | true =>
        have hstart := (start_calls s).trans hcalls
        have hrelays := (start_still s).relays (apply_relays hstart)
        unfold sends
        rw [hcalls]
        exact hrelays
    · cases h
  | resume k =>
    simp only [step] at h
    split at h
    · rename_i caller o hk
      rw [← Option.some.inj h]
      rcases resume_relays hk with hstill | hreleases
      · exact .inl ⟨hstill, rfl⟩
      · exact .inr (.inl ⟨hreleases, rfl, rfl⟩)
    · cases h
  | start c ok =>
    refine .inl ⟨?_, rfl⟩
    simp only [step] at h
    split_ifs at h
    · exact Option.some.inj h ▸ (start_still s).trans (goTo_still s.start c .done)
    · exact Option.some.inj h ▸ caught_still s c
  | poll =>
    refine .inr (.inr ⟨?_, rfl⟩)
    simp only [step] at h
    split_ifs at h with hpoll
    obtain ⟨-, hjob, -, hfree⟩ := hpoll
    exact Option.some.inj h ▸ ⟨hfree, hjob, rfl, rfl, .same rfl rfl, rfl, rfl, rfl, rfl⟩
  | chunk reply => exact absurd rfl (ha reply)
  | mine t e =>
    refine .inl ⟨?_, rfl⟩
    simp only [step] at h
    split_ifs at h
    obtain ⟨rx_job, hrx, rfl⟩ := Option.map_eq_some_iff.mp h
    exact ⟨rfl, (thread_jobs hrx).1, ⟨rfl, (thread_jobs hrx).2⟩, le_rfl, rfl, rfl, rfl⟩
  | die => exact .inl ⟨Option.some.inj h ▸ ⟨rfl, rfl, .same rfl rfl, le_rfl, rfl, rfl, rfl⟩, rfl⟩
  | close => exact .inl ⟨Option.some.inj h ▸ shut_still s, rfl⟩

theorem queueRange_jobs (m : Miner V) (start limit : UInt32) :
    (m.queueRange start limit).jobs = m.jobs ∧
      (m.queueRange start limit).m_queued ⊆ m.m_queued ++ [⟨start, limit⟩] := by
  unfold Miner.queueRange
  split_ifs
  · exact ⟨rfl, List.subset_append_left _ _⟩
  · exact ⟨rfl, List.Subset.refl _⟩

/-- A range is queued if the answer is one and its generation is the one now. -/
structure Queues (s : NMinerClient V) (gen : ℕ) (s' : NMinerClient V) (range : NonceRange) :
    Prop where
  gen : gen = s.chunk_gen
  calls : s'.queue_ranges = s.queue_ranges ++ [range]
  queued : s'.rx_job.m_queued ⊆ s.rx_job.m_queued ++ [range]

/-- A request is answered: the flag is released, or `on_job` is called for the chunk. -/
structure Answers (s : NMinerClient V) (gen : ℕ) (s' : NMinerClient V) : Prop where
  m_job : s'.m_job = s.m_job
  jobs : s'.rx_job.jobs = s.rx_job.jobs
  queues : Unqueued s s' ∨ ∃ range, Queues s gen s' range
  chunk_gen : s'.chunk_gen = s.chunk_gen
  asked : s'.asked = none
  polls : s'.requesting_chunk = false ∧ s'.polls = s.polls ∨
    s'.requesting_chunk = s.requesting_chunk ∧ s'.polls = s.polls + 1

theorem answered_answers (s : NMinerClient V) (gen : ℕ) (reply : Chunk) :
    Answers s gen (s.answered gen reply) := by
  unfold answered
  dsimp only
  split_ifs with hgen
  · exact ⟨rfl, rfl, .inl (.same rfl rfl), rfl, rfl, .inl ⟨rfl, rfl⟩⟩
  · cases reply with
    | job job =>
      refine ⟨rfl, rfl, .inl (.same rfl rfl), rfl, rfl, .inr ⟨rfl, ?_⟩⟩
      simp only [polls, call, List.map_append, List.map_cons, List.map_nil, List.count_append,
        List.count_singleton_self]
      omega
    | range start_nonce nonce_limit =>
      obtain ⟨hjobs, hqueued⟩ := queueRange_jobs s.rx_job (.ofNat start_nonce)
        (.ofNat (nonce_limit.getD 0xFFFFFFFF))
      exact ⟨rfl, hjobs, .inr ⟨_, not_not.mp hgen, rfl, hqueued⟩, rfl, rfl, .inl ⟨rfl, rfl⟩⟩
    | nothing => exact ⟨rfl, rfl, .inl (.same rfl rfl), rfl, rfl, .inl ⟨rfl, rfl⟩⟩

end NMinerClient

namespace Polling

variable {V : Type} {hash : V → List UInt8 → List UInt8} {p q : Polling V}

/-! ### The requests and the flag -/

/-- The `job_id` of the job that was sent last. -/
def current (sent : Option RangedJob) : Option String := sent.map fun job => job.job_id

/-- The request whose answer the range is names the job sent last. -/
def Named (x : Queued) : Prop := ∃ r, x.request = some r ∧ current x.sent = some r.job_id

/-- The record holds every range that the client has queued, and the native queue no other. -/
structure Recorded (queued : List Queued) (s : NMinerClient V) : Prop where
  calls : queued.map Queued.range = s.queue_ranges
  queue : s.rx_job.m_queued ⊆ s.queue_ranges

theorem Recorded.unqueued {queued : List Queued} {s s' : NMinerClient V} (hs : Recorded queued s)
    (h : s.Unqueued s') : Recorded queued s' := by
  refine ⟨hs.calls.trans h.calls.symm, List.Subset.trans h.queued ?_⟩
  rw [h.calls]
  exact hs.queue

theorem Recorded.queues {queued : List Queued} {s s' : NMinerClient V} (hs : Recorded queued s)
    {gen : ℕ} {x : Queued} (h : s.Queues gen s' x.range) : Recorded (queued ++ [x]) s' := by
  refine ⟨?_, List.Subset.trans h.queued ?_⟩
  · rw [List.map_append, hs.calls, h.calls]
    rfl
  · rw [h.calls]
    refine List.append_subset.mpr ⟨List.subset_append_of_subset_left _ hs.queue, ?_⟩
    exact List.subset_append_right _ _

theorem note_unqueued {s : NMinerClient V} (h : p.client.Unqueued s)
    (request : Option ChunkRequest) : p.note s request = p.queued := by
  rw [note, h.calls, List.drop_length, List.map_nil, List.append_nil]

theorem note_queues {s : NMinerClient V} {gen : ℕ} {range : NonceRange}
    (h : p.client.Queues gen s range) (request : Option ChunkRequest) :
    p.note s request =
      p.queued ++ [{ range := range, request := request, sent := p.sent }] := by
  rw [note, h.calls, List.drop_left, List.map_singleton]

structure Sound (p : Polling V) : Prop where
  /-- The flag stands for one request or one call of `on_job` for a chunk. -/
  one : p.requests.length + p.client.polls = if p.client.requesting_chunk then 1 else 0
  asked : p.client.asked = p.requests.head?.map ChunkRequest.gen
  sent : p.sent = p.client.m_job
  native : p.client.rx_job.jobs.getLast?.map SendJob.blob =
    p.sent.map fun job => hexBuffer job.blob
  known : ∀ r ∈ p.requests, r.gen ≤ p.client.chunk_gen
  named : ∀ r ∈ p.requests, r.gen = p.client.chunk_gen → current p.sent = some r.job_id
  queued : ∀ x ∈ p.queued, Named x
  recorded : Recorded p.queued p.client

theorem Sound.requests_le_one (hp : p.Sound) : p.requests.length ≤ 1 := by
  have hone := hp.one
  split_ifs at hone <;> omega

theorem Sound.requests_eq_nil (hp : p.Sound) (hfree : p.client.requesting_chunk = false) :
    p.requests = [] ∧ p.client.polls = 0 := by
  have hone := hp.one
  rw [hfree, if_neg Bool.false_ne_true] at hone
  exact ⟨List.length_eq_zero_iff.mp (by omega), by omega⟩

/-- The step of the client sends a job, or leaves it as it is. -/
theorem Sound.relays (hp : p.Sound) {sent : Option RangedJob} {s : NMinerClient V}
    (h : p.client.Relays sent s) : Sound { p with client := s, sent := sent <|> p.sent } := by
  cases sent with
  | none =>
    refine ⟨?_, h.asked.trans hp.asked, hp.sent.trans h.m_job.symm, ?_,
      fun r hr => (hp.known r hr).trans h.chunk_gen, fun r hr hgen => ?_, hp.queued,
      hp.recorded.unqueued h.unqueued⟩
    · rw [h.polls, h.requesting]
      exact hp.one
    · rw [h.jobs]
      exact hp.native
    · refine hp.named r hr (le_antisymm (hp.known r hr) ?_)
      exact hgen ▸ h.chunk_gen
  | some job =>
    obtain ⟨j, hjobs, hblob⟩ := h.jobs
    refine ⟨?_, h.asked.trans hp.asked, h.m_job.symm, ?_,
      fun r hr => (hp.known r hr).trans h.chunk_gen.le, fun r hr hgen => ?_, hp.queued,
      hp.recorded.unqueued h.unqueued⟩
    · rw [h.polls, h.requesting]
      exact hp.one
    · rw [hjobs, List.getLast?_concat, Option.map_some, hblob]
      rfl
    · exact absurd hgen ((hp.known r hr).trans_lt h.chunk_gen).ne

theorem Sound.releases (hp : p.Sound) {s : NMinerClient V} (h : p.client.Releases s) :
    Sound { p with client := s } := by
  have hone := hp.one
  have hpolls := h.polls
  have hnone : p.requests = [] := List.length_eq_zero_iff.mp (by split_ifs at hone <;> omega)
  refine ⟨?_, h.asked.trans hp.asked, hp.sent.trans h.m_job.symm, ?_,
    fun r hr => (hp.known r hr).trans h.chunk_gen.ge,
    fun r hr hgen => hp.named r hr (hgen.trans h.chunk_gen), hp.queued,
    hp.recorded.unqueued h.unqueued⟩
  · rw [h.requesting, if_neg Bool.false_ne_true]
    change p.requests.length + s.polls = 0
    split_ifs at hone <;> omega
  · rw [h.jobs]
    exact hp.native

theorem Sound.asks (hp : p.Sound) {s : NMinerClient V} (h : p.client.Asks s) :
    Sound { p with client := s, requests := p.requests ++ (p.client.asks .poll).toList } := by
  obtain ⟨hnil, hpolls⟩ := hp.requests_eq_nil h.free
  obtain ⟨job, hjob⟩ := Option.isSome_iff_exists.mp h.some
  have hasks : p.client.asks .poll =
      some { gen := p.client.chunk_gen, job_id := job.job_id } := by
    rw [NMinerClient.asks, hjob, Option.map_some]
  rw [hnil, hasks]
  refine ⟨?_, h.asked, hp.sent.trans h.m_job.symm, ?_, fun r hr => ?_, fun r hr _ => ?_, hp.queued,
    hp.recorded.unqueued h.unqueued⟩
  · rw [h.polls, hpolls, h.requesting]
    rfl
  · rw [h.jobs]
    exact hp.native
  · obtain rfl := List.mem_singleton.mp hr
    exact h.chunk_gen.ge
  · obtain rfl := List.mem_singleton.mp hr
    change current p.sent = some job.job_id
    rw [hp.sent, hjob]
    rfl

/-- A range is queued while the job that the request named is the one sent last. -/
theorem Sound.note_answered (hp : p.Sound) {r : ChunkRequest} (hr : r ∈ p.requests)
    {s : NMinerClient V} (h : p.client.Answers r.gen s) :
    (∀ x ∈ p.note s (some r), Named x) ∧ Recorded (p.note s (some r)) s := by
  rcases h.queues with hun | ⟨range, hqueues⟩
  · rw [note_unqueued hun]
    exact ⟨hp.queued, hp.recorded.unqueued hun⟩
  · have hnamed : current p.sent = some r.job_id := hp.named r hr hqueues.gen
    rw [note_queues hqueues]
    refine ⟨List.forall_mem_append.mpr ⟨hp.queued, ?_⟩, hp.recorded.queues hqueues⟩
    exact List.forall_mem_singleton.mpr ⟨r, rfl, hnamed⟩

/-- An answer is that of the only request, and if it is taken the job of the request is still the
one sent last. -/
theorem Sound.reply (hp : p.Sound) {k : ℕ} (reply : Chunk) {r : ChunkRequest}
    (hk : p.requests[k]? = some r) : p.requests = [r] ∧ k = 0 ∧ p.client.asked = some r.gen ∧
      Sound { p with
        client := p.client.answered r.gen reply, requests := p.requests.eraseIdx k
        queued := p.note (p.client.answered r.gen reply) (some r) } := by
  have hle := hp.requests_le_one
  obtain ⟨hlt, hget⟩ := List.getElem?_eq_some_iff.mp hk
  obtain rfl : k = 0 := by omega
  obtain ⟨x, hx⟩ := List.length_eq_one_iff.mp (by omega : p.requests.length = 1)
  obtain rfl : x = r := by
    rw [hx] at hk
    exact Option.some.inj hk
  have hone := hp.one
  rw [hx, List.length_singleton] at hone
  have hanswers := p.client.answered_answers x.gen reply
  have hset : p.client.requesting_chunk = true := by
    by_contra hfree
    rw [if_neg hfree] at hone
    omega
  have hjob := hp.sent.trans hanswers.m_job.symm
  rw [hset, if_pos rfl] at hone
  obtain ⟨hnamed, hrecorded⟩ := hp.note_answered (List.mem_of_getElem? hk) hanswers
  refine ⟨hx, rfl, by rw [hp.asked, hx]; rfl, ?_, ?_, hjob, ?_, ?_, ?_, hnamed, hrecorded⟩
  · rw [hx]
    change 0 + (p.client.answered x.gen reply).polls = _
    rcases hanswers.polls with ⟨hfree, hpolls⟩ | ⟨hstill, hpolls⟩
    · rw [hfree, hpolls, if_neg Bool.false_ne_true]
      omega
    · rw [hstill, hset, hpolls, if_pos rfl]
      omega
  · rw [hx]
    exact hanswers.asked
  · rw [hanswers.jobs]
    exact hp.native
  · rw [hx]
    exact fun y hy => absurd hy List.not_mem_nil
  · rw [hx]
    exact fun y hy => absurd hy List.not_mem_nil

/-! ### Every step and every run -/

/-- A step keeps the books, and is a step of the client alone. -/
theorem step_sound {e : Event V} (hp : p.Sound) (h : p.step hash e = some q) :
    q.Sound ∧ p.client.step hash e.plain = some q.client := by
  cases e with
  | reply k reply =>
    obtain ⟨r, hk, rfl⟩ := Option.map_eq_some_iff.mp h
    obtain ⟨-, -, hasked, hsound⟩ := hp.reply reply hk
    refine ⟨hsound, ?_⟩
    change p.client.asked.map _ = _
    rw [hasked]
    rfl
  | client a =>
    by_cases ha : ∀ reply, a ≠ .chunk reply
    · have h : (p.client.step hash a).map (fun s =>
          { client := s, sent := p.client.sends a <|> p.sent
            requests := p.requests ++ (p.client.asks a).toList
            queued := p.note s none : Polling V }) = some q := by
        cases a with
        | chunk reply => exact absurd rfl (ha reply)
        | _ => exact h
      obtain ⟨s, hs, rfl⟩ := Option.map_eq_some_iff.mp h
      refine ⟨?_, hs⟩
      rcases NMinerClient.step_relays ha hs with
        ⟨hrelays, hasks⟩ | ⟨hreleases, hsends, hasks⟩ | ⟨hasks, rfl⟩
      · rw [hasks, Option.toList_none, List.append_nil, note_unqueued hrelays.unqueued]
        exact hp.relays hrelays
      · rw [hsends, hasks, Option.toList_none, List.append_nil, note_unqueued hreleases.unqueued]
        exact hp.releases hreleases
      · rw [note_unqueued hasks.unqueued]
        exact hp.asks hasks
    · obtain ⟨reply, hreply⟩ := not_forall.mp ha
      obtain rfl := not_not.mp hreply
      cases h

/-- What the constructor leaves. -/
def constructed (V : Type) (algo : String) (nicehash : Bool) : Polling V :=
  { client := NMinerClient.constructed V algo nicehash }

theorem constructed_sound (algo : String) (nicehash : Bool) :
    (constructed V algo nicehash).Sound :=
  ⟨rfl, rfl, rfl, rfl, List.forall_mem_nil _, List.forall_mem_nil _, List.forall_mem_nil _,
    ⟨rfl, List.nil_subset _⟩⟩

theorem run_sound {algo : String} {nicehash : Bool} {events : List (Event V)}
    (hrun : exec (step hash) (constructed V algo nicehash) events = some p) : p.Sound :=
  exec_preserves (fun _ _ _ hp h => (step_sound hp h).1) (constructed_sound algo nicehash) hrun

/-- The runs are those of the client. -/
theorem plain_run {events : List (Event V)} (hp : p.Sound)
    (hrun : exec (step hash) p events = some q) :
    exec (NMinerClient.step hash) p.client (events.map Event.plain) = some q.client := by
  induction events generalizing p with
  | nil => exact congrArg (Option.map Polling.client) hrun
  | cons e events ih =>
    obtain ⟨m, hm, hrest⟩ := exec_cons_eq_some.mp hrun
    obtain ⟨hsound, hstep⟩ := step_sound hp hm
    exact exec_cons_eq_some.mpr ⟨m.client, hstep, ih hsound hrest⟩

/-- There is never more than one request for a chunk. Every range that is queued, so every range in
the native queue, is the answer to a request, and goes to `queue_range` while the job sent last,
which is the native one, has the `job_id` that the request named. -/
theorem queued_for_current (algo : String) (nicehash : Bool) (events : List (Event V))
    (p : Polling V) (hrun : exec (step hash) (constructed V algo nicehash) events = some p) :
    p.requests.length ≤ 1 ∧
      p.queued.map Queued.range = p.client.queue_ranges ∧
      (∀ range ∈ p.client.rx_job.m_queued, ∃ x ∈ p.queued, x.range = range) ∧
      (∀ x ∈ p.queued, ∃ r job,
        x.request = some r ∧ x.sent = some job ∧ job.job_id = r.job_id) ∧
      p.client.rx_job.jobs.getLast?.map SendJob.blob =
        p.sent.map fun job => hexBuffer job.blob := by
  have hsound := run_sound hrun
  refine ⟨hsound.requests_le_one, hsound.recorded.calls, fun range hrange => ?_, fun x hx => ?_,
    hsound.native⟩
  · refine List.mem_map.mp ?_
    rw [hsound.recorded.calls]
    exact hsound.recorded.queue hrange
  · obtain ⟨r, hrequest, hcurrent⟩ := hsound.queued x hx
    obtain ⟨job, hjob, hid⟩ := Option.map_eq_some_iff.mp hcurrent
    exact ⟨r, job, hrequest, hjob, hid⟩

/-- A job with a range of its own. -/
def rangedJob : RangedJob :=
  { NMinerClient.firstJob with start_nonce := some 0, nonce_limit := some 5000 }

/-- A connection that has logged in with this job and mines it. -/
def mining : List (Action.Client ℕ) :=
  NMinerClient.loggingIn 0 rangedJob ++ [.reallocated true, .planned true, .resume 0, .start 0 true]

/-- A chunk is asked for and queued; the next answer comes after another job and is not. -/
def chunked : List (Event ℕ) :=
  mining.map Event.client ++
    [.client .poll, .reply 0 (.range 5000 (some 9000)), .client .poll,
      .client (.job 0 { rangedJob with job_id := "2" }), .client .lock,
      .reply 0 (.range 9000 none)]

theorem queued_for_current_range : ∃ p, exec (step fun _ _ => [])
    (constructed ℕ "rx/0" false) chunked = some p ∧
    p.queued = [{ range := ⟨5000, 9000⟩, request := some ⟨1, "1"⟩, sent := some rangedJob }] ∧
    ∀ x ∈ p.queued, ∃ r job, x.request = some r ∧ x.sent = some job ∧ job.job_id = r.job_id := by
  have hany : (exec (step fun _ _ => []) (constructed ℕ "rx/0" false) chunked).any (fun p =>
      p.queued = [{ range := ⟨5000, 9000⟩, request := some ⟨1, "1"⟩, sent := some rangedJob }]) =
        true := by decide +kernel
  obtain ⟨p, hrun, hp⟩ := (Option.any_eq_true _ _).mp hany
  exact ⟨p, hrun, of_decide_eq_true hp, (queued_for_current _ _ _ p hrun).2.2.2.1⟩

end Polling

end NMiner
