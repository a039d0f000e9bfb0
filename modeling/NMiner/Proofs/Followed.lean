import NMiner.Proofs.Jobs
import NMiner.Spec.Client

/-! The native job follows `on_job`: after each `on_job` that returns `true`, the blob and the
target of `rx_job` are those of the job, and a share found then goes out under its `job_id`. It
fails where `on_job` takes a job with another target for the one it has, and where threads run while
`m_versions` is still empty after the `clear` of `reconnect`. -/

namespace NMiner

open Transition

/-! ### One call of `SendJob` -/

namespace Miner

variable {V : Type} {hash : V → List UInt8 → List UInt8}

theorem send_job_spec {m m' : Miner V} {j : SendJob} {diff : UInt64} {version : UInt32}
    (h : m.send_job j = some (m', diff, version)) :
    m'.m_blob = j.bytes ∧ m'.m_target = j.target ∧ m'.m_job_version = version := by
  unfold send_job at h
  split_ifs at h with hreject
  obtain ⟨rfl, -, rfl⟩ := h
  have hsend : m.send j = { m with
      m_blob := j.bytes, m_target := j.target, jobs := m.jobs ++ [j]
      sending := some (.nicehash, j) } := if_neg hreject
  rw [hsend]
  exact ⟨rfl, rfl, rfl⟩

/-- The call takes the stores of `SendJob` one after the other. -/
theorem exec_send_job {m m' : Miner V} {j : SendJob} {diff : UInt64} {version : UInt32}
    (hidle : m.sending = none) (h : m.send_job j = some (m', diff, version)) :
    exec (step hash) m [.send j, .store, .store, .store, .store] = some m' := by
  unfold send_job at h
  split_ifs at h with hreject
  obtain ⟨rfl, -, -⟩ := h
  have hsend : m.send j = { m with
      m_blob := j.bytes, m_target := j.target, jobs := m.jobs ++ [j]
      sending := some (.nicehash, j) } := if_neg hreject
  simp only [exec, step, hidle, if_true, Option.bind_some, hsend, Option.map_some, store]

end Miner

/-! ### `m_versions` -/

namespace NMinerClient

theorem lookup_map_set {versions : List (UInt32 × Tracked)} {version : UInt32} (t : Tracked)
    (h : (versions.lookup version).isSome = true) :
    (versions.map fun e => if e.1 = version then (version, t) else e).lookup version =
      some t := by
  induction versions with
  | nil => simp at h
  | cons e rest ih =>
    rw [List.map_cons]
    by_cases he : e.1 = version
    · rw [if_pos he, List.lookup_cons_self]
    · have hne : (version == e.1) = false := beq_eq_false_iff_ne.mpr (Ne.symm he)
      rw [if_neg he, List.lookup_cons, hne]
      rw [List.lookup_cons, hne] at h
      exact ih h

/-- The version that is tracked last is kept, whatever has to go. -/
theorem track_version_spec {versions : List (UInt32 × Tracked)} (hsize : versions.length ≤ 16)
    (version : UInt32) (t : Tracked) :
    (track_version versions version t).lookup version = some t ∧
      (track_version versions version t).length ≤ 16 := by
  unfold track_version
  cases hlookup : (versions.lookup version).isSome with
  | true =>
    simp only [if_true, List.length_map]
    have hnone : versions.length - 16 = 0 := by omega
    rw [hnone, List.drop_zero, List.length_map]
    exact ⟨lookup_map_set t hlookup, hsize⟩
  | false =>
    have hnew : (versions.drop (versions.length + 1 - 16)).lookup version = none := by
      have hold : versions.lookup version = none :=
        Option.not_isSome_iff_eq_none.mp (by simp [hlookup])
      rw [List.lookup_eq_none_iff] at hold ⊢
      exact fun e he => hold e (List.mem_of_mem_drop he)
    simp only [Bool.false_eq_true, if_false, List.length_append, List.length_singleton]
    have hle : versions.length + 1 - 16 ≤ versions.length := by omega
    rw [List.drop_append_of_le_length hle]
    constructor
    · rw [List.lookup_append, hnew, Option.none_or, List.lookup_cons_self]
    · rw [List.length_append, List.length_drop, List.length_singleton]
      omega

variable {V : Type} {hash : V → List UInt8 → List UInt8}

/-! ### Steps that leave the job alone -/

/-- Neither the native job nor what JS knows of it changes, and no thread is started. -/
structure Quiet (s s' : NMinerClient V) : Prop where
  m_job : s'.m_job = s.m_job
  m_versions : s'.m_versions = s.m_versions
  followed : s'.followed = s.followed
  blob : s'.rx_job.m_blob = s.rx_job.m_blob
  target : s'.rx_job.m_target = s.rx_job.m_target
  version : s'.rx_job.m_job_version = s.rx_job.m_job_version
  running : s'.running = true → s.running = true

theorem Quiet.refl (s : NMinerClient V) : Quiet s s := ⟨rfl, rfl, rfl, rfl, rfl, rfl, id⟩

theorem Quiet.trans {s s' s'' : NMinerClient V} (h : Quiet s s') (h' : Quiet s' s'') :
    Quiet s s'' :=
  ⟨h'.m_job.trans h.m_job, h'.m_versions.trans h.m_versions, h'.followed.trans h.followed,
    h'.blob.trans h.blob, h'.target.trans h.target, h'.version.trans h.version,
    fun hrun => h.running (h'.running hrun)⟩

theorem schedule_reconnect_quiet (s : NMinerClient V) : Quiet s s.schedule_reconnect := by
  unfold schedule_reconnect
  split_ifs
  · exact Quiet.refl s
  · exact ⟨rfl, rfl, rfl, rfl, rfl, rfl, id⟩

theorem stop_quiet (s : NMinerClient V) : Quiet s s.stop :=
  ⟨rfl, rfl, rfl, rfl, rfl, rfl, fun hrun => absurd hrun Bool.false_ne_true⟩

theorem closeStratum_quiet (s : NMinerClient V) (c : StratumId) : Quiet s (s.closeStratum c) := by
  unfold closeStratum
  cases s.stratums[c]? with
  | none => exact Quiet.refl s
  | some stratum =>
    dsimp only
    split_ifs
    · exact Quiet.refl s
    · refine Quiet.trans ?_ (schedule_reconnect_quiet _)
      exact ⟨rfl, rfl, rfl, rfl, rfl, rfl, fun hrun => absurd hrun Bool.false_ne_true⟩
    · exact ⟨rfl, rfl, rfl, rfl, rfl, rfl, id⟩

theorem goTo_quiet (s : NMinerClient V) (c : StratumId) (r : Reconnect) : Quiet s (s.goTo c r) :=
  ⟨rfl, rfl, rfl, rfl, rfl, rfl, id⟩

theorem caught_quiet (s : NMinerClient V) (c : StratumId) : Quiet s (s.caught c) := by
  have hgo := goTo_quiet s c .done
  unfold caught
  dsimp only
  cases (s.goTo c .done).stratum with
  | none => exact hgo.trans (schedule_reconnect_quiet _)
  | some c' => exact hgo.trans (closeStratum_quiet _ c')

theorem apply_algo_quiet {s s' : NMinerClient V} {job : RangedJob}
    (h : s.apply_algo job = some s') : Quiet s s' := by
  unfold apply_algo at h
  cases hjob : job.algo with
  | none =>
    rw [hjob] at h
    exact Option.some.inj h ▸ Quiet.refl s
  | some algo =>
    rw [hjob] at h
    dsimp only at h
    split_ifs at h
    · exact Option.some.inj h ▸ Quiet.refl s
    · exact Option.some.inj h ▸ ⟨rfl, rfl, rfl, rfl, rfl, rfl, id⟩

theorem failed_quiet (s : NMinerClient V) (caller : Caller) : Quiet s (s.failed caller) := by
  unfold failed
  cases s.stratum with
  | none => exact ⟨rfl, rfl, rfl, rfl, rfl, rfl, id⟩
  | some c => exact (closeStratum_quiet s c).trans ⟨rfl, rfl, rfl, rfl, rfl, rfl, id⟩

theorem resumed_quiet (s : NMinerClient V) (caller : Caller) (o : Outcome) :
    Quiet s (s.resumed caller o) := by
  cases caller with
  | job c =>
    cases o with
    | returned b => exact Quiet.refl s
    | thrown => exact closeStratum_quiet s c
  | reconnect c =>
    cases o with
    | returned b => cases b <;> exact ⟨rfl, rfl, rfl, rfl, rfl, rfl, id⟩
    | thrown => exact caught_quiet s c
  | poll => exact ⟨rfl, rfl, rfl, rfl, rfl, rfl, id⟩

theorem loggedIn_quiet (s : NMinerClient V) (c : StratumId) (job : RangedJob) :
    Quiet s (s.loggedIn c job) := by
  unfold loggedIn
  cases halgo : s.apply_algo job with
  | none => exact (goTo_quiet s c .done).trans (closeStratum_quiet _ c)
  | some s' => exact (apply_algo_quiet halgo).trans ⟨rfl, rfl, rfl, rfl, rfl, rfl, id⟩

theorem onJobEvent_quiet (s : NMinerClient V) (c : StratumId) (job : RangedJob) :
    Quiet s (s.onJobEvent c job) := by
  unfold onJobEvent
  split_ifs
  · exact Quiet.refl s
  · cases halgo : s.apply_algo job with
    | none => exact closeStratum_quiet s c
    | some s' => exact (apply_algo_quiet halgo).trans ⟨rfl, rfl, rfl, rfl, rfl, rfl, id⟩

theorem queueRange_frame (m : Miner V) (start limit : UInt32) :
    (m.queueRange start limit).m_blob = m.m_blob ∧
      (m.queueRange start limit).m_target = m.m_target ∧
      (m.queueRange start limit).m_job_version = m.m_job_version := by
  unfold Miner.queueRange
  split_ifs <;> exact ⟨rfl, rfl, rfl⟩

theorem answered_quiet (s : NMinerClient V) (gen : ℕ) (reply : Chunk) :
    Quiet s (s.answered gen reply) := by
  unfold answered
  dsimp only
  split_ifs
  · exact ⟨rfl, rfl, rfl, rfl, rfl, rfl, id⟩
  · cases reply with
    | job job => exact ⟨rfl, rfl, rfl, rfl, rfl, rfl, id⟩
    | range start_nonce nonce_limit =>
      obtain ⟨hblob, htarget, hversion⟩ := queueRange_frame s.rx_job (UInt32.ofNat start_nonce)
        (UInt32.ofNat (nonce_limit.getD 0xFFFFFFFF))
      exact ⟨rfl, rfl, rfl, hblob, htarget, hversion, id⟩
    | nothing => exact ⟨rfl, rfl, rfl, rfl, rfl, rfl, id⟩

theorem shut_quiet (s : NMinerClient V) : Quiet s s.shut := by
  unfold shut
  split_ifs
  · exact Quiet.refl s
  · have hleft : Quiet s { ({ s with closed := true, reconnecting := false }.stop_chunk_poll.stop)
        with stratum := none } :=
      ⟨rfl, rfl, rfl, rfl, rfl, rfl, fun hrun => absurd hrun Bool.false_ne_true⟩
    dsimp only
    cases s.stratum with
    | none => exact hleft
    | some c => exact hleft.trans (closeStratum_quiet _ c)

theorem thread_frame {m m' : Miner V} {t : ThreadId} {e : Event V}
    (h : m.step hash (.thread t e) = some m') : m'.m_blob = m.m_blob ∧
      m'.m_target = m.m_target ∧ m'.m_job_version = m.m_job_version := by
  simp only [Miner.step, Option.bind_eq_some_iff, Option.map_eq_some_iff] at h
  obtain ⟨seen, hseen, l, -, rfl⟩ := h
  rcases Miner.see_cases hseen with rfl | rfl <;> exact ⟨rfl, rfl, rfl⟩

/-! ### The condition and the invariant -/

/-- `SendJob` does not throw for the job. -/
def accepted (job : RangedJob) : Bool :=
  kNonceOffset + 4 < ((hexBuffer job.blob).take kMaxBlobSize).length ∧ job.native_target ≠ 0

/-- `SendJob` does not cut the blob short. -/
def fits (job : RangedJob) : Bool := (hexBuffer job.blob).length ≤ kMaxBlobSize

/-- A version has been tracked since the last `clear`, or no job has ever been applied. -/
def tracked (s : NMinerClient V) : Bool := s.m_versions ≠ [] ∨ s.m_job = none

/-- The condition on a step. -/
def matched (s : NMinerClient V) : Action.Client V → Bool
  | .measured _ ok => ok = false ∨ s.running = false ∨ s.m_job = none
  | .start _ ok => ok = false ∨ s.tracked
  | .lock => match s.calls with
    | (_, job, .lock) :: _ =>
      if s.identical job then s.m_job.map RangedJob.native_target = some job.native_target
      else s.stale job ∨ accepted job = false ∨ fits job
    | _ => true
  | .planned ok => match s.calls with
    | (_, job, .plan_threads) :: _ => ok = false ∨ if accepted job then fits job else s.tracked
    | _ => true
  | _ => true

/-- The native job is this one, and the version it has stands for it, unless no version has been
tracked since the last `clear` and no thread runs that would stamp one. -/
structure Follows (s : NMinerClient V) (job : RangedJob) : Prop where
  blob : s.rx_job.m_blob = hexBuffer job.blob
  target : s.rx_job.m_target = job.native_target
  stamp : (s.m_versions.lookup s.rx_job.m_job_version).map Tracked.job_id = some job.job_id ∨
    s.m_versions = [] ∧ s.running = false

structure Kept (s : NMinerClient V) : Prop where
  follows : ∀ job ∈ s.followed, s.Follows job
  current : ∀ job, s.m_job = some job → job ∈ s.followed
  fresh : s.m_job = none → s.followed = []
  size : s.m_versions.length ≤ 16

theorem Quiet.kept {s s' : NMinerClient V} (h : Quiet s s') (hs : s.Kept) : s'.Kept := by
  refine ⟨fun job hjob => ?_, ?_, ?_, h.m_versions ▸ hs.size⟩
  · have hfollows := hs.follows job (h.followed ▸ hjob)
    refine ⟨h.blob.trans hfollows.blob, h.target.trans hfollows.target, ?_⟩
    rw [h.m_versions, h.version]
    refine hfollows.stamp.imp_right fun hnone => ⟨hnone.1, ?_⟩
    exact Bool.eq_false_iff.mpr fun hrun => absurd (h.running hrun) (by simp [hnone.2])
  · rw [h.m_job, h.followed]
    exact hs.current
  · rw [h.m_job, h.followed]
    exact hs.fresh

theorem start_kept {s : NMinerClient V} (hs : s.Kept) (htracked : s.tracked = true) :
    s.start.Kept := by
  unfold start
  split_ifs with hrun
  · exact hs
  · refine ⟨fun job hjob => ?_, hs.current, hs.fresh, hs.size⟩
    have hfollows := hs.follows job hjob
    refine ⟨hfollows.blob, hfollows.target, Or.inl ?_⟩
    rcases hfollows.stamp with hstamp | ⟨hempty, -⟩
    · exact hstamp
    · have hnone : s.m_job = none := by simpa [tracked, hempty] using htracked
      rw [hs.fresh hnone] at hjob
      exact absurd hjob List.not_mem_nil

theorem start_m_versions (s : NMinerClient V) : s.start.m_versions = s.m_versions := by
  unfold start
  split_ifs <;> rfl

theorem sending_rejected (s : NMinerClient V) (job : RangedJob) :
    s.rx_job.send_job (s.sending job) = none ↔ accepted job = false := by
  unfold Miner.send_job
  split_ifs with hreject
  · refine iff_of_true rfl (Bool.eq_false_iff.mpr fun haccepted => ?_)
    obtain ⟨hlong, hnonzero⟩ := of_decide_eq_true haccepted
    rcases hreject with hshort | hzero
    · exact absurd hlong (not_lt.mpr hshort)
    · exact hnonzero hzero
  · refine iff_of_false (by simp) fun haccepted => hreject ?_
    rw [accepted, decide_eq_false_iff_not, not_and_or, not_lt, not_not] at haccepted
    exact haccepted

/-- A job that `SendJob` accepts is the native job, tracked under its version. -/
theorem apply_accepted {s : NMinerClient V} (hsize : s.m_versions.length ≤ 16) (caller : Caller)
    {job : RangedJob} (haccepted : accepted job = true) (hfits : fits job = true) :
    (s.apply caller job).Kept := by
  unfold apply
  cases hsend : s.rx_job.send_job (s.sending job) with
  | none =>
    rw [(sending_rejected s job).mp hsend] at haccepted
    exact absurd haccepted Bool.false_ne_true
  | some sent =>
    obtain ⟨rx_job, diff, version⟩ := sent
    obtain ⟨hblob, htarget, hversion⟩ := Miner.send_job_spec hsend
    obtain ⟨hlookup, hsize'⟩ := track_version_spec hsize version ⟨job.job_id, diff⟩
    have hbytes : (s.sending job).bytes = hexBuffer job.blob :=
      List.take_of_length_le (of_decide_eq_true hfits)
    dsimp only
    have hkept : Kept { s with
        rx_job := rx_job, m_versions := track_version s.m_versions version ⟨job.job_id, diff⟩
        m_job := some job, followed := [job] } := by
      refine ⟨fun job' hjob' => ?_, ?_, fun he => (by cases he), hsize'⟩
      · rw [List.mem_singleton.mp hjob']
        refine ⟨hblob.trans hbytes, htarget, Or.inl ?_⟩
        dsimp only
        rw [hversion, hlookup]
        rfl
      · intro job' hjob'
        exact List.mem_singleton.mpr (Option.some.inj hjob').symm
    refine Quiet.kept ?_ hkept
    split_ifs <;> exact ⟨rfl, rfl, rfl, rfl, rfl, rfl, id⟩

theorem apply_rejected (s : NMinerClient V) (caller : Caller) {job : RangedJob}
    (haccepted : accepted job = false) : Quiet s (s.apply caller job) := by
  unfold apply
  rw [(sending_rejected s job).mpr haccepted]
  exact ⟨rfl, rfl, rfl, rfl, rfl, rfl, id⟩

theorem apply_kept {s : NMinerClient V} (hs : s.Kept) (caller : Caller) {job : RangedJob}
    (h : accepted job = false ∨ fits job = true) : (s.apply caller job).Kept := by
  cases haccepted : accepted job with
  | true =>
    rw [haccepted] at h
    exact apply_accepted hs.size caller haccepted (h.resolve_left (by simp))
  | false => exact (apply_rejected s caller haccepted).kept hs

/-- An identical job has the native job's blob and id; its target is to be compared too. -/
theorem identical_kept {s : NMinerClient V} (hs : s.Kept) (caller : Caller) {job : RangedJob}
    (hidentical : s.identical job = true)
    (htarget : s.m_job.map RangedJob.native_target = some job.native_target) :
    ({ s with followed := job :: s.followed }.settle caller (.returned true)).Kept := by
  obtain ⟨m, hm, htarget⟩ := Option.map_eq_some_iff.mp htarget
  have hsame : m.job_id = job.job_id ∧ m.blob = job.blob ∧ m.start_nonce = job.start_nonce := by
    unfold identical at hidentical
    rw [hm] at hidentical
    exact of_decide_eq_true hidentical
  have hfollows := hs.follows m (hs.current m hm)
  refine ⟨fun job' hjob' => ?_, ?_, ?_, hs.size⟩
  · rcases List.mem_cons.mp hjob' with rfl | hold
    · refine ⟨hfollows.blob.trans (by rw [hsame.2.1]), hfollows.target.trans htarget, ?_⟩
      rw [← hsame.1]
      exact hfollows.stamp
    · exact ⟨(hs.follows job' hold).blob, (hs.follows job' hold).target,
        (hs.follows job' hold).stamp⟩
  · exact fun job' hjob' => List.mem_cons_of_mem _ (hs.current job' hjob')
  · intro hnone
    rw [show s.m_job = none from hnone] at hm
    cases hm

theorem on_job_kept {s : NMinerClient V} (hs : s.Kept) (caller : Caller) {job : RangedJob}
    (hmatched : if s.identical job then
        s.m_job.map RangedJob.native_target = some job.native_target
      else s.stale job ∨ accepted job = false ∨ fits job) :
    (s.on_job caller job).Kept := by
  unfold on_job
  split_ifs at hmatched ⊢ with hidentical hstale
  · exact identical_kept hs caller hidentical hmatched
  · refine Quiet.kept ?_ hs
    exact ⟨rfl, rfl, rfl, rfl, rfl, rfl, fun hrun => absurd hrun Bool.false_ne_true⟩
  · exact apply_kept hs caller (hmatched.resolve_left hstale)

theorem planned_kept {s : NMinerClient V} (hs : s.Kept) (caller : Caller) {job : RangedJob}
    (hmatched : if accepted job then fits job else s.tracked) :
    (s.start.apply caller job).Kept := by
  cases haccepted : accepted job with
  | true =>
    rw [haccepted, if_pos rfl] at hmatched
    exact apply_accepted (start_m_versions s ▸ hs.size) caller haccepted hmatched
  | false =>
    rw [haccepted, if_neg Bool.false_ne_true] at hmatched
    exact (apply_rejected s.start caller haccepted).kept (start_kept hs hmatched)

theorem measured_kept {s : NMinerClient V} (hs : s.Kept) (c : StratumId)
    (hmatched : s.running = false ∨ s.m_job = none) :
    Kept { s.setStratum c (fun stratum => { stratum with attached := true, at_ := .login }) with
      m_versions := [] } := by
  refine ⟨fun job hjob => ?_, hs.current, hs.fresh, Nat.zero_le _⟩
  have hfollows := hs.follows job hjob
  refine ⟨hfollows.blob, hfollows.target, Or.inr ⟨rfl, ?_⟩⟩
  refine hmatched.resolve_right fun hnone => ?_
  have hjob' : job ∈ s.followed := hjob
  rw [hs.fresh hnone] at hjob'
  exact absurd hjob' List.not_mem_nil

theorem step_kept (s : NMinerClient V) (a : Action.Client V) (s' : NMinerClient V) (hs : s.Kept)
    (hmatched : s.matched a = true) (hstep : s.step hash a = some s') : s'.Kept := by
  cases a with
  | reconnect =>
    simp only [step] at hstep
    split_ifs at hstep
    all_goals
      obtain rfl := Option.some.inj hstep
      exact Quiet.kept (s := s) ⟨rfl, rfl, rfl, rfl, rfl, rfl, id⟩ hs
  | connected c ok =>
    simp only [step] at hstep
    split_ifs at hstep
    · obtain rfl := Option.some.inj hstep
      refine Quiet.kept (Quiet.trans ?_ (closeStratum_quiet _ c)) hs
      exact ⟨rfl, rfl, rfl, rfl, rfl, rfl, id⟩
    · exact Option.some.inj hstep ▸ Quiet.kept (s := s) ⟨rfl, rfl, rfl, rfl, rfl, rfl, id⟩ hs
    · exact Option.some.inj hstep ▸ (caught_quiet s c).kept hs
  | measured c ok =>
    simp only [step] at hstep
    split_ifs at hstep with hat hok
    · have hfree : s.running = false ∨ s.m_job = none := by
        simpa [matched, hok] using hmatched
      exact Option.some.inj hstep ▸ measured_kept hs c hfree
    · exact Option.some.inj hstep ▸ (caught_quiet s c).kept hs
  | login c reply =>
    simp only [step] at hstep
    split at hstep
    · split_ifs at hstep
      obtain ⟨job, -, rfl⟩ := Option.map_eq_some_iff.mp hstep
      exact (loggedIn_quiet s c job).kept hs
    · cases hstep
  | refused c =>
    simp only [step] at hstep
    split_ifs at hstep
    exact Option.some.inj hstep ▸ (caught_quiet s c).kept hs
  | job c job =>
    simp only [step] at hstep
    split at hstep
    · split_ifs at hstep
      · obtain rfl := Option.some.inj hstep
        refine Quiet.kept (Quiet.trans ?_ (onJobEvent_quiet _ c job)) hs
        exact ⟨rfl, rfl, rfl, rfl, rfl, rfl, id⟩
      · obtain rfl := Option.some.inj hstep
        exact Quiet.kept (s := s) ⟨rfl, rfl, rfl, rfl, rfl, rfl, id⟩ hs
    · cases hstep
  | hangUp c =>
    simp only [step] at hstep
    split_ifs at hstep
    exact Option.some.inj hstep ▸ (closeStratum_quiet s c).kept hs
  | lock =>
    simp only [step] at hstep
    split at hstep
    · rename_i caller job rest hcalls
      obtain rfl := Option.some.inj hstep
      refine on_job_kept hs caller ?_
      simpa [matched, hcalls] using hmatched
    · cases hstep
  | reallocated ok =>
    simp only [step] at hstep
    split at hstep
    · rename_i caller job rest hcalls
      obtain rfl := Option.some.inj hstep
      split_ifs
      · exact Quiet.kept (s := s) ⟨rfl, rfl, rfl, rfl, rfl, rfl, id⟩ hs
      · exact (failed_quiet s caller).kept hs
    · cases hstep
  | planned ok =>
    simp only [step] at hstep
    split at hstep
    · rename_i caller job rest hcalls
      obtain rfl := Option.some.inj hstep
      split_ifs with hok
      · refine planned_kept hs caller ?_
        simpa [matched, hcalls, hok] using hmatched
      · exact (failed_quiet s caller).kept hs
    · cases hstep
  | resume k =>
    simp only [step] at hstep
    split at hstep
    · rename_i caller o hk
      obtain rfl := Option.some.inj hstep
      refine Quiet.kept (Quiet.trans ?_ (resumed_quiet _ caller o)) hs
      exact ⟨rfl, rfl, rfl, rfl, rfl, rfl, id⟩
    · cases hstep
  | start c ok =>
    simp only [step] at hstep
    split_ifs at hstep with hat hok
    · have htracked : s.tracked = true := by simpa [matched, hok] using hmatched
      obtain rfl := Option.some.inj hstep
      exact (goTo_quiet s.start c .done).kept (start_kept hs htracked)
    · exact Option.some.inj hstep ▸ (caught_quiet s c).kept hs
  | poll =>
    simp only [step] at hstep
    split_ifs at hstep
    exact Option.some.inj hstep ▸ Quiet.kept (s := s) ⟨rfl, rfl, rfl, rfl, rfl, rfl, id⟩ hs
  | chunk reply =>
    obtain ⟨gen, -, rfl⟩ := Option.map_eq_some_iff.mp hstep
    exact (answered_quiet s gen reply).kept hs
  | mine t e =>
    simp only [step] at hstep
    split_ifs at hstep
    obtain ⟨rx_job, hrx, rfl⟩ := Option.map_eq_some_iff.mp hstep
    obtain ⟨hblob, htarget, hversion⟩ := thread_frame hrx
    exact Quiet.kept (s := s) ⟨rfl, rfl, rfl, hblob, htarget, hversion, id⟩ hs
  | die => exact Option.some.inj hstep ▸ (stop_quiet s).kept hs
  | close => exact Option.some.inj hstep ▸ (shut_quiet s).kept hs

/-! ### The condition is exact -/

theorem exists_current {s : NMinerClient V} (hs : s.Kept) (h : s.m_job ≠ none) :
    ∃ job ∈ s.followed, s.Follows job ∧ s.m_job = some job := by
  obtain ⟨job, hjob⟩ := Option.ne_none_iff_exists'.mp h
  have hmem := hs.current job hjob
  exact ⟨job, hmem, hs.follows job hmem, hjob⟩

/-- Threads that run without a tracked version have nothing their shares go out under. -/
theorem untracked_breaks {s : NMinerClient V} (hs : s.Kept) (h : s.tracked = false) :
    ∃ job ∈ s.start.followed, ¬ s.start.Follows job := by
  rw [tracked, decide_eq_false_iff_not, not_or, not_not] at h
  obtain ⟨job, hmem, -, -⟩ := exists_current hs h.2
  have hmem' : job ∈ s.start.followed := by
    unfold start
    split_ifs <;> exact hmem
  refine ⟨job, hmem', fun hfollows => ?_⟩
  have hrunning : s.start.running = true := by
    unfold start
    split_ifs with hrun
    · exact hrun
    · rfl
  rcases hfollows.stamp with hstamp | ⟨-, hidle⟩
  · rw [start_m_versions, h.1, List.lookup_nil] at hstamp
    exact Option.some_ne_none _ hstamp.symm
  · rw [hrunning] at hidle
    exact absurd hidle (by simp)

/-- A blob that is cut short is not the job's. -/
theorem unfit_breaks (s : NMinerClient V) (caller : Caller) {job : RangedJob}
    (haccepted : accepted job = true) (hfits : fits job = false) :
    ∃ j ∈ (s.apply caller job).followed, ¬ (s.apply caller job).Follows j := by
  unfold apply
  cases hsend : s.rx_job.send_job (s.sending job) with
  | none =>
    rw [(sending_rejected s job).mp hsend] at haccepted
    exact absurd haccepted Bool.false_ne_true
  | some sent =>
    obtain ⟨rx_job, diff, version⟩ := sent
    obtain ⟨hblob, -, -⟩ := Miner.send_job_spec hsend
    have hcut : rx_job.m_blob ≠ hexBuffer job.blob := by
      intro hsame
      have hlong := of_decide_eq_false hfits
      have hlength : ((hexBuffer job.blob).take kMaxBlobSize).length =
          (hexBuffer job.blob).length := congrArg List.length (hblob.symm.trans hsame)
      rw [List.length_take] at hlength
      omega
    refine ⟨job, ?_, fun hfollows => hcut ?_⟩
    · dsimp only
      split_ifs <;> exact List.mem_singleton_self job
    · have hnative := hfollows.blob
      dsimp only at hnative
      split_ifs at hnative <;> exact hnative

/-- The first step that is not matched ends in a state in which the client does not follow its last
job. -/
theorem unmatched_breaks {s s' : NMinerClient V} {a : Action.Client V} (hs : s.Kept)
    (hmatched : s.matched a = false) (hstep : s.step hash a = some s') :
    ∃ job ∈ s'.followed, ¬ s'.Follows job := by
  cases a with
  | measured c ok =>
    simp only [matched, decide_eq_false_iff_not, not_or, Bool.not_eq_false] at hmatched
    obtain ⟨hok, hrunning, hjob⟩ := hmatched
    simp only [step, hok, if_true] at hstep
    split_ifs at hstep
    obtain rfl := Option.some.inj hstep
    obtain ⟨job, hmem, -, -⟩ := exists_current hs hjob
    refine ⟨job, hmem, fun hfollows => ?_⟩
    rcases hfollows.stamp with hstamp | ⟨-, hidle⟩
    · exact Option.some_ne_none _ hstamp.symm
    · have hidle' : s.running = false := hidle
      rw [hrunning] at hidle'
      exact absurd hidle' (by simp)
  | start c ok =>
    simp only [matched, decide_eq_false_iff_not, not_or, Bool.not_eq_false,
      Bool.not_eq_true] at hmatched
    obtain ⟨hok, htracked⟩ := hmatched
    simp only [step, hok, if_true] at hstep
    split_ifs at hstep
    obtain rfl := Option.some.inj hstep
    obtain ⟨job, hmem, hnot⟩ := untracked_breaks hs htracked
    exact ⟨job, hmem, fun hfollows => hnot ⟨hfollows.blob, hfollows.target, hfollows.stamp⟩⟩
  | lock =>
    simp only [step] at hstep
    split at hstep
    · rename_i caller job rest hcalls
      obtain rfl := Option.some.inj hstep
      simp only [matched, hcalls] at hmatched
      unfold on_job
      split_ifs at hmatched ⊢ with hidentical hstale
      · obtain ⟨m, hm⟩ : ∃ m, s.m_job = some m := by
          refine Option.ne_none_iff_exists'.mp fun hnone => ?_
          simp [identical, hnone] at hidentical
        refine ⟨job, List.mem_cons_self, fun hfollows => ?_⟩
        have hnative := (hs.follows m (hs.current m hm)).target
        have htarget : s.rx_job.m_target = job.native_target := hfollows.target
        rw [hm, Option.map_some, decide_eq_false_iff_not, Option.some.injEq] at hmatched
        exact hmatched (hnative.symm.trans htarget)
      · simp [hstale] at hmatched
      · simp only [hstale, Bool.false_eq_true, false_or, decide_eq_false_iff_not, not_or,
          Bool.not_eq_false, Bool.not_eq_true] at hmatched
        exact unfit_breaks s caller hmatched.1 hmatched.2
    · cases hstep
  | planned ok =>
    simp only [step] at hstep
    split at hstep
    · rename_i caller job rest hcalls
      obtain rfl := Option.some.inj hstep
      simp only [matched, hcalls, decide_eq_false_iff_not, not_or, Bool.not_eq_false] at hmatched
      obtain ⟨hok, hmatched⟩ := hmatched
      rw [if_pos hok]
      cases haccepted : accepted job with
      | true =>
        rw [haccepted, if_pos rfl, Bool.not_eq_true] at hmatched
        exact unfit_breaks s.start caller haccepted hmatched
      | false =>
        rw [haccepted, if_neg Bool.false_ne_true, Bool.not_eq_true] at hmatched
        obtain ⟨job', hmem, hnot⟩ := untracked_breaks hs hmatched
        have hquiet := apply_rejected s.start caller haccepted
        refine ⟨job', hquiet.followed ▸ hmem, fun hfollows => hnot ?_⟩
        have hrunning : (s.start.apply caller job).running = s.start.running := by
          unfold apply
          rw [(sending_rejected s.start job).mpr haccepted]
          rfl
        refine ⟨hquiet.blob ▸ hfollows.blob, hquiet.target ▸ hfollows.target, ?_⟩
        have hstamp := hfollows.stamp
        rwa [hquiet.m_versions, hquiet.version, hrunning] at hstamp
    · cases hstep
  | _ => exact absurd hmatched (by simp [matched])

/-- What the constructor leaves. -/
def constructed (V : Type) (algo : String) (nicehash : Bool) : NMinerClient V :=
  { algo := algo, nicehash := nicehash, variant := algo }

theorem run_kept {algo : String} {nicehash : Bool} {actions : List (Action.Client V)}
    {s : NMinerClient V}
    (hmatched : Meets (step hash) (fun s a => s.matched a = true) (constructed V algo nicehash)
      actions)
    (hrun : exec (step hash) (constructed V algo nicehash) actions = some s) : s.Kept := by
  refine exec_invariant step_kept ⟨?_, ?_, fun _ => rfl, Nat.zero_le _⟩ hmatched hrun
  · exact fun job hjob => absurd hjob List.not_mem_nil
  · exact fun job hjob => absurd hjob (Option.some_ne_none job).symm

/-- Whenever `on_job` has returned `true` for a job and no later one has been applied, the native
job is that job, and a share of a running thread is submitted under its `job_id`. -/
theorem on_job_followed (algo : String) (nicehash : Bool) (actions : List (Action.Client V))
    (s : NMinerClient V)
    (hmatched : Meets (step hash) (fun s a => s.matched a = true) (constructed V algo nicehash)
      actions)
    (hrun : exec (step hash) (constructed V algo nicehash) actions = some s) :
    ∀ job ∈ s.followed, s.Follows job ∧ (s.running = true →
      s.share s.rx_job.m_job_version ≠ .expired ∧
        ∀ c, s.stratum = some c → s.share s.rx_job.m_job_version = .submit c job.job_id) := by
  intro job hjob
  have hfollows := (run_kept hmatched hrun).follows job hjob
  refine ⟨hfollows, fun hrunning => ?_⟩
  have hstamp := hfollows.stamp.resolve_right (by simp [hrunning])
  obtain ⟨t, hlookup, hid⟩ := Option.map_eq_some_iff.mp hstamp
  unfold share
  rw [hlookup]
  refine ⟨?_, fun c hc => ?_⟩
  · cases s.stratum <;> simp
  · simp [hc, hid]

/-- A job of 76 bytes, and the next one of the same pool. -/
def firstJob : RangedJob :=
  { blob := String.ofList (List.replicate 152 '0'), target := "ffff0000", job_id := "1"
    seed_hash := "aa" }

def secondJob : RangedJob :=
  { firstJob with blob := String.ofList (List.replicate 152 '1'), job_id := "2" }

/-- A connection that logs in with a job, up to the lock of `on_job`. -/
def loggingIn (c : StratumId) (job : RangedJob) : List (Action.Client ℕ) :=
  [.reconnect, .connected c true, .measured c true, .login c (some job), .lock]

/-- A first connection; it is lost, and the next one logs in with this job. -/
def reconnected (job : RangedJob) : List (Action.Client ℕ) :=
  loggingIn 0 firstJob ++
    [.reallocated true, .planned true, .resume 0, .start 0 true, .hangUp 0] ++
    loggingIn 1 job ++ [.resume 0, .start 1 true]

def ran (actions : List (Action.Client ℕ)) : Option (NMinerClient ℕ) :=
  exec (step fun _ _ => []) (constructed ℕ "rx/0" false) actions

theorem on_job_followed_reconnected : ∃ s, ran (reconnected secondJob) = some s ∧
    s.running = true ∧ s.followed = [secondJob] ∧
    s.share s.rx_job.m_job_version = .submit 1 secondJob.job_id := by
  have hmatched : Meets (step fun _ _ => []) (fun s a => s.matched a = true)
      (constructed ℕ "rx/0" false) (reconnected secondJob) := by decide +kernel
  have hany : (ran (reconnected secondJob)).any (fun s => s.running = true ∧
      s.followed = [secondJob] ∧ s.stratum = some 1) = true := by decide +kernel
  obtain ⟨s, hrun, hs⟩ := (Option.any_eq_true _ _).mp hany
  obtain ⟨hrunning, hfollowed, hstratum⟩ := of_decide_eq_true hs
  obtain ⟨-, hshare⟩ := on_job_followed _ _ _ s hmatched hrun secondJob (by simp [hfollowed])
  exact ⟨s, hrun, hrunning, hfollowed, (hshare hrunning).2 1 hstratum⟩

/-- After a reconnect with the same job the threads run, and their shares are dropped as expired. -/
theorem on_job_forgets_version : ¬ ∀ actions s, ran actions = some s → ∀ job ∈ s.followed,
    s.running = true → (s.m_versions.lookup s.rx_job.m_job_version).map Tracked.job_id =
      some job.job_id := by
  intro h
  have hany : (ran (reconnected firstJob)).any (fun s => s.running = true ∧
      firstJob ∈ s.followed ∧ s.m_versions = []) = true := by decide +kernel
  obtain ⟨s, hrun, hs⟩ := (Option.any_eq_true _ _).mp hany
  obtain ⟨hrunning, hjob, hempty⟩ := of_decide_eq_true hs
  have hstamp := h _ s hrun firstJob hjob hrunning
  rw [hempty, List.lookup_nil] at hstamp
  exact Option.some_ne_none _ hstamp.symm

end NMinerClient

end NMiner
