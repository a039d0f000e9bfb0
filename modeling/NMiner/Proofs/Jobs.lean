import NMiner.Proofs.Pipeline
import NMiner.Proofs.Ranges
import NMiner.Spec.Miner

/-! A nonce is hashed against the job it was drawn for, as long as each draw takes a nonce that
the job of the thread has installed and each `WriteNonce` finds the flags of that job. -/

namespace NMiner

open Transition

/-! ### Draws -/

def NonceRange.Has (r : NonceRange) (n : UInt32) : Prop := r.start ≤ n ∧ n < r.limit

/-- All that the cursor and the queue still hold lies in these ranges. -/
structure Within (rs : List NonceRange) (packed : UInt64) (queued : List NonceRange) : Prop where
  current : ∀ n, currentOf packed ≤ n → n < limitOf packed → ∃ r ∈ rs, r.Has n
  queued : ∀ r ∈ queued, r ∈ rs

theorem Within.pack {rs queued : List NonceRange} {r : NonceRange} (hr : r ∈ rs)
    (hqueued : ∀ r ∈ queued, r ∈ rs) : Within rs (pack_range r.start r.limit) queued := by
  refine ⟨fun n hle hlt => ⟨r, hr, ?_⟩, hqueued⟩
  rw [currentOf_pack] at hle
  rw [limitOf_pack] at hlt
  exact ⟨hle, hlt⟩

theorem Within.mono {rs rs' queued : List NonceRange} {packed : UInt64}
    (h : Within rs packed queued) (hrs : ∀ r ∈ rs, r ∈ rs') : Within rs' packed queued := by
  refine ⟨fun n hle hlt => ?_, fun r hr => hrs r (h.queued r hr)⟩
  obtain ⟨r, hr, hhas⟩ := h.current n hle hlt
  exact ⟨r, hrs r hr, hhas⟩

theorem Within.draw {rs queued : List NonceRange} {packed : UInt64} (h : Within rs packed queued)
    (hlt : currentOf packed < limitOf packed) :
    Within rs (pack_range (currentOf packed + 1) (limitOf packed)) queued ∧
      ∃ r ∈ rs, r.Has (currentOf packed) := by
  refine ⟨⟨fun n hle hn => ?_, h.queued⟩, h.current _ UInt32.le_rfl hlt⟩
  rw [currentOf_pack] at hle
  rw [limitOf_pack] at hn
  refine h.current n (UInt32.le_trans ?_ hle) hn
  rw [UInt32.le_iff_toNat_le, toNat_succ hlt]
  omega

/-- A draw takes a nonce of the ranges, and leaves the others. -/
theorem nextNonce_within {rs queued : List NonceRange} {packed : UInt64}
    (h : Within rs packed queued) :
    Within rs (nextNonce packed queued).2.1 (nextNonce packed queued).2.2 ∧
      ∀ n, (nextNonce packed queued).1 = some n → ∃ r ∈ rs, r.Has n := by
  induction queued generalizing packed with
  | nil =>
    unfold nextNonce
    split_ifs with hlt
    · obtain ⟨hwithin, hhas⟩ := h.draw hlt
      refine ⟨hwithin, fun n hn => ?_⟩
      exact Option.some.inj hn ▸ hhas
    · exact ⟨h, by simp⟩
  | cons next rest ih =>
    unfold nextNonce
    split_ifs with hlt
    · obtain ⟨hwithin, hhas⟩ := h.draw hlt
      refine ⟨hwithin, fun n hn => ?_⟩
      exact Option.some.inj hn ▸ hhas
    · refine ih (Within.pack (h.queued next List.mem_cons_self) ?_)
      exact fun r hr => h.queued r (List.mem_cons_of_mem _ hr)

namespace Miner

variable {V : Type} {hash : V → List UInt8 → List UInt8}

/-! ### Jobs and ranges -/

/-- The number of the `SendJob`s that have returned. -/
def completed (m : Miner V) : ℕ := if m.sending.isSome then m.jobs.length - 1 else m.jobs.length

/-- The input holds a nonce of the ranges of its `SendJob`, in the blob of that job, with the rule,
the target and the version of that job. -/
structure RightFor (m : Miner V) (i : Input V) (j : SendJob) : Prop where
  sent : 1 ≤ i.source
  job : m.jobs[i.source - 1]? = some j
  version : i.version = UInt32.ofNat i.source
  target : i.target = j.target
  blob : i.blob = writeNonce j.masked j.bytes i.nonce
  range : ∃ r ∈ m.ranges i.source, r.Has i.nonce

/-- The condition on a step: a draw takes a nonce that the job of the thread has installed, and
`WriteNonce` finds the flags of that job. -/
def timely (m : Miner V) : Action V → Bool
  | .thread t (.nonce (some (_, source))) => (m.threads t).job = source
  | .thread t (.flags nicehash ranged) => match m.jobs[(m.threads t).job - 1]? with
    | some j => (nicehash && !ranged) = j.masked
    | none => true
  | _ => true

/-- The bytes are those of the job's blob, but for the nonce. -/
def Bears (j : SendJob) (bytes : List UInt8) : Prop :=
  bytes = j.bytes ∨ ∃ n, bytes = writeNonce j.masked j.bytes n

/-- The job a thread has copied. -/
structure Copied (m : Miner V) (l : Loop V) (j : SendJob) : Prop where
  sent : 1 ≤ l.job
  completed : l.job ≤ m.completed
  job : m.jobs[l.job - 1]? = some j
  long : kNonceOffset + 4 ≤ j.bytes.length
  size : l.size = j.bytes.length
  target : l.target = j.target
  cur : Bears j (l.cur.take l.size)
  nxt : l.is_first = false → Bears j (l.nxt.take l.size)

/-- What holds of a mining thread. -/
structure Keeps (hash : V → List UInt8 → List UInt8) (m : Miner V) (l : Loop V) : Prop where
  piped : l.Pipelined hash
  inputs : ∀ i ∈ l.inputs, ∃ j, m.RightFor i j
  copied : l.size = 0 ∨ ∃ j, m.Copied l j
  drawing : l.pc = .draw → l.size ≠ 0 → l.version = UInt32.ofNat l.job ∨ l.job < m.completed
  writing : ∀ n source, l.pc = .write n source →
    source = l.job ∧ l.version = UInt32.ofNat l.job ∧ ∃ r ∈ m.ranges l.job, r.Has n

/-- The jobs and the ranges only grow. -/
structure Later (m m' : Miner V) : Prop where
  jobs : ∃ js, m'.jobs = m.jobs ++ js
  completed : m.completed ≤ m'.completed
  ranges : ∀ v, ∀ r ∈ m.ranges v, r ∈ m'.ranges v

theorem Later.job {m m' : Miner V} (h : m.Later m') {k : ℕ} {j : SendJob}
    (hk : m.jobs[k]? = some j) : m'.jobs[k]? = some j := by
  obtain ⟨js, hjs⟩ := h.jobs
  obtain ⟨hlt, -⟩ := List.getElem?_eq_some_iff.mp hk
  rw [hjs, List.getElem?_append_left hlt, hk]

theorem Keeps.mono {m m' : Miner V} (hm : m.Later m') {l : Loop V} (h : m.Keeps hash l) :
    m'.Keeps hash l := by
  have hrange : ∀ v n, (∃ r ∈ m.ranges v, r.Has n) → ∃ r ∈ m'.ranges v, r.Has n := by
    rintro v n ⟨r, hr, hhas⟩
    exact ⟨r, hm.ranges v r hr, hhas⟩
  refine ⟨h.piped, ?_, ?_, ?_, ?_⟩
  · intro i hi
    obtain ⟨j, hj⟩ := h.inputs i hi
    exact ⟨j, hj.sent, hm.job hj.job, hj.version, hj.target, hj.blob, hrange _ _ hj.range⟩
  · rcases h.copied with hzero | ⟨j, hj⟩
    · exact Or.inl hzero
    · exact Or.inr ⟨j, hj.sent, hj.completed.trans hm.completed, hm.job hj.job, hj.long, hj.size,
        hj.target, hj.cur, hj.nxt⟩
  · intro hpc hsize
    exact (h.drawing hpc hsize).imp_right fun hlt => hlt.trans_le hm.completed
  · intro n source hpc
    obtain ⟨hsource, hversion, hhas⟩ := h.writing n source hpc
    exact ⟨hsource, hversion, hrange _ _ hhas⟩

/-! ### Steps of a thread -/

theorem Keeps.copied_same {m : Miner V} {l l' : Loop V} (h : m.Keeps hash l)
    (hjob : l'.job = l.job) (hsize : l'.size = l.size) (htarget : l'.target = l.target)
    (hcur : l'.cur = l.cur) (hnxt : l'.nxt = l.nxt)
    (hfirst : l'.is_first = false → l.is_first = false) : l'.size = 0 ∨ ∃ j, m.Copied l' j := by
  rcases h.copied with hzero | ⟨j, hj⟩
  · exact Or.inl (hsize.trans hzero)
  · refine Or.inr ⟨j, ?_, ?_, ?_, hj.long, ?_, ?_, ?_, ?_⟩
    · rw [hjob]
      exact hj.sent
    · rw [hjob]
      exact hj.completed
    · rw [hjob]
      exact hj.job
    · rw [hsize, hj.size]
    · rw [htarget, hj.target]
    · rw [hcur, hsize]
      exact hj.cur
    · rw [hnxt, hsize]
      exact fun hnot => hj.nxt (hfirst hnot)

/-- A step that leaves the job and the buffers alone, and is not about to draw or to write. -/
theorem Keeps.same {m : Miner V} {l l' : Loop V} (h : m.Keeps hash l) (hpiped : l'.Pipelined hash)
    (hinputs : l'.inputs = l.inputs) (hjob : l'.job = l.job) (hsize : l'.size = l.size)
    (htarget : l'.target = l.target) (hcur : l'.cur = l.cur) (hnxt : l'.nxt = l.nxt)
    (hfirst : l'.is_first = false → l.is_first = false) (hdraw : l'.pc ≠ .draw)
    (hwrite : l'.pc.pending = []) : m.Keeps hash l' := by
  refine ⟨hpiped, hinputs ▸ h.inputs, h.copied_same hjob hsize htarget hcur hnxt hfirst,
    fun hpc => absurd hpc hdraw, ?_⟩
  intro n source hpc
  rw [hpc] at hwrite
  exact absurd hwrite (List.cons_ne_nil _ _)

theorem flush_frame (hash : V → List UInt8 → List UInt8) (l : Loop V) :
    (Loop.flush hash l).inputs = l.inputs ∧ (Loop.flush hash l).job = l.job ∧
      (Loop.flush hash l).size = l.size ∧ (Loop.flush hash l).target = l.target ∧
      (Loop.flush hash l).cur = l.cur ∧ (Loop.flush hash l).nxt = l.nxt ∧
      ((Loop.flush hash l).is_first = false → l.is_first = false) := by
  unfold Loop.flush
  cases l.vm with
  | none => exact ⟨rfl, rfl, rfl, rfl, rfl, rfl, id⟩
  | some vm =>
    dsimp only
    split_ifs
    · exact ⟨rfl, rfl, rfl, rfl, rfl, rfl, id⟩
    · exact ⟨rfl, rfl, rfl, rfl, rfl, rfl, by simp⟩

/-- The same after a flush. -/
theorem Keeps.flushed {m : Miner V} {l l' : Loop V} (h : m.Keeps hash l)
    (hpiped : l'.Pipelined hash) (hinputs : l'.inputs = (Loop.flush hash l).inputs)
    (hjob : l'.job = (Loop.flush hash l).job) (hsize : l'.size = (Loop.flush hash l).size)
    (htarget : l'.target = (Loop.flush hash l).target) (hcur : l'.cur = (Loop.flush hash l).cur)
    (hnxt : l'.nxt = (Loop.flush hash l).nxt)
    (hfirst : l'.is_first = (Loop.flush hash l).is_first) (hdraw : l'.pc ≠ .draw)
    (hwrite : l'.pc.pending = []) : m.Keeps hash l' := by
  obtain ⟨finputs, fjob, fsize, ftarget, fcur, fnxt, ffirst⟩ := flush_frame hash l
  exact h.same hpiped (hinputs.trans finputs) (hjob.trans fjob) (hsize.trans fsize)
    (htarget.trans ftarget) (hcur.trans fcur) (hnxt.trans fnxt) (fun hnot => ffirst (hfirst ▸ hnot))
    hdraw hwrite

/-- Writing a nonce into a buffer that bears the job's blob. -/
theorem Bears.write {j : SendJob} {buffer : List UInt8} {n : ℕ} (hlong : kNonceOffset + 4 ≤ n)
    (hroom : n ≤ buffer.length) (hbytes : j.bytes.length = n) (h : Bears j (buffer.take n))
    (nonce : UInt32) :
    (writeNonce j.masked buffer nonce).take n = writeNonce j.masked j.bytes nonce := by
  rw [take_writeNonce j.masked hlong hroom]
  rcases h with hbuffer | ⟨old, hbuffer⟩
  · rw [hbuffer]
  · rw [hbuffer, writeNonce_writeNonce j.masked (hlong.trans hbytes.ge)]

/-- The input that is loaded when a thread writes a nonce of its job. -/
theorem RightFor.of_write {m : Miner V} {l : Loop V} {j : SendJob} (hj : m.Copied l j)
    {nonce : UInt32} {source : ℕ} (hsource : source = l.job)
    (hversion : l.version = UInt32.ofNat l.job) (hhas : ∃ r ∈ m.ranges l.job, r.Has nonce) (vm : V)
    {blob : List UInt8} (hblob : blob = writeNonce j.masked j.bytes nonce) :
    m.RightFor ⟨vm, nonce, blob, l.target, l.version, source⟩ j := by
  subst hsource
  exact ⟨hj.sent, hj.job, hversion, hj.target, hblob, hhas⟩

theorem flags_keeps {m : Miner V} {l l' : Loop V} (h : m.Keeps hash l) {nicehash ranged : Bool}
    (htimely : ∀ j, m.jobs[l.job - 1]? = some j → (nicehash && !ranged) = j.masked)
    (hstep : l.step hash (.flags nicehash ranged) = some l') : m.Keeps hash l' := by
  have hpiped := Loop.step_pipelined l _ l' h.piped hstep
  simp only [Loop.step] at hstep
  split at hstep
  · rename_i nonce source vm hpc hvm
    obtain ⟨hsource, hversion, hhas⟩ := h.writing nonce source hpc
    have hsize : l.size ≠ 0 := h.piped.sized (by rw [hpc]; exact List.cons_ne_nil _ _)
    rcases h.copied with hzero | ⟨j, hj⟩
    · exact absurd hzero hsize
    · have hlong : kNonceOffset + 4 ≤ l.size := hj.size ▸ hj.long
      rw [htimely j hj.job, Option.some.injEq] at hstep
      have hcur := Bears.write hlong h.piped.room hj.size.symm hj.cur nonce
      cases hfirst : l.is_first with
      | true =>
        rw [hfirst, if_pos rfl] at hstep
        subst hstep
        refine ⟨hpiped, ?_, Or.inr ⟨j, hj.sent, hj.completed, hj.job, hj.long, hj.size, hj.target,
          Or.inr ⟨nonce, hcur⟩, fun _ => Or.inr ⟨nonce, ?_⟩⟩, by simp [Loop.first],
          by simp [Loop.first]⟩
        · intro i hi
          rcases List.mem_append.mp hi with hi | hi
          · exact h.inputs i hi
          · rw [List.mem_singleton.mp hi]
            exact ⟨j, RightFor.of_write hj hsource hversion hhas vm.id hcur⟩
        · have hlen : ((writeNonce j.masked l.cur nonce).take l.size).length = l.size :=
            List.length_take_of_le (h.piped.room.trans (length_writeNonce _ _ _))
          have htake := take_memcpy l.nxt ((writeNonce j.masked l.cur nonce).take l.size)
          rw [hlen] at htake
          exact htake.trans hcur
      | false =>
        rw [hfirst] at hstep
        simp only [Bool.false_eq_true, if_false] at hstep
        subst hstep
        rcases h.piped.stage with hflushed | ⟨vm', i', hl⟩
        · rw [hflushed.is_first] at hfirst
          exact absurd hfirst (by simp)
        · have hnxt := Bears.write hlong hl.room hj.size.symm (hj.nxt hfirst) nonce
          refine ⟨hpiped, ?_, Or.inr ⟨j, hj.sent, hj.completed, hj.job, hj.long, hj.size, hj.target,
            Or.inr ⟨nonce, ?_⟩, fun _ => Or.inr ⟨nonce, hnxt⟩⟩, by simp [Loop.next],
            by simp [Loop.next]⟩
          · intro i hi
            rcases List.mem_append.mp hi with hi | hi
            · exact h.inputs i hi
            · rw [List.mem_singleton.mp hi]
              exact ⟨j, RightFor.of_write hj hsource hversion hhas vm.id hnxt⟩
          · have hlen : ((writeNonce j.masked l.nxt nonce).take l.size).length = l.size :=
              List.length_take_of_le (hl.room.trans (length_writeNonce _ _ _))
            have htake := take_memcpy l.cur ((writeNonce j.masked l.nxt nonce).take l.size)
            rw [hlen] at htake
            exact htake.trans hnxt
  · exact absurd hstep (by simp)

/-! ### The shared memory -/

/-- The shared memory agrees with the `SendJob`s so far, and each thread keeps to its job. -/
structure Sorted (hash : V → List UInt8 → List UInt8) (m : Miner V) : Prop where
  version : m.m_job_version = UInt32.ofNat m.completed
  blob : m.jobs = [] ∧ m.m_blob = [] ∨ ∃ j, m.jobs.getLast? = some j ∧
    m.m_blob = j.bytes ∧ m.m_target = j.target
  long : ∀ j ∈ m.jobs, kNonceOffset + 4 ≤ j.bytes.length
  begun : m.sending ≠ none → m.jobs ≠ []
  source : m.completed ≤ m.source ∧ m.source ≤ m.jobs.length
  stored : ∀ j, m.sending = some (.version, j) → m.source = m.jobs.length
  within : Within (m.ranges m.source) m.m_range m.m_queued
  threads : ∀ t, m.Keeps hash (m.threads t)

theorem see_cases {m m' : Miner V} {t : ThreadId} {e : Event V} (h : m.see t e = some m') :
    m' = m ∨ m' = { m with
      m_range := (nextNonce m.m_range m.m_queued).2.1
      m_queued := (nextNonce m.m_range m.m_queued).2.2 } := by
  cases e with
  | acquired vm => exact Or.inl (Option.some.inj h).symm
  | active b => exact Or.inl (Option.some.inj h).symm
  | updating b => exact Or.inl (Option.some.inj h).symm
  | version v =>
    simp only [see] at h
    split_ifs at h
    exact Or.inl (Option.some.inj h).symm
  | copied blob target version job =>
    simp only [see] at h
    split_ifs at h
    exact Or.inl (Option.some.inj h).symm
  | nonce n =>
    simp only [see] at h
    split_ifs at h
    · exact Or.inl (Option.some.inj h).symm
    · exact Or.inr (Option.some.inj h).symm
  | flags nicehash ranged =>
    simp only [see] at h
    split_ifs at h
    exact Or.inl (Option.some.inj h).symm

/-- The copy under `m_job_mutex` takes the last job whole. -/
theorem copied_keeps {m : Miner V} (hm : m.Sorted hash) {l l' : Loop V} (h : m.Keeps hash l)
    (hidle : m.sending = none)
    (hstep : l.step hash (.copied m.m_blob m.m_target m.m_job_version m.jobs.length) = some l') :
    m.Keeps hash l' := by
  have hpiped := Loop.step_pipelined l _ l' h.piped hstep
  have hcompleted : m.completed = m.jobs.length := by simp [completed, hidle]
  simp only [Loop.step] at hstep
  split at hstep
  · rename_i hpc
    rw [Option.some.injEq] at hstep
    subst hstep
    refine ⟨hpiped, h.inputs, ?_, ?_, by simp⟩
    · rcases hm.blob with ⟨-, hblob⟩ | ⟨j, hlast, hblob, htarget⟩
      · exact Or.inl (by simp [hblob])
      · have hget : m.jobs[m.jobs.length - 1]? = some j := List.getLast?_eq_getElem? ▸ hlast
        have hmem : j ∈ m.jobs := List.mem_of_getLast? hlast
        refine Or.inr ⟨j, List.length_pos_of_mem hmem, hcompleted.ge, hget, hm.long j hmem,
          by simp only [hblob], htarget, Or.inl ?_, ?_⟩
        · simp only [take_memcpy, hblob]
        · intro hfirst
          have hflushed := (h.piped.flushed_of_idle (by rw [hpc]; rfl)).flushed
          rw [hflushed.is_first] at hfirst
          exact absurd hfirst (by simp)
    · intro _ _
      exact Or.inl (hcompleted ▸ hm.version)
  · exact absurd hstep (by simp)

/-- A draw from the ranges that the job of the thread has installed. -/
theorem nonce_keeps {m : Miner V} (hm : m.Sorted hash) {l l' : Loop V} (h : m.Keeps hash l)
    {nonce : UInt32} (hdrawn : (nextNonce m.m_range m.m_queued).1 = some nonce)
    (htimely : l.job = m.source) (hstep : l.step hash (.nonce (some (nonce, m.source))) = some l') :
    m.Keeps hash l' := by
  have hpiped := Loop.step_pipelined l _ l' h.piped hstep
  obtain ⟨r, hr, hhas⟩ := (nextNonce_within hm.within).2 nonce hdrawn
  simp only [Loop.step] at hstep
  split at hstep
  · rename_i hpc hnone
    exact absurd hnone (by simp)
  · rename_i nonce' source hpc hsome
    rw [Option.some.injEq, Prod.mk.injEq] at hsome
    obtain ⟨rfl, rfl⟩ := hsome
    split_ifs at hstep with hsize
    rw [Option.some.injEq] at hstep
    subst hstep
    refine ⟨hpiped, h.inputs, h.copied_same rfl rfl rfl rfl rfl id, by simp, ?_⟩
    intro n source hwrite
    simp only [Pc.write.injEq] at hwrite
    obtain ⟨rfl, rfl⟩ := hwrite
    refine ⟨htimely.symm, ?_, r, htimely ▸ hr, hhas⟩
    rcases h.drawing hpc hsize with hversion | hlt
    · exact hversion
    · rw [htimely] at hlt
      exact absurd hlt (not_lt_of_ge hm.source.1)
  · exact absurd hstep (by simp)

theorem loop_keeps {m m' : Miner V} (hm : m.Sorted hash) {t : ThreadId} {e : Event V} {l' : Loop V}
    (htimely : m.timely (.thread t e) = true) (hsee : m.see t e = some m')
    (hstep : (m.threads t).step hash e = some l') : m.Keeps hash l' := by
  have h := hm.threads t
  have hpiped := Loop.step_pipelined _ e l' h.piped hstep
  have hstep' := hstep
  cases e with
  | acquired vm =>
    simp only [Loop.step] at hstep
    split at hstep
    · rw [Option.some.injEq] at hstep
      subst hstep
      exact h.same hpiped rfl rfl rfl rfl rfl rfl id (by simp) rfl
    · rename_i again vm hpc
      rw [Option.some.injEq] at hstep
      subst hstep
      cases again with
      | true => exact h.same hpiped rfl rfl rfl rfl rfl rfl id (by simp) rfl
      | false => exact h.same hpiped rfl rfl rfl rfl rfl rfl id (by simp) rfl
    · exact absurd hstep (by simp)
  | active b =>
    simp only [Loop.step] at hstep
    split at hstep
    · rw [Option.some.injEq] at hstep
      subst hstep
      cases b with
      | true => exact h.same hpiped rfl rfl rfl rfl rfl rfl id (by simp) rfl
      | false => exact h.flushed hpiped rfl rfl rfl rfl rfl rfl rfl (by simp) rfl
    · exact absurd hstep (by simp)
  | updating b =>
    simp only [Loop.step] at hstep
    split at hstep
    · rw [Option.some.injEq] at hstep
      subst hstep
      cases b with
      | true => exact h.flushed hpiped rfl rfl rfl rfl rfl rfl rfl (by simp) rfl
      | false => exact h.same hpiped rfl rfl rfl rfl rfl rfl id (by simp) rfl
    · exact absurd hstep (by simp)
  | version v =>
    have hv : v = m.m_job_version := by
      simp only [see] at hsee
      split_ifs at hsee with hv
      exact hv
    simp only [Loop.step] at hstep
    split at hstep
    · rw [Option.some.injEq] at hstep
      subst hstep
      exact h.same hpiped rfl rfl rfl rfl rfl rfl id (by simp) rfl
    · rw [Option.some.injEq] at hstep
      split_ifs at hstep with hother
      · subst hstep
        exact h.flushed hpiped rfl rfl rfl rfl rfl rfl rfl (by simp) rfl
      · -- the version is the present one; the job copied is that of it or an older one
        subst hstep
        have hsame : (m.threads t).version = UInt32.ofNat m.completed :=
          (not_not.mp hother).trans (hv.trans hm.version)
        refine ⟨hpiped, h.inputs, h.copied_same rfl rfl rfl rfl rfl id, fun _ hsize => ?_, by simp⟩
        rcases h.copied with hzero | ⟨j, hj⟩
        · exact absurd hzero hsize
        · rcases hj.completed.lt_or_eq with hlt | heq
          · exact Or.inr hlt
          · exact Or.inl (heq ▸ hsame)
    · exact absurd hstep (by simp)
  | copied blob target version job =>
    simp only [see] at hsee
    split_ifs at hsee with hall
    obtain ⟨hidle, rfl, rfl, rfl, rfl⟩ := hall
    exact copied_keeps hm h hidle hstep'
  | nonce n =>
    cases n with
    | none =>
      simp only [Loop.step] at hstep
      split at hstep
      · rw [Option.some.injEq] at hstep
        subst hstep
        exact h.flushed hpiped rfl rfl rfl rfl rfl rfl rfl (by simp) rfl
      · rename_i hsome
        exact absurd hsome (by simp)
      · exact absurd hstep (by simp)
    | some p =>
      obtain ⟨nonce, source⟩ := p
      simp only [see] at hsee
      split_ifs at hsee with hidle hnone hdrawn
      · exact absurd hnone (by simp)
      · obtain ⟨n, hn, heq⟩ := Option.map_eq_some_iff.mp hdrawn.symm
        rw [Prod.mk.injEq] at heq
        obtain ⟨rfl, rfl⟩ := heq
        exact nonce_keeps hm h hn (of_decide_eq_true htimely) hstep'
  | flags nicehash ranged =>
    refine flags_keeps h ?_ hstep'
    intro j hj
    simp only [timely, hj] at htimely
    exact of_decide_eq_true htimely

theorem thread_sorted {m m' : Miner V} (hm : m.Sorted hash) {t : ThreadId} {e : Event V}
    {l : Loop V} (htimely : m.timely (.thread t e) = true) (hsee : m.see t e = some m')
    (hstep : (m.threads t).step hash e = some l) :
    Sorted hash { m' with threads := Function.update m'.threads t l } := by
  have hl := loop_keeps hm htimely hsee hstep
  have hthreads : ∀ u, m.Keeps hash (Function.update m.threads t l u) := by
    intro u
    by_cases hu : u = t
    · rw [hu, Function.update_self]
      exact hl
    · rw [Function.update_of_ne hu]
      exact hm.threads u
  have hwithin := (nextNonce_within hm.within).1
  have hlater : ∀ packed queued threads, m.Later
      { m with m_range := packed, m_queued := queued, threads := threads } :=
    fun _ _ _ => ⟨⟨[], (List.append_nil _).symm⟩, le_rfl, fun _ _ hr => hr⟩
  rcases see_cases hsee with rfl | rfl
  · exact ⟨hm.version, hm.blob, hm.long, hm.begun, hm.source, hm.stored, hm.within,
      fun u => (hthreads u).mono (hlater _ _ _)⟩
  · exact ⟨hm.version, hm.blob, hm.long, hm.begun, hm.source, hm.stored, hwithin,
      fun u => (hthreads u).mono (hlater _ _ _)⟩

/-! ### Steps of the caller -/

theorem send_sorted {m : Miner V} (hm : m.Sorted hash) (hidle : m.sending = none) (j : SendJob) :
    (m.send j).Sorted hash := by
  unfold send
  split_ifs with hreject
  · exact hm
  · have hlong : kNonceOffset + 4 ≤ j.bytes.length := by
      rw [not_or, not_le] at hreject
      exact hreject.1.le
    have hcompleted : completed { m with
        m_blob := j.bytes, m_target := j.target, jobs := m.jobs ++ [j]
        sending := some (.nicehash, j) } = m.completed := by simp [completed, hidle]
    have hlater : m.Later { m with
        m_blob := j.bytes, m_target := j.target, jobs := m.jobs ++ [j]
        sending := some (.nicehash, j) } :=
      ⟨⟨[j], rfl⟩, hcompleted.ge, fun _ _ hr => hr⟩
    refine ⟨?_, Or.inr ⟨j, by simp, rfl, rfl⟩, ?_, by simp, ?_, by simp, hm.within,
      fun t => (hm.threads t).mono hlater⟩
    · rw [hcompleted]
      exact hm.version
    · intro j' hj'
      rcases List.mem_append.mp hj' with hj' | hj'
      · exact hm.long j' hj'
      · rw [List.mem_singleton.mp hj']
        exact hlong
    · rw [hcompleted]
      exact ⟨hm.source.1, hm.source.2.trans (by simp)⟩

theorem addRange_grows (m : Miner V) (v : ℕ) (r : NonceRange) :
    ∀ w, ∀ r' ∈ m.ranges w, r' ∈ m.addRange v r w := by
  intro w r' hr'
  unfold addRange
  by_cases hw : w = v
  · subst hw
    rw [Function.update_self]
    exact List.mem_append_left _ hr'
  · rwa [Function.update_of_ne hw]

theorem mem_addRange (m : Miner V) (v : ℕ) (r : NonceRange) : r ∈ m.addRange v r v := by
  unfold addRange
  rw [Function.update_self]
  exact List.mem_append_right _ (List.mem_singleton_self r)

theorem store_sorted {m : Miner V} (hm : m.Sorted hash) {stage : Stage} {j : SendJob}
    (hsending : m.sending = some (stage, j)) : (m.store j stage).Sorted hash := by
  have hbegun : m.jobs ≠ [] := hm.begun (by rw [hsending]; simp)
  have hpos : 1 ≤ m.jobs.length := List.length_pos_iff.mpr hbegun
  have hcompleted : m.completed = m.jobs.length - 1 := by simp [completed, hsending]
  cases stage with
  | nicehash =>
    have hsame : (m.store j .nicehash).completed =
      m.completed := by simp [completed, store, hsending]
    have hlater : m.Later (m.store j .nicehash) :=
      ⟨⟨[], (List.append_nil _).symm⟩, hsame.ge, fun _ _ hr => hr⟩
    exact ⟨hsame ▸ hm.version, hm.blob, hm.long, fun _ => hbegun, hsame ▸ hm.source,
      by simp [store], hm.within, fun t => (hm.threads t).mono hlater⟩
  | ranged =>
    have hsame : (m.store j .ranged).completed = m.completed := by simp [completed, store, hsending]
    have hlater : m.Later (m.store j .ranged) :=
      ⟨⟨[], (List.append_nil _).symm⟩, hsame.ge, fun _ _ hr => hr⟩
    exact ⟨hsame ▸ hm.version, hm.blob, hm.long, fun _ => hbegun, hsame ▸ hm.source,
      by simp [store], hm.within, fun t => (hm.threads t).mono hlater⟩
  | range =>
    have hsame : (m.store j .range).completed = m.completed := by simp [completed, store, hsending]
    have hlater : m.Later (m.store j .range) :=
      ⟨⟨[], (List.append_nil _).symm⟩, hsame.ge, m.addRange_grows _ _⟩
    refine ⟨hsame ▸ hm.version, hm.blob, hm.long, fun _ => hbegun, ?_, fun _ _ => rfl, ?_,
      fun t => (hm.threads t).mono hlater⟩
    · rw [hsame, hcompleted]
      exact ⟨Nat.sub_le _ _, le_rfl⟩
    · exact Within.pack (m.mem_addRange _ _) fun _ hr => absurd hr List.not_mem_nil
  | version =>
    have hnext : (m.store j .version).completed = m.completed + 1 := by
      rw [hcompleted]
      simp only [completed, store, Option.isSome_none, Bool.false_eq_true, if_false]
      omega
    have hlater : m.Later (m.store j .version) :=
      ⟨⟨[], (List.append_nil _).symm⟩, by omega, fun _ _ hr => hr⟩
    refine ⟨?_, hm.blob, hm.long, by simp [store], ?_, by simp [store], hm.within,
      fun t => (hm.threads t).mono hlater⟩
    · rw [hnext]
      change m.m_job_version + 1 = _
      rw [hm.version]
      exact (UInt32.ofNat_add _ _).symm
    · rw [hnext, hcompleted]
      have hsource := hm.stored j hsending
      change m.jobs.length - 1 + 1 ≤ m.source ∧ m.source ≤ m.jobs.length
      omega

theorem queueRange_sorted {m : Miner V} (hm : m.Sorted hash) (start limit : UInt32) :
    (m.queueRange start limit).Sorted hash := by
  unfold queueRange
  split_ifs
  · exact hm
  · have hgrows := m.addRange_grows m.source ⟨start, limit⟩
    have hlater : m.Later { m with
        m_queued := m.m_queued ++ [⟨start, limit⟩]
        ranges := m.addRange m.source ⟨start, limit⟩ } :=
      ⟨⟨[], (List.append_nil _).symm⟩, le_rfl, hgrows⟩
    have hwithin := hm.within.mono (hgrows m.source)
    refine ⟨hm.version, hm.blob, hm.long, hm.begun, hm.source, hm.stored, ⟨hwithin.current, ?_⟩,
      fun t => (hm.threads t).mono hlater⟩
    intro r hr
    rcases List.mem_append.mp hr with hr | hr
    · exact hwithin.queued r hr
    · rw [List.mem_singleton.mp hr]
      exact m.mem_addRange _ _

theorem step_sorted (m : Miner V) (a : Action V) (m' : Miner V) (hm : m.Sorted hash)
    (htimely : m.timely a = true) (hstep : m.step hash a = some m') : m'.Sorted hash := by
  cases a with
  | send j =>
    simp only [step] at hstep
    split_ifs at hstep with hidle
    rw [Option.some.injEq] at hstep
    exact hstep ▸ send_sorted hm hidle j
  | store =>
    simp only [step] at hstep
    obtain ⟨⟨stage, j⟩, hsending, hstep⟩ := Option.map_eq_some_iff.mp hstep
    exact hstep ▸ store_sorted hm hsending
  | queueRange start limit =>
    simp only [step] at hstep
    split_ifs at hstep
    rw [Option.some.injEq] at hstep
    exact hstep ▸ queueRange_sorted hm start limit
  | pause paused =>
    rw [step, Option.some.injEq] at hstep
    have hlater : m.Later { m with m_paused := paused } :=
      ⟨⟨[], (List.append_nil _).symm⟩, le_rfl, fun _ _ hr => hr⟩
    rw [← hstep]
    exact ⟨hm.version, hm.blob, hm.long, hm.begun, hm.source, hm.stored, hm.within,
      fun t => (hm.threads t).mono hlater⟩
  | thread t e =>
    simp only [step] at hstep
    obtain ⟨m₁, hsee, hstep⟩ := Option.bind_eq_some_iff.mp hstep
    obtain ⟨l, hl, hstep⟩ := Option.map_eq_some_iff.mp hstep
    exact hstep ▸ thread_sorted hm htimely hsee hl

theorem start_sorted : ({} : Miner V).Sorted hash := by
  have hwithin : Within [⟨0, 0xFFFFFFFF⟩] (pack_range 0 0xFFFFFFFF) [] :=
    Within.pack (r := ⟨0, 0xFFFFFFFF⟩) (List.mem_singleton_self _) (by simp)
  refine ⟨rfl, Or.inl ⟨rfl, rfl⟩, by simp, by simp, ⟨le_rfl, le_rfl⟩, by simp, hwithin, ?_⟩
  intro t
  exact ⟨Loop.start_pipelined, by simp, Or.inl rfl, by simp, by simp⟩

/-- As long as each draw and each write is timely, every nonce drawn is hashed in the blob of the
job whose range it is from, and so are the shares submitted. -/
theorem nonces_hashed_for_their_job (hash : V → List UInt8 → List UInt8) (actions : List (Action V))
    (m : Miner V) (hguard : Meets (step hash) (fun m a => m.timely a = true) {} actions)
    (hrun : exec (step hash) {} actions = some m) (t : ThreadId) :
    (m.threads t).inputs.map Input.nonce ++ (m.threads t).pc.pending = (m.threads t).drawn ∧
    (∀ i ∈ (m.threads t).inputs, ∃ j, m.RightFor i j) ∧
    ∀ s ∈ (m.threads t).submissions, ∃ i j, s = i.submission hash ∧ m.RightFor i j ∧
      readNonce s.blob = written j.masked j.bytes i.nonce ∧
      (j.masked = true → readNonce s.blob &&& kNicehashMask = readNonce j.bytes &&&
        kNicehashMask) := by
  have hm := exec_invariant step_sorted start_sorted hguard hrun
  have hkeeps := hm.threads t
  refine ⟨hkeeps.piped.drawn, hkeeps.inputs, fun s hs => ?_⟩
  have hmem : s ∈ (m.threads t).inputs.map (Input.submission hash) := by
    rcases hkeeps.piped.stage with hflushed | ⟨vm, i, hl⟩
    · exact hflushed.submitted ▸ hs
    · rw [hl.submitted]
      exact List.mem_append_left _ hs
  obtain ⟨i, hi, rfl⟩ := List.mem_map.mp hmem
  obtain ⟨j, hj⟩ := hkeeps.inputs i hi
  have hlong : kNonceOffset ≤ j.bytes.length :=
    (Nat.le_add_right _ _).trans (hm.long j (List.mem_of_getElem? hj.job))
  have hnonce : readNonce (i.submission hash).blob = written j.masked j.bytes i.nonce := by
    change readNonce i.blob = _
    rw [hj.blob, readNonce_writeNonce j.masked hlong]
  refine ⟨i, j, rfl, hj, hnonce, fun hmasked => ?_⟩
  rw [hnonce, written, if_pos hmasked, and_mask]

/-- A job with a range, and one of a NiceHash pool without. -/
def rangedJob : SendJob :=
  { blob := List.replicate 44 0, target := 5, nicehash := false, reset_nonce := true
    range := some (0, 10) }

def nicehashJob : SendJob :=
  { blob := List.replicate 44 7, target := 5, nicehash := false, reset_nonce := true,
    range := none }

def sent (j : SendJob) : List (Action ℕ) := [.send j, .store, .store, .store, .store]

def seen (es : List (Event ℕ)) : List (Action ℕ) := es.map (.thread 0)

/-- A nonce of each job, the second one after the thread has copied the job. -/
def switching : List (Action ℕ) :=
  sent rangedJob ++ seen [.acquired (some 1), .active true, .updating false, .version 1,
    .copied rangedJob.bytes 5 1 1, .nonce (some (0, 1)), .flags false true] ++ sent nicehashJob ++
    seen [.active true, .updating false, .version 2, .copied nicehashJob.bytes 5 2 2,
      .nonce (some (0, 2)), .flags true false, .active false]

/-- The second job is sent between the copy of the first one and the draw. -/
def crossing : List (Action ℕ) :=
  sent rangedJob ++ seen [.acquired (some 1), .active true, .updating false, .version 1,
    .copied rangedJob.bytes 5 1 1] ++ sent nicehashJob ++
    seen [.nonce (some (0, 2)), .flags true false]

/-- The nonce, the version and the source of each input, and the nonce of each share. -/
def trace (m : Miner ℕ) : List (UInt32 × UInt32 × ℕ) × List UInt32 :=
  ((m.threads 0).inputs.map fun i => (i.nonce, i.version, i.source),
    (m.threads 0).submissions.map fun s => readNonce s.blob)

theorem nonces_hashed_for_their_job_switching :
    ∃ m, exec (step fun _ _ => []) {} switching = some m ∧
      m.trace = ([(0, 1, 1), (0, 2, 2)], [0, 0x07000000]) ∧
      ∀ i ∈ (m.threads 0).inputs, ∃ j, m.RightFor i j := by
  have hrun : (exec (step fun _ _ => []) {} switching).map trace =
      some ([(0, 1, 1), (0, 2, 2)], [0, 0x07000000]) := by decide +kernel
  have hguard : Meets (step fun _ _ => []) (fun m a => m.timely a = true) {} switching := by
    decide +kernel
  obtain ⟨m, hm, htrace⟩ := Option.map_eq_some_iff.mp hrun
  exact ⟨m, hm, htrace, (nonces_hashed_for_their_job _ _ m hguard hm 0).2.1⟩

/-- The nonce of the second job is hashed in the blob of the first. -/
theorem nonce_hashed_for_another_job : ¬ ∀ actions m t,
    exec (step fun (_ : ℕ) _ => []) {} actions = some m →
      ∀ i ∈ (m.threads t).inputs, ∃ j, m.RightFor i j := by
  intro h
  have hrun : (exec (step fun _ _ => []) {} crossing).map trace = some ([(0, 1, 2)], []) := by
    decide +kernel
  obtain ⟨m, hm, htrace⟩ := Option.map_eq_some_iff.mp hrun
  obtain ⟨hinputs, -⟩ := Prod.mk.inj htrace
  obtain ⟨i, hi, htags⟩ : ∃ i ∈ (m.threads 0).inputs, (i.nonce, i.version, i.source) = (0, 1, 2) :=
    List.mem_map.mp (hinputs ▸ List.mem_singleton_self _)
  simp only [Prod.mk.injEq] at htags
  obtain ⟨j, hj⟩ := h crossing m 0 hm i hi
  have hversion := hj.version
  rw [htags.2.1, htags.2.2] at hversion
  exact absurd hversion (by decide)

end Miner

end NMiner
