import NMiner.Proofs.Blob

/-! The two-stage hash pipeline of `RxJob::Loop`. The hash a call returns is that of the input
before, so the thread always holds at most one input back; whatever makes it overwrite its
buffers, its job or its machine passes through `FlushHash` first. -/

namespace NMiner

open Transition

/-- The call of `SubmitShare` an input ends in. -/
def Input.submission {V : Type} (hash : V → List UInt8 → List UInt8) (i : Input V) : Submission :=
  { hash := hash i.vm i.blob, blob := i.blob, target := i.target, version := i.version }

/-- The nonce drawn and not yet written. -/
def Pc.pending : Pc → List UInt32
  | .write nonce _ => [nonce]
  | _ => []

/-- Where an input may be held back. -/
def Pc.busy : Pc → Bool
  | .top => true
  | .poll => true
  | .check => true
  | .draw => true
  | .write _ _ => true
  | _ => false

namespace Loop

variable {V : Type} (hash : V → List UInt8 → List UInt8)

/-- Every input has been submitted. -/
structure Flushed (l : Loop V) : Prop where
  is_first : l.is_first = true
  submitted : l.inputs.map (Input.submission hash) = l.submissions

/-- Every input but the last has been submitted; that one is loaded, and is what `cur` holds. -/
structure Loaded (l : Loop V) (vm : Vm V) (i : Input V) : Prop where
  is_first : l.is_first = false
  busy : l.pc.busy = true
  size : l.size ≠ 0
  room : l.size ≤ l.nxt.length
  machine : l.vm = some vm
  input : vm = { id := i.vm, loaded := i.blob }
  blob : i.blob = l.cur.take l.size
  target : i.target = l.target
  version : i.version = l.version
  submitted : l.inputs.map (Input.submission hash) = l.submissions ++ [i.submission hash]

structure Pipelined (l : Loop V) : Prop where
  counted : l.hashes_done = l.submissions.length
  drawn : l.inputs.map Input.nonce ++ l.pc.pending = l.drawn
  room : l.size ≤ l.cur.length
  sized : l.pc.pending ≠ [] → l.size ≠ 0
  written : ∀ i ∈ l.inputs, ∃ masked buffer n, i.blob = (writeNonce masked buffer i.nonce).take n
  stage : l.Flushed hash ∨ ∃ vm i, l.Loaded hash vm i

variable {hash}

/-- The hash of the loaded input goes out with the bytes in `cur`. -/
theorem Loaded.submit {l : Loop V} {vm : Vm V} {i : Input V} (h : l.Loaded hash vm i) :
    (l.submit (hash vm.id vm.loaded)).submissions = l.inputs.map (Input.submission hash) := by
  have hsub : (⟨hash vm.id vm.loaded, l.cur.take l.size, l.target, l.version⟩ : Submission) =
      i.submission hash := by
    rw [h.input, ← h.blob, ← h.target, ← h.version]
    rfl
  rw [h.submitted, ← hsub]
  rfl

/-- What `FlushHash` leaves alone, and what it achieves. -/
structure Flushes (hash : V → List UInt8 → List UInt8) (l l' : Loop V) : Prop where
  counted : l'.hashes_done = l'.submissions.length
  flushed : l'.Flushed hash
  inputs : l'.inputs = l.inputs
  drawn : l'.drawn = l.drawn
  size : l'.size = l.size
  cur : l'.cur = l.cur

theorem flush_spec {l : Loop V} (h : l.Pipelined hash) : Flushes hash l (flush hash l) := by
  rcases h.stage with hflushed | ⟨vm, i, hloaded⟩
  · have hsame : flush hash l = l := by
      unfold flush
      cases l.vm with
      | none => rfl
      | some vm => exact if_pos (Or.inl hflushed.is_first)
    rw [hsame]
    exact ⟨h.counted, hflushed, rfl, rfl, rfl, rfl⟩
  · have hgoes : flush hash l = { l.submit (hash vm.id vm.loaded) with is_first := true } := by
      unfold flush
      rw [hloaded.machine]
      exact if_neg (by simp [hloaded.is_first, hloaded.size])
    rw [hgoes]
    refine ⟨?_, ⟨rfl, hloaded.submit.symm⟩, rfl, rfl, rfl, rfl⟩
    simp [Loop.submit, h.counted]

/-- After a flush, everything but the logs may change. -/
theorem Flushes.pipelined {l l' l'' : Loop V} (h : l.Pipelined hash) (hf : Flushes hash l l')
    (hcounted : l''.hashes_done = l'.hashes_done) (hfirst : l''.is_first = l'.is_first)
    (hsubmissions : l''.submissions = l'.submissions) (hinputs : l''.inputs = l'.inputs)
    (hdrawn : l''.drawn = l'.drawn) (hpending : l.pc.pending = [] ∧ l''.pc.pending = [])
    (hroom : l''.size ≤ l''.cur.length) : l''.Pipelined hash := by
  obtain ⟨hnone, hnone'⟩ := hpending
  refine ⟨?_, ?_, hroom, fun hsome => absurd hnone' hsome, ?_, Or.inl ⟨?_, ?_⟩⟩
  · rw [hcounted, hsubmissions, hf.counted]
  · rw [hinputs, hf.inputs, hnone', ← hnone, hdrawn, hf.drawn]
    exact h.drawn
  · rw [hinputs, hf.inputs]
    exact h.written
  · rw [hfirst, hf.flushed.is_first]
  · rw [hinputs, hsubmissions, hf.flushed.submitted]

/-- A step that changes neither the buffers nor the job, between places where an input may be held
back. -/
theorem Pipelined.stay {l : Loop V} (h : l.Pipelined hash) {pc : Pc} {drawn : List UInt32}
    (hbusy : pc.busy = true) (hdrawn : l.inputs.map Input.nonce ++ pc.pending = drawn)
    (hsized : pc.pending ≠ [] → l.size ≠ 0) :
    Pipelined hash { l with pc := pc, drawn := drawn } := by
  refine ⟨h.counted, hdrawn, h.room, hsized, h.written, ?_⟩
  rcases h.stage with hflushed | ⟨vm, i, hl⟩
  · exact Or.inl ⟨hflushed.is_first, hflushed.submitted⟩
  · exact Or.inr ⟨vm, i, hl.is_first, hbusy, hl.size, hl.room, hl.machine, hl.input, hl.blob,
      hl.target, hl.version, hl.submitted⟩

theorem Pipelined.flushed_of_idle {l : Loop V} (h : l.Pipelined hash) (hbusy : l.pc.busy = false) :
    Flushes hash l l := by
  refine ⟨h.counted, ?_, rfl, rfl, rfl, rfl⟩
  rcases h.stage with hflushed | ⟨vm, i, hl⟩
  · exact hflushed
  · rw [hl.busy] at hbusy
    exact absurd hbusy (by simp)

/-- The first input is loaded. -/
theorem first_pipelined {l : Loop V} (h : l.Pipelined hash) (hf : l.Flushed hash) (vm : Vm V)
    {nonce : UInt32} {source : ℕ} (hpc : l.pc = .write nonce source) (hsize : l.size ≠ 0)
    (masked : Bool) : (l.first vm masked nonce source).Pipelined hash := by
  have hlen : l.size ≤ (writeNonce masked l.cur nonce).length :=
    h.room.trans (length_writeNonce masked l.cur nonce)
  have hblob : ((writeNonce masked l.cur nonce).take l.size).length = l.size :=
    List.length_take_of_le hlen
  have hloaded : (l.first vm masked nonce source).Loaded hash
      { vm with loaded := (writeNonce masked l.cur nonce).take l.size }
      ⟨vm.id, nonce, (writeNonce masked l.cur nonce).take l.size, l.target, l.version, source⟩ := by
    refine ⟨rfl, rfl, hsize, ?_, rfl, rfl, rfl, rfl, rfl, ?_⟩
    · simp only [first, note, length_memcpy, hblob]
      exact le_max_right _ _
    · simp only [first, note, List.map_append, List.map_cons, List.map_nil, hf.submitted]
  refine ⟨h.counted, ?_, hlen, absurd rfl, ?_, Or.inr ⟨_, _, hloaded⟩⟩
  · have hdrawn := h.drawn
    rw [hpc] at hdrawn
    simpa [first, note, Pc.pending] using hdrawn
  · intro i hi
    rcases List.mem_append.mp hi with hi | hi
    · exact h.written i hi
    · rw [List.mem_singleton.mp hi]
      exact ⟨_, _, _, rfl⟩

/-- The input before is submitted, and the next one loaded. -/
theorem next_pipelined {l : Loop V} (h : l.Pipelined hash) {vm : Vm V} {i : Input V}
    (hl : l.Loaded hash vm i) {nonce : UInt32} {source : ℕ} (hpc : l.pc = .write nonce source)
    (masked : Bool) : (l.next hash vm masked nonce source).Pipelined hash := by
  have hlen : l.size ≤ (writeNonce masked l.nxt nonce).length :=
    hl.room.trans (length_writeNonce masked l.nxt nonce)
  have hblob : ((writeNonce masked l.nxt nonce).take l.size).length = l.size :=
    List.length_take_of_le hlen
  have hcur : (memcpy l.cur ((writeNonce masked l.nxt nonce).take l.size)).take l.size =
      (writeNonce masked l.nxt nonce).take l.size := by
    have htake := take_memcpy l.cur ((writeNonce masked l.nxt nonce).take l.size)
    rwa [hblob] at htake
  have hloaded : (l.next hash vm masked nonce source).Loaded hash
      { vm with loaded := (writeNonce masked l.nxt nonce).take l.size }
      ⟨vm.id, nonce, (writeNonce masked l.nxt nonce).take l.size, l.target, l.version, source⟩ := by
    refine ⟨hl.is_first, rfl, hl.size, hlen, rfl, rfl, hcur.symm, rfl, rfl, ?_⟩
    have hsub := hl.submit
    simp only [next, note, List.map_append, List.map_cons, List.map_nil, hsub]
    rfl
  refine ⟨?_, ?_, ?_, absurd rfl, ?_, Or.inr ⟨_, _, hloaded⟩⟩
  · simp [next, note, Loop.submit, h.counted]
  · have hdrawn := h.drawn
    rw [hpc] at hdrawn
    simpa [next, note, Loop.submit, Pc.pending] using hdrawn
  · simp only [next, note, Loop.submit, length_memcpy, hblob]
    exact le_max_right _ _
  · intro i hi
    rcases List.mem_append.mp hi with hi | hi
    · exact h.written i hi
    · rw [List.mem_singleton.mp hi]
      exact ⟨_, _, _, rfl⟩

theorem step_pipelined (l : Loop V) (e : Event V) (l' : Loop V) (h : l.Pipelined hash)
    (hstep : l.step hash e = some l') : l'.Pipelined hash := by
  have hf := flush_spec h
  have hroom : (flush hash l).size ≤ (flush hash l).cur.length := by
    rw [hf.size, hf.cur]
    exact h.room
  have hdrawn := h.drawn
  cases e with
  | acquired vm =>
    simp only [step] at hstep
    split at hstep
    · rename_i again hpc
      rw [Option.some.injEq] at hstep
      have hidle := h.flushed_of_idle (by rw [hpc]; rfl)
      exact hstep ▸ hidle.pipelined h rfl rfl rfl rfl rfl ⟨by rw [hpc]; rfl, rfl⟩ h.room
    · rename_i again id hpc
      rw [Option.some.injEq] at hstep
      have hidle := h.flushed_of_idle (by rw [hpc]; rfl)
      refine hstep ▸ hidle.pipelined h rfl rfl rfl rfl rfl ?_ h.room
      refine ⟨by rw [hpc]; rfl, ?_⟩
      cases again <;> rfl
    · exact absurd hstep (by simp)
  | active b =>
    simp only [step] at hstep
    split at hstep
    · rename_i hpc
      rw [Option.some.injEq] at hstep
      rw [hpc] at hdrawn
      cases b with
      | true => exact hstep ▸ h.stay rfl hdrawn (absurd rfl)
      | false => exact hstep ▸ hf.pipelined h rfl rfl rfl rfl rfl ⟨by rw [hpc]; rfl, rfl⟩ hroom
    · exact absurd hstep (by simp)
  | updating b =>
    simp only [step] at hstep
    split at hstep
    · rename_i hpc
      rw [Option.some.injEq] at hstep
      rw [hpc] at hdrawn
      cases b with
      | true => exact hstep ▸ hf.pipelined h rfl rfl rfl rfl rfl ⟨by rw [hpc]; rfl, rfl⟩ hroom
      | false => exact hstep ▸ h.stay rfl hdrawn (absurd rfl)
    · exact absurd hstep (by simp)
  | version v =>
    simp only [step] at hstep
    split at hstep
    · rename_i hpc
      rw [Option.some.injEq] at hstep
      have hidle := h.flushed_of_idle (by rw [hpc]; rfl)
      exact hstep ▸ hidle.pipelined h rfl rfl rfl rfl rfl ⟨by rw [hpc]; rfl, rfl⟩ h.room
    · rename_i hpc
      rw [Option.some.injEq] at hstep
      rw [hpc] at hdrawn
      rw [← hstep]
      split_ifs
      · exact hf.pipelined h rfl rfl rfl rfl rfl ⟨by rw [hpc]; rfl, rfl⟩ hroom
      · exact h.stay rfl hdrawn (absurd rfl)
    · exact absurd hstep (by simp)
  | copied blob target version job =>
    simp only [step] at hstep
    split at hstep
    · rename_i hpc
      rw [Option.some.injEq] at hstep
      have hidle := h.flushed_of_idle (by rw [hpc]; rfl)
      refine hstep ▸ hidle.pipelined h rfl rfl rfl rfl rfl ⟨by rw [hpc]; rfl, rfl⟩ ?_
      rw [length_memcpy]
      exact le_max_right _ _
    · exact absurd hstep (by simp)
  | nonce n =>
    simp only [step] at hstep
    split at hstep
    · rename_i hpc
      rw [Option.some.injEq] at hstep
      exact hstep ▸ hf.pipelined h rfl rfl rfl rfl rfl ⟨by rw [hpc]; rfl, rfl⟩ hroom
    · rename_i nonce source hpc
      split_ifs at hstep with hsize
      rw [Option.some.injEq] at hstep
      rw [hpc] at hdrawn
      refine hstep ▸ h.stay rfl ?_ fun _ => hsize
      rw [← hdrawn]
      simp [Pc.pending]
    · exact absurd hstep (by simp)
  | flags nicehash ranged =>
    simp only [step] at hstep
    split at hstep
    · rename_i nonce source vm hpc hvm
      rw [Option.some.injEq] at hstep
      rw [← hstep]
      rcases h.stage with hflushed | ⟨vm', i, hl⟩
      · rw [if_pos hflushed.is_first]
        exact first_pipelined h hflushed vm hpc (h.sized (by rw [hpc]; simp [Pc.pending])) _
      · obtain rfl : vm' = vm := Option.some.inj (hl.machine.symm.trans hvm)
        rw [if_neg (by simp [hl.is_first])]
        exact next_pipelined h hl hpc _
    · exact absurd hstep (by simp)

theorem start_pipelined : ({} : Loop V).Pipelined hash :=
  ⟨rfl, rfl, Nat.zero_le _, absurd rfl, by simp, Or.inl ⟨rfl, rfl⟩⟩

/-- Every nonce drawn is loaded once, with the job it is counted for, and every input but the one
held back has been submitted once, with its own bytes; a thread that ends holds none back. -/
theorem pipeline_exact (hash : V → List UInt8 → List UInt8) (events : List (Event V)) (l : Loop V)
    (hrun : exec (step hash) {} events = some l) :
    l.inputs.map Input.nonce ++ l.pc.pending = l.drawn ∧
    (∀ i ∈ l.inputs, ∃ masked buffer n, i.blob = (writeNonce masked buffer i.nonce).take n) ∧
    (∃ held : List (Input V), held.length ≤ 1 ∧
      l.submissions ++ held.map (Input.submission hash) = l.inputs.map (Input.submission hash)) ∧
    l.hashes_done = l.submissions.length ∧
    (l.pc = .done → l.submissions = l.inputs.map (Input.submission hash) ∧
      l.inputs.map Input.nonce = l.drawn ∧ l.hashes_done = l.drawn.length) := by
  have h := exec_preserves step_pipelined (start_pipelined : Pipelined hash {}) hrun
  refine ⟨h.drawn, h.written, ?_, h.counted, ?_⟩
  · rcases h.stage with hflushed | ⟨vm, i, hl⟩
    · exact ⟨[], Nat.zero_le _, by simp [hflushed.submitted]⟩
    · exact ⟨[i], le_rfl, hl.submitted.symm⟩
  · intro hpc
    have hflushed := (h.flushed_of_idle (by rw [hpc]; rfl)).flushed
    have hdrawn := h.drawn
    rw [hpc] at hdrawn
    change l.inputs.map Input.nonce ++ [] = l.drawn at hdrawn
    rw [List.append_nil] at hdrawn
    refine ⟨hflushed.submitted.symm, hdrawn, ?_⟩
    rw [h.counted, ← hflushed.submitted, ← hdrawn, List.length_map, List.length_map]

/-- Two nonces of a job, an update of the dataset, one more nonce on the new machine, and the
end. -/
def updated : List (Event ℕ) :=
  let job : Event ℕ := .copied (List.replicate 44 0) 5 1 1
  [.acquired (some 1), .active true, .updating false, .version 1, job, .nonce (some (7, 1)),
    .flags false false, .active true, .updating false, .version 1, .nonce (some (8, 1)),
    .flags false false, .active true, .updating true, .acquired (some 2), .version 1, .active true,
    .updating false, .version 1, job, .nonce (some (9, 1)), .flags false false, .active false]

theorem pipeline_exact_updated :
    ∃ l, exec (step fun vm _ => [UInt8.ofNat vm]) {} updated = some l ∧ l.pc = .done ∧
      l.submissions.map (fun s => (s.hash, readNonce s.blob)) = [([1], 7), ([1], 8), ([2], 9)] ∧
      l.inputs.map Input.nonce = l.drawn ∧ l.hashes_done = l.drawn.length := by
  have hrun : (exec (step fun vm _ => [UInt8.ofNat vm]) {} updated).map (fun l =>
      (l.pc, l.submissions.map fun s => (s.hash, readNonce s.blob))) =
        some (.done, [([1], 7), ([1], 8), ([2], 9)]) := by decide +kernel
  obtain ⟨l, hl, hview⟩ := Option.map_eq_some_iff.mp hrun
  obtain ⟨hpc, hsubmissions⟩ := Prod.mk.inj hview
  obtain ⟨-, -, -, -, hdone⟩ := pipeline_exact _ updated l hl
  obtain ⟨-, hdrawn, hcount⟩ := hdone hpc
  exact ⟨l, hl, hpc, hsubmissions, hdrawn, hcount⟩

end Loop

end NMiner
