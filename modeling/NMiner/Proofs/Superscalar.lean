import NMiner.Spec.Superscalar

/-! Every program that the generator of `SuperscalarHash` makes is valid: it fits into its buffer,
names registers that exist, and its instructions are ones that can be compiled as they are. -/

namespace NMiner.RandomX

open SuperscalarInstructionType

variable {blake2b : List UInt8 → List UInt8} {fuel : ℕ}

/-- What the compiler and `executeSuperscalar` rely on. -/
structure ValidInstruction (instr : Instruction) : Prop where
  type : ofByte instr.opcode ≠ .INVALID
  dst : instr.dst.toNat < 8
  src : instr.src.toNat < 8
  /-- the limitation of `lea` -/
  lea : ofByte instr.opcode = .IADD_RS → instr.dst.toNat ≠ RegisterNeedsDisplacement
  rotation : ofByte instr.opcode = .IROR_C → 0 < instr.imm32.toNat ∧ instr.imm32.toNat < 64
  reciprocal : ofByte instr.opcode = .IMUL_RCP → isZeroOrPowerOf2 (instr.imm32.setWidth 64) = false
  /-- nothing like `xor r, r` -/
  distinct : ofByte instr.opcode ∈ [.ISUB_R, .IXOR_R, .IADD_RS, .IMUL_R] → instr.dst ≠ instr.src

/-! ### Instructions in the making -/

/-- Every kind of instruction. -/
def infos : List SuperscalarInstructionInfo :=
  [.ISUB_R, .IXOR_R, .IADD_RS, .IMUL_R, .IROR_C, .IADD_C7, .IXOR_C7,
    .IADD_C8, .IXOR_C8, .IADD_C9, .IXOR_C9,
    .IMULH_R, .ISMULH_R, .IMUL_RCP]

theorem ofByte_toByte : ∀ info ∈ infos, ofByte info.type.toByte = info.type := by decide

theorem type_ne_invalid : ∀ info ∈ infos, info.type ≠ .INVALID := by decide

/-- Both operands are there when the last macro-operation is issued. -/
theorem ops_after : ∀ info ∈ infos, info.dstOp < info.ops.length ∧
    ∀ j, info.srcOp = some j → j < info.ops.length := by decide

/-- A source that is selected after the destination may be the same. -/
theorem reuse_of_later : ∀ info ∈ infos, ∀ j, info.srcOp = some j → info.dstOp < j →
    info.type = .IMULH_R ∨ info.type = .ISMULH_R := by decide

theorem source_of_distinct : ∀ info ∈ infos, info.type ∈ [ISUB_R, .IXOR_R, .IADD_RS, .IMUL_R] →
    info.srcOp = some 0 := by decide

/-- What `create` leaves behind, and the selection of operands does not change. -/
structure Created (instr : SuperscalarInstruction) : Prop where
  info : instr.info ∈ infos
  reuse : instr.canReuse = true ↔ instr.info.type = .IMULH_R ∨ instr.info.type = .ISMULH_R
  rotation : instr.info.type = .IROR_C → 0 < instr.imm32.toNat ∧ instr.imm32.toNat < 64
  reciprocal : instr.info.type = .IMUL_RCP → isZeroOrPowerOf2 (instr.imm32.setWidth 64) = false

/-- The operands that the first `k` macro-operations need have been selected. -/
structure Ready (k : ℕ) (instr : SuperscalarInstruction) : Prop where
  src : ∀ j, instr.info.srcOp = some j → j < k → instr.src.isSome = true
  dst : instr.info.dstOp < k → ∃ d, instr.dst = some d ∧
    (instr.info.type = .IADD_RS → d ≠ RegisterNeedsDisplacement) ∧
    (instr.canReuse = false → instr.src ≠ some d)

theorem toNat_regByte (k : Fin 8) : (SuperscalarInstruction.regByte (some k)).toNat = k := by
  revert k
  decide

/-- An instruction whose macro-operations have all been issued. -/
theorem Created.valid {instr : SuperscalarInstruction} (h : Created instr)
    (hready : Ready instr.info.ops.length instr) : ValidInstruction instr.toInstr := by
  obtain ⟨hdstOp, hsrcOp⟩ := ops_after _ h.info
  obtain ⟨d, hd, hlea, hdistinct⟩ := hready.dst hdstOp
  have htype : ofByte instr.toInstr.opcode = instr.info.type := ofByte_toByte _ h.info
  have hdst : instr.toInstr.dst.toNat = d := by
    rw [SuperscalarInstruction.toInstr, hd]
    exact toNat_regByte d
  have hsrc : ∃ k : Fin 8, instr.toInstr.src.toNat = k ∧
    (instr.src.isSome = true → instr.src = some k) := by
    cases hs : instr.src with
    | some k =>
      refine ⟨k, ?_, fun _ => rfl⟩
      rw [SuperscalarInstruction.toInstr, hs]
      exact toNat_regByte k
    | none =>
      refine ⟨d, ?_, fun h => by cases h⟩
      rw [SuperscalarInstruction.toInstr, hs, hd]
      exact toNat_regByte d
  obtain ⟨k, hk, hsome⟩ := hsrc
  constructor
  · rw [htype]
    exact type_ne_invalid _ h.info
  · rw [hdst]
    exact d.isLt
  · rw [hk]
    exact k.isLt
  · intro ht hfive
    rw [htype] at ht
    rw [hdst] at hfive
    exact hlea ht (Fin.val_injective hfive)
  · rw [htype]
    exact h.rotation
  · rw [htype]
    exact h.reciprocal
  · intro ht heq
    rw [htype] at ht
    have hzero := source_of_distinct _ h.info ht
    have hs := hsome (hready.src 0 hzero (hsrcOp 0 hzero))
    have hreuse : instr.canReuse = false := by
      rw [Bool.eq_false_iff, Ne, h.reuse]
      rintro (hm | hm) <;> rw [hm] at ht <;> revert ht <;> decide
    apply hdistinct hreuse
    have hval : (d : ℕ) = k := by rw [← hdst, heq, hk]
    rw [hs, Fin.val_injective hval]

/-! ### Creating an instruction -/

theorem drawUntil_good {α : Type} {draw : Blake2Generator → α × Blake2Generator} {bad : α → Bool}
    {gen : Blake2Generator} {r : α × Blake2Generator} (h : drawUntil draw bad fuel gen = some r) :
    bad r.1 = false ∧ ∃ gen', draw gen' = r := by
  induction fuel generalizing gen with
  | zero => cases h
  | succ fuel ih =>
    rw [drawUntil] at h
    split_ifs at h with hbad
    · exact ih h
    · rw [Option.some.injEq] at h
      exact ⟨by rw [← h]; simpa using hbad, gen, h⟩

theorem and_63 : ∀ b : UInt8, b &&& 63 ≠ 0 → 0 < (b &&& 63).toNat ∧ (b &&& 63).toNat < 64 := by
  decide +kernel

theorem ready_zero (instr : SuperscalarInstruction) : Ready 0 instr :=
  ⟨fun _ _ h => absurd h (Nat.not_lt_zero _), fun h => absurd h (Nat.not_lt_zero _)⟩

open SuperscalarInstruction in
theorem created_create {info : SuperscalarInstructionInfo} (hinfo : info ∈ infos)
    {instr instr' : SuperscalarInstruction} {gen gen' : Blake2Generator}
    (h : create blake2b fuel info instr gen = some (instr', gen')) : Created instr' := by
  unfold create at h
  cases htype : info.type with
  | INVALID => exact absurd htype (type_ne_invalid _ hinfo)
  | ISUB_R | IXOR_R | IADD_RS | IMUL_R | IADD_C7 | IADD_C8 | IADD_C9
    | IXOR_C7 | IXOR_C8 | IXOR_C9 | IMULH_R
  | ISMULH_R =>
    simp only [htype, Option.some.injEq, Prod.mk.injEq] at h
    obtain ⟨rfl, -⟩ := h
    exact ⟨hinfo, by simp [htype], by simp [htype], by simp [htype]⟩
  | IROR_C =>
    simp only [htype, Option.map_eq_some_iff, Prod.mk.injEq] at h
    obtain ⟨⟨b, g⟩, hdraw, rfl, -⟩ := h
    obtain ⟨hbad, gen₀, heq⟩ := drawUntil_good hdraw
    refine ⟨hinfo, by simp [htype], fun _ => ?_, by simp [htype]⟩
    have hb : b = (gen₀.getByte blake2b).1 &&& 63 := (congrArg Prod.fst heq).symm
    have hne : (gen₀.getByte blake2b).1 &&& 63 ≠ 0 := by
      rw [← hb]
      exact of_decide_eq_false hbad
    obtain ⟨hpos, hlt⟩ := and_63 _ hne
    rw [← hb] at hpos hlt
    dsimp only
    rw [BitVec.toNat_ofNat, Nat.mod_eq_of_lt (by omega)]
    exact ⟨hpos, hlt⟩
  | IMUL_RCP =>
    simp only [htype, Option.map_eq_some_iff, Prod.mk.injEq] at h
    obtain ⟨⟨x, g⟩, hdraw, rfl, -⟩ := h
    exact ⟨hinfo, by simp [htype], by simp [htype], fun _ => (drawUntil_good hdraw).1⟩

theorem slot_subset : ∀ slot ∈ [slot_3, slot_3L, slot_4, slot_7, slot_8, slot_9],
    ∀ info ∈ slot, info ∈ infos := by decide

open SuperscalarInstruction in
theorem created_createOneOf {slot : List SuperscalarInstructionInfo}
    (hslot : slot ∈ [slot_3, slot_3L, slot_4, slot_7, slot_8, slot_9])
    {instr instr' : SuperscalarInstruction}
    {gen gen' : Blake2Generator}
    (h : createOneOf blake2b fuel slot instr gen = some (instr', gen')) :
    Created instr' := by
  unfold createOneOf at h
  rw [Option.bind_eq_some_iff] at h
  obtain ⟨info, hinfo, h⟩ := h
  exact created_create (slot_subset slot hslot info (List.mem_of_getElem? hinfo)) h

open SuperscalarInstruction in
theorem created_createForSlot {slotSize : ℕ} {fetchType : ℤ} {isLast : Bool}
    {instr instr' : SuperscalarInstruction} {gen gen' : Blake2Generator}
    (h : createForSlot blake2b fuel slotSize fetchType isLast instr gen = some (instr', gen')) :
    Created instr' := by
  unfold createForSlot at h
  split at h
  · refine created_createOneOf ?_ h
    cases isLast <;> decide
  · split_ifs at h
    · exact created_create (by decide) h
    · exact created_createOneOf (by decide) h
  · exact created_createOneOf (by decide) h
  · exact created_createOneOf (by decide) h
  · exact created_createOneOf (by decide) h
  · exact created_create (by decide) h
  · cases h

/-! ### Selecting operands -/

theorem mem_of_selectRegister {ks : List (Fin 8)} {gen : Blake2Generator}
    {r : Fin 8 × Blake2Generator}
    (h : selectRegister blake2b ks gen = some r) : r.1 ∈ ks := by
  unfold selectRegister at h
  split at h
  · cases h
  · rw [Option.some.injEq] at h
    exact h ▸ List.mem_singleton.mpr rfl
  · rw [Option.map_eq_some_iff] at h
    obtain ⟨k, hk, rfl⟩ := h
    exact List.mem_of_getElem? hk

/-- What the selection of an operand does not change. -/
structure SameKind (instr instr' : SuperscalarInstruction) : Prop where
  info : instr'.info = instr.info
  imm32 : instr'.imm32 = instr.imm32
  canReuse : instr'.canReuse = instr.canReuse

theorem Created.of_same {instr instr' : SuperscalarInstruction} (h : Created instr)
    (hsame : SameKind instr instr') : Created instr' := by
  obtain ⟨hinfo, himm, hreuse⟩ := hsame
  constructor
  · rw [hinfo]
    exact h.info
  · rw [hreuse, hinfo]
    exact h.reuse
  · rw [hinfo, himm]
    exact h.rotation
  · rw [hinfo, himm]
    exact h.reciprocal

open SuperscalarInstruction in
theorem selectDestination_spec {allow : Bool} {registers : Fin 8 → RegisterInfo}
    {instr instr' : SuperscalarInstruction} {gen gen' : Blake2Generator} {cycle : ℕ}
    (h : instr.selectDestination blake2b allow registers gen cycle = some (instr', gen')) :
    SameKind instr instr' ∧ instr'.src = instr.src ∧ ∃ d, instr'.dst = some d ∧
      (instr.info.type = .IADD_RS → d ≠ RegisterNeedsDisplacement) ∧
      (instr.canReuse = false → instr.src ≠ some d) := by
  unfold selectDestination at h
  rw [Option.map_eq_some_iff] at h
  obtain ⟨⟨d, g⟩, hselect, heq⟩ := h
  rw [Prod.mk.injEq] at heq
  obtain ⟨rfl, -⟩ := heq
  have hmem := mem_of_selectRegister hselect
  rw [List.mem_filter] at hmem
  have hsuit := of_decide_eq_true hmem.2
  obtain ⟨-, hsrc, -, -, hlea⟩ := hsuit
  refine ⟨⟨rfl, rfl, rfl⟩, rfl, d, rfl, fun ht => ?_, fun hreuse heq => ?_⟩
  · rcases hlea with hne | hne
    · exact absurd ht hne
    · exact hne
  · rcases hsrc with hr | hne
    · rw [hreuse] at hr
      cases hr
    · exact hne heq.symm

open SuperscalarInstruction in
theorem selectSource_spec {registers : Fin 8 → RegisterInfo} {instr instr' : SuperscalarInstruction}
    {gen gen' : Blake2Generator} {cycle : ℕ}
    (h : instr.selectSource blake2b registers gen cycle = some (instr', gen')) :
    SameKind instr instr' ∧ instr'.dst = instr.dst ∧ instr'.src.isSome = true := by
  unfold selectSource at h
  dsimp only at h
  split at h
  · rw [Option.some.injEq, Prod.mk.injEq] at h
    obtain ⟨rfl, -⟩ := h
    exact ⟨⟨rfl, rfl, rfl⟩, rfl, rfl⟩
  · rw [Option.map_eq_some_iff] at h
    obtain ⟨⟨k, g⟩, -, heq⟩ := h
    rw [Prod.mk.injEq] at heq
    obtain ⟨rfl, -⟩ := heq
    exact ⟨⟨rfl, rfl, rfl⟩, rfl, rfl⟩

theorem lookForward_spec {select : ℕ → Option (SuperscalarInstruction × Blake2Generator)}
    {forward cycle : ℕ}
    {instr : SuperscalarInstruction} {gen : Blake2Generator} {found : ℕ}
    (h : Generation.lookForward select forward cycle = some (instr, gen, found)) :
    select found = some (instr, gen) := by
  induction forward generalizing cycle with
  | zero => cases h
  | succ forward ih =>
    rw [Generation.lookForward] at h
    cases hs : select cycle with
    | none =>
      rw [hs] at h
      exact ih h
    | some r =>
      rw [hs, Option.some.injEq, Prod.mk.injEq, Prod.mk.injEq] at h
      obtain ⟨hinstr, hgen, hcycle⟩ := h
      rw [← hcycle, hs, ← hinstr, ← hgen]

/-! ### The generator -/

namespace Generation

/-- What holds before and after each macro-operation. -/
structure Valid (s : Generation) : Prop where
  program : ∀ instr ∈ s.program, ValidInstruction instr
  length : s.program.length ≤ SuperscalarMaxSize
  current : s.macroOpIndex < s.currentInstruction.info.ops.length →
    Created s.currentInstruction ∧ Ready s.macroOpIndex s.currentInstruction ∧
      s.program.length < SuperscalarMaxSize
  throwAway : s.throwAwayCount ≤ MAX_THROWAWAY_COUNT

/-- What a round of the loop over the slots does: it stops, it fills a slot, or it throws an
instruction away. -/
structure Advances (s s' : Generation) : Prop where
  decodeBuffer : s'.decodeBuffer = s.decodeBuffer
  decodeCycle : s'.decodeCycle = s.decodeCycle
  moved : s'.stopped = true ∨ s'.bufferIndex = s.bufferIndex + 1 ∨
    s'.bufferIndex = s.bufferIndex ∧ s'.throwAwayCount = s.throwAwayCount + 1

theorem Ready.mono {k : ℕ} {instr : SuperscalarInstruction} (h : Ready (k + 1) instr) :
    Ready k instr :=
  ⟨fun j hj hlt => h.src j hj (by omega), fun hlt => h.dst (by omega)⟩

/-- A round that has begun: what is known of the instruction once the operands of its next
macro-operation have been selected. -/
structure Begun (ready : SuperscalarInstruction → Prop) (s : Generation) : Prop where
  program : ∀ instr ∈ s.program, ValidInstruction instr
  length : s.program.length < SuperscalarMaxSize
  created : Created s.currentInstruction
  ready : ready s.currentInstruction
  index : s.macroOpIndex < s.currentInstruction.info.ops.length
  throwAway : s.throwAwayCount ≤ MAX_THROWAWAY_COUNT

theorem issue_spec {s : Generation} {k : ℕ} (h : Begun (Ready (k + 1)) s) (hk : s.macroOpIndex = k)
    (mop : MacroOp) (topCycle scheduleCycle : ℕ) :
    Valid (issue s mop topCycle scheduleCycle) ∧
      Advances s (issue s mop topCycle scheduleCycle) := by
  subst hk
  unfold issue
  dsimp only
  rcases hsched : scheduleMop true mop s.portBusy scheduleCycle scheduleCycle with ⟨_ | c, portBusy⟩
  · exact ⟨⟨h.program, h.length.le, fun _ => ⟨h.created, Ready.mono h.ready, h.length⟩,
      Nat.zero_le _⟩, rfl, rfl,
      .inl rfl⟩
  · dsimp only
    by_cases hlast : s.currentInstruction.info.ops.length ≤ s.macroOpIndex + 1
    · rw [if_pos hlast]
      have hk : s.currentInstruction.info.ops.length = s.macroOpIndex + 1 :=
        Nat.le_antisymm hlast h.index
      refine ⟨⟨fun instr hinstr => ?_, ?_, fun hlt => absurd hlt (Nat.not_lt.mpr hlast),
        Nat.zero_le _⟩, rfl,
        rfl, .inr (.inl rfl)⟩
      · rcases List.mem_append.mp hinstr with hold | hnew
        · exact h.program instr hold
        · rw [List.mem_singleton.mp hnew]
          exact h.created.valid (hk ▸ h.ready)
      · rw [List.length_append]
        exact h.length
    · rw [if_neg hlast]
      exact ⟨⟨h.program, h.length.le, fun _ => ⟨h.created, h.ready, h.length⟩,
        Nat.zero_le _⟩, rfl, rfl,
        .inr (.inl rfl)⟩

theorem giveUp_spec {ready : SuperscalarInstruction → Prop} {s : Generation} (h : Begun ready s) :
    Valid (giveUp s) ∧ Advances s (giveUp s) := by
  unfold giveUp
  dsimp only
  split_ifs with hthrow
  · exact ⟨⟨h.program, h.length.le, fun hlt => absurd hlt (Nat.lt_irrefl _), hthrow⟩, rfl, rfl,
      .inr (.inr ⟨rfl, rfl⟩)⟩
  · exact ⟨⟨h.program, h.length.le, fun hlt => absurd hlt (Nat.not_lt_zero _), h.throwAway⟩,
      rfl, rfl, .inl rfl⟩

/-- The source of the next macro-operation has been selected, and what the ones before need. -/
structure SourceReady (k : ℕ) (instr : SuperscalarInstruction) : Prop where
  src : ∀ j, instr.info.srcOp = some j → j < k + 1 → instr.src.isSome = true
  dst : instr.info.dstOp < k → ∃ d, instr.dst = some d ∧
    (instr.info.type = .IADD_RS → d ≠ RegisterNeedsDisplacement) ∧
    (instr.canReuse = false → instr.src ≠ some d)

theorem withDestination_spec {s : Generation} {k : ℕ} (h : Begun (SourceReady k) s)
    (hk : s.macroOpIndex = k) (mop : MacroOp) (topCycle scheduleCycle : ℕ) :
    Valid (withDestination blake2b s mop topCycle scheduleCycle) ∧
      Advances s (withDestination blake2b s mop topCycle scheduleCycle) := by
  subst hk
  unfold withDestination
  by_cases hop : s.macroOpIndex = s.currentInstruction.info.dstOp
  · rw [if_pos hop]
    split
    · exact giveUp_spec h
    · rename_i instr gen found hlook
      obtain ⟨hsame, hsrc, d, hd, hlea, hdistinct⟩ :=
        selectDestination_spec (lookForward_spec hlook)
      have hready : Ready (s.macroOpIndex + 1) instr := by
        refine ⟨fun j hj hlt => ?_, fun _ => ⟨d, hd, ?_, ?_⟩⟩
        · rw [hsrc]
          exact h.ready.src j (hsame.info ▸ hj) hlt
        · rw [hsame.info]
          exact hlea
        · rw [hsame.canReuse, hsrc]
          exact hdistinct
      have hbegun : Begun (Ready (s.macroOpIndex + 1)) { s with
          currentInstruction := instr
          gen
          cycle := s.cycle + (found - scheduleCycle) } :=
        ⟨h.program, h.length, h.created.of_same hsame, hready, hsame.info ▸ h.index, h.throwAway⟩
      obtain ⟨hvalid, hbuffer, hcycle, hmoved⟩ := issue_spec hbegun rfl mop topCycle found
      exact ⟨hvalid, hbuffer, hcycle, hmoved⟩
  · rw [if_neg hop]
    exact issue_spec ⟨h.program, h.length, h.created,
      ⟨h.ready.src, fun hlt => h.ready.dst (by omega)⟩, h.index,
      h.throwAway⟩ rfl mop topCycle scheduleCycle

theorem withSource_spec {s : Generation} (h : Begun (Ready s.macroOpIndex) s) (mop : MacroOp)
    (scheduleCycle : ℕ) :
    Valid (withSource blake2b s mop scheduleCycle) ∧
      Advances s (withSource blake2b s mop scheduleCycle) := by
  unfold withSource
  by_cases hop : some s.macroOpIndex = s.currentInstruction.info.srcOp
  · rw [if_pos hop]
    split
    · exact giveUp_spec h
    · rename_i instr gen found hlook
      obtain ⟨hsame, hdst, hsome⟩ := selectSource_spec (lookForward_spec hlook)
      have hready : SourceReady s.macroOpIndex instr := by
        refine ⟨fun _ _ _ => hsome, fun hlt => ?_⟩
        rw [hsame.info] at hlt
        obtain ⟨d, hd, hlea, -⟩ := h.ready.dst hlt
        refine ⟨d, hdst.trans hd, by rwa [hsame.info], fun hreuse => ?_⟩
        have hlater := h.created.reuse.mpr (reuse_of_later _ h.created.info _ hop.symm hlt)
        rw [hsame.canReuse, hlater] at hreuse
        cases hreuse
      have hbegun : Begun (SourceReady s.macroOpIndex) { s with
          currentInstruction := instr
          gen
          cycle := s.cycle + (found - scheduleCycle) } :=
        ⟨h.program, h.length, h.created.of_same hsame, hready, hsame.info ▸ h.index, h.throwAway⟩
      obtain ⟨hvalid, hbuffer, hcycle, hmoved⟩ := withDestination_spec hbegun rfl mop s.cycle found
      exact ⟨hvalid, hbuffer, hcycle, hmoved⟩
  · rw [if_neg hop]
    refine withDestination_spec ⟨h.program, h.length, h.created,
      ⟨fun j hj hlt => ?_, h.ready.dst⟩, h.index,
      h.throwAway⟩ rfl mop s.cycle scheduleCycle
    have hne : j ≠ s.macroOpIndex := by
      rintro rfl
      exact hop hj.symm
    exact h.ready.src j hj (by omega)

theorem nextMop_spec (blake2b : List UInt8 → List UInt8) {s : Generation}
    {k : ℕ} (h : Begun (Ready k) s) (hk : s.macroOpIndex = k) :
    ∃ s', nextMop blake2b s = some s' ∧ Valid s' ∧ Advances s s' := by
  subst hk
  refine ⟨_, by rw [nextMop, List.getElem?_eq_getElem h.index]; rfl, ?_⟩
  dsimp only
  split
  · exact ⟨⟨h.program, h.length.le, fun _ => ⟨h.created, h.ready, h.length⟩, h.throwAway⟩,
      rfl, rfl, .inl rfl⟩
  · exact withSource_spec h _ _

/-- The numbers that instructions are drawn with are found after at most `fuel` drawings. -/
def Draws (blake2b : List UInt8 → List UInt8) (fuel : ℕ) : Prop :=
  ∀ info ∈ infos, ∀ instr gen,
    (SuperscalarInstruction.create blake2b fuel info instr gen).isSome = true

/-- The buffers that the loop over the slots works with. -/
def buffers : List DecoderBuffer :=
  [.decodeBuffer484, .decodeBuffer7333, .decodeBuffer3733, .decodeBuffer493, .decodeBuffer4444,
    .decodeBuffer3310]

theorem slot_spec {s s' : Generation} (h : Valid s) (hs : slot blake2b fuel s = some s') :
    Valid s' ∧ Advances s s' := by
  unfold slot at hs
  split_ifs at hs with hdone hfull
  · rw [Option.some.injEq] at hs
    subst hs
    exact ⟨⟨h.program, h.length, h.current, h.throwAway⟩, rfl, rfl, .inl rfl⟩
  · rw [Option.bind_eq_some_iff] at hs
    obtain ⟨slotSize, -, hs⟩ := hs
    rw [Option.bind_eq_some_iff] at hs
    obtain ⟨⟨instr, gen⟩, hcreate, hs⟩ := hs
    rw [not_or, Nat.not_le] at hfull
    have hcreated := created_createForSlot hcreate
    have hbegun : Begun (Ready 0) { s with currentInstruction := instr, gen, macroOpIndex := 0 } :=
      ⟨h.program, hfull.2, hcreated, ready_zero instr,
        lt_of_le_of_lt (Nat.zero_le _) (ops_after _ hcreated.info).1, h.throwAway⟩
    obtain ⟨t, ht, hvalid, hbuffer, hcycle, hmoved⟩ := nextMop_spec blake2b hbegun rfl
    dsimp only at hs
    rw [ht, Option.some.injEq] at hs
    subst hs
    exact ⟨hvalid, hbuffer, hcycle, hmoved⟩
  · obtain ⟨hcreated, hready, hlength⟩ := h.current (Nat.lt_of_not_le hdone)
    obtain ⟨t, ht, hspec⟩ := nextMop_spec blake2b
      ⟨h.program, hlength, hcreated, hready, Nat.lt_of_not_le hdone, h.throwAway⟩ rfl
    rw [ht, Option.some.injEq] at hs
    exact hs ▸ hspec

/-! The generator ends, as long as the drawing of numbers does. -/

theorem createOneOf_isSome (hdraw : Draws blake2b fuel) {slot : List SuperscalarInstructionInfo}
    (hslot : slot ∈ [slot_3, slot_3L, slot_4, slot_7, slot_8, slot_9])
    (instr : SuperscalarInstruction)
    (gen : Blake2Generator) :
    (SuperscalarInstruction.createOneOf blake2b fuel slot instr gen).isSome = true := by
  have hpos : 0 < slot.length := by
    revert slot
    decide
  have hlt := Nat.mod_lt (gen.getByte blake2b).1.toNat hpos
  have hget := List.getElem?_eq_getElem hlt
  unfold SuperscalarInstruction.createOneOf
  dsimp only
  rw [hget, Option.bind_some]
  exact hdraw _ (slot_subset slot hslot _ (List.getElem_mem hlt)) instr _

theorem createForSlot_isSome (hdraw : Draws blake2b fuel) {slotSize : ℕ}
    (hsize : slotSize ∈ [3, 4, 7, 8, 9, 10]) (fetchType : ℤ) (isLast : Bool)
    (instr : SuperscalarInstruction)
    (gen : Blake2Generator) :
    (instr.createForSlot blake2b fuel slotSize fetchType isLast gen).isSome = true := by
  simp only [List.mem_cons, List.not_mem_nil, or_false] at hsize
  rcases hsize with rfl | rfl | rfl | rfl | rfl | rfl
  · refine createOneOf_isSome hdraw ?_ instr gen
    cases isLast <;> decide
  · change (if fetchType = 4 ∧ isLast = false
      then SuperscalarInstruction.create blake2b fuel .IMUL_R instr gen
      else SuperscalarInstruction.createOneOf blake2b fuel slot_4 instr gen).isSome = true
    split_ifs
    · exact hdraw .IMUL_R (by decide) instr gen
    · exact createOneOf_isSome hdraw (by decide) instr gen
  · exact createOneOf_isSome hdraw (by decide) instr gen
  · exact createOneOf_isSome hdraw (by decide) instr gen
  · exact createOneOf_isSome hdraw (by decide) instr gen
  · exact hdraw slot_10 (by decide) instr gen

theorem buffers_sizes :
    ∀ b ∈ buffers, b.counts.length ≤ 4 ∧ ∀ n ∈ b.counts, n ∈ [3, 4, 7, 8, 9, 10] := by
  decide

theorem fetchNext_mem (type : SuperscalarInstructionType) (cycle mulCount : ℕ)
    (gen : Blake2Generator) :
    (DecoderBuffer.fetchNext blake2b type cycle mulCount gen).1 ∈ buffers := by
  have hdefault : ∀ k < 4, DecoderBuffer.decodeBuffers.getD k .Default ∈ buffers := by decide
  unfold DecoderBuffer.fetchNext DecoderBuffer.fetchNextDefault
  dsimp only
  split_ifs
  · exact (by decide : DecoderBuffer.decodeBuffer3310 ∈ buffers)
  · exact (by decide : DecoderBuffer.decodeBuffer4444 ∈ buffers)
  · exact (by decide : DecoderBuffer.decodeBuffer484 ∈ buffers)
  · exact (by decide : DecoderBuffer.decodeBuffer493 ∈ buffers)
  · exact hdefault _ (Nat.mod_lt _ (by decide))

/-- How many rounds of the loop over the slots are left at most. -/
def slotRounds (s : Generation) : ℕ :=
  if s.stopped then 0
  else (s.decodeBuffer.counts.length - s.bufferIndex) * (MAX_THROWAWAY_COUNT + 2) +
    (MAX_THROWAWAY_COUNT - s.throwAwayCount) + 1

theorem slotRounds_lt {s s' : Generation} (hrun : slotRunning s = true) (h' : Valid s')
    (hadv : Advances s s') : slotRounds s' < slotRounds s := by
  rw [slotRunning, Bool.and_eq_true, Bool.not_eq_true', decide_eq_true_eq] at hrun
  obtain ⟨hstopped, hindex⟩ := hrun
  have hthrow := h'.throwAway
  unfold slotRounds
  rw [hstopped, hadv.decodeBuffer]
  cases hs' : s'.stopped with
  | true =>
    simp only [if_true]
    exact Nat.succ_pos _
  | false =>
    simp only [Bool.false_eq_true, if_false]
    rcases hadv.moved with hm | hm | ⟨hm, ht⟩
    · rw [hs'] at hm
      cases hm
    · obtain ⟨d, hd⟩ : ∃ d, s.decodeBuffer.counts.length - s.bufferIndex = d + 1 :=
        ⟨s.decodeBuffer.counts.length - s.bufferIndex - 1, by omega⟩
      rw [hm, hd, show s.decodeBuffer.counts.length - (s.bufferIndex + 1) = d by omega, Nat.add_mul]
      omega
    · rw [hm, ht]
      omega

theorem exists_slot (hdraw : Draws blake2b fuel) {s : Generation} (h : Valid s)
    (hbuffer : s.decodeBuffer ∈ buffers) (hrun : slotRunning s = true) :
    ∃ s', slot blake2b fuel s = some s' ∧ (Valid s' ∧ s'.decodeBuffer ∈ buffers) ∧
      slotRounds s' < slotRounds s := by
  have hsome : (slot blake2b fuel s).isSome = true := by
    unfold slot
    split_ifs with hdone hfull
    · rfl
    · rw [slotRunning, Bool.and_eq_true, decide_eq_true_eq] at hrun
      rw [List.getElem?_eq_getElem hrun.2, Option.bind_some]
      obtain ⟨⟨instr, gen⟩, hcreate⟩ := Option.isSome_iff_exists.mp (createForSlot_isSome hdraw
        ((buffers_sizes _ hbuffer).2 _ (List.getElem_mem hrun.2)) s.decodeBuffer.index
        (s.decodeBuffer.counts.length = s.bufferIndex + 1) s.currentInstruction s.gen)
      have hinfo := (created_createForSlot hcreate).info
      rw [hcreate, Option.bind_some]
      dsimp only
      rw [nextMop, Option.isSome_map,
        List.getElem?_eq_getElem (lt_of_le_of_lt (Nat.zero_le _) (ops_after _ hinfo).1)]
      rfl
    · rw [nextMop, Option.isSome_map, List.getElem?_eq_getElem (Nat.lt_of_not_le hdone)]
      rfl
  obtain ⟨s', hs'⟩ := Option.isSome_iff_exists.mp hsome
  obtain ⟨hvalid, hadv⟩ := slot_spec h hs'
  exact ⟨s', hs', ⟨hvalid, hadv.decodeBuffer ▸ hbuffer⟩, slotRounds_lt hrun hvalid hadv⟩

/-- One decode cycle. -/
theorem decode_spec {s s' : Generation} (h : Valid s) (hs : decode blake2b fuel s = some s') :
    Valid s' ∧ s'.decodeCycle = s.decodeCycle + 1 := by
  rw [decode, Option.map_eq_some_iff] at hs
  obtain ⟨t, ht, rfl⟩ := hs
  have hkeeps := Loops.loop_trans
    (R := fun a b : Generation => Valid a → Valid b ∧ b.decodeCycle = a.decodeCycle)
    (fun _ ha => ⟨ha, rfl⟩)
    (fun _ _ _ hab hbc ha => ⟨(hbc (hab ha).1).1, (hbc (hab ha).1).2.trans (hab ha).2⟩)
    (fun a b _ hab ha => ⟨(slot_spec ha hab).1, (slot_spec ha hab).2.decodeCycle⟩) ht
  obtain ⟨hvalid, hcycle⟩ := hkeeps ⟨h.program, h.length, h.current, h.throwAway⟩
  exact ⟨⟨hvalid.program, hvalid.length, hvalid.current, hvalid.throwAway⟩, congrArg (· + 1) hcycle⟩

theorem slotRounds_le {s : Generation} (h : s.decodeBuffer ∈ buffers) :
    slotRounds s ≤ slotFuel := by
  have hlength := (buffers_sizes _ h).1
  have hmul : (s.decodeBuffer.counts.length - s.bufferIndex) * (MAX_THROWAWAY_COUNT + 2) ≤
      4 * (MAX_THROWAWAY_COUNT + 2) := Nat.mul_le_mul_right _ (by omega)
  unfold slotRounds slotFuel
  split_ifs <;> omega

theorem exists_decode (hdraw : Draws blake2b fuel) {s : Generation} (h : Valid s) :
    ∃ s', decode blake2b fuel s = some s' := by
  have hfetch : Valid (s.fetch blake2b) := ⟨h.program, h.length, h.current, h.throwAway⟩
  have hbuffer : (s.fetch blake2b).decodeBuffer ∈ buffers := fetchNext_mem ..
  have hstep : ∀ t : Generation, (Valid t ∧ t.decodeBuffer ∈ buffers) → slotRunning t = true →
      ∃ t', slot blake2b fuel t = some t' ∧ (Valid t' ∧ t'.decodeBuffer ∈ buffers) ∧
        slotRounds t' < slotRounds t :=
    fun _ ht hrun => exists_slot hdraw ht.1 ht.2 hrun
  obtain ⟨t, ht, -⟩ := Loops.exists_loop hstep ⟨hfetch, hbuffer⟩ (slotRounds_le hbuffer)
  exact ⟨_, by rw [decode, ht]; rfl⟩

theorem valid_start (gen : Blake2Generator) : Valid (start gen) :=
  ⟨fun _ h => absurd h List.not_mem_nil, Nat.zero_le _, fun h => absurd h (Nat.lt_irrefl _),
    Nat.zero_le _⟩

end Generation

/-! ### Whole programs -/

/-- A program that can be executed and compiled. -/
structure SuperscalarProgram.Valid (prog : SuperscalarProgram) : Prop where
  length : prog.programBuffer.length ≤ SuperscalarMaxSize
  instructions : ∀ instr ∈ prog.programBuffer, ValidInstruction instr

open Generation in
theorem valid_of_generateSuperscalar {gen : Blake2Generator}
    {r : SuperscalarProgram × Blake2Generator}
    (h : generateSuperscalar blake2b fuel gen = some r) : r.1.Valid := by
  rw [generateSuperscalar, Option.bind_eq_some_iff] at h
  obtain ⟨s, hs, h⟩ := h
  rw [Option.map_eq_some_iff] at h
  obtain ⟨latencies, -, rfl⟩ := h
  have hvalid :=
    Loops.loop_trans (R := fun a b : Generation => Generation.Valid a → Generation.Valid b)
    (fun _ => id) (fun _ _ _ hab hbc => hbc ∘ hab) (fun a b _ hab ha => (decode_spec ha hab).1) hs
    (valid_start gen)
  exact ⟨hvalid.length, hvalid.program⟩

theorem reg?_eq_some {b : UInt8} (h : b.toNat < 8) : reg? b = some ⟨b.toNat, h⟩ := dif_pos h

theorem asicLatencies_isSome {program : List Instruction}
    (h : ∀ instr ∈ program, ValidInstruction instr) (latencies : Fin 8 → ℕ) :
    (asicLatencies program latencies).isSome = true := by
  induction program generalizing latencies with
  | nil => rfl
  | cons instr rest ih =>
    have hinstr := h instr List.mem_cons_self
    rw [asicLatencies, reg?_eq_some hinstr.dst, Option.bind_some, reg?_eq_some hinstr.src,
      Option.bind_some]
    exact ih (fun i hi => h i (List.mem_cons_of_mem instr hi)) _

open Generation in
theorem exists_generateSuperscalar (hdraw : Draws blake2b fuel) (gen : Blake2Generator) :
    ∃ prog gen', generateSuperscalar blake2b fuel gen = some (prog, gen') ∧ prog.Valid := by
  have hstep : ∀ t : Generation, Valid t → running t = true →
      ∃ t', Generation.decode blake2b fuel t = some t' ∧ Valid t' ∧
        RANDOMX_SUPERSCALAR_LATENCY - t'.decodeCycle < RANDOMX_SUPERSCALAR_LATENCY -
          t.decodeCycle := by
    intro t ht hrun
    obtain ⟨t', ht'⟩ := exists_decode hdraw ht
    obtain ⟨hvalid, hcycle⟩ := decode_spec ht ht'
    rw [running, Bool.and_eq_true, Bool.and_eq_true, decide_eq_true_eq] at hrun
    exact ⟨t', ht', hvalid, by omega⟩
  obtain ⟨s, hs, hvalid, -⟩ := Loops.exists_loop hstep (valid_start gen) (Nat.sub_le _ _)
  obtain ⟨latencies, hlatencies⟩ := Option.isSome_iff_exists.mp
    (asicLatencies_isSome hvalid.program fun _ => 0)
  have hgen : generateSuperscalar blake2b fuel gen =
      some (⟨s.program, slowestRegister latencies⟩, s.gen) := by
    rw [generateSuperscalar, hs, Option.bind_some, hlatencies]
    rfl
  exact ⟨_, _, hgen, hvalid.length, hvalid.program⟩

/-! ### The generator returns -/

/-- A hash function without variety, whose numbers are never bad ones. -/
def threes : List UInt8 → List UInt8 := fun _ => List.replicate 64 3

theorem getByte_threes {gen : Blake2Generator} (h : 63 < gen.dataIndex) :
    (gen.getByte threes).1 = 3 := by
  unfold Blake2Generator.getByte Blake2Generator.checkData
  rw [if_pos (by omega)]
  rfl

theorem getUInt32_threes {gen : Blake2Generator} (h : 60 < gen.dataIndex) :
    (gen.getUInt32 threes).1 = 0x03030303 := by
  unfold Blake2Generator.getUInt32 Blake2Generator.checkData
  rw [if_pos (by omega)]
  change (Word.read 4 fun i => (List.replicate 64 (3 : UInt8)).getD (0 + i) 0) = _
  decide

theorem dataIndex_getByte {gen : Blake2Generator} (h : gen.dataIndex ≤ 63) :
    (gen.getByte threes).2.dataIndex = gen.dataIndex + 1 := by
  unfold Blake2Generator.getByte Blake2Generator.checkData
  rw [if_neg (by omega)]

theorem dataIndex_getUInt32 {gen : Blake2Generator} (h : gen.dataIndex ≤ 60) :
    (gen.getUInt32 threes).2.dataIndex = gen.dataIndex + 4 := by
  unfold Blake2Generator.getUInt32 Blake2Generator.checkData
  rw [if_neg (by omega)]

theorem draws_threes : Generation.Draws threes 65 := by
  have hrotation : ∀ fuel gen, 64 - gen.dataIndex < fuel → (drawUntil
      (fun gen => ((gen.getByte threes).1 &&& 63, (gen.getByte threes).2))
        (· = 0) fuel gen).isSome = true := by
    intro fuel
    induction fuel with
    | zero => exact fun _ h => absurd h (Nat.not_lt_zero _)
    | succ fuel ih =>
      intro gen hgen
      rw [drawUntil]
      split_ifs with hbad
      · rcases Nat.lt_or_ge 63 gen.dataIndex with hlt | hle
        · simp only [getByte_threes hlt] at hbad
          exact absurd hbad (by decide)
        · exact ih _ (by rw [dataIndex_getByte hle]; omega)
      · rfl
  have hreciprocal : ∀ fuel gen, 64 - gen.dataIndex < fuel → (drawUntil
      (Blake2Generator.getUInt32 threes) (fun x => isZeroOrPowerOf2 (x.setWidth 64))
        fuel gen).isSome = true := by
    intro fuel
    induction fuel with
    | zero => exact fun _ h => absurd h (Nat.not_lt_zero _)
    | succ fuel ih =>
      intro gen hgen
      rw [drawUntil]
      split_ifs with hbad
      · rcases Nat.lt_or_ge 60 gen.dataIndex with hlt | hle
        · simp only [getUInt32_threes hlt] at hbad
          exact absurd hbad (by decide)
        · exact ih _ (by rw [dataIndex_getUInt32 hle]; omega)
      · rfl
  intro info hinfo instr gen
  unfold SuperscalarInstruction.create
  cases htype : info.type with
  | IROR_C =>
    dsimp only
    rw [Option.isSome_map]
    exact hrotation 65 gen (by omega)
  | IMUL_RCP =>
    dsimp only
    rw [Option.isSome_map]
    exact hreciprocal 65 gen (by omega)
  | _ => rfl

/-- Every program that the generator makes is valid, and it makes one for every seed and every state
of its hash function, unless the numbers that it draws again are bad ones forever. -/
theorem generateSuperscalar_valid (blake2b : List UInt8 → List UInt8)
    (fuel : ℕ) (gen : Blake2Generator) :
    (∀ r, generateSuperscalar blake2b fuel gen = some r → r.1.Valid) ∧
      (Generation.Draws blake2b fuel → (generateSuperscalar blake2b fuel gen).isSome = true) := by
  refine ⟨fun r h => valid_of_generateSuperscalar h, fun hdraw => ?_⟩
  obtain ⟨prog, gen', h, -⟩ := exists_generateSuperscalar hdraw gen
  rw [h]
  rfl

theorem generateSuperscalar_valid_threes :
    ∃ prog gen, generateSuperscalar threes 65 (.ofSeed [] 0) = some (prog, gen) ∧ prog.Valid := by
  obtain ⟨hvalid, hreturns⟩ := generateSuperscalar_valid threes 65 (.ofSeed [] 0)
  obtain ⟨r, hr⟩ := Option.isSome_iff_exists.mp (hreturns draws_threes)
  exact ⟨r.1, r.2, hr, hvalid r hr⟩

end NMiner.RandomX
