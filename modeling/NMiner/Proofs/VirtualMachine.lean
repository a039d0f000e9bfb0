import NMiner.Proofs.Bytecode
import NMiner.Spec.VirtualMachine

/-! Runs of an interpreted machine. Every access of a run is inside the scratchpad or the dataset,
and the run ends; it does not depend on what the last program left in the bytecode, and it changes
neither the constant registers nor more of the control word than the rounding mode. What a program
divides by is a positive normal number. -/

namespace NMiner.RandomX

open X86 (Lanes Units)

variable {u : Units} {flags : Flags} {config : ProgramConfiguration}

/-! ### What the old bytecode matters -/

/-- What an instruction reads of its bytecode its translation has written. -/
theorem execute_compiled (instr : Instruction) (i : ℤ) (ibc ibc' : InstructionByteCode)
    (usage : RegisterUsage) (s : Vm) :
    executeInstruction u flags config (compileInstruction instr i ibc usage).1 s =
      executeInstruction u flags config (compileInstruction instr i ibc' usage).1 s := by
  unfold compileInstruction
  cases opcodeType instr.opcode with
  | IADD_M | ISUB_M | IMUL_M | IMULH_M | ISMULH_M | IXOR_M =>
    unfold compile.memory
    dsimp only
    split_ifs <;> rfl
  | ISUB_R | IMUL_R | IXOR_R | IROR_R | IROL_R =>
    unfold compile.regOrImm
    dsimp only
    split_ifs <;> rfl
  | IADD_RS | IMUL_RCP | ISWAP_R =>
    dsimp only
    split_ifs <;> rfl
  | _ => rfl

theorem executeBytecode_compiled (program : List Instruction)
    (bytecode bytecode' : ℕ → InstructionByteCode)
    (fuel : ℕ) (s : Vm) :
    executeBytecode u flags config (compileProgram program bytecode) program.length fuel s =
      executeBytecode u flags config (compileProgram program bytecode') program.length fuel s := by
  rcases Nat.eq_zero_or_pos program.length with hzero | hpos
  · unfold executeBytecode
    rw [Loops.loop_of_not (by simp [hzero]), Loops.loop_of_not (by simp [hzero])]
  · apply Loops.loop_congr
    intro s hs
    have hlt : s.pc.toNat < program.length := by
      have := of_decide_eq_true hs
      omega
    unfold bytecodeStep
    rw [compileProgram_apply hlt, compileProgram_apply hlt, execute_compiled]

/-- A run depends on its program only, not on the one that was compiled before it. -/
theorem run_forgets (u : Units) (flags : Flags) (datasetRead : ℕ → Option Line)
    (bytecode bytecode' : ℕ → InstructionByteCode) (prog : Program) (scratchpad : ℕ → UInt8)
    (mxcsr : BitVec 32) :
    InterpretedVm.run u flags datasetRead bytecode prog scratchpad mxcsr =
      InterpretedVm.run u flags datasetRead bytecode' prog scratchpad mxcsr := by
  have hstep : iteration u flags (vmInitialize prog).config
    (compileProgram (prog.code flags) bytecode)
        (prog.code flags).length (vmInitialize prog).datasetOffset datasetRead =
      iteration u flags (vmInitialize prog).config (compileProgram (prog.code flags) bytecode')
        (prog.code flags).length (vmInitialize prog).datasetOffset datasetRead := by
    funext s
    unfold iteration
    simp only [executeBytecode_compiled _ bytecode bytecode']
  unfold InterpretedVm.run
  dsimp only
  rw [hstep]

/-! ### What a program does not change -/

/-- The control word up to the rounding mode: exceptions are masked, denormals are zero. -/
def ControlWord (mxcsr : BitVec 32) : Prop := mxcsr &&& ~~~(3#32 <<< 13) = rx_mxcsr_default

structure Steady (s s' : Vm) : Prop where
  a : s'.a = s.a
  control : s'.mxcsr = s.mxcsr ∨ ControlWord s'.mxcsr

theorem Steady.refl (s : Vm) : Steady s s := ⟨rfl, Or.inl rfl⟩

theorem Steady.trans {s t r : Vm} (h : Steady s t) (h' : Steady t r) : Steady s r :=
  ⟨h'.a.trans h.a, h'.control.elim (fun hsame => hsame ▸ h.control) Or.inr⟩

theorem steady_setR (s : Vm) (k : Fin 8) (v : BitVec 64) : Steady s (s.setR k v) :=
    ⟨rfl, Or.inl rfl⟩

theorem steady_setFlt (s : Vm) {k : FloatReg} (hk : ∀ j, k ≠ .a j) (v : Lanes) :
    Steady s (s.setFlt k v) := by
  cases k with
  | a j => exact absurd rfl (hk j)
  | f j | e j => exact ⟨rfl, Or.inl rfl⟩

theorem controlWord_rounding {x : BitVec 64} :
    ControlWord (rx_mxcsr_default ||| (x % 4).setWidth 32 <<< 13) := by
  have hlt : (x % 4).toNat < 4 := by
    rw [BitVec.toNat_umod]
    exact Nat.mod_lt _ (by decide)
  obtain ⟨k, hk, hx⟩ : ∃ k < 4, (x % 4).setWidth 32 = BitVec.ofNat 32 k :=
    ⟨(x % 4).toNat, hlt, BitVec.eq_of_toNat_eq (by rw [BitVec.toNat_setWidth, BitVec.toNat_ofNat])⟩
  have hall : ∀ k < 4, ControlWord (rx_mxcsr_default ||| BitVec.ofNat 32 k <<< 13) := by
    unfold ControlWord
    decide
  rw [hx]
  exact hall k hk

theorem steady_exeMemory {op : BitVec 64 → BitVec 64 → BitVec 64}
    {ibc : InstructionByteCode} {s s' : Vm}
    (h : exeMemory op ibc s = some s') : Steady s s' := by
  rw [exeMemory, Option.map_eq_some_iff] at h
  obtain ⟨v, -, rfl⟩ := h
  exact steady_setR ..

theorem steady_exeReg {op : BitVec 64 → BitVec 64 → BitVec 64}
    {ibc : InstructionByteCode} {s s' : Vm}
    (h : exeReg op ibc s = some s') : Steady s s' := by
  rw [exeReg, Option.some.injEq] at h
  exact h ▸ steady_setR ..

theorem steady_exeFloatMemory {op : Lanes → Lanes → Lanes} {ibc : InstructionByteCode} {s s' : Vm}
    (hdst : ∀ j, ibc.fdst ≠ .a j) (h : exeFloatMemory u op ibc s = some s') : Steady s s' := by
  rw [exeFloatMemory, Option.map_eq_some_iff] at h
  obtain ⟨v, -, rfl⟩ := h
  exact steady_setFlt s hdst _

theorem steady_exeFloatReg {op : Lanes → Lanes → Lanes} {ibc : InstructionByteCode} {s s' : Vm}
    (hdst : ∀ j, ibc.fdst ≠ .a j) (h : exeFloatReg op ibc s = some s') : Steady s s' := by
  rw [exeFloatReg, Option.some.injEq] at h
  exact h ▸ steady_setFlt s hdst _

/-- No instruction has a constant register as its destination. -/
theorem compile_fdst {instr : Instruction} (i : ℤ) (usage : RegisterUsage) (j : Fin 4) :
    (compileInstruction instr i ⟨.NOP, 0, .f 0, .zero, .f 0, 0, 0, 0, 0⟩ usage).1.fdst ≠ .a j := by
  unfold compileInstruction compile.memory compile.regOrImm
  cases opcodeType instr.opcode with
  | IADD_RS | IADD_M | ISUB_R | ISUB_M | IMUL_R | IMUL_M | IMULH_M
    | ISMULH_M | IMUL_RCP | IXOR_R | IXOR_M
  | IROR_R | IROL_R | ISWAP_R | FSWAP_R =>
    dsimp only
    split_ifs <;> exact FloatReg.noConfusion
  | _ => exact FloatReg.noConfusion

theorem steady_executeInstruction {ibc : InstructionByteCode}
    (hdst : ∀ j, ibc.fdst ≠ .a j) {s s' : Vm}
    (h : executeInstruction u flags config ibc s = some s') : Steady s s' := by
  unfold executeInstruction at h
  cases htype : ibc.type with
  | IADD_M | ISUB_M | IMUL_M | IMULH_M | ISMULH_M | IXOR_M =>
    rw [htype] at h
    exact steady_exeMemory h
  | ISUB_R | IMUL_R | IMULH_R | ISMULH_R | IXOR_R | IROR_R | IROL_R =>
    rw [htype] at h
    exact steady_exeReg h
  | FADD_M | FSUB_M | FDIV_M =>
    rw [htype] at h
    exact steady_exeFloatMemory hdst h
  | FADD_R | FSUB_R | FMUL_R =>
    rw [htype] at h
    exact steady_exeFloatReg hdst h
  | FSWAP_R | FSCAL_R | FSQRT_R =>
    simp only [htype, Option.some.injEq] at h
    exact h ▸ steady_setFlt s hdst _
  | IADD_RS | INEG_R =>
    simp only [htype, Option.some.injEq] at h
    exact h ▸ steady_setR ..
  | ISWAP_R =>
    simp only [htype] at h
    cases hsrc : ibc.isrc with
    | reg k =>
      rw [hsrc, Option.some.injEq] at h
      exact h ▸ (steady_setR ..).trans (steady_setR ..)
    | zero | imm =>
      rw [hsrc] at h
      cases h
  | CBRANCH =>
    simp only [htype] at h
    split_ifs at h <;> exact Option.some.inj h ▸ ⟨rfl, Or.inl rfl⟩
  | CFROUND =>
    simp only [htype] at h
    split_ifs at h
    · exact Option.some.inj h ▸ ⟨rfl, Or.inr controlWord_rounding⟩
    · exact Option.some.inj h ▸ .refl s
  | ISTORE =>
    simp only [htype, Vm.store64] at h
    split_ifs at h
    exact Option.some.inj h ▸ ⟨rfl, Or.inl rfl⟩
  | NOP =>
    simp only [htype, Option.some.injEq] at h
    exact h ▸ .refl s
  | IMUL_RCP =>
    rw [htype] at h
    cases h

theorem steady_executeBytecode (program : List Instruction) (bytecode : ℕ → InstructionByteCode)
    {fuel : ℕ} {s s' : Vm}
    (h : executeBytecode u flags config (compileProgram program bytecode)
      program.length fuel s = some s') :
    Steady s s' := by
  have hstart : Steady s { s with pc := 0 } := ⟨rfl, Or.inl rfl⟩
  refine hstart.trans ?_
  rcases Nat.eq_zero_or_pos program.length with hzero | hpos
  · unfold executeBytecode at h
    rw [Loops.loop_of_not (by simp [hzero]), Option.some.injEq] at h
    exact h ▸ .refl _
  · refine Loops.loop_trans Steady.refl (fun _ _ _ => Steady.trans) (fun t t' ht hstep => ?_) h
    have hlt : t.pc.toNat < program.length := by
      have := of_decide_eq_true ht
      omega
    rw [bytecodeStep, compileProgram_apply hlt, Option.map_eq_some_iff] at hstep
    obtain ⟨t₁, ht₁, rfl⟩ := hstep
    rw [execute_compiled _ _ _ ⟨.NOP, 0, .f 0, .zero, .f 0, 0, 0, 0, 0⟩] at ht₁
    exact (steady_executeInstruction (compile_fdst _ _) ht₁).trans ⟨rfl, Or.inl rfl⟩

/-! ### Lines of memory -/

theorem foldl_write_apply (m : ℕ → UInt8) (addr : ℕ) (line : Line)
    (l : List (Fin 8)) (k : Fin 8) {j : ℕ}
    (hj : j < 8) :
    l.foldl (fun m i => Word.write 8 m (addr + 8 * i.val) (line i)) m (addr + 8 * k + j) =
      if k ∈ l then Word.byte (line k) j else m (addr + 8 * k + j) := by
  induction l generalizing m with
  | nil => exact (if_neg List.not_mem_nil).symm
  | cons i l ih =>
    rw [List.foldl_cons, ih]
    by_cases hk : k ∈ l
    · rw [if_pos hk, if_pos (List.mem_cons_of_mem i hk)]
    · rw [if_neg hk]
      by_cases hki : k = i
      · rw [hki, if_pos List.mem_cons_self, Word.write_of_lt m (line i) hj]
      · rw [if_neg (by simp [hki, hk])]
        have hne : k.val ≠ i.val := fun h => hki (Fin.val_injective h)
        exact Word.write_of_not m (line i) (by omega)

theorem putLine_apply (m : ℕ → UInt8) (addr : ℕ) (line : Line) (k : Fin 8) {j : ℕ} (hj : j < 8) :
    putLine m addr line (addr + 8 * k + j) = Word.byte (line k) j := by
  rw [putLine, foldl_write_apply m addr line _ k hj, if_pos (List.mem_finRange k)]

theorem putLine_of_not (m : ℕ → UInt8) {addr x : ℕ} (line : Line) (h : x < addr ∨ addr + 64 ≤ x) :
    putLine m addr line x = m x := by
  have hfold : ∀ l : List (Fin 8), ∀ m : ℕ → UInt8,
      l.foldl (fun m i => Word.write 8 m (addr + 8 * i.val) (line i)) m x = m x := by
    intro l
    induction l with
    | nil => exact fun _ => rfl
    | cons i l ih =>
      intro m
      have hi := i.isLt
      rw [List.foldl_cons, ih, Word.write_of_not m (line i) (by omega)]
  exact hfold _ m

theorem getLine_putLine (m : ℕ → UInt8) (addr : ℕ) (line : Line) :
    getLine (putLine m addr line) addr = line := by
  funext k
  have hread : (Word.read 8 fun j => putLine m addr line (addr + 8 * k + j)) =
      Word.read 8 (Word.byte (line k)) := Word.read_congr fun j hj => putLine_apply m addr line k hj
  exact hread.trans (Word.read_byte (n := 8) (line k))

theorem getLine_putLine_of_not (m : ℕ → UInt8) {addr addr' : ℕ} (line : Line)
    (h : addr' + 64 ≤ addr ∨ addr + 64 ≤ addr') : getLine
    (putLine m addr line) addr' = getLine m addr' := by
  funext k
  have hk := k.isLt
  exact Word.read_congr fun j hj => putLine_of_not m line (by omega)

/-! ### The accesses of an iteration -/

theorem spAddr_le (x : BitVec 32) : (x &&& ScratchpadL3Mask64).toNat + 64 ≤ ScratchpadSize := by
  have hle := and_toNat_le x ScratchpadL3Mask64
  have hmask : ScratchpadL3Mask64.toNat + 64 = ScratchpadSize := by decide
  omega

theorem Vm.loadLine_eq {s : Vm} {addr : ℕ} (h : addr + 64 ≤ ScratchpadSize) :
    s.loadLine addr = some (getLine s.scratchpad addr) := if_pos h

theorem Vm.storeLine_eq {s : Vm} {addr : ℕ} (h : addr + 64 ≤ ScratchpadSize) (line : Line) :
    s.storeLine addr line = some { s with scratchpad := putLine s.scratchpad addr line } := if_pos h

/-- The offset that `randomx_vm::initialize` chooses, and the lines from it on. -/
theorem datasetOffset_le (prog : Program) (ma : BitVec 32) :
    (vmInitialize prog).datasetOffset + (ma &&& CacheLineAlignMask).toNat +
      CacheLineSize ≤ DatasetSize := by
  have hle := and_toNat_le ma CacheLineAlignMask
  have hmask : CacheLineAlignMask.toNat + CacheLineSize = RANDOMX_DATASET_BASE_SIZE := by decide
  have hextra : DatasetExtraItems * CacheLineSize = RANDOMX_DATASET_EXTRA_SIZE := by decide
  have hoffset : (vmInitialize prog).datasetOffset ≤ DatasetExtraItems * CacheLineSize :=
    Nat.mul_le_mul_right _ (Nat.lt_succ_iff.mp (Nat.mod_lt _ (Nat.succ_pos _)))
  unfold DatasetSize
  omega

/-- A line of the dataset can be read wherever an iteration asks for one. -/
def Readable (prog : Program) (datasetRead : ℕ → Option Line) : Prop :=
  ∀ ma : BitVec 32, ∃ line,
    datasetRead ((vmInitialize prog).datasetOffset + (ma &&& CacheLineAlignMask).toNat) = some line

theorem readable_dataset (prog : Program) (dataset : ℕ → UInt8) :
    Readable prog (InterpretedVm.datasetRead dataset) :=
  fun ma => ⟨_, if_pos (datasetOffset_le prog ma)⟩

/-- The registers that an iteration executes its program with. -/
def entered (u : Units) (config : ProgramConfiguration) (l : Loop) : Vm :=
  loadRegisters u config l.vm (getLine l.vm.scratchpad (mixAddresses config l).1.toNat)
    (getLine l.vm.scratchpad (mixAddresses config l).2.toNat)

/-- The end of an iteration, from the state after its program and the line read for it. -/
def left (u : Units) (flags : Flags) (config : ProgramConfiguration)
    (l : Loop) (vm : Vm) (line : Line) :
    Loop where
  vm :=
    { vm with
      r := fun i => vm.r i ^^^ line i
      f := mixFloat u flags vm.f vm.e
      scratchpad := putLine
        (putLine vm.scratchpad (mixAddresses config l).2.toNat fun i => vm.r i ^^^ line i)
        (mixAddresses config l).1.toNat (lanesLine (mixFloat u flags vm.f vm.e)) }
  mem := nextMem flags config vm l.mem
  spAddr0 := 0
  spAddr1 := 0

theorem iteration_eq {bytecode : ℕ → InstructionByteCode} {n datasetOffset : ℕ}
    {datasetRead : ℕ → Option Line} {l : Loop} {vm : Vm} {line : Line}
    (hvm : executeBytecode u flags config bytecode n (3 * n) (entered u config l) = some vm)
    (hline : datasetRead (datasetOffset + (l.mem.ma &&& CacheLineAlignMask).toNat) = some line) :
    iteration u flags config bytecode n datasetOffset datasetRead l =
      some (left u flags config l vm line) := by
  have h0 :=
    spAddr_le (l.spAddr0 ^^^ (l.vm.r config.readReg0 ^^^ l.vm.r config.readReg1).setWidth 32)
  have h1 := spAddr_le
    (l.spAddr1 ^^^ ((l.vm.r config.readReg0 ^^^ l.vm.r config.readReg1) >>> 32).setWidth 32)
  unfold entered mixAddresses at hvm
  unfold iteration mixAddresses
  simp only [Vm.loadLine_eq h0, Vm.loadLine_eq h1, Option.bind_eq_bind,
    Option.bind_some, hvm, hline,
    Vm.storeLine_eq h1, Vm.storeLine_eq h0, left, mixAddresses]

theorem exists_iteration (u : Units) (flags : Flags) {prog : Program}
    {datasetRead : ℕ → Option Line}
    (hread : Readable prog datasetRead) (bytecode : ℕ → InstructionByteCode) (l : Loop) :
    ∃ l', iteration u flags (vmInitialize prog).config (compileProgram (prog.code flags) bytecode)
        (prog.code flags).length (vmInitialize prog).datasetOffset datasetRead l = some l' ∧
      Steady l.vm l'.vm := by
  obtain ⟨vm, hvm, -⟩ := exists_executeBytecode u flags (vmInitialize prog).config (prog.code flags)
    bytecode (entered u (vmInitialize prog).config l)
  obtain ⟨line, hline⟩ := hread l.mem.ma
  have hprogram := steady_executeBytecode _ _ hvm
  exact ⟨_, iteration_eq hvm hline, hprogram.a, hprogram.control⟩

/-- A run of a machine ends, whatever its program and whatever is in the scratchpad and the dataset:
it reads and writes nothing outside of them. It does not change the constant registers, and it
leaves the control word as it was or makes it the default one up to the rounding mode. -/
theorem run_returns (u : Units) (flags : Flags) (dataset : ℕ → UInt8)
    (bytecode : ℕ → InstructionByteCode) (prog : Program) (scratchpad : ℕ → UInt8)
    (mxcsr : BitVec 32) :
    ∃ l, InterpretedVm.run u flags
      (InterpretedVm.datasetRead dataset) bytecode prog scratchpad mxcsr =
        some l ∧ l.vm.a = (vmInitialize prog).a ∧
          (l.vm.mxcsr = mxcsr ∨ ControlWord l.vm.mxcsr) := by
  have hstep : ∀ l : Loop, Steady (executeStart (vmInitialize prog) scratchpad mxcsr).vm l.vm →
      ∃ l', iteration u flags (vmInitialize prog).config (compileProgram (prog.code flags) bytecode)
        (prog.code flags).length (vmInitialize prog).datasetOffset
          (InterpretedVm.datasetRead dataset) l =
          some l' ∧ Steady (executeStart (vmInitialize prog) scratchpad mxcsr).vm l'.vm := by
    intro l hl
    obtain ⟨l', hl', hsteady⟩ := exists_iteration u flags (readable_dataset prog dataset) bytecode l
    exact ⟨l', hl', hl.trans hsteady⟩
  obtain ⟨l, hl, hsteady⟩ := Loops.exists_times hstep RANDOMX_PROGRAM_ITERATIONS (Steady.refl _)
  exact ⟨l, hl, hsteady.a, hsteady.control⟩

/-! ### Operands of floating-point instructions -/

/-- The exponent of a double, with its bias -/
def exponentField (x : BitVec 64) : ℕ := (x.extractLsb' mantissaSize exponentSize).toNat

/-- A positive normal double whose exponent is between two bounds. -/
structure PositiveNormal (lo hi : ℕ) (x : BitVec 64) : Prop where
  sign : x.getLsbD 63 = false
  ge : lo ≤ exponentField x
  le : exponentField x ≤ hi

theorem getLsbD_getFloatMask (entropy : BitVec 64) {i : ℕ} (hi : 60 ≤ i) (h64 : i < 64) :
    (getFloatMask entropy).getLsbD i = decide (i < 62) := by
  unfold getFloatMask getStaticExponent constExponentBits mantissaSize staticExponentBits
    dynamicExponentBits
  obtain rfl | rfl | rfl | rfl : i = 60 ∨ i = 61 ∨ i = 62 ∨ i = 63 := by omega
  all_goals simp

/-- What is masked for an E register, or as a divisor. -/
theorem positiveNormal_masked (entropy x : BitVec 64) :
    PositiveNormal 0x300 0x3FF (x &&& dynamicMantissaMask ||| getFloatMask entropy) := by
  have hmask : ∀ i < 64, 60 ≤ i → dynamicMantissaMask.getLsbD i = false := by decide
  have hbit : ∀ i < 64, 60 ≤ i →
      (x &&& dynamicMantissaMask ||| getFloatMask entropy).getLsbD i = decide (i < 62) := by
    intro i hi h60
    rw [BitVec.getLsbD_or, BitVec.getLsbD_and, hmask i hi h60, getLsbD_getFloatMask entropy h60 hi,
      Bool.and_false, Bool.false_or]
  have hall : ∀ e : BitVec 11, e.getLsbD 8 = true → e.getLsbD 9 = true → e.getLsbD 10 = false →
      0x300 ≤ e.toNat ∧ e.toNat ≤ 0x3FF := by decide +kernel
  have hfield : ∀ i < 11, ((x &&& dynamicMantissaMask ||| getFloatMask entropy).extractLsb'
      mantissaSize exponentSize).getLsbD i =
      (x &&& dynamicMantissaMask ||| getFloatMask entropy).getLsbD (52 + i) := by
    intro i hi
    rw [BitVec.getLsbD_extractLsb']
    simp [exponentSize, mantissaSize, hi]
  obtain ⟨hge, hle⟩ := hall _ ((hfield 8 (by decide)).trans (hbit 60 (by decide) (by decide)))
    ((hfield 9 (by decide)).trans (hbit 61 (by decide) (by decide)))
    ((hfield 10 (by decide)).trans (hbit 62 (by decide) (by decide)))
  exact ⟨hbit 63 (by decide) (by decide), hge, hle⟩

theorem exponentField_small (entropy : BitVec 64) :
    exponentField (getSmallPositiveFloatBits entropy) = (entropy >>> 59).toNat + 1023 := by
  have hfield : (getSmallPositiveFloatBits entropy).extractLsb' mantissaSize exponentSize =
      (entropy >>> 59 + 1023).setWidth exponentSize := by
    apply BitVec.eq_of_getLsbD_eq
    intro i hi
    change i < 11 at hi
    have hone : (1#64 <<< 11 - 1).getLsbD i = true := by
      have hall : ∀ j < 11, (1#64 <<< 11 - 1).getLsbD j = true := by decide
      exact hall i hi
    have hhigh : (1#64 <<< 52 - 1).getLsbD (52 + i) = false := by
      have hall : ∀ j < 11, (1#64 <<< 52 - 1).getLsbD (52 + j) = false := by decide
      exact hall i hi
    unfold getSmallPositiveFloatBits mantissaMask exponentMask exponentBias
      mantissaSize exponentSize
    simp only [BitVec.getLsbD_extractLsb', BitVec.getLsbD_or, BitVec.getLsbD_shiftLeft,
      BitVec.getLsbD_and, hhigh, BitVec.getLsbD_setWidth, Nat.add_sub_cancel_left, hone]
    simp [hi]
    omega
  have hlt : (entropy >>> 59).toNat < 32 := by
    rw [BitVec.toNat_ushiftRight, Nat.shiftRight_eq_div_pow]
    have := entropy.isLt
    omega
  rw [exponentField, hfield, BitVec.toNat_setWidth, BitVec.toNat_add]
  change ((entropy >>> 59).toNat + 1023) % 2 ^ 64 % 2 ^ 11 = _
  omega

/-- What the constant registers hold. -/
theorem positiveNormal_small (entropy : BitVec 64) :
    PositiveNormal 1023 1054 (getSmallPositiveFloatBits entropy) := by
  have hlt : (entropy >>> 59).toNat < 32 := by
    rw [BitVec.toNat_ushiftRight, Nat.shiftRight_eq_div_pow]
    have := entropy.isLt
    omega
  refine ⟨?_, by rw [exponentField_small]; omega, by rw [exponentField_small]; omega⟩
  unfold getSmallPositiveFloatBits mantissaMask exponentMask exponentBias mantissaSize exponentSize
  simp

/-- Whatever a program is read from, and whatever is in the scratchpad: the constant registers are
between 1 and 2^32, and an E register that is loaded and a number that is divided by are below 2 and
not smaller than 2^-255; they are neither zero, nor denormal, nor infinite, nor negative. -/
theorem operands_normal (prog : Program) (x : Lanes) :
    (∀ i, PositiveNormal 1023 1054 ((vmInitialize prog).a i).lo ∧
        PositiveNormal 1023 1054 ((vmInitialize prog).a i).hi) ∧
      PositiveNormal 0x300 0x3FF (maskRegisterExponentMantissa (vmInitialize prog).config x).lo ∧
      PositiveNormal 0x300 0x3FF (maskRegisterExponentMantissa (vmInitialize prog).config x).hi :=
  ⟨fun _ => ⟨positiveNormal_small _, positiveNormal_small _⟩, positiveNormal_masked _ _,
    positiveNormal_masked _ _⟩

end NMiner.RandomX
