import NMiner.Spec.Bytecode

/-! Every compiled program ends. The bytecode of a program never leaves the scratchpad and never
reaches a type that is not executed; its jumps go back to where the register that they test was
modified last, over no other jump, and each is taken at most twice in a row. -/

namespace NMiner.RandomX

open Loops

variable {u : X86.Units} {flags : Flags} {config : ProgramConfiguration}

/-! ### What is compiled where -/

/-- The usage after an instruction; the bytecode it replaces does not matter. -/
def nextUsage (instr : Instruction) (i : ℤ) (usage : RegisterUsage) : RegisterUsage :=
  (compileInstruction instr i ⟨.NOP, 0, .f 0, .zero, .f 0, 0, 0, 0, 0⟩ usage).2

theorem compileInstruction_snd (instr : Instruction) (i : ℤ) (ibc : InstructionByteCode)
    (usage : RegisterUsage) : (compileInstruction instr i ibc usage).2 =
      nextUsage instr i usage := by
  unfold nextUsage compileInstruction
  cases opcodeType instr.opcode with
  | IMUL_RCP => split_ifs <;> rfl
  | ISWAP_R => split_ifs <;> rfl
  | _ => rfl

/-- The registers that an instruction modifies; a jump counts as a modification of all of them. -/
def modified (instr : Instruction) : List (Fin 8) :=
  match opcodeType instr.opcode with
  | .FSWAP_R | .FADD_R | .FADD_M | .FSUB_R | .FSUB_M | .FSCAL_R | .FMUL_R | .FDIV_M | .FSQRT_R
  | .CFROUND | .ISTORE | .NOP => []
  | .IMUL_RCP => if isZeroOrPowerOf2 (instr.imm32.setWidth 64) then [] else [instr.idst]
  | .ISWAP_R => if instr.isrc ≠ instr.idst then [instr.idst, instr.isrc] else []
  | .CBRANCH => List.finRange 8
  | _ => [instr.idst]

theorem update_eq_ite (usage : RegisterUsage) (i : ℤ) (j k : Fin 8) :
    Function.update usage j i k = if k ∈ [j] then i else usage k := by
  simp [Function.update_apply]

theorem nextUsage_apply (instr : Instruction) (i : ℤ) (usage : RegisterUsage) (k : Fin 8) :
    nextUsage instr i usage k = if k ∈ modified instr then i else usage k := by
  unfold nextUsage compileInstruction modified
  cases opcodeType instr.opcode with
  | IMUL_RCP =>
    dsimp only
    by_cases h : isZeroOrPowerOf2 (instr.imm32.setWidth 64) = true
    · rw [if_pos h, if_pos h, if_neg List.not_mem_nil]
    · rw [if_neg h, if_neg h]
      exact update_eq_ite usage i instr.idst k
  | ISWAP_R =>
    dsimp only
    by_cases h : instr.isrc ≠ instr.idst
    · rw [if_pos h, if_pos h]
      change Function.update (Function.update usage instr.idst i) instr.isrc i k = _
      rw [update_eq_ite, update_eq_ite]
      simp only [List.mem_cons, List.not_mem_nil, or_false]
      split_ifs <;> simp_all
    · rw [if_neg h, if_neg h, if_neg List.not_mem_nil]
  | CBRANCH => rw [if_pos (List.mem_finRange k)]
  | FSWAP_R | FADD_R | FADD_M | FSUB_R | FSUB_M | FSCAL_R | FMUL_R | FDIV_M | FSQRT_R | CFROUND
  | ISTORE | NOP => exact (if_neg List.not_mem_nil).symm
  | _ => exact update_eq_ite usage i instr.idst k

def usageAfter : List Instruction → ℕ → RegisterUsage → RegisterUsage
  | [], _, usage => usage
  | instr :: rest, i, usage => usageAfter rest (i + 1) (nextUsage instr i usage)

/-- The usage when instruction `i` is compiled. -/
def usageAt (program : List Instruction) (i : ℕ) : RegisterUsage :=
  usageAfter (program.take i) 0 beginCompilation

theorem usageAfter_append (xs ys : List Instruction) (i : ℕ) (usage : RegisterUsage) :
    usageAfter (xs ++ ys) i usage = usageAfter ys (i + xs.length) (usageAfter xs i usage) := by
  induction xs generalizing i usage with
  | nil => rfl
  | cons x xs ih =>
    rw [List.cons_append, usageAfter, ih, usageAfter, List.length_cons, Nat.add_assoc,
      Nat.add_comm 1]

theorem usageAt_succ {program : List Instruction} {i : ℕ} (hi : i < program.length) :
    usageAt program (i + 1) = nextUsage program[i] i (usageAt program i) := by
  rw [usageAt, List.take_add_one, List.getElem?_eq_getElem hi, usageAfter_append]
  simp [usageAfter, usageAt, Nat.min_eq_left hi.le]

theorem compileFrom_of_lt (program : List Instruction) {i j : ℕ}
    (bytecode : ℕ → InstructionByteCode)
    (usage : RegisterUsage) (hj : j < i) : compileFrom program i bytecode usage j = bytecode j := by
  induction program generalizing i bytecode usage with
  | nil => rfl
  | cons x xs ih => rw [compileFrom, ih _ _ (by omega), Function.update_of_ne (by omega)]

theorem compileFrom_add (program : List Instruction) (i j : ℕ) (bytecode : ℕ → InstructionByteCode)
    (usage : RegisterUsage) (hj : j < program.length) :
    compileFrom program i bytecode usage (i + j) =
      (compileInstruction program[j] (i + j : ℕ) (bytecode (i + j))
        (usageAfter (program.take j) i usage)).1 := by
  induction program generalizing i j bytecode usage with
  | nil => exact absurd hj (Nat.not_lt_zero _)
  | cons x xs ih =>
    cases j with
    | zero => simp [compileFrom, compileFrom_of_lt, usageAfter]
    | succ j =>
      have hj' : j < xs.length := by simpa using hj
      have h :=
        ih (i + 1) j (Function.update bytecode i (compileInstruction x i (bytecode i) usage).1)
        (nextUsage x i usage) hj'
      rw [show i + 1 + j = i + (j + 1) by omega, Function.update_of_ne (by omega)] at h
      rw [compileFrom, compileInstruction_snd]
      simpa [usageAfter] using h

theorem compileProgram_apply {program : List Instruction} {i : ℕ} (hi : i < program.length)
    (bytecode : ℕ → InstructionByteCode) :
    compileProgram program bytecode i =
      (compileInstruction program[i] i (bytecode i) (usageAt program i)).1 := by
  have h := compileFrom_add program 0 i bytecode beginCompilation hi
  rwa [Nat.zero_add] at h

/-! ### Addresses -/

theorem and_toNat_le {w : ℕ} (x m : BitVec w) : (x &&& m).toNat ≤ m.toNat := by
  rw [BitVec.toNat_and]
  exact Nat.and_le_right

theorem masked_le {x : BitVec 64} {m : BitVec 32} (h : m.toNat + 8 ≤ ScratchpadSize) :
    (x &&& m.setWidth 64).toNat + 8 ≤ ScratchpadSize := by
  have hle := and_toNat_le x (m.setWidth 64)
  rw [BitVec.toNat_setWidth_of_le (by decide)] at hle
  omega

theorem getScratchpadAddress_le {ibc : InstructionByteCode}
    (h : ibc.memMask.toNat + 8 ≤ ScratchpadSize)
    (s : Vm) : getScratchpadAddress ibc s + 8 ≤ ScratchpadSize := by
  have hle := masked_le (x := ibc.source s + ibc.imm) h
  refine Nat.le_trans (Nat.add_le_add_right ?_ 8) hle
  rw [getScratchpadAddress, BitVec.toNat_setWidth]
  exact Nat.mod_le _ _

theorem levelMask_le (instr : Instruction) : (levelMask instr).toNat + 8 ≤ ScratchpadSize := by
  unfold levelMask
  split_ifs <;> decide

theorem Vm.load64_eq {s : Vm} {addr : ℕ} (h : addr + 8 ≤ ScratchpadSize) :
    s.load64 addr = some (Word.read 8 fun i => s.scratchpad (addr + i)) := if_pos h

theorem Vm.store64_eq {s : Vm} {addr : ℕ} (h : addr + 8 ≤ ScratchpadSize) (v : BitVec 64) :
    s.store64 addr v = some { s with scratchpad := Word.write 8 s.scratchpad addr v } := if_pos h

@[simp] theorem Vm.setR_r_self (s : Vm) (k : Fin 8) (v : BitVec 64) : (s.setR k v).r k = v :=
  Function.update_self ..

theorem Vm.setR_r_of_ne (s : Vm) {k j : Fin 8} (v : BitVec 64) (h : j ≠ k) :
    (s.setR k v).r j = s.r j := Function.update_of_ne h ..

@[simp] theorem Vm.setR_pc (s : Vm) (k : Fin 8) (v : BitVec 64) : (s.setR k v).pc = s.pc := rfl

@[simp] theorem Vm.setFlt_r (s : Vm) (k : FloatReg) (v : X86.Lanes) : (s.setFlt k v).r = s.r := by
  cases k <;> rfl

@[simp] theorem Vm.setFlt_pc (s : Vm) (k : FloatReg) (v : X86.Lanes) :
    (s.setFlt k v).pc = s.pc := by
  cases k <;> rfl

/-! ### What one instruction does to the registers -/

/-- A step that stays at its place, and changes no integer register but those listed. -/
def Writes (ks : List (Fin 8)) (s s' : Vm) : Prop := s'.pc = s.pc ∧ ∀ k ∉ ks, s'.r k = s.r k

theorem writes_setR (s : Vm) (k : Fin 8) (v : BitVec 64) : Writes [k] s (s.setR k v) :=
  ⟨rfl, fun _ hj => s.setR_r_of_ne v fun h => hj (List.mem_singleton.mpr h)⟩

theorem writes_setFlt (s : Vm) (k : FloatReg) (v : X86.Lanes) : Writes [] s (s.setFlt k v) :=
  ⟨s.setFlt_pc k v, fun _ _ => by rw [s.setFlt_r k v]⟩

theorem memory_mask_le (type : InstructionType) (instr : Instruction) (i : ℤ)
    (ibc : InstructionByteCode) (usage : RegisterUsage) :
    (compile.memory type instr i ibc usage).1.memMask.toNat + 8 ≤ ScratchpadSize := by
  unfold compile.memory
  dsimp only
  split_ifs
  · exact levelMask_le instr
  · exact (by decide : ScratchpadL3Mask.toNat + 8 ≤ ScratchpadSize)

theorem memory_idst (type : InstructionType) (instr : Instruction) (i : ℤ)
    (ibc : InstructionByteCode) (usage : RegisterUsage) :
    (compile.memory type instr i ibc usage).1.idst = instr.idst := by
  unfold compile.memory
  dsimp only
  split_ifs <;> rfl

theorem memory_type (type : InstructionType) (instr : Instruction) (i : ℤ)
    (ibc : InstructionByteCode) (usage : RegisterUsage) :
    (compile.memory type instr i ibc usage).1.type = type := by
  unfold compile.memory
  dsimp only
  split_ifs <;> rfl

theorem regOrImm_idst (type : InstructionType) (imm : BitVec 64) (instr : Instruction) (i : ℤ)
    (ibc : InstructionByteCode) (usage : RegisterUsage) :
    (compile.regOrImm type imm instr i ibc usage).1.idst = instr.idst := by
  unfold compile.regOrImm
  dsimp only
  split_ifs <;> rfl

theorem regOrImm_type (type : InstructionType) (imm : BitVec 64) (instr : Instruction) (i : ℤ)
    (ibc : InstructionByteCode) (usage : RegisterUsage) :
    (compile.regOrImm type imm instr i ibc usage).1.type = type := by
  unfold compile.regOrImm
  dsimp only
  split_ifs <;> rfl

/-! The families of instructions, each with what one of them does. -/

theorem executes_memory {type : InstructionType} {op : BitVec 64 → BitVec 64 → BitVec 64}
    (hexe : ∀ ibc s, ibc.type = type → executeInstruction u flags config ibc s = exeMemory op ibc s)
    (instr : Instruction) (i : ℤ) (ibc : InstructionByteCode) (usage : RegisterUsage) (s : Vm) :
    ∃ s', executeInstruction u flags config (compile.memory type instr i ibc usage).1 s = some s' ∧
      Writes [instr.idst] s s' := by
  rw [hexe _ _ (memory_type ..), exeMemory,
    Vm.load64_eq (getScratchpadAddress_le (memory_mask_le ..) s), memory_idst]
  exact ⟨_, rfl, writes_setR ..⟩

theorem executes_regOrImm {type : InstructionType} {op : BitVec 64 → BitVec 64 → BitVec 64}
    (hexe : ∀ ibc s, ibc.type = type → executeInstruction u flags config ibc s = exeReg op ibc s)
    (imm : BitVec 64) (instr : Instruction) (i : ℤ) (ibc : InstructionByteCode)
    (usage : RegisterUsage) (s : Vm) :
    ∃ s', executeInstruction u flags config (compile.regOrImm type imm instr i ibc usage).1 s =
        some s' ∧ Writes [instr.idst] s s' := by
  rw [hexe _ _ (regOrImm_type ..), exeReg, regOrImm_idst]
  exact ⟨_, rfl, writes_setR ..⟩

theorem executes_floatMemory {type : InstructionType} {op : X86.Lanes → X86.Lanes → X86.Lanes}
    {s : Vm} (hexe : ∀ ibc, ibc.type = type →
      executeInstruction u flags config ibc s = exeFloatMemory u op ibc s)
    (fdst : FloatReg) (instr : Instruction) (ibc : InstructionByteCode) (usage : RegisterUsage) :
    ∃ s', executeInstruction u flags config (compile.floatMemory type fdst instr ibc usage).1 s =
        some s' ∧ Writes [] s s' := by
  rw [hexe _ rfl, exeFloatMemory, Vm.load64_eq (getScratchpadAddress_le (levelMask_le instr) s)]
  exact ⟨_, rfl, writes_setFlt ..⟩

variable (u flags config) in
/-- An instruction that is not a jump is executed, and changes no register but those it modifies. -/
theorem exists_execute {instr : Instruction} (h : opcodeType instr.opcode ≠ .CBRANCH) (i : ℤ)
    (ibc : InstructionByteCode) (usage : RegisterUsage) (s : Vm) :
    ∃ s', executeInstruction u flags config (compileInstruction instr i ibc usage).1 s = some s' ∧
      Writes (modified instr) s s' := by
  unfold compileInstruction modified
  cases htype : opcodeType instr.opcode with
  | CBRANCH => exact absurd htype h
  | IADD_M | ISUB_M | IMUL_M | IMULH_M | ISMULH_M | IXOR_M =>
    exact executes_memory (fun ibc s h => by rw [executeInstruction, h]) ..
  | ISUB_R | IMUL_R | IXOR_R | IROR_R | IROL_R =>
    exact executes_regOrImm (fun ibc s h => by rw [executeInstruction, h]) ..
  | FADD_M | FSUB_M | FDIV_M =>
    exact executes_floatMemory (fun ibc h => by rw [executeInstruction, h]) ..
  | IADD_RS =>
    dsimp only
    split_ifs
    all_goals exact ⟨_, rfl, writes_setR ..⟩
  | IMULH_R | ISMULH_R | INEG_R => exact ⟨_, rfl, writes_setR ..⟩
  | IMUL_RCP =>
    dsimp only
    split_ifs
    · exact ⟨s, rfl, rfl, fun _ _ => rfl⟩
    · exact ⟨_, rfl, writes_setR ..⟩
  | ISWAP_R =>
    dsimp only
    by_cases hne : instr.isrc ≠ instr.idst
    · rw [if_pos hne, if_pos hne]
      refine ⟨_, rfl, rfl, fun k hk => ?_⟩
      simp only [List.mem_cons, List.not_mem_nil, or_false, not_or] at hk
      rw [Vm.setR_r_of_ne _ _ hk.1, Vm.setR_r_of_ne _ _ hk.2]
    · rw [if_neg hne]
      exact ⟨s, rfl, rfl, fun _ _ => rfl⟩
  | FSWAP_R | FADD_R | FSUB_R | FSCAL_R | FMUL_R | FSQRT_R => exact ⟨_, rfl, writes_setFlt ..⟩
  | CFROUND =>
    simp only [executeInstruction]
    split_ifs <;> exact ⟨_, rfl, rfl, fun _ _ => rfl⟩
  | ISTORE =>
    simp only [executeInstruction]
    rw [Vm.store64_eq]
    · exact ⟨_, rfl, rfl, fun _ _ => rfl⟩
    · apply masked_le
      split_ifs
      · exact levelMask_le instr
      · exact (by decide : ScratchpadL3Mask.toNat + 8 ≤ ScratchpadSize)
  | NOP => exact ⟨s, rfl, rfl, fun _ _ => rfl⟩

/-! ### Where the jumps go -/

theorem usageAt_bounds {program : List Instruction} {i : ℕ} (hi : i ≤ program.length) (k : Fin 8) :
    -1 ≤ usageAt program i k ∧ usageAt program i k < i := by
  induction i with
  | zero => exact ⟨le_refl _, by simp [usageAt, usageAfter, beginCompilation]⟩
  | succ i ih =>
    obtain ⟨hlo, hhi⟩ := ih (by omega)
    rw [usageAt_succ hi, nextUsage_apply]
    split_ifs <;> omega

/-- The usage of a register is never below a place where it is modified. -/
theorem le_usageAt {program : List Instruction} {i p : ℕ} (hi : i ≤ program.length) (hp : p < i)
    {k : Fin 8} (hk : k ∈ modified program[p]) : (p : ℤ) ≤ usageAt program i k := by
  induction i with
  | zero => omega
  | succ i ih =>
    rw [usageAt_succ hi, nextUsage_apply]
    rcases Nat.lt_succ_iff_lt_or_eq.mp hp with hlt | rfl
    · have := ih (by omega) hlt hk
      split_ifs <;> omega
    · rw [if_pos hk]

def isJump (program : List Instruction) (i : ℕ) : Bool :=
  program[i]?.any fun instr => opcodeType instr.opcode = .CBRANCH

theorem isJump_iff {program : List Instruction} {i : ℕ} (hi : i < program.length) :
    isJump program i = true ↔ opcodeType program[i].opcode = .CBRANCH := by
  simp [isJump, List.getElem?_eq_getElem hi]

/-- The register that a jump tests. -/
def creg (program : List Instruction) (i : ℕ) : Fin 8 := program[i]?.elim 0 Instruction.idst

theorem creg_eq {program : List Instruction} {i : ℕ} (hi : i < program.length) :
    creg program i = program[i].idst := by simp [creg, List.getElem?_eq_getElem hi]

/-- Where a jump goes back to: after the last modification of its register. -/
def jumpStart (program : List Instruction) (i : ℕ) : ℕ :=
  (usageAt program i (creg program i) + 1).toNat

theorem jumpStart_le {program : List Instruction} {i : ℕ} (hi : i ≤ program.length) :
    jumpStart program i ≤ i := by
  have := usageAt_bounds hi (creg program i)
  unfold jumpStart
  omega

/-- Between the start of a loop and its jump the register is not modified. -/
theorem not_modified {program : List Instruction} {i p : ℕ} (hi : i ≤ program.length)
    (hp : jumpStart program i ≤ p) (hpi : p < i) : creg program i ∉ modified program[p] := by
  intro hk
  have hle := le_usageAt hi hpi hk
  unfold jumpStart at hp
  omega

theorem mem_modified_of_jump {instr : Instruction} (h : opcodeType instr.opcode = .CBRANCH)
    (k : Fin 8) : k ∈ modified instr := by
  rw [modified, h]
  exact List.mem_finRange k

theorem not_isJump {program : List Instruction} {i p : ℕ} (hi : i ≤ program.length)
    (hp : jumpStart program i ≤ p) (hpi : p < i) : isJump program p = false := by
  rw [← Bool.not_eq_true, isJump_iff (by omega)]
  exact fun h => not_modified hi hp hpi (mem_modified_of_jump h _)

/-! ### How often they are taken -/

theorem and_shiftLeft (x m k : ℕ) : x &&& (m <<< k) = ((x >>> k) &&& m) <<< k := by
  apply Nat.eq_of_testBit_eq
  intro i
  rw [Nat.testBit_and, Nat.testBit_shiftLeft, Nat.testBit_shiftLeft, Nat.testBit_and,
    Nat.testBit_shiftRight]
  by_cases hi : k ≤ i
  · simp [hi, Nat.add_sub_cancel' hi]
  · simp [hi]

/-- The bits that a jump tests. -/
theorem and_mask_eq_zero_iff (x : BitVec 64) {shift : ℕ} (h : shift ≤ 24) :
    x &&& (ConditionMask <<< shift).setWidth 64 = 0 ↔ x.toNat / 2 ^ shift % 256 = 0 := by
  have hmask : ((ConditionMask <<< shift).setWidth 64).toNat = 255 <<< shift := by
    have hlt : 255 <<< shift < 2 ^ 32 := by
      rw [Nat.shiftLeft_eq]
      calc 255 * 2 ^ shift ≤ 255 * 2 ^ 24 :=
        Nat.mul_le_mul_left _ (Nat.pow_le_pow_right (by decide) h)
        _ < 2 ^ 32 := by decide
    rw [BitVec.toNat_setWidth_of_le (by decide), BitVec.toNat_shiftLeft]
    exact Nat.mod_eq_of_lt hlt
  rw [← BitVec.toNat_inj, BitVec.toNat_and, hmask, and_shiftLeft]
  rw [show (255 : ℕ) = 2 ^ 8 - 1 by rfl, Nat.and_two_pow_sub_one_eq_mod, Nat.shiftRight_eq_div_pow]
  simp [Nat.shiftLeft_eq]

/-- The immediate of a jump has the lowest bit that is tested and lacks the bit below it. -/
theorem jump_imm (v : BitVec 64) {shift : ℕ} (h1 : 0 < shift) (h2 : shift ≤ 24) :
    let imm := (v ||| (1#64 <<< shift)) &&& ~~~(1#64 <<< (shift - 1))
    imm.toNat / 2 ^ shift % 2 = 1 ∧ 2 * (imm.toNat % 2 ^ shift) < 2 ^ shift := by
  intro imm
  have hbit : imm.toNat.testBit shift = true := by
    rw [BitVec.testBit_toNat]
    simp [imm]
    omega
  have hlow : imm.toNat.testBit (shift - 1) = false := by
    rw [BitVec.testBit_toNat]
    simp [imm]
  rw [Nat.testBit_eq_decide_div_mod_eq] at hbit hlow
  refine ⟨by simpa using hbit, ?_⟩
  obtain ⟨t, rfl⟩ := Nat.exists_eq_add_of_lt h1
  rw [show 0 + t + 1 - 1 = t by omega, decide_eq_false_iff_not] at hlow
  have hzero : imm.toNat / 2 ^ t % 2 = 0 := by omega
  have hsplit : imm.toNat % 2 ^ (0 + t + 1) = imm.toNat % 2 ^ t := by
    rw [show 0 + t + 1 = t + 1 by omega, pow_succ, Nat.mod_mul, hzero, Nat.mul_zero, Nat.add_zero]
  have hlt : imm.toNat % 2 ^ t < 2 ^ t := Nat.mod_lt _ (Nat.two_pow_pos t)
  rw [hsplit, show 0 + t + 1 = t + 1 by omega, pow_succ]
  omega

/-- Adding such an immediate three times in a row cannot clear the tested bits each time. -/
theorem not_thrice {P a b : ℕ} (hP : 0 < P) (hodd : b / P % 2 = 1) (hlow : 2 * (b % P) < P)
    (h1 : a / P % 256 = 0) (h2 : (a + b) / P % 256 = 0) : (a + b + b) / P % 256 ≠ 0 := by
  have hadd : (a + b) / P = a / P + b / P + if P ≤ a % P + b % P then 1 else 0 := Nat.add_div hP
  have hadd' : (a + b + b) / P = (a + b) / P + b / P + if P ≤ (a + b) % P + b % P then 1 else 0 :=
    Nat.add_div hP
  have hmod : (a + b) % P = if P ≤ a % P + b % P then a % P + b % P - P else a % P + b % P := by
    rw [Nat.add_mod]
    have ha := Nat.mod_lt a hP
    have hb := Nat.mod_lt b hP
    split_ifs with h
    · rw [Nat.mod_eq_sub_mod h, Nat.mod_eq_of_lt (by omega)]
    · exact Nat.mod_eq_of_lt (by omega)
  have ha := Nat.mod_lt a hP
  split_ifs at hadd hadd' hmod <;> omega

/-- The bits that a jump with a shift tests, in the value it has computed. -/
def tested (shift : ℕ) (x : BitVec 64) : ℕ := x.toNat / 2 ^ shift % 256

/-- They do not depend on what is above 64 bits. -/
theorem mod_div_mod {shift : ℕ} (h : shift ≤ 24) (n : ℕ) :
    n % 2 ^ 64 / 2 ^ shift % 256 = n / 2 ^ shift % 256 := by
  have hpow : (2 : ℕ) ^ 64 = 2 ^ shift * (256 * 2 ^ (56 - shift)) := by
    rw [show (256 : ℕ) = 2 ^ 8 by rfl, ← pow_add, ← pow_add]
    congr 1
    omega
  rw [hpow, Nat.mod_mul_right_div_self, Nat.mod_mul_right_mod]

theorem tested_add {shift : ℕ} (h : shift ≤ 24) (x y : BitVec 64) :
    tested shift (x + y) = (x.toNat + y.toNat) / 2 ^ shift % 256 := by
  rw [tested, BitVec.toNat_add, mod_div_mod h]

theorem tested_add_add {shift : ℕ} (h : shift ≤ 24) (x y z : BitVec 64) :
    tested shift (x + y + z) = (x.toNat + y.toNat + z.toNat) / 2 ^ shift % 256 := by
  rw [tested, BitVec.toNat_add, BitVec.toNat_add, Nat.mod_add_mod, mod_div_mod h]

/-- How often a jump can still be taken in a row, as the value of its register says. -/
def jumpCredit (shift : ℕ) (imm v : BitVec 64) : ℕ :=
  if tested shift (v + imm) ≠ 0 then 0 else if tested shift (v + imm + imm) ≠ 0 then 1 else 2

theorem jumpCredit_le (shift : ℕ) (imm v : BitVec 64) : jumpCredit shift imm v ≤ 2 := by
  unfold jumpCredit
  split_ifs <;> omega

/-- A jump that is taken costs credit. -/
theorem jumpCredit_lt {shift : ℕ} (h : shift ≤ 24) {imm v : BitVec 64}
    (hodd : imm.toNat / 2 ^ shift % 2 = 1) (hlow : 2 * (imm.toNat % 2 ^ shift) < 2 ^ shift)
    (htaken : tested shift (v + imm) = 0) : jumpCredit shift imm
    (v + imm) < jumpCredit shift imm v := by
  unfold jumpCredit
  rw [if_neg (not_not.mpr htaken)]
  by_cases h2 : tested shift (v + imm + imm) = 0
  · have h3 : tested shift (v + imm + imm + imm) ≠ 0 := by
      rw [tested_add h] at h2
      rw [tested_add_add h]
      exact not_thrice (Nat.two_pow_pos shift) hodd hlow htaken h2
    rw [if_neg (not_not.mpr h2), if_neg (not_not.mpr h2), if_pos h3]
    decide
  · rw [if_pos h2, if_pos h2]
    decide

/-! ### Programs end -/

/-- A program as one with backward jumps that do not nest. -/
def jumpsOf (u : X86.Units) (flags : Flags) (config : ProgramConfiguration)
    (program : List Instruction) (bytecode : ℕ → InstructionByteCode) : Jumps Vm where
  n := program.length
  k := 2
  place s := s.pc.toNat
  step := bytecodeStep u flags config (compileProgram program bytecode)
  jumps := isJump program
  start := jumpStart program
  credit i s := jumpCredit (program[i]?.elim 0 fun instr => instr.getModCond + ConditionOffset)
    (compileProgram program bytecode i).imm (s.r (creg program i))

theorem getModCond_le (instr : Instruction) : instr.getModCond + ConditionOffset ≤ 24 := by
  have h := instr.mod.toNat_lt
  rw [Instruction.getModCond, Nat.shiftRight_eq_div_pow, ConditionOffset, RANDOMX_JUMP_OFFSET]
  omega

theorem bytecodeStep_eq {bytecode : ℕ → InstructionByteCode} {s s' : Vm}
    (h : executeInstruction u flags config (bytecode s.pc.toNat) s = some s') :
    bytecodeStep u flags config bytecode s = some { s' with pc := s'.pc + 1 } := by
  rw [bytecodeStep, h]
  rfl

variable (u flags config) in
/-- What a jump does: it adds its immediate, and goes back if the bits that it tests are clear. -/
theorem execute_jump {instr : Instruction} (h : opcodeType instr.opcode = .CBRANCH) (i : ℤ)
    (ibc : InstructionByteCode) (usage : RegisterUsage) (s : Vm) :
    let imm := (compileInstruction instr i ibc usage).1.imm
    executeInstruction u flags config (compileInstruction instr i ibc usage).1 s =
      some { s.setR instr.idst (s.r instr.idst + imm) with
        pc := if tested (instr.getModCond + ConditionOffset) (s.r instr.idst + imm) = 0
          then usage instr.idst else s.pc } := by
  intro imm
  have himm :
    imm = (signExtend2sCompl instr.imm32 ||| (1#64 <<< (instr.getModCond + ConditionOffset)))
      &&& ~~~(1#64 <<< (instr.getModCond + ConditionOffset - 1)) := by
    simp only [imm, compileInstruction, h]
  simp only [compileInstruction, h, executeInstruction, Vm.setR_r_self, ← himm,
    and_mask_eq_zero_iff _ (getModCond_le instr)]
  unfold tested
  split_ifs <;> rfl

/-- The immediate of a compiled jump has the form that limits how often it is taken. -/
theorem compile_jump_imm {instr : Instruction} (h : opcodeType instr.opcode = .CBRANCH) (i : ℤ)
    (ibc : InstructionByteCode) (usage : RegisterUsage) :
    let imm := (compileInstruction instr i ibc usage).1.imm
    let shift := instr.getModCond + ConditionOffset
    imm.toNat / 2 ^ shift % 2 = 1 ∧ 2 * (imm.toNat % 2 ^ shift) < 2 ^ shift := by
  simp only [compileInstruction, h]
  exact jump_imm _ (Nat.lt_of_lt_of_le (by decide) (Nat.le_add_left ..)) (getModCond_le instr)

variable (u flags config) in
theorem jumpsOf_bounded (program : List Instruction) (bytecode : ℕ → InstructionByteCode) :
    (jumpsOf u flags config program bytecode).Bounded fun s => 0 ≤ s.pc where
  flat i hi _ := ⟨jumpStart_le hi.le, fun p hp hpi => not_isJump hi.le hp hpi⟩
  credit_le i s _ := jumpCredit_le ..
  straight s hs hp hnot := by
    have hlt : s.pc.toNat < program.length := hp
    have htype : opcodeType program[s.pc.toNat].opcode ≠ .CBRANCH := by
      rw [Ne, ← isJump_iff hlt]
      exact Bool.eq_false_iff.mp hnot
    obtain ⟨s', hexe, hpc, hwrites⟩ := exists_execute u flags config htype s.pc.toNat
      (bytecode s.pc.toNat) (usageAt program s.pc.toNat) s
    rw [← compileProgram_apply hlt] at hexe
    refine ⟨_, bytecodeStep_eq hexe, ?_, ?_, ?_⟩
    · simp only [hpc]
      omega
    · simp only [jumpsOf, hpc]
      omega
    · intro i hi _ hstart hlt'
      simp only [jumpsOf]
      rw [hwrites _ (not_modified (Nat.le_of_lt hi) hstart hlt')]
  back s hs hp hjump := by
    have hlt : s.pc.toNat < program.length := hp
    have htype := (isJump_iff hlt).mp hjump
    have hexe := execute_jump u flags config htype s.pc.toNat (bytecode s.pc.toNat)
      (usageAt program s.pc.toNat) s
    rw [← compileProgram_apply hlt] at hexe
    have husage := usageAt_bounds hlt.le program[s.pc.toNat].idst
    refine ⟨_, bytecodeStep_eq hexe, ?_, ?_⟩
    · dsimp only
      split_ifs <;> omega
    · by_cases htaken : tested (program[s.pc.toNat].getModCond + ConditionOffset)
        (s.r program[s.pc.toNat].idst + (compileProgram program bytecode s.pc.toNat).imm) = 0
      · right
        simp only [jumpsOf, if_pos htaken, creg_eq hlt, jumpStart, true_and, Vm.setR_r_self,
          List.getElem?_eq_getElem hlt, Option.elim_some]
        have himm := compile_jump_imm htype s.pc.toNat (bytecode s.pc.toNat)
          (usageAt program s.pc.toNat)
        rw [← compileProgram_apply hlt] at himm
        exact jumpCredit_lt (getModCond_le _) himm.1 himm.2 htaken
      · left
        simp only [jumpsOf, if_neg htaken]
        omega

theorem exists_executeBytecode (u : X86.Units) (flags : Flags) (config : ProgramConfiguration)
    (program : List Instruction) (bytecode : ℕ → InstructionByteCode) (s : Vm) :
    ∃ s', executeBytecode u flags config (compileProgram program bytecode) program.length
      (3 * program.length) s = some s' ∧ (program.length : ℤ) ≤ s'.pc := by
  have hJ := jumpsOf_bounded u flags config program bytecode
  obtain ⟨s', hs', -, hdone⟩ := hJ.exists_loop
    (fun s : Vm => s.pc < program.length) (s := { s with pc := 0 }) (fun s hs => by
      have hs : 0 ≤ s.pc := hs
      simp only [decide_eq_true_eq, jumpsOf]
      omega) (le_refl (0 : ℤ)) rfl (le_refl _)
  exact ⟨s', hs', by simpa using hdone⟩

/-- Whatever the program, its bytecode ends: it is never outside the scratchpad, never at a type
that is not executed, and no instruction is executed more than three times on average. -/
theorem executeBytecode_returns (u : X86.Units) (flags : Flags) (config : ProgramConfiguration)
    (program : List Instruction) (bytecode : ℕ → InstructionByteCode) (s : Vm) :
    ∃ s', (program.length : ℤ) ≤ s'.pc ∧ ∀ fuel, 3 * program.length ≤ fuel →
      executeBytecode u flags config
        (compileProgram program bytecode) program.length fuel s = some s' := by
  obtain ⟨s', hs', hpc⟩ := exists_executeBytecode u flags config program bytecode s
  exact ⟨s', hpc, fun fuel hfuel => loop_mono hs' hfuel⟩

end NMiner.RandomX
