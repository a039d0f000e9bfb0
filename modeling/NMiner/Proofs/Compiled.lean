import NMiner.Proofs.Simulation

/-! Compiler correctness of the x86 code generator: the code of a program, executed by the
processor, takes a machine that holds the state of the virtual machine to one that holds the state
in which the bytecode ends. -/

namespace NMiner.RandomX

open Word X86

variable {u : Units} {flags : Flags} {config : ProgramConfiguration}

/-! ### Where the code of each instruction is -/

/-- The compiler before instruction `i`. -/
def jitAt (u : Units) (flags : Flags) (program : List Instruction)
    (before : List UInt8) (i : ℕ) : Jit :=
  generateBody u flags (program.take i) before

theorem generateFrom_append (xs ys : List Instruction) (i : ℕ) (c : Jit) :
    generateFrom u flags (xs ++ ys) i c =
      generateFrom u flags ys (i + xs.length) (generateFrom u flags xs i c) := by
  induction xs generalizing i c with
  | nil => rfl
  | cons x xs ih =>
    rw [List.cons_append, generateFrom, ih, generateFrom, List.length_cons,
      Nat.add_assoc, Nat.add_comm 1]

theorem jitAt_succ {program : List Instruction} {i : ℕ} (hi : i < program.length)
    (before : List UInt8) :
    jitAt u flags program before (i + 1) =
      generateCode u flags program[i] i (jitAt u flags program before i) := by
  rw [jitAt, generateBody, List.take_add_one, List.getElem?_eq_getElem hi, generateFrom_append]
  simp [generateFrom, jitAt, generateBody, Nat.min_eq_left hi.le]

theorem jitAt_length (program : List Instruction) (before : List UInt8) :
    jitAt u flags program before program.length = generateBody u flags program before := by
  rw [jitAt, List.take_length]

/-- The place in the code where instruction `i` begins. -/
def codeAt (u : Units) (flags : Flags) (program : List Instruction)
    (before : List UInt8) (i : ℕ) : ℕ :=
  (jitAt u flags program before i).code.length

variable (u flags) in
theorem jitAt_code_prefix {program : List Instruction} (before : List UInt8) {i : ℕ}
    (hi : i ≤ program.length) :
    (jitAt u flags program before i).code <+: (generateBody u flags program before).code := by
  induction h : program.length - i generalizing i with
  | zero =>
    have : i = program.length := by omega
    rw [this, jitAt_length]
  | succ d ih =>
    have hlt : i < program.length := by omega
    obtain ⟨bs, -, hcode, -, -⟩ :=
      emits_generateCode u flags program[i] i (jitAt u flags program before i)
    have hstep : (jitAt u flags program before i).code <+:
      (jitAt u flags program before (i + 1)).code := by
      rw [jitAt_succ hlt, hcode]
      exact List.prefix_append _ _
    exact hstep.trans (ih hlt (by omega))

theorem jitAt_registerUsage {program : List Instruction} (before : List UInt8) {i : ℕ}
    (hi : i ≤ program.length) :
    (jitAt u flags program before i).registerUsage = usageAt program i := by
  induction i with
  | zero => rfl
  | succ i ih =>
    obtain ⟨-, -, -, -, husage⟩ :=
      emits_generateCode u flags program[i] i (jitAt u flags program before i)
    rw [jitAt_succ hi, husage, usageAt_succ hi]
    funext k
    rw [nextUsage_apply, ← ih (by omega)]

theorem jitAt_instructionOffsets {program : List Instruction} (before : List UInt8) {i : ℕ}
    (hi : i ≤ program.length) :
    (jitAt u flags program before i).instructionOffsets =
      (List.range i).map (codeAt u flags program before) := by
  induction i with
  | zero => rfl
  | succ i ih =>
    obtain ⟨-, -, -, hoffsets, -⟩ :=
      emits_generateCode u flags program[i] i (jitAt u flags program before i)
    rw [jitAt_succ hi, hoffsets, ih (by omega), List.range_succ, List.map_append]
    rfl

/-! ### How long the code is -/

/-- `MaxRandomXInstrCodeSize` -/
def maxRandomXInstrCodeSize : ℕ := 32

theorem length_emitByte (val : ℕ) : (emitByte val).length = 1 := rfl

theorem length_emit32 (val : BitVec 32) : (emit32 val).length = 4 := length_bytes ..

theorem length_genAddressReg (instr : Instruction) (rax : Bool) :
    (genAddressReg instr rax).length ≤ 14 ∧ (genAddressReg instr true).length ≤ 13 := by
  unfold genAddressReg
  simp only [List.length_append, length_emitByte, length_emit32]
  constructor
  · cases rax <;> split_ifs <;> decide
  · split_ifs <;> decide

/-- What is added to the code is short. -/
def Grows (c c' : Jit) : Prop := c'.code.length ≤ c.code.length + maxRandomXInstrCodeSize

theorem grows_emit {bs : List UInt8} (h : bs.length ≤ maxRandomXInstrCodeSize) (c : Jit) :
    Grows c (c.emit bs) := by
  rw [Grows, Jit.emit, List.length_append]
  exact Nat.add_le_add_left h _

theorem grows_memory {op : List UInt8} (hop : op.length ≤ 3) (instr : Instruction)
    (i : ℤ) (c : Jit) :
    Grows c (handler.memory op instr i c) := by
  have haddr := (length_genAddressReg instr true).2
  unfold handler.memory
  dsimp only
  split_ifs
  · refine grows_emit ?_ (c.use instr.idst i)
    simp only [List.length_append, length_emitByte, maxRandomXInstrCodeSize]
    omega
  · refine grows_emit ?_ (c.use instr.idst i)
    simp only [List.length_append, length_emitByte, genAddressImm,
      length_emit32, maxRandomXInstrCodeSize]
    omega

theorem grows_highMemory {mem : List UInt8} (hmem : mem.length = 4)
    (modrm : ℕ) (instr : Instruction)
    (i : ℤ) (c : Jit) : Grows c (handler.highMemory mem modrm instr i c) := by
  have haddr := (length_genAddressReg instr false).1
  refine grows_emit ?_ (c.use instr.idst i)
  split_ifs
  · simp only [List.length_append, length_emitByte, REX_MOV_RR64, REX_MOV_R64R, List.length_cons,
      List.length_nil, maxRandomXInstrCodeSize]
    omega
  · simp only [List.length_append, length_emitByte, REX_MOV_RR64, REX_MOV_R64R,
      REX_MUL_M, genAddressImm,
      length_emit32, List.length_cons, List.length_nil, maxRandomXInstrCodeSize]
    omega

theorem grows_rotation (modrm : ℕ) (instr : Instruction) (i : ℤ) (c : Jit) :
    Grows c (handler.rotation modrm instr i c) := by
  unfold handler.rotation
  dsimp only
  split_ifs
  · exact grows_emit (Nat.le_of_ble_eq_true rfl) (c.use instr.idst i)
  · exact grows_emit (Nat.le_of_ble_eq_true rfl) (c.use instr.idst i)

theorem grows_floatMemory {op : List UInt8} (hop : op.length ≤ 12) (modrm : ℕ) (instr : Instruction)
    (c : Jit) : Grows c (handler.floatMemory op modrm instr c) := by
  have haddr := (length_genAddressReg instr true).2
  refine grows_emit ?_ c
  simp only [List.length_append, length_emitByte, REX_CVTDQ2PD_XMM12,
    List.length_cons, List.length_nil,
    maxRandomXInstrCodeSize]
  omega

theorem grows_CFROUND (instr : Instruction) (c : Jit) : Grows c (h_CFROUND flags instr c) := by
  refine grows_emit ?_ c
  split_ifs
  all_goals exact Nat.le_of_ble_eq_true rfl

variable (u flags) in
/-- No instruction needs more than the bytes that are reserved for it. -/
theorem grows_generateCode (instr : Instruction) (i : ℤ) (c : Jit) :
    Grows c (generateCode u flags instr i c) := by
  unfold generateCode
  rw [engine_eq]
  cases opcodeType instr.opcode with
  | IADD_M | ISUB_M | IMUL_M | IXOR_M => exact grows_memory (by decide) instr i _
  | IMULH_M | ISMULH_M => exact grows_highMemory rfl _ instr i _
  | IROR_R | IROL_R => exact grows_rotation _ instr i _
  | FADD_M | FSUB_M | FDIV_M => exact grows_floatMemory (by decide) _ instr _
  | CFROUND => exact grows_CFROUND instr _
  | IADD_RS =>
    refine grows_emit ?_ _
    split_ifs
    all_goals exact Nat.le_of_ble_eq_true rfl
  | ISUB_R =>
    unfold h_ISUB_R
    dsimp only
    split_ifs
    all_goals exact grows_emit (Nat.le_of_ble_eq_true rfl) _
  | IMUL_R =>
    unfold h_IMUL_R
    dsimp only
    split_ifs
    all_goals exact grows_emit (Nat.le_of_ble_eq_true rfl) _
  | IXOR_R =>
    unfold h_IXOR_R
    dsimp only
    split_ifs
    all_goals exact grows_emit (Nat.le_of_ble_eq_true rfl) _
  | IMUL_RCP =>
    unfold h_IMUL_RCP
    split_ifs
    · exact Nat.le_add_right ..
    · exact grows_emit (Nat.le_of_ble_eq_true rfl) _
  | ISWAP_R =>
    unfold h_ISWAP_R
    split_ifs
    · exact grows_emit (Nat.le_of_ble_eq_true rfl) _
    · exact Nat.le_add_right ..
  | CBRANCH =>
    dsimp only
    rw [Grows, h_CBRANCH_code, List.append_assoc, List.length_append]
    exact Nat.add_le_add_left (Nat.le_of_ble_eq_true rfl) _
  | ISTORE =>
    refine grows_emit ?_ _
    unfold genAddressRegDst
    split_ifs
    all_goals exact Nat.le_of_ble_eq_true rfl
  | _ => exact grows_emit (Nat.le_of_ble_eq_true rfl) _

variable (u flags) in
theorem codeAt_le {program : List Instruction} (before : List UInt8)
    {i : ℕ} (hi : i ≤ program.length) :
    codeAt u flags program before i ≤ before.length + maxRandomXInstrCodeSize * i := by
  induction i with
  | zero => exact Nat.le_refl _
  | succ i ih =>
    have hgrows := grows_generateCode u flags program[i] i
      (jitAt u flags program before i)
    have hprev := ih (by omega)
    rw [Grows, ← jitAt_succ hi] at hgrows
    unfold codeAt at hprev ⊢
    rw [Nat.mul_succ]
    omega

/-! ### The simulation -/

/-- The two machines stand at the same instruction, and match. -/
def Together (u : Units) (flags : Flags) (config : ProgramConfiguration)
    (program : List Instruction)
    (before : List UInt8) (m₀ : Machine) (s : Vm) (t : State) : Prop :=
  ∃ i : ℕ, s.pc = i ∧ i ≤ program.length ∧ t.rip = codeAt u flags program before i ∧
    Matches config m₀ s t.machine

theorem Matches.setPc {m₀ m : Machine} {s : Vm} (h : Matches config m₀ s m) (pc : ℤ) :
    Matches config m₀ { s with pc } m := { h with }

section Step

variable {m₀ : Machine} {program : List Instruction} {before rest code : List UInt8} {i : ℕ}

/-- The bytes of an instruction are where the code has them. -/
theorem drop_codeAt (hcode : code = (generateBody u flags program before).code ++ rest)
    (hi : i < program.length) {bs : List UInt8}
    (hbs : (jitAt u flags program before (i + 1)).code =
      (jitAt u flags program before i).code ++ bs) :
    (∃ rest', code.drop (codeAt u flags program before i) = bs ++ rest') ∧
      codeAt u flags program before (i + 1) = codeAt u flags program before i + bs.length := by
  obtain ⟨tail, htail⟩ := jitAt_code_prefix u flags before (show i + 1 ≤ program.length from hi)
  constructor
  · refine ⟨tail ++ rest, ?_⟩
    rw [hcode, ← htail, hbs, List.append_assoc, List.append_assoc, codeAt, List.drop_left]
  · rw [codeAt, hbs, List.length_append, codeAt]

/-- The distance of a jump leads to the instruction that the bytecode goes on with. -/
theorem distance_toInt (hsize : before.length + maxRandomXInstrCodeSize * program.length < 2 ^ 31)
    (hi : i < program.length) :
    (distance program[i] { jitAt u flags program before i with
        instructionOffsets := (jitAt u flags program before i).instructionOffsets ++
          [(jitAt u flags program before i).code.length] }
      (codeAt u flags program before (i + 1))).toInt =
      codeAt u flags program before (usageAt program i program[i].idst + 1).toNat -
        codeAt u flags program before (i + 1) := by
  have hoffsets : (jitAt u flags program before i).instructionOffsets ++
      [(jitAt u flags program before i).code.length] =
      (List.range (i + 1)).map (codeAt u flags program before) := by
    rw [jitAt_instructionOffsets before hi.le, List.range_succ, List.map_append]
    rfl
  obtain ⟨hlo, hhi⟩ := usageAt_bounds hi.le program[i].idst
  have hle : (usageAt program i program[i].idst + 1).toNat < i + 1 := by omega
  have htarget := codeAt_le u flags before
    (show (usageAt program i program[i].idst + 1).toNat ≤ program.length by omega)
  have hnext := codeAt_le u flags before (show i + 1 ≤ program.length from hi)
  have hmul : maxRandomXInstrCodeSize * (usageAt program i program[i].idst + 1).toNat ≤
      maxRandomXInstrCodeSize * program.length := Nat.mul_le_mul_left _ (by omega)
  have hmul' : maxRandomXInstrCodeSize * (i + 1) ≤ maxRandomXInstrCodeSize * program.length :=
    Nat.mul_le_mul_left _ hi
  rw [distance, hoffsets, jitAt_registerUsage before hi.le, List.getD_eq_getElem?_getD,
    List.getElem?_map, List.getElem?_range hle, Option.map_some, Option.getD_some,
      BitVec.toInt_ofInt]
  exact Int.bmod_eq_of_le (by norm_num; omega) (by norm_num; omega)

theorem step_cbranch (hsize : before.length + maxRandomXInstrCodeSize * program.length < 2 ^ 31)
    (hcode : code = (generateBody u flags program before).code ++ rest) (hi : i < program.length)
    (htype : opcodeType program[i].opcode = .CBRANCH) {ibc : InstructionByteCode}
    {s s₁ : Vm} {m : Machine}
    (hpc : s.pc = i) (h : Matches config m₀ s m)
    (hs : executeInstruction u flags config
      (compileInstruction program[i] i ibc (usageAt program i)).1 s = some s₁) :
    ∃ t', Reaches u code ⟨m, codeAt u flags program before i⟩ t' ∧
      Together u flags config program before m₀ { s₁ with pc := s₁.pc + 1 } t' := by
  obtain ⟨bs, hbs, hadd, -, -⟩ :=
    emits_generateCode u flags program[i] i (jitAt u flags program before i)
  rw [← jitAt_succ hi] at hadd hbs
  obtain ⟨⟨rest', hdrop⟩, hnext⟩ := drop_codeAt hcode hi hadd
  change Assembles bs (jitInstrs u flags program[i] (distance program[i] _
    (codeAt u flags program before (i + 1)))) at hbs
  unfold jitInstrs at hbs
  rw [htype] at hbs
  obtain ⟨hlo, hhi⟩ := usageAt_bounds hi.le program[i].idst
  obtain ⟨m', h', htaken, hnot⟩ := reaches_cbranch (u := u) hbs hdrop h
  rw [execute_cbranch htype, Option.some.injEq] at hs
  subst hs
  by_cases hzero : branchValue s program[i] &&& (branchMask program[i]).setWidth 64 = 0
  · refine ⟨_, htaken hzero
      (codeAt u flags program before (usageAt program i program[i].idst + 1).toNat) ?_,
      (usageAt program i program[i].idst + 1).toNat, ?_, by omega, rfl, h'.setPc _⟩
    · rw [distance_toInt hsize hi, hnext]
      omega
    · dsimp only
      rw [if_pos hzero]
      omega
  · refine ⟨_, hnot hzero, i + 1, ?_, hi, hnext.symm, h'.setPc _⟩
    dsimp only
    rw [if_neg hzero, hpc]
    rfl

theorem step_straight (hcode : code = (generateBody u flags program before).code ++ rest)
    (hapart : Apart m₀) (hi : i < program.length)
    (htype : opcodeType program[i].opcode ≠ .CBRANCH) {ibc : InstructionByteCode}
    {s s₁ : Vm} {m : Machine}
    (hpc : s.pc = i) (h : Matches config m₀ s m)
    (hs : executeInstruction u flags config
      (compileInstruction program[i] i ibc (usageAt program i)).1 s = some s₁) :
    ∃ t', Reaches u code ⟨m, codeAt u flags program before i⟩ t' ∧
      Together u flags config program before m₀ { s₁ with pc := s₁.pc + 1 } t' := by
  have hpc₁ : s₁.pc = i := by
    obtain ⟨s₂, hs₂, hsame, -⟩ := exists_execute u flags config htype i ibc
      (usageAt program i) s
    rw [hs, Option.some.injEq] at hs₂
    rw [hs₂, hsame, hpc]
  have hdone : ∀ {bs : List UInt8} {m' : Machine},
      codeAt u flags program before (i + 1) = codeAt u flags program before i + bs.length →
      Matches config m₀ s₁ m' →
        Together u flags config program before m₀ { s₁ with pc := s₁.pc + 1 }
        ⟨m', codeAt u flags program before i + bs.length⟩ := by
    intro bs m' hnext h'
    exact ⟨i + 1, by rw [hpc₁]; rfl, hi, hnext.symm, h'.setPc _⟩
  by_cases hround : opcodeType program[i].opcode = .CFROUND
  · have hadd := generateCode_cfround u flags hround i (jitAt u flags program before i)
    rw [← jitAt_succ hi] at hadd
    obtain ⟨⟨rest', hdrop⟩, hnext⟩ := drop_codeAt hcode hi hadd
    obtain ⟨m', hreach, h'⟩ := reaches_cfround (u := u) hround hapart hdrop h hs
    exact ⟨_, hreach, hdone hnext h'⟩
  · obtain ⟨bs, hbs, hadd, -, -⟩ :=
      emits_generateCode u flags program[i] i (jitAt u flags program before i)
    rw [← jitAt_succ hi] at hadd
    obtain ⟨⟨rest', hdrop⟩, hnext⟩ := drop_codeAt hcode hi hadd
    obtain ⟨m', hblock, h'⟩ :=
      simulates_instruction htype hround _ i ibc (usageAt program i) s s₁ m h hs
    exact ⟨_, hbs.reaches hdrop hblock, hdone hnext h'⟩

end Step

/-- The code of a program ends where the bytecode does, with the same registers and scratchpad. -/
theorem generateBody_correct (program : List Instruction) {before rest code : List UInt8}
    (hsize : before.length + maxRandomXInstrCodeSize * program.length < 2 ^ 31)
    (hcode : code = (generateBody u flags program before).code ++ rest)
    {s : Vm} {m : Machine} (h : Matches config m s m) (hapart : Apart m)
    (bytecode : ℕ → InstructionByteCode) :
    ∃ s' m', executeBytecode u flags config (compileProgram program bytecode) program.length
        (3 * program.length) s = some s' ∧
      Reaches u code ⟨m, before.length⟩ ⟨m', (generateBody u flags program before).code.length⟩ ∧
      Matches config m s' m' := by
  obtain ⟨s', hexec, -⟩ := exists_executeBytecode u flags config program bytecode s
  have hstep : ∀ s s' t, Together u flags config program before m s t →
    decide (s.pc < program.length) →
      bytecodeStep u flags config (compileProgram program bytecode) s = some s' →
      ∃ t', Reaches u code t t' ∧ Together u flags config program before m s' t' := by
    intro s s' t htogether hrun hs
    obtain ⟨i, hpc, -, hrip, hm⟩ := htogether
    have hi : i < program.length := by
      have := of_decide_eq_true hrun
      omega
    rw [bytecodeStep, Option.map_eq_some_iff] at hs
    obtain ⟨s₁, hs₁, rfl⟩ := hs
    have htoNat : s.pc.toNat = i := by omega
    rw [htoNat, compileProgram_apply hi] at hs₁
    obtain ⟨m₁, rip⟩ := t
    dsimp only at hrip hm
    subst hrip
    by_cases htype : opcodeType program[i].opcode = .CBRANCH
    · exact step_cbranch hsize hcode hi htype hpc hm hs₁
    · exact step_straight hcode hapart hi htype hpc hm hs₁
  have hstart : Together u flags config program before m { s with pc := 0 } ⟨m, before.length⟩ :=
    ⟨0, rfl, Nat.zero_le _, rfl, h.setPc 0⟩
  obtain ⟨⟨m', rip⟩, hreach, ⟨i, hpc, hle, hrip, hm⟩, hdone⟩ :=
    Loops.loop_rel Reaches.refl (fun _ _ _ => Reaches.trans) hstep hstart hexec
  have hi : i = program.length := by
    have := of_decide_eq_false hdone
    omega
  dsimp only at hrip hm
  rw [hi, codeAt, jitAt_length] at hrip
  exact ⟨s', m', hexec, hrip ▸ hreach, hm⟩

/-- A machine with an empty scratchpad at address 0, and its stack far above. -/
def restingMachine (config : ProgramConfiguration) : Machine where
  gpr r := if r = 4 then 0x10000000000 else 0
  xmm r :=
    if r = 13 then ⟨dynamicMantissaMask, dynamicMantissaMask⟩
    else if r = 14 then config.eMask
    else if r = 15 then scaleMask
    else ⟨0, 0⟩
  mxcsr := rx_mxcsr_default
  zf := none
  mem := fun _ => 0

def restingVm : Vm where
  r := fun _ => 0
  f := fun _ => ⟨0, 0⟩
  e := fun _ => ⟨0, 0⟩
  a := fun _ => ⟨0, 0⟩
  scratchpad := fun _ => 0
  mxcsr := rx_mxcsr_default
  pc := 0

theorem restingMachine_xmm (config : ProgramConfiguration) {r : Reg}
    (h : r ≠ 13 ∧ r ≠ 14 ∧ r ≠ 15) :
    (restingMachine config).xmm r = ⟨0, 0⟩ := by
  rw [restingMachine]
  dsimp only
  rw [if_neg h.1, if_neg h.2.1, if_neg h.2.2]

theorem matches_resting (config : ProgramConfiguration) :
    Matches config (restingMachine config) restingVm (restingMachine config) where
  r k := if_neg (by revert k; decide)
  f k := restingMachine_xmm config (by revert k; decide)
  e k := restingMachine_xmm config (by revert k; decide)
  a k := restingMachine_xmm config (by revert k; decide)
  mantissa := rfl
  exponent := rfl
  scale := rfl
  mxcsr := rfl
  saved _ _ := rfl
  scratchpad _ _ := rfl
  memory _ _ _ := rfl

theorem apart_resting (config : ProgramConfiguration) : Apart (restingMachine config) := by
  intro i hi
  change 4 ≤ ((0#64) + BitVec.ofNat 64 i - 0x10000000000#64).toNat
  have hsize : ScratchpadSize = 2097152 := rfl
  rw [BitVec.zero_add, BitVec.toNat_sub]
  simp only [BitVec.toNat_ofNat]
  omega

/-- Units for programs that do not ask them for anything. -/
def idleUnits : Units where
  add := fun _ x _ => x
  sub := fun _ x _ => x
  mul := fun _ x _ => x
  div := fun _ x _ => x
  sqrt := fun _ x => x
  ofInt := fun _ => 0
  aesenc := fun x _ => x
  aesdec := fun x _ => x

/-- An addition and a jump on its register. -/
def countingProgram : List Instruction := [⟨0, 1, 2, 0, 0⟩, ⟨214, 1, 0, 0, 7⟩]

theorem generateBody_correct_counting :
    ∃ s' m', executeBytecode idleUnits ⟨true, true⟩ ⟨⟨0, 0⟩, 0, 1, 2, 3⟩
        (compileProgram countingProgram fun _ => ⟨.NOP, 0, .f 0, .zero, .f 0, 0, 0, 0, 0⟩)
          2 6 restingVm =
        some s' ∧
      Reaches idleUnits (generateBody idleUnits ⟨true, true⟩ countingProgram [0x90]).code
        ⟨restingMachine ⟨⟨0, 0⟩, 0, 1, 2, 3⟩, 1⟩
        ⟨m', (generateBody idleUnits ⟨true, true⟩ countingProgram [0x90]).code.length⟩ ∧
      Matches ⟨⟨0, 0⟩, 0, 1, 2, 3⟩ (restingMachine ⟨⟨0, 0⟩, 0, 1, 2, 3⟩) s' m' :=
  generateBody_correct countingProgram (by decide) (List.append_nil _).symm
    (matches_resting _) (apart_resting _) _

end NMiner.RandomX
