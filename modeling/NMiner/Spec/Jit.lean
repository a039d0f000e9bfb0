import NMiner.Spec.Bytecode

/-! `JitCompilerX86`: the machine code it emits for the instructions of a program. The code buffer
is the list of the bytes before `codePos`. -/

namespace NMiner.RandomX

open Word X86

/-! ### Pieces of machine code -/

def REX_ADD_RM : List UInt8 := [0x4c, 0x03]

def REX_SUB_RR : List UInt8 := [0x4d, 0x2b]

def REX_SUB_RM : List UInt8 := [0x4c, 0x2b]

def REX_MOV_RR : List UInt8 := [0x41, 0x8b]

def REX_MOV_RR64 : List UInt8 := [0x49, 0x8b]

def REX_MOV_R64R : List UInt8 := [0x4c, 0x8b]

def REX_IMUL_RR : List UInt8 := [0x4d, 0x0f, 0xaf]

def REX_IMUL_RRI : List UInt8 := [0x4d, 0x69]

def REX_IMUL_RM : List UInt8 := [0x4c, 0x0f, 0xaf]

def REX_MUL_R : List UInt8 := [0x49, 0xf7]

def REX_MUL_M : List UInt8 := [0x48, 0xf7]

def REX_81 : List UInt8 := [0x49, 0x81]

def AND_EAX_I : List UInt8 := [0x25]

def MOV_RAX_I : List UInt8 := [0x48, 0xb8]

def REX_LEA : List UInt8 := [0x4f, 0x8d]

def REX_MUL_MEM : List UInt8 := [0x48, 0xf7, 0x24, 0x0e]

def REX_IMUL_MEM : List UInt8 := [0x48, 0xf7, 0x2c, 0x0e]

def AND_ECX_I : List UInt8 := [0x81, 0xe1]

def REX_NEG : List UInt8 := [0x49, 0xf7]

def REX_XOR_RR : List UInt8 := [0x4d, 0x33]

def REX_XOR_RI : List UInt8 := [0x49, 0x81]

def REX_XOR_RM : List UInt8 := [0x4c, 0x33]

def REX_ROT_CL : List UInt8 := [0x49, 0xd3]

def REX_ROT_I8 : List UInt8 := [0x49, 0xc1]

def SHUFPD : List UInt8 := [0x66, 0x0f, 0xc6]

def REX_ADDPD : List UInt8 := [0x66, 0x41, 0x0f, 0x58]

def REX_CVTDQ2PD_XMM12 : List UInt8 := [0xf3, 0x44, 0x0f, 0xe6, 0x24, 0x06]

def REX_SUBPD : List UInt8 := [0x66, 0x41, 0x0f, 0x5c]

def REX_XORPS : List UInt8 := [0x41, 0x0f, 0x57]

def REX_MULPD : List UInt8 := [0x66, 0x41, 0x0f, 0x59]

def REX_DIVPD : List UInt8 := [0x66, 0x41, 0x0f, 0x5e]

def SQRTPD : List UInt8 := [0x66, 0x0f, 0x51]

def AND_OR_MOV_LDMXCSR : List UInt8 :=
  [0x25, 0x00, 0x60, 0x00, 0x00, 0x0d, 0xc0, 0x9f, 0x00, 0x00, 0x89,
    0x04, 0x24, 0x0f, 0xae, 0x14, 0x24]

def ROL_RAX : List UInt8 := [0x48, 0xc1, 0xc0]

def REX_MOV_MR : List UInt8 := [0x4c, 0x89]

def REX_XCHG : List UInt8 := [0x4d, 0x87]

def REX_ANDPS_XMM12 : List UInt8 := [0x45, 0x0f, 0x54, 0xe5, 0x45, 0x0f, 0x56, 0xe6]

def REX_ADD_I : List UInt8 := [0x49, 0x81]

def REX_TEST : List UInt8 := [0x49, 0xf7]

def JZ : List UInt8 := [0x0f, 0x84]

def JNZ_SHORT : List UInt8 := [0x75]

def LEA_32 : List UInt8 := [0x41, 0x8d]

def TEST_EAX_60SL13 : List UInt8 := [0xa9, 0x00, 0x80, 0x07, 0x00]

def NOP1 : List UInt8 := [0x90]

/-! ### The reciprocal in assembly -/

/-- `randomx_reciprocal_fast`, up to its return -/
def randomx_reciprocal_inc : List Instr :=
  [ .load .w64 1 (.reg 7)           -- mov rcx, rdi
  , .movImm .w32 2 1                -- mov edx, 1
  , .load .w64 8 (.reg 1)           -- mov r8, rcx
  , .alu .xor .w32 0 (.reg 0)       -- xor eax, eax
  , .bsr 1 1                        -- bsr rcx, rcx
  , .shift true .w64 2 .cl          -- shl rdx, cl
  , .div 8 ]                        -- div r8

/-- What the function returns for a divisor in `rdi`; it does not depend on the other registers. -/
def randomx_reciprocal_fast (u : Units) (divisor : BitVec 32) : BitVec 64 :=
  let start : Machine :=
    { gpr := Function.update (fun _ => 0) 7 (divisor.setWidth 64)
      xmm := fun _ => ⟨0, 0⟩
      mxcsr := 0
      zf := none
      mem := fun _ => 0 }
  (block u randomx_reciprocal_inc start).elim 0 fun m => m.gpr 0

/-! ### The compiler -/

structure Jit where
  code : List UInt8
  instructionOffsets : List ℕ
  registerUsage : RegisterUsage

namespace Jit

def emit (c : Jit) (bytes : List UInt8) : Jit := { c with code := c.code ++ bytes }

def use (c : Jit) (k : Fin 8) (i : ℤ) : Jit :=
  { c with registerUsage := Function.update c.registerUsage k i }

end Jit

def emitByte (val : ℕ) : List UInt8 := [UInt8.ofNat val]

def emit32 (val : BitVec 32) : List UInt8 := bytes 4 val

def emit64 (val : BitVec 64) : List UInt8 := bytes 8 val

def genSIB (scale : ℕ) (index base : Fin 8) : List UInt8 :=
  emitByte (scale <<< 6 ||| index.val <<< 3 ||| base.val)

def genAddressReg (instr : Instruction) (rax : Bool) : List UInt8 :=
  LEA_32 ++ emitByte (0x80 + instr.isrc + if rax then 0 else 8) ++
    (if instr.isrc = RegisterNeedsSib then emitByte 0x24 else []) ++ emit32 instr.imm32 ++
    (if rax then AND_EAX_I else AND_ECX_I) ++ emit32 (levelMask instr)

def genAddressRegDst (instr : Instruction) : List UInt8 :=
  LEA_32 ++ emitByte (0x80 + instr.idst) ++
    (if instr.idst = RegisterNeedsSib then emitByte 0x24 else []) ++ emit32 instr.imm32 ++
    AND_EAX_I ++
    (if instr.getModCond < StoreL3Condition then emit32 (levelMask instr)
      else emit32 ScratchpadL3Mask)

def genAddressImm (instr : Instruction) : List UInt8 := emit32 (instr.imm32 &&& ScratchpadL3Mask)

namespace handler

/-- An integer register and a word of the scratchpad. -/
def memory (op : List UInt8) (instr : Instruction) (i : ℤ) (c : Jit) : Jit :=
  let c := c.use instr.idst i
  if instr.isrc ≠ instr.idst then
    c.emit (genAddressReg instr true ++ op ++ emitByte (0x04 + 8 * instr.idst) ++ emitByte 0x06)
  else c.emit (op ++ emitByte (0x86 + 8 * instr.idst) ++ genAddressImm instr)

/-- The upper half of a product with a register. -/
def highReg (modrm : ℕ) (instr : Instruction) (i : ℤ) (c : Jit) : Jit :=
  (c.use instr.idst i).emit (REX_MOV_RR64 ++ emitByte (0xc0 + instr.idst) ++
    REX_MUL_R ++ emitByte (modrm + instr.isrc) ++ REX_MOV_R64R ++ emitByte (0xc2 + 8 * instr.idst))

/-- The upper half of a product with a word of the scratchpad. -/
def highMemory (mem : List UInt8) (modrm : ℕ) (instr : Instruction) (i : ℤ) (c : Jit) : Jit :=
  (c.use instr.idst i).emit
    ((if instr.isrc ≠ instr.idst then
        genAddressReg instr false ++ REX_MOV_RR64 ++ emitByte (0xc0 + instr.idst) ++ mem
      else
        REX_MOV_RR64 ++ emitByte (0xc0 + instr.idst) ++ REX_MUL_M ++ emitByte modrm ++
          genAddressImm instr) ++
      REX_MOV_R64R ++ emitByte (0xc2 + 8 * instr.idst))

/-- A rotation by a register, or by an immediate. -/
def rotation (modrm : ℕ) (instr : Instruction) (i : ℤ) (c : Jit) : Jit :=
  let c := c.use instr.idst i
  if instr.isrc ≠ instr.idst then
    c.emit (REX_MOV_RR ++ emitByte (0xc8 + instr.isrc) ++ REX_ROT_CL ++
      emitByte (modrm + instr.idst))
  else
    c.emit (REX_ROT_I8 ++ emitByte (modrm + instr.idst) ++ emitByte (instr.imm32 &&& 63).toNat)

/-- Two floating-point registers. -/
def floatReg (op : List UInt8) (modrm : ℕ) (instr : Instruction) (c : Jit) : Jit :=
  c.emit (op ++ emitByte (modrm + instr.fsrc + 8 * instr.fdst))

/-- A floating-point register and two integers of the scratchpad. -/
def floatMemory (op : List UInt8) (modrm : ℕ) (instr : Instruction) (c : Jit) : Jit :=
  c.emit (genAddressReg instr true ++ REX_CVTDQ2PD_XMM12 ++ op ++ emitByte (modrm + 8 * instr.fdst))

end handler

def h_IADD_RS (instr : Instruction) (i : ℤ) (c : Jit) : Jit :=
  (c.use instr.idst i).emit (REX_LEA ++
    (if instr.idst = RegisterNeedsDisplacement then emitByte 0xac
      else emitByte (0x04 + 8 * instr.idst)) ++
    genSIB instr.getModShift instr.isrc instr.idst ++
    if instr.idst = RegisterNeedsDisplacement then emit32 instr.imm32 else [])

def h_IADD_M : Instruction → ℤ → Jit → Jit := handler.memory REX_ADD_RM

def h_ISUB_R (instr : Instruction) (i : ℤ) (c : Jit) : Jit :=
  let c := c.use instr.idst i
  if instr.isrc ≠ instr.idst then
    c.emit (REX_SUB_RR ++ emitByte (0xc0 + 8 * instr.idst + instr.isrc))
  else c.emit (REX_81 ++ emitByte (0xe8 + instr.idst) ++ emit32 instr.imm32)

def h_ISUB_M : Instruction → ℤ → Jit → Jit := handler.memory REX_SUB_RM

def h_IMUL_R (instr : Instruction) (i : ℤ) (c : Jit) : Jit :=
  let c := c.use instr.idst i
  if instr.isrc ≠ instr.idst then
    c.emit (REX_IMUL_RR ++ emitByte (0xc0 + 8 * instr.idst + instr.isrc))
  else c.emit (REX_IMUL_RRI ++ emitByte (0xc0 + 9 * instr.idst) ++ emit32 instr.imm32)

def h_IMUL_M : Instruction → ℤ → Jit → Jit := handler.memory REX_IMUL_RM

def h_IMULH_R : Instruction → ℤ → Jit → Jit := handler.highReg 0xe0

def h_IMULH_M : Instruction → ℤ → Jit → Jit := handler.highMemory REX_MUL_MEM 0xa6

def h_ISMULH_R : Instruction → ℤ → Jit → Jit := handler.highReg 0xe8

def h_ISMULH_M : Instruction → ℤ → Jit → Jit := handler.highMemory REX_IMUL_MEM 0xae

def h_IMUL_RCP (u : Units) (instr : Instruction) (i : ℤ) (c : Jit) : Jit :=
  if isZeroOrPowerOf2 (instr.imm32.setWidth 64) then c
  else
    (c.use instr.idst i).emit (MOV_RAX_I ++ emit64 (randomx_reciprocal_fast u instr.imm32) ++
      REX_IMUL_RM ++ emitByte (0xc0 + 8 * instr.idst))

def h_INEG_R (instr : Instruction) (i : ℤ) (c : Jit) : Jit :=
  (c.use instr.idst i).emit (REX_NEG ++ emitByte (0xd8 + instr.idst))

def h_IXOR_R (instr : Instruction) (i : ℤ) (c : Jit) : Jit :=
  let c := c.use instr.idst i
  if instr.isrc ≠ instr.idst then
    c.emit (REX_XOR_RR ++ emitByte (0xc0 + 8 * instr.idst + instr.isrc))
  else c.emit (REX_XOR_RI ++ emitByte (0xf0 + instr.idst) ++ emit32 instr.imm32)

def h_IXOR_M : Instruction → ℤ → Jit → Jit := handler.memory REX_XOR_RM

def h_IROR_R : Instruction → ℤ → Jit → Jit := handler.rotation 0xc8

def h_IROL_R : Instruction → ℤ → Jit → Jit := handler.rotation 0xc0

def h_ISWAP_R (instr : Instruction) (i : ℤ) (c : Jit) : Jit :=
  if instr.isrc ≠ instr.idst then
    ((c.use instr.idst i).use instr.isrc i).emit
      (REX_XCHG ++ emitByte (0xc0 + instr.isrc + 8 * instr.idst))
  else c

def h_FSWAP_R (instr : Instruction) (c : Jit) : Jit :=
  c.emit (SHUFPD ++ emitByte (0xc0 + 9 * instr.idst) ++ emitByte 1)

def h_FADD_R : Instruction → Jit → Jit := handler.floatReg REX_ADDPD 0xc0

def h_FADD_M : Instruction → Jit → Jit := handler.floatMemory REX_ADDPD 0xc4

def h_FSUB_R : Instruction → Jit → Jit := handler.floatReg REX_SUBPD 0xc0

def h_FSUB_M : Instruction → Jit → Jit := handler.floatMemory REX_SUBPD 0xc4

def h_FSCAL_R (instr : Instruction) (c : Jit) : Jit :=
  c.emit (REX_XORPS ++ emitByte (0xc7 + 8 * instr.fdst))

def h_FMUL_R : Instruction → Jit → Jit := handler.floatReg REX_MULPD 0xe0

def h_FDIV_M : Instruction → Jit → Jit := handler.floatMemory (REX_ANDPS_XMM12 ++ REX_DIVPD) 0xe4

def h_FSQRT_R (instr : Instruction) (c : Jit) : Jit :=
  c.emit (SQRTPD ++ emitByte (0xe4 + 9 * instr.fdst))

def h_CFROUND (flags : Flags) (instr : Instruction) (c : Jit) : Jit :=
  -- `(13 - (imm & 63)) & 63`
  let rotate := (13 + 64 - (instr.imm32 &&& 63).toNat) % 64
  c.emit (REX_MOV_RR64 ++ emitByte (0xc0 + instr.isrc) ++
    (if rotate ≠ 0 then ROL_RAX ++ emitByte rotate else []) ++
    (if flags.v2 then TEST_EAX_60SL13 ++ JNZ_SHORT ++ emitByte AND_OR_MOV_LDMXCSR.length else []) ++
    AND_OR_MOV_LDMXCSR)

def h_CBRANCH (instr : Instruction) (i : ℤ) (c : Jit) : Jit :=
  let reg := instr.idst
  let target := c.registerUsage reg + 1
  let shift := instr.getModCond + ConditionOffset
  let imm := (instr.imm32 ||| (1#32 <<< shift)) &&& ~~~(1#32 <<< (shift - 1))
  let c := c.emit (REX_ADD_I ++ emitByte (0xc0 + reg) ++ emit32 imm ++
    REX_TEST ++ emitByte (0xc0 + reg) ++ emit32 (ConditionMask <<< shift) ++ JZ)
  let c := c.emit (emit32
    (BitVec.ofInt 32 (c.instructionOffsets.getD target.toNat 0 - (c.code.length + 4 : ℕ))))
  { c with registerUsage := fun _ => i }

def h_ISTORE (instr : Instruction) (c : Jit) : Jit :=
  c.emit (genAddressRegDst instr ++ REX_MOV_MR ++ emitByte (0x04 + 8 * instr.isrc) ++ emitByte 0x06)

def h_NOP (c : Jit) : Jit := c.emit NOP1

/-- The table of the handlers, by opcode: each type as often as its frequency says. -/
def engine : List InstructionType := opcodeOrder.flatMap fun t => List.replicate (RANDOMX_FREQ t) t

def generateCode (u : Units) (flags : Flags) (instr : Instruction) (i : ℤ) (c : Jit) : Jit :=
  let c := { c with instructionOffsets := c.instructionOffsets ++ [c.code.length] }
  match engine.getD instr.opcode.toNat .NOP with
  | .IADD_RS => h_IADD_RS instr i c
  | .IADD_M => h_IADD_M instr i c
  | .ISUB_R => h_ISUB_R instr i c
  | .ISUB_M => h_ISUB_M instr i c
  | .IMUL_R => h_IMUL_R instr i c
  | .IMUL_M => h_IMUL_M instr i c
  | .IMULH_R => h_IMULH_R instr i c
  | .IMULH_M => h_IMULH_M instr i c
  | .ISMULH_R => h_ISMULH_R instr i c
  | .ISMULH_M => h_ISMULH_M instr i c
  | .IMUL_RCP => h_IMUL_RCP u instr i c
  | .INEG_R => h_INEG_R instr i c
  | .IXOR_R => h_IXOR_R instr i c
  | .IXOR_M => h_IXOR_M instr i c
  | .IROR_R => h_IROR_R instr i c
  | .IROL_R => h_IROL_R instr i c
  | .ISWAP_R => h_ISWAP_R instr i c
  | .FSWAP_R => h_FSWAP_R instr c
  | .FADD_R => h_FADD_R instr c
  | .FADD_M => h_FADD_M instr c
  | .FSUB_R => h_FSUB_R instr c
  | .FSUB_M => h_FSUB_M instr c
  | .FSCAL_R => h_FSCAL_R instr c
  | .FMUL_R => h_FMUL_R instr c
  | .FDIV_M => h_FDIV_M instr c
  | .FSQRT_R => h_FSQRT_R instr c
  | .CBRANCH => h_CBRANCH instr i c
  | .CFROUND => h_CFROUND flags instr c
  | .ISTORE => h_ISTORE instr c
  | .NOP => h_NOP c

/-- The loop over the instructions of a program in `generateProgramPrologue`, from the `i`th on. -/
def generateFrom (u : Units) (flags : Flags) : List Instruction → ℕ → Jit → Jit
  | [], _, c => c
  | instr :: rest, i, c => generateFrom u flags rest (i + 1) (generateCode u flags instr i c)

/-- The code of a program, after the bytes that the buffer holds before it. -/
def generateBody (u : Units) (flags : Flags) (program : List Instruction)
    (before : List UInt8) : Jit :=
  generateFrom u flags program 0 ⟨before, [], beginCompilation⟩

end NMiner.RandomX
