import NMiner.Lib.Loops
import NMiner.Lib.X86

/-! The bytecode machine of RandomX: the instructions of a program, their translation by
`BytecodeMachine::compileInstruction` and their execution by `executeBytecode`. Registers of the
register file are named instead of pointed to. The build is the one for x86, whose vector units and
control word are those of `X86`.

`none` is an access outside the scratchpad, a type that the switch of `executeInstruction` calls
unreachable, or a loop that has run out of fuel. -/

namespace NMiner.RandomX

open Word
open X86 (Lanes Units)

/-! ### Configuration -/

def RANDOMX_PROGRAM_SIZE_V1 : ℕ := 256

def RANDOMX_PROGRAM_SIZE_V2 : ℕ := 384

def RANDOMX_PROGRAM_ITERATIONS : ℕ := 2048

def RANDOMX_SCRATCHPAD_L3 : ℕ := 2097152

def RANDOMX_SCRATCHPAD_L2 : ℕ := 262144

def RANDOMX_SCRATCHPAD_L1 : ℕ := 16384

def RANDOMX_JUMP_BITS : ℕ := 8

def RANDOMX_JUMP_OFFSET : ℕ := 8

def ScratchpadSize : ℕ := RANDOMX_SCRATCHPAD_L3

def ScratchpadL1Mask : BitVec 32 := BitVec.ofNat 32 ((RANDOMX_SCRATCHPAD_L1 / 8 - 1) * 8)

def ScratchpadL2Mask : BitVec 32 := BitVec.ofNat 32 ((RANDOMX_SCRATCHPAD_L2 / 8 - 1) * 8)

def ScratchpadL3Mask : BitVec 32 := BitVec.ofNat 32 ((RANDOMX_SCRATCHPAD_L3 / 8 - 1) * 8)

def ScratchpadL3Mask64 : BitVec 32 := BitVec.ofNat 32 ((RANDOMX_SCRATCHPAD_L3 / 8 / 8 - 1) * 64)

def ConditionMask : BitVec 32 := BitVec.ofNat 32 (2 ^ RANDOMX_JUMP_BITS - 1)

def ConditionOffset : ℕ := RANDOMX_JUMP_OFFSET

def StoreL3Condition : ℕ := 14

/-- `RegistersCount` is not zero. -/
instance instNeZeroRegistersCount : NeZero 8 := ⟨by decide⟩

/-- `RegisterCountFlt` is not zero. -/
instance instNeZeroRegisterCountFlt : NeZero 4 := ⟨by decide⟩

/-- x86 register r13 -/
def RegisterNeedsDisplacement : Fin 8 := 5

/-- x86 register r12 -/
def RegisterNeedsSib : Fin 8 := 4

inductive InstructionType
  | IADD_RS | IADD_M | ISUB_R | ISUB_M | IMUL_R | IMUL_M | IMULH_R | IMULH_M | ISMULH_R | ISMULH_M
  | IMUL_RCP | INEG_R | IXOR_R | IXOR_M | IROR_R | IROL_R | ISWAP_R
  | FSWAP_R | FADD_R | FADD_M | FSUB_R | FSUB_M | FSCAL_R | FMUL_R | FDIV_M | FSQRT_R
  | CBRANCH | CFROUND | ISTORE | NOP
  deriving DecidableEq, Repr

/-- How many of 256 opcodes stand for a type. -/
def RANDOMX_FREQ : InstructionType → ℕ
  | .IADD_RS => 16 | .IADD_M => 7 | .ISUB_R => 16 | .ISUB_M => 7 | .IMUL_R => 16 | .IMUL_M => 4
  | .IMULH_R => 4 | .IMULH_M => 1 | .ISMULH_R => 4 | .ISMULH_M => 1 | .IMUL_RCP => 8 | .INEG_R => 2
  | .IXOR_R => 15 | .IXOR_M => 5 | .IROR_R => 8 | .IROL_R => 2 | .ISWAP_R => 4
  | .FSWAP_R => 4 | .FADD_R => 16 | .FADD_M => 5 | .FSUB_R => 16 | .FSUB_M => 5 | .FSCAL_R => 6
  | .FMUL_R => 32 | .FDIV_M => 4 | .FSQRT_R => 6
  | .CBRANCH => 25 | .CFROUND => 1 | .ISTORE => 16 | .NOP => 0

/-- The types in the order of their opcodes. -/
def opcodeOrder : List InstructionType :=
  [.IADD_RS, .IADD_M, .ISUB_R, .ISUB_M, .IMUL_R, .IMUL_M, .IMULH_R, .IMULH_M, .ISMULH_R, .ISMULH_M,
    .IMUL_RCP, .INEG_R, .IXOR_R, .IXOR_M, .IROR_R, .IROL_R, .ISWAP_R,
    .FSWAP_R, .FADD_R, .FADD_M, .FSUB_R, .FSUB_M, .FSCAL_R, .FMUL_R, .FDIV_M, .FSQRT_R,
    .CBRANCH, .CFROUND, .ISTORE, .NOP]

/-- `OPCODE_CEIL_DECLARE`: the ceiling of a type is that of the one before it and its frequency. -/
def ceil (t : InstructionType) : ℕ :=
  ((opcodeOrder.take (opcodeOrder.idxOf t + 1)).map RANDOMX_FREQ).sum

/-- The first type whose ceiling is above the opcode. -/
def opcodeType (opcode : UInt8) : InstructionType :=
  (opcodeOrder.find? fun t => opcode.toNat < ceil t).getD .NOP

structure Instruction where
  opcode : UInt8
  dst : UInt8
  src : UInt8
  mod : UInt8
  imm32 : BitVec 32
  deriving DecidableEq, Repr

namespace Instruction

def getModMem (instr : Instruction) : ℕ := instr.mod.toNat % 4

def getModShift (instr : Instruction) : ℕ := (instr.mod.toNat >>> 2) % 4

def getModCond (instr : Instruction) : ℕ := instr.mod.toNat >>> 4

/-- `instr.dst % RegistersCount` -/
def idst (instr : Instruction) : Fin 8 := Fin.ofNat 8 instr.dst.toNat

/-- `instr.src % RegistersCount` -/
def isrc (instr : Instruction) : Fin 8 := Fin.ofNat 8 instr.src.toNat

/-- `instr.dst % RegisterCountFlt` -/
def fdst (instr : Instruction) : Fin 4 := Fin.ofNat 4 instr.dst.toNat

/-- `instr.src % RegisterCountFlt` -/
def fsrc (instr : Instruction) : Fin 4 := Fin.ofNat 4 instr.src.toNat

end Instruction

structure Flags where
  v2 : Bool
  hardAes : Bool
  deriving DecidableEq, Repr

/-- `getSize` of a program -/
def programSize (flags : Flags) : ℕ :=
  if flags.v2 then RANDOMX_PROGRAM_SIZE_V2 else RANDOMX_PROGRAM_SIZE_V1

structure ProgramConfiguration where
  eMask : Lanes
  readReg0 : Fin 8
  readReg1 : Fin 8
  readReg2 : Fin 8
  readReg3 : Fin 8
  deriving DecidableEq, Repr

/-! ### Translation -/

/-- What `isrc` points to. -/
inductive IntSource
  | reg (k : Fin 8)
  | zero
  /-- the immediate of the bytecode itself -/
  | imm
  deriving DecidableEq, Repr

inductive FloatReg
  | f (k : Fin 4)
  | e (k : Fin 4)
  | a (k : Fin 4)
  deriving DecidableEq, Repr

/-- The members of the unions are kept apart: what a type reads its translation has written. -/
structure InstructionByteCode where
  type : InstructionType
  idst : Fin 8
  fdst : FloatReg
  isrc : IntSource
  fsrc : FloatReg
  imm : BitVec 64
  target : ℤ
  shift : ℕ
  memMask : BitVec 32
  deriving DecidableEq, Repr

/-- For each integer register the last instruction that modifies it, or -1. -/
abbrev RegisterUsage := Fin 8 → ℤ

def signExtend2sCompl (x : BitVec 32) : BitVec 64 := x.signExtend 64

def isZeroOrPowerOf2 (x : BitVec 64) : Bool := x &&& (x - 1) == 0

/-- `2 ^ x / divisor` for the highest `x` such that it is below `2 ^ 64`. -/
def randomx_reciprocal (divisor : BitVec 32) : BitVec 64 :=
  let p2exp63 := 1#64 <<< 63
  let q := p2exp63 / divisor.setWidth 64
  let r := p2exp63 % divisor.setWidth 64
  -- `64 - __builtin_clzll(divisor)`
  let shift := divisor.toNat.log2 + 1
  (q <<< shift) + ((r <<< shift) / divisor.setWidth 64)

/-- The mask of an access to the first level of the scratchpad or to the second. -/
def levelMask (instr : Instruction) : BitVec 32 :=
  if instr.getModMem ≠ 0 then ScratchpadL1Mask else ScratchpadL2Mask

namespace compile

/-- An integer instruction with a memory operand. -/
def memory (type : InstructionType) (instr : Instruction) (i : ℤ) (ibc : InstructionByteCode)
    (usage : RegisterUsage) : InstructionByteCode × RegisterUsage :=
  let ibc := { ibc with type, idst := instr.idst, imm := signExtend2sCompl instr.imm32 }
  (if instr.isrc ≠ instr.idst then { ibc with isrc := .reg instr.isrc, memMask := levelMask instr }
    else { ibc with isrc := .zero, memMask := ScratchpadL3Mask },
    Function.update usage instr.idst i)

/-- An integer instruction whose source is a register, or an immediate if it is the destination. -/
def regOrImm (type : InstructionType) (imm : BitVec 64) (instr : Instruction) (i : ℤ)
    (ibc : InstructionByteCode) (usage : RegisterUsage) : InstructionByteCode × RegisterUsage :=
  let ibc := { ibc with type, idst := instr.idst }
  (if instr.isrc ≠ instr.idst then { ibc with isrc := .reg instr.isrc }
    else { ibc with imm, isrc := .imm },
    Function.update usage instr.idst i)

/-- An integer instruction whose source is always a register. -/
def reg (type : InstructionType) (instr : Instruction) (i : ℤ) (ibc : InstructionByteCode)
    (usage : RegisterUsage) : InstructionByteCode × RegisterUsage :=
  ({ ibc with type, idst := instr.idst, isrc := .reg instr.isrc },
    Function.update usage instr.idst i)

/-- A floating-point instruction with a memory operand. -/
def floatMemory (type : InstructionType) (fdst : FloatReg) (instr : Instruction)
    (ibc : InstructionByteCode) (usage : RegisterUsage) : InstructionByteCode × RegisterUsage :=
  ({ ibc with
      type
      fdst
      isrc := .reg instr.isrc
      memMask := levelMask instr
      imm := signExtend2sCompl instr.imm32 },
    usage)

/-- A floating-point instruction with a constant register as its source. -/
def floatReg (type : InstructionType) (fdst : FloatReg) (instr : Instruction)
    (ibc : InstructionByteCode) (usage : RegisterUsage) : InstructionByteCode × RegisterUsage :=
  ({ ibc with type, fdst, fsrc := .a instr.fsrc }, usage)

end compile

def compileInstruction (instr : Instruction) (i : ℤ) (ibc : InstructionByteCode)
    (usage : RegisterUsage) : InstructionByteCode × RegisterUsage :=
  match opcodeType instr.opcode with
  | .IADD_RS =>
    let ibc := { ibc with
      type := .IADD_RS
      idst := instr.idst
      isrc := .reg instr.isrc
      shift := instr.getModShift }
    (if instr.idst ≠ RegisterNeedsDisplacement then { ibc with imm := 0 }
      else { ibc with imm := signExtend2sCompl instr.imm32 },
      Function.update usage instr.idst i)
  | .IADD_M => compile.memory .IADD_M instr i ibc usage
  | .ISUB_R => compile.regOrImm .ISUB_R (signExtend2sCompl instr.imm32) instr i ibc usage
  | .ISUB_M => compile.memory .ISUB_M instr i ibc usage
  | .IMUL_R => compile.regOrImm .IMUL_R (signExtend2sCompl instr.imm32) instr i ibc usage
  | .IMUL_M => compile.memory .IMUL_M instr i ibc usage
  | .IMULH_R => compile.reg .IMULH_R instr i ibc usage
  | .IMULH_M => compile.memory .IMULH_M instr i ibc usage
  | .ISMULH_R => compile.reg .ISMULH_R instr i ibc usage
  | .ISMULH_M => compile.memory .ISMULH_M instr i ibc usage
  | .IMUL_RCP =>
    if isZeroOrPowerOf2 (instr.imm32.setWidth 64) then ({ ibc with type := .NOP }, usage)
    else
      ({ ibc with
          type := .IMUL_R
          idst := instr.idst
          imm := randomx_reciprocal instr.imm32
          isrc := .imm },
        Function.update usage instr.idst i)
  | .INEG_R => ({ ibc with type := .INEG_R, idst := instr.idst },
    Function.update usage instr.idst i)
  | .IXOR_R => compile.regOrImm .IXOR_R (signExtend2sCompl instr.imm32) instr i ibc usage
  | .IXOR_M => compile.memory .IXOR_M instr i ibc usage
  | .IROR_R => compile.regOrImm .IROR_R (instr.imm32.setWidth 64) instr i ibc usage
  | .IROL_R => compile.regOrImm .IROL_R (instr.imm32.setWidth 64) instr i ibc usage
  | .ISWAP_R =>
    if instr.isrc ≠ instr.idst then
      ({ ibc with type := .ISWAP_R, idst := instr.idst, isrc := .reg instr.isrc },
        Function.update (Function.update usage instr.idst i) instr.isrc i)
    else ({ ibc with type := .NOP }, usage)
  | .FSWAP_R =>
    let dst := instr.idst
    ({ ibc with
        type := .FSWAP_R
        fdst := if dst.val < 4 then .f (Fin.ofNat 4 dst) else .e (Fin.ofNat 4 (dst - 4)) },
      usage)
  | .FADD_R => compile.floatReg .FADD_R (.f instr.fdst) instr ibc usage
  | .FADD_M => compile.floatMemory .FADD_M (.f instr.fdst) instr ibc usage
  | .FSUB_R => compile.floatReg .FSUB_R (.f instr.fdst) instr ibc usage
  | .FSUB_M => compile.floatMemory .FSUB_M (.f instr.fdst) instr ibc usage
  | .FSCAL_R => ({ ibc with type := .FSCAL_R, fdst := .f instr.fdst }, usage)
  | .FMUL_R => compile.floatReg .FMUL_R (.e instr.fdst) instr ibc usage
  | .FDIV_M => compile.floatMemory .FDIV_M (.e instr.fdst) instr ibc usage
  | .FSQRT_R => ({ ibc with type := .FSQRT_R, fdst := .e instr.fdst }, usage)
  | .CBRANCH =>
    let creg := instr.idst
    let shift := instr.getModCond + ConditionOffset
    ({ ibc with
        type := .CBRANCH
        idst := creg
        target := usage creg
        -- the bit below the condition mask is cleared
        imm := (signExtend2sCompl instr.imm32 ||| (1#64 <<< shift)) &&& ~~~(1#64 <<< (shift - 1))
        memMask := ConditionMask <<< shift },
      fun _ => i)
  | .CFROUND =>
    ({ ibc with
        type := .CFROUND
        isrc := .reg instr.isrc
        imm := (instr.imm32 &&& 63).setWidth 64 },
      usage)
  | .ISTORE =>
    ({ ibc with
        type := .ISTORE
        idst := instr.idst
        isrc := .reg instr.isrc
        imm := signExtend2sCompl instr.imm32
        memMask := if instr.getModCond < StoreL3Condition then levelMask instr
          else ScratchpadL3Mask },
      usage)
  | .NOP => ({ ibc with type := .NOP }, usage)

/-- The instructions from the `i`th on, over the bytecode that the array holds before. -/
def compileFrom : List Instruction → ℕ → (ℕ → InstructionByteCode) → RegisterUsage →
    ℕ → InstructionByteCode
  | [], _, bytecode, _ => bytecode
  | instr :: rest, i, bytecode, usage =>
    let ibc := compileInstruction instr i (bytecode i) usage
    compileFrom rest (i + 1) (Function.update bytecode i ibc.1) ibc.2

/-- Before the first instruction no register has been modified. -/
def beginCompilation : RegisterUsage := fun _ => -1

def compileProgram (program : List Instruction) (bytecode : ℕ → InstructionByteCode) :
    ℕ → InstructionByteCode :=
  compileFrom program 0 bytecode beginCompilation

/-! ### Execution -/

/-- The registers, the scratchpad, the control word and the counter of `executeBytecode`. -/
structure Vm where
  r : Fin 8 → BitVec 64
  f : Fin 4 → Lanes
  e : Fin 4 → Lanes
  a : Fin 4 → Lanes
  scratchpad : ℕ → UInt8
  mxcsr : BitVec 32
  pc : ℤ

namespace Vm

def setR (s : Vm) (k : Fin 8) (v : BitVec 64) : Vm := { s with r := Function.update s.r k v }

def flt (s : Vm) : FloatReg → Lanes
  | .f k => s.f k
  | .e k => s.e k
  | .a k => s.a k

def setFlt (s : Vm) (k : FloatReg) (v : Lanes) : Vm :=
  match k with
  | .f k => { s with f := Function.update s.f k v }
  | .e k => { s with e := Function.update s.e k v }
  | .a k => { s with a := Function.update s.a k v }

/-- `load64` from the scratchpad -/
def load64 (s : Vm) (addr : ℕ) : Option (BitVec 64) :=
  if addr + 8 ≤ ScratchpadSize then some (read 8 fun i => s.scratchpad (addr + i)) else none

/-- `store64` to the scratchpad -/
def store64 (s : Vm) (addr : ℕ) (v : BitVec 64) : Option Vm :=
  if addr + 8 ≤ ScratchpadSize then some { s with scratchpad := write 8 s.scratchpad addr v }
  else none

end Vm

def mulh (a b : BitVec 64) : BitVec 64 := ((a.setWidth 128 * b.setWidth 128) >>> 64).setWidth 64

def smulh (a b : BitVec 64) : BitVec 64 :=
  ((a.signExtend 128 * b.signExtend 128).sshiftRight 64).setWidth 64

/-- `-b & 63` of an unsigned count -/
def negCount (b : ℕ) : ℕ := (64 - b % 64) % 64

def rotr (a : BitVec 64) (b : ℕ) : BitVec 64 := (a >>> b) ||| (a <<< negCount b)

def rotl (a : BitVec 64) (b : ℕ) : BitVec 64 := (a <<< b) ||| (a >>> negCount b)

def rx_mxcsr_default : BitVec 32 := 0x9FC0

def rx_set_rounding_mode (s : Vm) (mode : BitVec 32) : Vm :=
  { s with mxcsr := rx_mxcsr_default ||| (mode <<< 13) }

/-- Two packed integers, converted. -/
def rx_cvt_packed_int_vec_f128 (u : Units) (v : BitVec 64) : Lanes :=
  ⟨u.ofInt (v.setWidth 32), u.ofInt ((v >>> 32).setWidth 32)⟩

def dynamicMantissaMask : BitVec 64 := (1#64 <<< 56) - 1

def maskRegisterExponentMantissa (config : ProgramConfiguration) (x : Lanes) : Lanes :=
  ⟨x.lo &&& dynamicMantissaMask ||| config.eMask.lo,
    x.hi &&& dynamicMantissaMask ||| config.eMask.hi⟩

def rx_swap_vec_f128 (x : Lanes) : Lanes := ⟨x.hi, x.lo⟩

/-- `*ibc.isrc` -/
def InstructionByteCode.source (ibc : InstructionByteCode) (s : Vm) : BitVec 64 :=
  match ibc.isrc with
  | .reg k => s.r k
  | .zero => 0
  | .imm => ibc.imm

def getScratchpadAddress (ibc : InstructionByteCode) (s : Vm) : ℕ :=
  (((ibc.source s + ibc.imm) &&& ibc.memMask.setWidth 64).setWidth 32).toNat

/-- An integer register modified by a word of the scratchpad. -/
def exeMemory (op : BitVec 64 → BitVec 64 → BitVec 64) (ibc : InstructionByteCode) (s : Vm) :
    Option Vm :=
  (s.load64 (getScratchpadAddress ibc s)).map fun v => s.setR ibc.idst (op (s.r ibc.idst) v)

/-- An integer register modified by the source. -/
def exeReg (op : BitVec 64 → BitVec 64 → BitVec 64) (ibc : InstructionByteCode) (s : Vm) :
    Option Vm :=
  some (s.setR ibc.idst (op (s.r ibc.idst) (ibc.source s)))

/-- A floating-point register modified by two integers of the scratchpad. -/
def exeFloatMemory (u : Units) (op : Lanes → Lanes → Lanes) (ibc : InstructionByteCode) (s : Vm) :
    Option Vm :=
  (s.load64 (getScratchpadAddress ibc s)).map fun v =>
    s.setFlt ibc.fdst (op (s.flt ibc.fdst) (rx_cvt_packed_int_vec_f128 u v))

def exeFloatReg (op : Lanes → Lanes → Lanes) (ibc : InstructionByteCode) (s : Vm) : Option Vm :=
  some (s.setFlt ibc.fdst (op (s.flt ibc.fdst) (s.flt ibc.fsrc)))

def executeInstruction (u : Units) (flags : Flags) (config : ProgramConfiguration)
    (ibc : InstructionByteCode) (s : Vm) : Option Vm :=
  match ibc.type with
  | .IADD_RS =>
    some (s.setR ibc.idst (s.r ibc.idst + ((ibc.source s <<< ibc.shift) + ibc.imm)))
  | .IADD_M => exeMemory (· + ·) ibc s
  | .ISUB_R => exeReg (· - ·) ibc s
  | .ISUB_M => exeMemory (· - ·) ibc s
  | .IMUL_R => exeReg (· * ·) ibc s
  | .IMUL_M => exeMemory (· * ·) ibc s
  | .IMULH_R => exeReg mulh ibc s
  | .IMULH_M => exeMemory mulh ibc s
  | .ISMULH_R => exeReg smulh ibc s
  | .ISMULH_M => exeMemory smulh ibc s
  | .INEG_R => some (s.setR ibc.idst (~~~(s.r ibc.idst) + 1))
  | .IXOR_R => exeReg (· ^^^ ·) ibc s
  | .IXOR_M => exeMemory (· ^^^ ·) ibc s
  | .IROR_R => exeReg (fun a b => rotr a (b &&& 63).toNat) ibc s
  | .IROL_R => exeReg (fun a b => rotl a (b &&& 63).toNat) ibc s
  | .ISWAP_R =>
    match ibc.isrc with
    | .reg k => some ((s.setR k (s.r ibc.idst)).setR ibc.idst (s.r k))
    | _ => none
  | .FSWAP_R => some (s.setFlt ibc.fdst (rx_swap_vec_f128 (s.flt ibc.fdst)))
  | .FADD_R => exeFloatReg (Lanes.map₂ (u.add s.mxcsr)) ibc s
  | .FADD_M => exeFloatMemory u (Lanes.map₂ (u.add s.mxcsr)) ibc s
  | .FSUB_R => exeFloatReg (Lanes.map₂ (u.sub s.mxcsr)) ibc s
  | .FSUB_M => exeFloatMemory u (Lanes.map₂ (u.sub s.mxcsr)) ibc s
  | .FSCAL_R =>
    let mask : BitVec 64 := 0x80F0000000000000
    some (s.setFlt ibc.fdst ⟨(s.flt ibc.fdst).lo ^^^ mask, (s.flt ibc.fdst).hi ^^^ mask⟩)
  | .FMUL_R => exeFloatReg (Lanes.map₂ (u.mul s.mxcsr)) ibc s
  | .FDIV_M =>
    exeFloatMemory u
      (fun x y => Lanes.map₂ (u.div s.mxcsr) x (maskRegisterExponentMantissa config y)) ibc s
  | .FSQRT_R =>
    some (s.setFlt ibc.fdst
      ⟨u.sqrt s.mxcsr (s.flt ibc.fdst).lo, u.sqrt s.mxcsr (s.flt ibc.fdst).hi⟩)
  | .CBRANCH =>
    let s := s.setR ibc.idst (s.r ibc.idst + ibc.imm)
    if s.r ibc.idst &&& ibc.memMask.setWidth 64 = 0
      then some { s with pc := ibc.target } else some s
  | .CFROUND =>
    let isrc := rotr (ibc.source s) ibc.imm.toNat
    if flags.v2 = false ∨ isrc &&& 60 = 0 then
      some (rx_set_rounding_mode s ((isrc % 4).setWidth 32))
    else some s
  | .ISTORE =>
    s.store64 ((s.r ibc.idst + ibc.imm) &&& ibc.memMask.setWidth 64).toNat (ibc.source s)
  | .NOP => some s
  | .IMUL_RCP => none

/-- One round of `executeBytecode`. -/
def bytecodeStep (u : Units) (flags : Flags) (config : ProgramConfiguration)
    (bytecode : ℕ → InstructionByteCode) (s : Vm) : Option Vm :=
  (executeInstruction u flags config (bytecode s.pc.toNat) s).map fun s => { s with pc := s.pc + 1 }

/-- `for (pc = 0; pc < n; ++pc)`, for at most as many rounds as there is fuel. -/
def executeBytecode (u : Units) (flags : Flags) (config : ProgramConfiguration)
    (bytecode : ℕ → InstructionByteCode) (n fuel : ℕ) (s : Vm) : Option Vm :=
  Loops.loop (fun s : Vm => s.pc < n) (bytecodeStep u flags config bytecode) fuel { s with pc := 0 }

end NMiner.RandomX
