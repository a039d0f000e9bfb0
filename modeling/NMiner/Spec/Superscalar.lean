import NMiner.Spec.VirtualMachine

/-! `SuperscalarHash`: the random programs that an item of the dataset is computed with, how they
are generated, and how an item is computed from the cache. The hash function under the generator is
a parameter.

`none` is a drawing of numbers that has been repeated as often as there is fuel, or an index that is
out of range. -/

namespace NMiner.RandomX

open Word

/-! ### Random numbers -/

def maxSeedSize : ℕ := 60

structure Blake2Generator where
  data : List UInt8
  dataIndex : ℕ

namespace Blake2Generator

/-- The generator of a seed, of which at most 60 bytes are used. -/
def ofSeed (seed : List UInt8) (nonce : BitVec 32) : Blake2Generator where
  data := seed.take maxSeedSize ++ List.replicate (maxSeedSize - seed.length) 0 ++ bytes 4 nonce
  dataIndex := 64

def checkData (blake2b : List UInt8 → List UInt8) (gen : Blake2Generator) (bytesNeeded : ℕ) :
    Blake2Generator :=
  if gen.dataIndex + bytesNeeded > 64 then ⟨blake2b gen.data, 0⟩ else gen

def getByte (blake2b : List UInt8 → List UInt8) (gen : Blake2Generator) : UInt8 × Blake2Generator :=
  let gen := gen.checkData blake2b 1
  (gen.data.getD gen.dataIndex 0, { gen with dataIndex := gen.dataIndex + 1 })

def getUInt32 (blake2b : List UInt8 → List UInt8) (gen : Blake2Generator) :
    BitVec 32 × Blake2Generator :=
  let gen := gen.checkData blake2b 4
  (read 4 fun i => gen.data.getD (gen.dataIndex + i) 0, { gen with dataIndex := gen.dataIndex + 4 })

end Blake2Generator

/-- `do … while`: a number is drawn again as long as it is a bad one. -/
def drawUntil {α : Type} (draw : Blake2Generator → α × Blake2Generator) (bad : α → Bool) :
    ℕ → Blake2Generator → Option (α × Blake2Generator)
  | 0, _ => none
  | fuel + 1, gen =>
    if bad (draw gen).1 then drawUntil draw bad fuel (draw gen).2 else some (draw gen)

/-! ### Instructions -/

inductive SuperscalarInstructionType
  | ISUB_R | IXOR_R | IADD_RS | IMUL_R | IROR_C | IADD_C7 | IXOR_C7
    | IADD_C8 | IXOR_C8 | IADD_C9 | IXOR_C9
  | IMULH_R | ISMULH_R | IMUL_RCP | INVALID
  deriving DecidableEq, Repr

namespace SuperscalarInstructionType

/-- The types in the order of their numbers. -/
def order : List SuperscalarInstructionType :=
  [.ISUB_R, .IXOR_R, .IADD_RS, .IMUL_R, .IROR_C, .IADD_C7, .IXOR_C7,
    .IADD_C8, .IXOR_C8, .IADD_C9, .IXOR_C9,
    .IMULH_R, .ISMULH_R, .IMUL_RCP]

/-- A type as an opcode. -/
def toByte (type : SuperscalarInstructionType) : UInt8 :=
  if type = .INVALID then 255 else UInt8.ofNat (order.idxOf type)

def ofByte (opcode : UInt8) : SuperscalarInstructionType := order.getD opcode.toNat .INVALID

end SuperscalarInstructionType

def isMultiplication (type : SuperscalarInstructionType) : Bool :=
  type = .IMUL_R ∨ type = .IMULH_R ∨ type = .ISMULH_R ∨ type = .IMUL_RCP

/-! The micro-operations of an instruction, by the execution ports that they can go to. -/

namespace ExecutionPort

def Null : ℕ := 0

def P0 : ℕ := 1

def P1 : ℕ := 2

def P5 : ℕ := 4

def P01 : ℕ := P0 ||| P1

def P05 : ℕ := P0 ||| P5

def P015 : ℕ := P0 ||| P1 ||| P5

end ExecutionPort

structure MacroOp where
  latency : ℕ
  uop1 : ℕ
  uop2 : ℕ
  dependent : Bool
  deriving DecidableEq, Repr

namespace MacroOp

open ExecutionPort

def Sub_rr : MacroOp := ⟨1, P015, Null, false⟩

def Xor_rr : MacroOp := ⟨1, P015, Null, false⟩

def Imul_r : MacroOp := ⟨4, P1, P5, false⟩

def Mul_r : MacroOp := ⟨4, P1, P5, false⟩

def Mov_rr : MacroOp := ⟨0, Null, Null, false⟩

def Lea_sib : MacroOp := ⟨1, P01, Null, false⟩

def Imul_rr : MacroOp := ⟨3, P1, Null, false⟩

def Ror_ri : MacroOp := ⟨1, P05, Null, false⟩

def Add_ri : MacroOp := ⟨1, P015, Null, false⟩

def Xor_ri : MacroOp := ⟨1, P015, Null, false⟩

def Mov_ri64 : MacroOp := ⟨1, P015, Null, false⟩

def isSimple (mop : MacroOp) : Bool := mop.uop2 = Null

def isEliminated (mop : MacroOp) : Bool := mop.uop1 = Null

end MacroOp

/-- `resultOp`, `dstOp` and `srcOp` are the macro-operations that write the result and that need the
operands; there may be no source. -/
structure SuperscalarInstructionInfo where
  type : SuperscalarInstructionType
  ops : List MacroOp
  resultOp : ℕ
  dstOp : ℕ
  srcOp : Option ℕ
  deriving DecidableEq, Repr

namespace SuperscalarInstructionInfo

def ISUB_R : SuperscalarInstructionInfo := ⟨.ISUB_R, [.Sub_rr], 0, 0, some 0⟩

def IXOR_R : SuperscalarInstructionInfo := ⟨.IXOR_R, [.Xor_rr], 0, 0, some 0⟩

def IADD_RS : SuperscalarInstructionInfo := ⟨.IADD_RS, [.Lea_sib], 0, 0, some 0⟩

def IMUL_R : SuperscalarInstructionInfo := ⟨.IMUL_R, [.Imul_rr], 0, 0, some 0⟩

def IROR_C : SuperscalarInstructionInfo := ⟨.IROR_C, [.Ror_ri], 0, 0, none⟩

def IADD_C7 : SuperscalarInstructionInfo := ⟨.IADD_C7, [.Add_ri], 0, 0, none⟩

def IXOR_C7 : SuperscalarInstructionInfo := ⟨.IXOR_C7, [.Xor_ri], 0, 0, none⟩

def IADD_C8 : SuperscalarInstructionInfo := ⟨.IADD_C8, [.Add_ri], 0, 0, none⟩

def IXOR_C8 : SuperscalarInstructionInfo := ⟨.IXOR_C8, [.Xor_ri], 0, 0, none⟩

def IADD_C9 : SuperscalarInstructionInfo := ⟨.IADD_C9, [.Add_ri], 0, 0, none⟩

def IXOR_C9 : SuperscalarInstructionInfo := ⟨.IXOR_C9, [.Xor_ri], 0, 0, none⟩

def IMULH_R : SuperscalarInstructionInfo := ⟨.IMULH_R, [.Mov_rr, .Mul_r, .Mov_rr], 1, 0, some 1⟩

def ISMULH_R : SuperscalarInstructionInfo := ⟨.ISMULH_R, [.Mov_rr, .Imul_r, .Mov_rr], 1, 0, some 1⟩

def IMUL_RCP : SuperscalarInstructionInfo :=
  ⟨.IMUL_RCP, [.Mov_ri64, { MacroOp.Imul_rr with dependent := true }], 1, 1, none⟩

def NOP : SuperscalarInstructionInfo := ⟨.INVALID, [], 0, 0, none⟩

end SuperscalarInstructionInfo

/-! ### Decoding -/

/-- How 16 bytes of code are split into instructions. -/
structure DecoderBuffer where
  index : ℤ
  counts : List ℕ
  deriving DecidableEq, Repr

namespace DecoderBuffer

def decodeBuffer484 : DecoderBuffer := ⟨0, [4, 8, 4]⟩

def decodeBuffer7333 : DecoderBuffer := ⟨1, [7, 3, 3, 3]⟩

def decodeBuffer3733 : DecoderBuffer := ⟨2, [3, 7, 3, 3]⟩

def decodeBuffer493 : DecoderBuffer := ⟨3, [4, 9, 3]⟩

def decodeBuffer4444 : DecoderBuffer := ⟨4, [4, 4, 4, 4]⟩

def decodeBuffer3310 : DecoderBuffer := ⟨5, [3, 3, 10]⟩

def Default : DecoderBuffer := ⟨-1, []⟩

def decodeBuffers : List DecoderBuffer :=
  [decodeBuffer484, decodeBuffer7333, decodeBuffer3733, decodeBuffer493]

def fetchNextDefault (blake2b : List UInt8 → List UInt8) (gen : Blake2Generator) :
    DecoderBuffer × Blake2Generator :=
  let (b, gen) := gen.getByte blake2b
  (decodeBuffers.getD (b.toNat % 4) Default, gen)

def fetchNext (blake2b : List UInt8 → List UInt8) (instrType : SuperscalarInstructionType)
    (cycle mulCount : ℕ) (gen : Blake2Generator) : DecoderBuffer × Blake2Generator :=
  if instrType = .IMULH_R ∨ instrType = .ISMULH_R then (decodeBuffer3310, gen)
  else if mulCount < cycle + 1 then (decodeBuffer4444, gen)
  else if instrType = .IMUL_RCP then
    let (b, gen) := gen.getByte blake2b
    (if b.toNat % 2 = 1 then decodeBuffer484 else decodeBuffer493, gen)
  else fetchNextDefault blake2b gen

end DecoderBuffer

def slot_3 : List SuperscalarInstructionInfo := [.ISUB_R, .IXOR_R]

def slot_3L : List SuperscalarInstructionInfo := [.ISUB_R, .IXOR_R, .IMULH_R, .ISMULH_R]

def slot_4 : List SuperscalarInstructionInfo := [.IROR_C, .IADD_RS]

def slot_7 : List SuperscalarInstructionInfo := [.IXOR_C7, .IADD_C7]

def slot_8 : List SuperscalarInstructionInfo := [.IXOR_C8, .IADD_C8]

def slot_9 : List SuperscalarInstructionInfo := [.IXOR_C9, .IADD_C9]

def slot_10 : SuperscalarInstructionInfo := .IMUL_RCP

structure RegisterInfo where
  latency : ℕ
  lastOpGroup : SuperscalarInstructionType
  lastOpPar : ℤ
  deriving DecidableEq, Repr

/-- `none` is the register -1. -/
structure SuperscalarInstruction where
  info : SuperscalarInstructionInfo
  src : Option (Fin 8)
  dst : Option (Fin 8)
  mod : UInt8
  imm32 : BitVec 32
  opGroup : SuperscalarInstructionType
  opGroupPar : ℤ
  canReuse : Bool
  groupParIsSource : Bool

namespace SuperscalarInstruction

/-- Of what it leaves unset nothing is read before it is set. -/
def Null : SuperscalarInstruction := ⟨.NOP, none, none, 0, 0, .INVALID, 0, false, false⟩

/-- A register number as a byte -/
def regByte : Option (Fin 8) → UInt8
  | some k => UInt8.ofNat k
  | none => 255

def toInstr (instr : SuperscalarInstruction) : Instruction where
  opcode := instr.info.type.toByte
  dst := regByte instr.dst
  src := if instr.src.isSome then regByte instr.src else regByte instr.dst
  mod := instr.mod
  imm32 := instr.imm32

def create (blake2b : List UInt8 → List UInt8) (fuel : ℕ) (info : SuperscalarInstructionInfo)
    (instr : SuperscalarInstruction) (gen : Blake2Generator) :
    Option (SuperscalarInstruction × Blake2Generator) :=
  let instr := { instr with
    info, src := none, dst := none, canReuse := false, groupParIsSource := false }
  match info.type with
  | .ISUB_R =>
    some ({ instr with mod := 0, imm32 := 0, opGroup := .IADD_RS, groupParIsSource := true }, gen)
  | .IXOR_R =>
    some ({ instr with mod := 0, imm32 := 0, opGroup := .IXOR_R, groupParIsSource := true }, gen)
  | .IADD_RS =>
    let (mod, gen) := gen.getByte blake2b
    some ({ instr with mod, imm32 := 0, opGroup := .IADD_RS, groupParIsSource := true }, gen)
  | .IMUL_R =>
    some ({ instr with mod := 0, imm32 := 0, opGroup := .IMUL_R, groupParIsSource := true }, gen)
  | .IROR_C =>
    (drawUntil (fun gen => ((gen.getByte blake2b).1 &&& 63, (gen.getByte blake2b).2))
      (· = 0) fuel gen).map
      fun (b, gen) =>
        ({ instr with
            mod := 0
            imm32 := BitVec.ofNat 32 b.toNat
            opGroup := .IROR_C
            opGroupPar := -1 }, gen)
  | .IADD_C7 | .IADD_C8 | .IADD_C9 =>
    let (imm32, gen) := gen.getUInt32 blake2b
    some ({ instr with mod := 0, imm32, opGroup := .IADD_C7, opGroupPar := -1 }, gen)
  | .IXOR_C7 | .IXOR_C8 | .IXOR_C9 =>
    let (imm32, gen) := gen.getUInt32 blake2b
    some ({ instr with mod := 0, imm32, opGroup := .IXOR_C7, opGroupPar := -1 }, gen)
  | .IMULH_R =>
    let (par, gen) := gen.getUInt32 blake2b
    some ({ instr with
              canReuse := true
              mod := 0
              imm32 := 0
              opGroup := .IMULH_R
              opGroupPar := par.toInt }, gen)
  | .ISMULH_R =>
    let (par, gen) := gen.getUInt32 blake2b
    some ({ instr with
              canReuse := true
              mod := 0
              imm32 := 0
              opGroup := .ISMULH_R
              opGroupPar := par.toInt }, gen)
  | .IMUL_RCP =>
    (drawUntil (Blake2Generator.getUInt32 blake2b) (fun x =>
      isZeroOrPowerOf2 (x.setWidth 64)) fuel gen).map
      fun (imm32, gen) =>
        ({ instr with mod := 0, imm32, opGroup := .IMUL_RCP, opGroupPar := -1 }, gen)
  | .INVALID => some (instr, gen)

/-- One of a list of instructions is created, chosen by a byte. -/
def createOneOf (blake2b : List UInt8 → List UInt8) (fuel : ℕ)
    (slot : List SuperscalarInstructionInfo)
    (instr : SuperscalarInstruction) (gen : Blake2Generator) :
    Option (SuperscalarInstruction × Blake2Generator) :=
  let (b, gen) := gen.getByte blake2b
  (slot[b.toNat % slot.length]?).bind fun info => create blake2b fuel info instr gen

def createForSlot (blake2b : List UInt8 → List UInt8) (fuel slotSize : ℕ)
    (fetchType : ℤ) (isLast : Bool)
    (instr : SuperscalarInstruction) (gen : Blake2Generator) :
    Option (SuperscalarInstruction × Blake2Generator) :=
  match slotSize with
  | 3 => createOneOf blake2b fuel (if isLast then slot_3L else slot_3) instr gen
  | 4 =>
    if fetchType = 4 ∧ isLast = false then create blake2b fuel .IMUL_R instr gen
    else createOneOf blake2b fuel slot_4 instr gen
  | 7 => createOneOf blake2b fuel slot_7 instr gen
  | 8 => createOneOf blake2b fuel slot_8 instr gen
  | 9 => createOneOf blake2b fuel slot_9 instr gen
  | 10 => create blake2b fuel slot_10 instr gen
  | _ => none

end SuperscalarInstruction

def selectRegister (blake2b : List UInt8 → List UInt8) (availableRegisters : List (Fin 8))
    (gen : Blake2Generator) : Option (Fin 8 × Blake2Generator) :=
  match availableRegisters with
  | [] => none
  | [k] => some (k, gen)
  | ks =>
    let (x, gen) := gen.getUInt32 blake2b
    (ks[x.toNat % ks.length]?).map fun k => (k, gen)

namespace SuperscalarInstruction

/-- What a destination register must meet. -/
def suitable (instr : SuperscalarInstruction) (cycle : ℕ) (allowChainedMul : Bool)
    (registers : Fin 8 → RegisterInfo) (i : Fin 8) : Bool :=
  (registers i).latency ≤ cycle ∧ (instr.canReuse ∨ some i ≠ instr.src) ∧
    (allowChainedMul ∨ instr.opGroup ≠ .IMUL_R ∨ (registers i).lastOpGroup ≠ .IMUL_R) ∧
    ((registers i).lastOpGroup ≠ instr.opGroup ∨ (registers i).lastOpPar ≠ instr.opGroupPar) ∧
    (instr.info.type ≠ .IADD_RS ∨ i ≠ RegisterNeedsDisplacement)

def selectDestination (blake2b : List UInt8 → List UInt8) (allowChainedMul : Bool)
    (registers : Fin 8 → RegisterInfo) (instr : SuperscalarInstruction) (gen : Blake2Generator)
    (cycle : ℕ) : Option (SuperscalarInstruction × Blake2Generator) :=
  (selectRegister blake2b
    ((List.finRange 8).filter (instr.suitable cycle allowChainedMul registers)) gen).map
    fun (k, gen) => ({ instr with dst := some k }, gen)

def selectSource (blake2b : List UInt8 → List UInt8) (registers : Fin 8 → RegisterInfo)
    (instr : SuperscalarInstruction) (gen : Blake2Generator) (cycle : ℕ) :
    Option (SuperscalarInstruction × Blake2Generator) :=
  let availableRegisters := (List.finRange 8).filter fun i => (registers i).latency ≤ cycle
  if availableRegisters.length = 2 ∧ instr.info.type = .IADD_RS ∧
      availableRegisters.contains RegisterNeedsDisplacement then
    -- it cannot be the destination
    some ({ instr with
              src := some RegisterNeedsDisplacement
              opGroupPar := RegisterNeedsDisplacement.val }, gen)
  else
    (selectRegister blake2b availableRegisters gen).map fun (k, gen) =>
      ({ instr with
          src := some k
          opGroupPar := if instr.groupParIsSource then k.val else instr.opGroupPar }, gen)

end SuperscalarInstruction

/-! ### Scheduling -/

def RANDOMX_SUPERSCALAR_LATENCY : ℕ := 170

def CYCLE_MAP_SIZE : ℕ := RANDOMX_SUPERSCALAR_LATENCY + 4

def LOOK_FORWARD_CYCLES : ℕ := 4

def MAX_THROWAWAY_COUNT : ℕ := 256

def SuperscalarMaxSize : ℕ := 3 * RANDOMX_SUPERSCALAR_LATENCY + 2

/-- What each of the three ports does in each cycle. -/
structure PortBusy where
  uop : ℕ → Fin 3 → ℕ

/-- A free port for a micro-operation; the port of the multiplications comes last. -/
def freePort (uop : ℕ) (busy : Fin 3 → ℕ) : Option (Fin 3) :=
  if uop &&& ExecutionPort.P5 ≠ 0 ∧ busy 2 = 0 then some 2
  else if uop &&& ExecutionPort.P0 ≠ 0 ∧ busy 0 = 0 then some 0
  else if uop &&& ExecutionPort.P1 ≠ 0 ∧ busy 1 = 0 then some 1
  else none

/-- The first cycle of some with a free port, and the port. -/
def scheduleUop (uop : ℕ) (portBusy : PortBusy) : List ℕ → Option (ℕ × Fin 3)
  | [] => none
  | cycle :: rest =>
    match freePort uop (portBusy.uop cycle) with
    | some p => some (cycle, p)
    | none => scheduleUop uop portBusy rest

/-- The cycles of the map from one on. -/
def cyclesFrom (cycle : ℕ) : List ℕ := List.range' cycle (CYCLE_MAP_SIZE - cycle)

/-- `scheduleUop<true>` -/
def commitUop (uop : ℕ) (portBusy : PortBusy) (cycle : ℕ) : PortBusy :=
  match scheduleUop uop portBusy (cyclesFrom cycle) with
  | some (c, p) => ⟨Function.update portBusy.uop c (Function.update (portBusy.uop c) p uop)⟩
  | none => portBusy

/-- The first cycle of some in which both micro-operations can be executed. -/
def schedulePair (mop : MacroOp) (portBusy : PortBusy) : List ℕ → Option ℕ
  | [] => none
  | cycle :: rest =>
    let cycle1 := scheduleUop mop.uop1 portBusy (cyclesFrom cycle)
    let cycle2 := scheduleUop mop.uop2 portBusy (cyclesFrom cycle)
    if cycle1.isSome ∧ cycle1.map Prod.fst = cycle2.map Prod.fst then cycle1.map Prod.fst
    else schedulePair mop portBusy rest

/-- The cycle that a macro-operation is scheduled for, and the ports if that is committed. -/
def scheduleMop (commit : Bool) (mop : MacroOp) (portBusy : PortBusy) (cycle depCycle : ℕ) :
    Option ℕ × PortBusy :=
  let cycle := if mop.dependent then max cycle depCycle else cycle
  if mop.isEliminated then (some cycle, portBusy)
  else if mop.isSimple then
    ((scheduleUop mop.uop1 portBusy (cyclesFrom cycle)).map Prod.fst,
      if commit then commitUop mop.uop1 portBusy cycle else portBusy)
  else
    match schedulePair mop portBusy (cyclesFrom cycle) with
    | none => (none, portBusy)
    | some c =>
      (some c, if commit then commitUop mop.uop2 (commitUop mop.uop1 portBusy c) c else portBusy)

/-! ### The generator -/

/-- The locals of `generateSuperscalar`. `program` has the instructions before `programSize`;
`stopped` is set by the `break` of the inner loop. -/
structure Generation where
  gen : Blake2Generator
  portBusy : PortBusy
  registers : Fin 8 → RegisterInfo
  decodeBuffer : DecoderBuffer
  currentInstruction : SuperscalarInstruction
  macroOpIndex : ℕ
  cycle : ℕ
  depCycle : ℕ
  portsSaturated : Bool
  program : List Instruction
  mulCount : ℕ
  decodeCycle : ℕ
  throwAwayCount : ℕ
  bufferIndex : ℕ
  stopped : Bool

namespace Generation

def start (gen : Blake2Generator) : Generation where
  gen
  portBusy := ⟨fun _ _ => 0⟩
  registers := fun _ => ⟨0, .INVALID, -1⟩
  decodeBuffer := .Default
  currentInstruction := .Null
  macroOpIndex := 0
  cycle := 0
  depCycle := 0
  portsSaturated := false
  program := []
  mulCount := 0
  decodeCycle := 0
  throwAwayCount := 0
  bufferIndex := 0
  stopped := false

/-- Operands that are not ready are waited for, up to `LOOK_FORWARD_CYCLES`: the instruction with
its operand and the cycle at which it was found. -/
def lookForward (select : ℕ → Option (SuperscalarInstruction × Blake2Generator)) :
    ℕ → ℕ → Option (SuperscalarInstruction × Blake2Generator × ℕ)
  | 0, _ => none
  | forward + 1, cycle =>
    match select cycle with
    | some (instr, gen) => some (instr, gen, cycle)
    | none => lookForward select forward (cycle + 1)

/-- No operand has been found: the instruction is thrown away, or the decode buffer is. -/
def giveUp (s : Generation) : Generation :=
  let s := { s with cycle := s.cycle + LOOK_FORWARD_CYCLES }
  if s.throwAwayCount < MAX_THROWAWAY_COUNT then
    { s with
      throwAwayCount := s.throwAwayCount + 1
      macroOpIndex := s.currentInstruction.info.ops.length }
  else { s with currentInstruction := .Null, stopped := true }

/-- The registers after a macro-operation whose result is there at `depCycle`. -/
def retire (s : Generation) (depCycle : ℕ) : Fin 8 → RegisterInfo :=
  match s.currentInstruction.dst with
  | some dst =>
    if s.macroOpIndex = s.currentInstruction.info.resultOp then
      Function.update s.registers dst
        ⟨depCycle, s.currentInstruction.opGroup, s.currentInstruction.opGroupPar⟩
    else s.registers
  | none => s.registers

/-- A macro-operation with its operands is issued. -/
def issue (s : Generation) (mop : MacroOp) (topCycle scheduleCycle : ℕ) : Generation :=
  let s := { s with throwAwayCount := 0 }
  match scheduleMop true mop s.portBusy scheduleCycle scheduleCycle with
  | (none, portBusy) => { s with portBusy, portsSaturated := true, stopped := true }
  | (some scheduleCycle, portBusy) =>
    let depCycle := scheduleCycle + mop.latency
    let s := { s with
      portBusy
      depCycle
      registers := s.retire depCycle
      bufferIndex := s.bufferIndex + 1
      macroOpIndex := s.macroOpIndex + 1
      portsSaturated := s.portsSaturated || RANDOMX_SUPERSCALAR_LATENCY ≤ scheduleCycle
      cycle := topCycle }
    if s.currentInstruction.info.ops.length ≤ s.macroOpIndex then
      { s with
        program := s.program ++ [s.currentInstruction.toInstr]
        mulCount := s.mulCount + if isMultiplication s.currentInstruction.info.type then 1 else 0 }
    else s

/-- The destination is selected, if the macro-operation needs it. -/
def withDestination (blake2b : List UInt8 → List UInt8) (s : Generation) (mop : MacroOp)
    (topCycle scheduleCycle : ℕ) : Generation :=
  if s.macroOpIndex = s.currentInstruction.info.dstOp then
    match lookForward (s.currentInstruction.selectDestination blake2b
      (0 < s.throwAwayCount) s.registers s.gen)
        LOOK_FORWARD_CYCLES scheduleCycle with
    | none => s.giveUp
    | some (currentInstruction, gen, found) =>
      issue { s with currentInstruction, gen, cycle := s.cycle + (found - scheduleCycle) }
        mop topCycle found
  else issue s mop topCycle scheduleCycle

/-- The source is selected, if the macro-operation needs one. -/
def withSource (blake2b : List UInt8 → List UInt8) (s : Generation) (mop : MacroOp)
    (scheduleCycle : ℕ) : Generation :=
  if some s.macroOpIndex = s.currentInstruction.info.srcOp then
    match lookForward (s.currentInstruction.selectSource blake2b s.registers s.gen)
        LOOK_FORWARD_CYCLES scheduleCycle with
    | none => s.giveUp
    | some (currentInstruction, gen, found) =>
      withDestination blake2b
        { s with currentInstruction, gen, cycle := s.cycle + (found - scheduleCycle) }
        mop s.cycle found
  else withDestination blake2b s mop s.cycle scheduleCycle

/-- The next macro-operation of the current instruction. -/
def nextMop (blake2b : List UInt8 → List UInt8) (s : Generation) : Option Generation :=
  (s.currentInstruction.info.ops[s.macroOpIndex]?).map fun mop =>
    match (scheduleMop false mop s.portBusy s.cycle s.depCycle).1 with
    | none => { s with portsSaturated := true, stopped := true }
    | some scheduleCycle => withSource blake2b s mop scheduleCycle

/-- One round of the loop over the slots of a decode buffer. -/
def slot (blake2b : List UInt8 → List UInt8) (fuel : ℕ) (s : Generation) : Option Generation :=
  if s.currentInstruction.info.ops.length ≤ s.macroOpIndex then
    if s.portsSaturated ∨ SuperscalarMaxSize ≤ s.program.length then some { s with stopped := true }
    else
      (s.decodeBuffer.counts[s.bufferIndex]?).bind fun slotSize =>
        (s.currentInstruction.createForSlot blake2b fuel slotSize s.decodeBuffer.index
          (s.decodeBuffer.counts.length = s.bufferIndex + 1) s.gen).bind
            fun (currentInstruction, gen) =>
            nextMop blake2b { s with currentInstruction, gen, macroOpIndex := 0 }
  else nextMop blake2b s

/-- How often a buffer of four slots can be gone through, with all that is thrown away. -/
def slotFuel : ℕ := 5 * (MAX_THROWAWAY_COUNT + 2)

/-- The next decode buffer is selected. -/
def fetch (blake2b : List UInt8 → List UInt8) (s : Generation) : Generation :=
  let (decodeBuffer, gen) :=
    DecoderBuffer.fetchNext blake2b s.currentInstruction.info.type s.decodeCycle s.mulCount s.gen
  { s with decodeBuffer, gen, bufferIndex := 0, stopped := false }

def slotRunning (s : Generation) : Bool :=
    !s.stopped && s.bufferIndex < s.decodeBuffer.counts.length

/-- One decode cycle. -/
def decode (blake2b : List UInt8 → List UInt8) (fuel : ℕ) (s : Generation) : Option Generation :=
  (Loops.loop slotRunning (slot blake2b fuel) slotFuel (s.fetch blake2b)).map fun s =>
    { s with cycle := s.cycle + 1, decodeCycle := s.decodeCycle + 1 }

def running (s : Generation) : Bool :=
  s.decodeCycle < RANDOMX_SUPERSCALAR_LATENCY && !s.portsSaturated &&
    s.program.length < SuperscalarMaxSize

end Generation

structure SuperscalarProgram where
  programBuffer : List Instruction
  addrReg : Fin 8

/-- A register number of an instruction; there is no register from 8 on. -/
def reg? (b : UInt8) : Option (Fin 8) := if h : b.toNat < 8 then some ⟨b.toNat, h⟩ else none

/-- The latencies if every operation takes one cycle and nothing waits for a port. -/
def asicLatencies : List Instruction → (Fin 8 → ℕ) → Option (Fin 8 → ℕ)
  | [], latencies => some latencies
  | instr :: rest, latencies =>
    (reg? instr.dst).bind fun dst => (reg? instr.src).bind fun src =>
      let latDst := latencies dst + 1
      let latSrc := if instr.dst ≠ instr.src then latencies src + 1 else 0
      asicLatencies rest (Function.update latencies dst (max latDst latSrc))

/-- The first register with the highest latency. -/
def slowestRegister (latencies : Fin 8 → ℕ) : Fin 8 :=
  ((List.finRange 8).foldl
    (fun (best : ℕ × Fin 8) i => if best.1 < latencies i then (latencies i, i) else best) (0, 0)).2

def generateSuperscalar (blake2b : List UInt8 → List UInt8) (fuel : ℕ) (gen : Blake2Generator) :
    Option (SuperscalarProgram × Blake2Generator) :=
  (Loops.loop Generation.running (Generation.decode blake2b fuel) RANDOMX_SUPERSCALAR_LATENCY
    (.start gen)).bind fun s =>
      (asicLatencies s.program fun _ => 0).map fun latencies =>
        (⟨s.program, slowestRegister latencies⟩, s.gen)

/-! ### Execution -/

def RANDOMX_CACHE_ACCESSES : ℕ := 8

def RANDOMX_ARGON_MEMORY : ℕ := 262144

def ArgonBlockSize : ℕ := 1024

def CacheSize : ℕ := RANDOMX_ARGON_MEMORY * ArgonBlockSize

/-- What an instruction does with the values of its destination and its source. With a list of
reciprocals the immediate of `IMUL_RCP` is an index. -/
def superscalarValue (reciprocals : Option (List (BitVec 64))) (instr : Instruction)
    (x y : BitVec 64) :
    Option (BitVec 64) :=
  match SuperscalarInstructionType.ofByte instr.opcode with
  | .ISUB_R => some (x - y)
  | .IXOR_R => some (x ^^^ y)
  | .IADD_RS => some (x + y <<< instr.getModShift)
  | .IMUL_R => some (x * y)
  | .IROR_C => some (rotr x instr.imm32.toNat)
  | .IADD_C7 | .IADD_C8 | .IADD_C9 => some (x + signExtend2sCompl instr.imm32)
  | .IXOR_C7 | .IXOR_C8 | .IXOR_C9 => some (x ^^^ signExtend2sCompl instr.imm32)
  | .IMULH_R => some (mulh x y)
  | .ISMULH_R => some (smulh x y)
  | .IMUL_RCP =>
    match reciprocals with
    | some rcps => (rcps[instr.imm32.toNat]?).map fun rcp => x * rcp
    | none => some (x * randomx_reciprocal instr.imm32)
  | .INVALID => none

def executeSuperscalar (reciprocals : Option (List (BitVec 64))) :
    List Instruction → (Fin 8 → BitVec 64) → Option (Fin 8 → BitVec 64)
  | [], r => some r
  | instr :: rest, r =>
    (reg? instr.dst).bind fun dst => (reg? instr.src).bind fun src =>
      (superscalarValue reciprocals instr (r dst) (r src)).bind fun v =>
        executeSuperscalar reciprocals rest (Function.update r dst v)

/-! ### The cache -/

structure Cache where
  memory : ℕ → UInt8
  programs : List SuperscalarProgram
  reciprocalCache : List (BitVec 64)

/-- The immediates of `IMUL_RCP` become indices of their reciprocals. -/
def cacheReciprocals : List Instruction → List (BitVec 64) → List Instruction × List (BitVec 64)
  | [], rcps => ([], rcps)
  | instr :: rest, rcps =>
    if SuperscalarInstructionType.ofByte instr.opcode = .IMUL_RCP then
      let (rest, rcps') := cacheReciprocals rest (rcps ++ [randomx_reciprocal instr.imm32])
      ({ instr with imm32 := BitVec.ofNat 32 rcps.length } :: rest, rcps')
    else
      let (rest, rcps') := cacheReciprocals rest rcps
      (instr :: rest, rcps')

/-- The programs of a cache, generated one after the other. -/
def generatePrograms (blake2b : List UInt8 → List UInt8) (fuel : ℕ) :
    ℕ → Blake2Generator → List (BitVec 64) → Option (List SuperscalarProgram × List (BitVec 64))
  | 0, _, rcps => some ([], rcps)
  | n + 1, gen, rcps =>
    (generateSuperscalar blake2b fuel gen).bind fun (prog, gen) =>
      let (code, rcps) := cacheReciprocals prog.programBuffer rcps
      (generatePrograms blake2b fuel n gen rcps).map fun (progs, rcps) =>
        ({ prog with programBuffer := code } :: progs, rcps)

/-- `initCache`, for memory that has been filled. -/
def initCache (blake2b : List UInt8 → List UInt8) (fuel : ℕ) (memory : ℕ → UInt8)
    (key : List UInt8) : Option Cache :=
  (generatePrograms blake2b fuel RANDOMX_CACHE_ACCESSES (.ofSeed key 0) []).map
    fun (programs, reciprocalCache) => { memory, programs, reciprocalCache }

/-! ### Items of the dataset -/

def superscalarMul0 : BitVec 64 := 6364136223846793005

def superscalarAdd1 : BitVec 64 := 9298411001130361340

def superscalarAdd2 : BitVec 64 := 12065312585734608966

def superscalarAdd3 : BitVec 64 := 9306329213124626780

def superscalarAdd4 : BitVec 64 := 5281919268842080866

def superscalarAdd5 : BitVec 64 := 10536153434571861004

def superscalarAdd6 : BitVec 64 := 3398623926847679864

def superscalarAdd7 : BitVec 64 := 9549104520008361294

/-- The place of a block of the cache. -/
def getMixBlock (registerValue : BitVec 64) : ℕ :=
  (registerValue &&& BitVec.ofNat 64 (CacheSize / CacheLineSize - 1)).toNat * CacheLineSize

/-- The registers that an item begins with. -/
def itemStart (itemNumber : BitVec 64) : Fin 8 → BitVec 64 :=
  let r0 := (itemNumber + 1) * superscalarMul0
  ![r0, r0 ^^^ superscalarAdd1, r0 ^^^ superscalarAdd2, r0 ^^^ superscalarAdd3,
    r0 ^^^ superscalarAdd4,
    r0 ^^^ superscalarAdd5, r0 ^^^ superscalarAdd6, r0 ^^^ superscalarAdd7]

/-- The programs one after the other, each of them mixed with a block of the cache. -/
def mixPrograms (reciprocals : Option (List (BitVec 64))) (memory : ℕ → UInt8) :
    List SuperscalarProgram → BitVec 64 → (Fin 8 → BitVec 64) → Option (Fin 8 → BitVec 64)
  | [], _, rl => some rl
  | prog :: rest, registerValue, rl =>
    (executeSuperscalar reciprocals prog.programBuffer rl).bind fun rl =>
      let rl := fun q => rl q ^^^ getLine memory (getMixBlock registerValue) q
      mixPrograms reciprocals memory rest (rl prog.addrReg) rl

def initDatasetItem (cache : Cache) (itemNumber : BitVec 64) : Option Line :=
  mixPrograms (some cache.reciprocalCache) cache.memory cache.programs
    itemNumber (itemStart itemNumber)

/-- Items computed and written to a dataset, each to its place. -/
def writeItems (cache : Cache) : List (ℕ × ℕ) → (ℕ → UInt8) → Option (ℕ → UInt8)
  | [], dataset => some dataset
  | (place, item) :: rest, dataset =>
    (initDatasetItem cache (BitVec.ofNat 64 item)).bind fun line =>
      writeItems cache rest (putLine dataset (CacheLineSize * place) line)

/-- A light machine computes the item that it reads. -/
def InterpretedLightVm.datasetRead (cache : Cache) (address : ℕ) : Option Line :=
  -- `uint32_t itemNumber`
  initDatasetItem cache ((BitVec.ofNat 32 (address / CacheLineSize)).setWidth 64)

end NMiner.RandomX
