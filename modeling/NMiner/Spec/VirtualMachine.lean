import NMiner.Spec.Bytecode
import NMiner.Spec.Parallel

/-! The virtual machines of RandomX: how a program is read out of the generator, how it sets a
machine up, and the loop that an interpreted machine runs it in. What a machine reads its dataset
from is a parameter of the loop: a full machine has the dataset in memory, a light one computes its
items.

`none` is an access outside the scratchpad or outside the dataset. -/

namespace NMiner.RandomX

open Word
open X86 (Lanes Units)

/-! ### Programs -/

structure Program where
  /-- `getEntropy` -/
  entropy : ℕ → BitVec 64
  programBuffer : List Instruction

/-- The instructions that a machine executes. -/
def Program.code (prog : Program) (flags : Flags) : List Instruction :=
  prog.programBuffer.take (programSize flags)

/-! ### Configuration of a machine -/

def mantissaSize : ℕ := 52

def exponentSize : ℕ := 11

def mantissaMask : BitVec 64 := (1#64 <<< mantissaSize) - 1

def exponentMask : BitVec 64 := (1#64 <<< exponentSize) - 1

def exponentBias : BitVec 64 := 1023

def dynamicExponentBits : ℕ := 4

def staticExponentBits : ℕ := 4

def constExponentBits : BitVec 64 := 0x300

def CacheLineSize : ℕ := RANDOMX_DATASET_ITEM_SIZE

def CacheLineAlignMask : BitVec 32 :=
  BitVec.ofNat 32 (RANDOMX_DATASET_BASE_SIZE - 1) &&& ~~~(BitVec.ofNat 32 (CacheLineSize - 1))

def DatasetSize : ℕ := RANDOMX_DATASET_BASE_SIZE + RANDOMX_DATASET_EXTRA_SIZE

def DatasetExtraItems : ℕ := RANDOMX_DATASET_EXTRA_SIZE / RANDOMX_DATASET_ITEM_SIZE

def getSmallPositiveFloatBits (entropy : BitVec 64) : BitVec 64 :=
  let exponent := entropy >>> 59
  let mantissa := entropy &&& mantissaMask
  let exponent := ((exponent + exponentBias) &&& exponentMask) <<< mantissaSize
  exponent ||| mantissa

def getStaticExponent (entropy : BitVec 64) : BitVec 64 :=
  (constExponentBits ||| (entropy >>> (64 - staticExponentBits)) <<< dynamicExponentBits)
    <<< mantissaSize

def getFloatMask (entropy : BitVec 64) : BitVec 64 :=
  let mask22bit := (1#64 <<< 22) - 1
  (entropy &&& mask22bit) ||| getStaticExponent entropy

structure MemoryRegisters where
  mx : BitVec 32
  ma : BitVec 32
  deriving DecidableEq, Repr

/-- What `randomx_vm::initialize` sets. -/
structure Setup where
  a : Fin 4 → Lanes
  mem : MemoryRegisters
  config : ProgramConfiguration
  datasetOffset : ℕ

/-- The `i`th bit of the address registers chooses one of two registers. -/
def addressRegister (entropy : BitVec 64) (i : ℕ) (base : Fin 8) : Fin 8 :=
  base + if (entropy >>> i) &&& 1 = 1 then 1 else 0

/-- `randomx_vm::initialize` -/
def vmInitialize (prog : Program) : Setup where
  a i := ⟨getSmallPositiveFloatBits (prog.entropy (2 * i)),
    getSmallPositiveFloatBits (prog.entropy (2 * i + 1))⟩
  mem :=
    { ma := (prog.entropy 8 &&& CacheLineAlignMask.setWidth 64).setWidth 32
      mx := (prog.entropy 10).setWidth 32 }
  config :=
    { eMask := ⟨getFloatMask (prog.entropy 14), getFloatMask (prog.entropy 15)⟩
      readReg0 := addressRegister (prog.entropy 12) 0 0
      readReg1 := addressRegister (prog.entropy 12) 1 2
      readReg2 := addressRegister (prog.entropy 12) 2 4
      readReg3 := addressRegister (prog.entropy 12) 3 6 }
  datasetOffset := (prog.entropy 13).toNat % (DatasetExtraItems + 1) * CacheLineSize

/-! ### The loop of an interpreted machine -/

/-- A cache line: eight words -/
abbrev Line := Fin 8 → BitVec 64

/-- Eight words are stored, the first of them first. -/
def putLine (m : ℕ → UInt8) (addr : ℕ) (line : Line) : ℕ → UInt8 :=
  (List.finRange 8).foldl (fun m i => write 8 m (addr + 8 * i.val) (line i)) m

/-- The eight words from an address on. -/
def getLine (m : ℕ → UInt8) (addr : ℕ) : Line := fun i => read 8 fun j => m (addr + 8 * i + j)

namespace Vm

def loadLine (s : Vm) (addr : ℕ) : Option Line :=
  if addr + 64 ≤ ScratchpadSize then some (getLine s.scratchpad addr) else none

def storeLine (s : Vm) (addr : ℕ) (line : Line) : Option Vm :=
  if addr + 64 ≤ ScratchpadSize
    then some { s with scratchpad := putLine s.scratchpad addr line } else none

end Vm

/-- The locals of `execute` -/
structure Loop where
  vm : Vm
  mem : MemoryRegisters
  spAddr0 : BitVec 32
  spAddr1 : BitVec 32

/-- Four rounds of AES of each F register, with the E registers as keys. -/
def aesMix (u : Units) (f e : Fin 4 → Lanes) : Fin 4 → Lanes :=
  (List.finRange 4).foldl
    (fun f i => ![u.aesenc (f 0) (e i), u.aesdec (f 1) (e i), u.aesenc (f 2) (e i),
      u.aesdec (f 3) (e i)]) f

/-- What is stored of the F registers at the end of an iteration. -/
def mixFloat (u : Units) (flags : Flags) (f e : Fin 4 → Lanes) : Fin 4 → Lanes :=
  if flags.v2 then aesMix u f e else fun i => Lanes.map₂ (· ^^^ ·) (f i) (e i)

/-- The two lanes of four registers as a line -/
def lanesLine (f : Fin 4 → Lanes) : Line := fun i =>
  if i.val % 2 = 0 then (f (Fin.ofNat 4 (i / 2))).lo else (f (Fin.ofNat 4 (i / 2))).hi

/-- The places in the scratchpad that an iteration starts with. -/
def mixAddresses (config : ProgramConfiguration) (s : Loop) : BitVec 32 × BitVec 32 :=
  let spMix := s.vm.r config.readReg0 ^^^ s.vm.r config.readReg1
  ((s.spAddr0 ^^^ spMix.setWidth 32) &&& ScratchpadL3Mask64,
    (s.spAddr1 ^^^ (spMix >>> 32).setWidth 32) &&& ScratchpadL3Mask64)

/-- The registers before the program, from two lines of the scratchpad. -/
def loadRegisters (u : Units) (config : ProgramConfiguration) (s : Vm) (line0 line1 : Line) : Vm :=
  { s with
    r := fun i => s.r i ^^^ line0 i
    f := fun i => rx_cvt_packed_int_vec_f128 u (line1 (Fin.castLE (by decide) i))
    e := fun i => maskRegisterExponentMantissa config
      (rx_cvt_packed_int_vec_f128 u (line1 (Fin.ofNat 8 (4 + i)))) }

/-- The memory registers after the program: in the second version of the algorithm the other one is
modified before they are swapped. -/
def nextMem (flags : Flags) (config : ProgramConfiguration) (s : Vm) (mem : MemoryRegisters) :
    MemoryRegisters :=
  let mix := (s.r config.readReg2 ^^^ s.r config.readReg3).setWidth 32
  if flags.v2 then { mx := mem.ma ^^^ mix, ma := mem.mx }
    else { mx := mem.ma, ma := mem.mx ^^^ mix }

/-- One iteration. `n` is the size of the program, `datasetRead` reads a line of the dataset. -/
def iteration (u : Units) (flags : Flags) (config : ProgramConfiguration)
    (bytecode : ℕ → InstructionByteCode) (n datasetOffset : ℕ) (datasetRead : ℕ → Option Line)
    (s : Loop) : Option Loop := do
  let (spAddr0, spAddr1) := mixAddresses config s
  let line0 ← s.vm.loadLine spAddr0.toNat
  let line1 ← s.vm.loadLine spAddr1.toNat
  let vm ← executeBytecode u flags config bytecode n (3 * n)
    (loadRegisters u config s.vm line0 line1)
  let line ← datasetRead (datasetOffset + (s.mem.ma &&& CacheLineAlignMask).toNat)
  let mem := nextMem flags config vm s.mem
  let vm := { vm with r := fun i => vm.r i ^^^ line i }
  let vm ← vm.storeLine spAddr1.toNat vm.r
  let vm := { vm with f := mixFloat u flags vm.f vm.e }
  let vm ← vm.storeLine spAddr0.toNat (lanesLine vm.f)
  some { vm, mem, spAddr0 := 0, spAddr1 := 0 }

/-- The registers, the scratchpad and the control word before the first iteration. The bytecode is
compiled over the one of the last program. -/
def executeStart (setup : Setup) (scratchpad : ℕ → UInt8) (mxcsr : BitVec 32) : Loop where
  vm :=
    { r := fun _ => 0
      f := fun _ => ⟨0, 0⟩
      e := fun _ => ⟨0, 0⟩
      a := setup.a
      scratchpad
      mxcsr
      pc := 0 }
  mem := setup.mem
  spAddr0 := setup.mem.mx
  spAddr1 := setup.mem.ma

/-- `generateProgram`, `initialize` and `execute`, for a program that has been generated. -/
def InterpretedVm.run (u : Units) (flags : Flags) (datasetRead : ℕ → Option Line)
    (bytecode : ℕ → InstructionByteCode) (prog : Program) (scratchpad : ℕ → UInt8)
    (mxcsr : BitVec 32) :
    Option Loop :=
  let setup := vmInitialize prog
  let code := prog.code flags
  Loops.times (iteration u flags setup.config (compileProgram code bytecode) code.length
    setup.datasetOffset datasetRead) RANDOMX_PROGRAM_ITERATIONS
      (executeStart setup scratchpad mxcsr)

/-- A line of the dataset in memory -/
def InterpretedVm.datasetRead (dataset : ℕ → UInt8) (address : ℕ) : Option Line :=
  if address + CacheLineSize ≤ DatasetSize then some (getLine dataset address) else none

end NMiner.RandomX
