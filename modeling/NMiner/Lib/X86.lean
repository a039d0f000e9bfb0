import NMiner.Lib.Word

/-! A subset of the x86-64 instruction set: what its instructions do, and how their bytes are
decoded. A machine has its sixteen general registers, its sixteen vector registers of two lanes, the
control word of the floating-point unit, the zero flag and a flat memory of bytes. Code is a list of
bytes, executed at a place of it; it is not written while it runs.

What the floating-point and AES units compute is a parameter. `none` is an instruction outside the
subset, a jump on a flag that the instructions before it leave undefined, or a fault. -/

namespace X86

open Word

abbrev Reg := Fin 16

/-- There are registers to number. -/
instance instNeZeroReg : NeZero 16 := ⟨by decide⟩

/-- The two 64-bit lanes of a vector register. -/
structure Lanes where
  lo : BitVec 64
  hi : BitVec 64
  deriving DecidableEq, Repr

def Lanes.map₂ (f : BitVec 64 → BitVec 64 → BitVec 64) (a b : Lanes) : Lanes :=
  ⟨f a.lo b.lo, f a.hi b.hi⟩

/-- What the vector units compute: on one lane under a control word, and a round of AES. -/
structure Units where
  add : BitVec 32 → BitVec 64 → BitVec 64 → BitVec 64
  sub : BitVec 32 → BitVec 64 → BitVec 64 → BitVec 64
  mul : BitVec 32 → BitVec 64 → BitVec 64 → BitVec 64
  div : BitVec 32 → BitVec 64 → BitVec 64 → BitVec 64
  sqrt : BitVec 32 → BitVec 64 → BitVec 64
  ofInt : BitVec 32 → BitVec 64
  aesenc : Lanes → Lanes → Lanes
  aesdec : Lanes → Lanes → Lanes

structure Machine where
  gpr : Reg → BitVec 64
  xmm : Reg → Lanes
  mxcsr : BitVec 32
  /-- `none` while the flag is undefined -/
  zf : Option Bool
  mem : BitVec 64 → UInt8

inductive Width | w32 | w64
  deriving DecidableEq, Repr

/-- An address: `base + index · 2 ^ scale + disp`. -/
structure Addr where
  base : Option Reg
  index : Option (Reg × ℕ)
  disp : BitVec 32
  deriving DecidableEq, Repr

inductive Operand
  | reg (r : Reg)
  | mem (a : Addr)
  deriving DecidableEq, Repr

inductive Alu | add | or | and | sub | xor
  deriving DecidableEq, Repr

inductive Packed | add | sub | mul | div
  deriving DecidableEq, Repr

inductive Logic | and | or | xor
  deriving DecidableEq, Repr

inductive Count | imm (c : BitVec 8) | cl
  deriving DecidableEq, Repr

inductive Instr
  | nop
  | lea (w : Width) (dst : Reg) (src : Addr)
  | load (w : Width) (dst : Reg) (src : Operand)
  | store (w : Width) (dst : Addr) (src : Reg)
  | movImm (w : Width) (dst : Reg) (imm : BitVec 64)
  | alu (op : Alu) (w : Width) (dst : Reg) (src : Operand)
  | aluImm (op : Alu) (w : Width) (dst : Reg) (imm : BitVec 64)
  | test (w : Width) (dst : Reg) (imm : BitVec 64)
  | imul (w : Width) (dst : Reg) (src : Operand)
  | imulImm (w : Width) (dst : Reg) (src : Operand) (imm : BitVec 64)
  /-- `rdx:rax` is the product of `rax` and the operand -/
  | mulWide (signed : Bool) (src : Operand)
  | div (src : Reg)
  | neg (dst : Reg)
  | bsr (dst src : Reg)
  | rotate (left : Bool) (dst : Reg) (count : Count)
  | shift (left : Bool) (w : Width) (dst : Reg) (count : Count)
  | xchg (dst src : Reg)
  | jcc (zero : Bool) (rel : BitVec 32)
  | ldmxcsr (a : Addr)
  | packed (op : Packed) (dst src : Reg)
  | sqrtpd (dst src : Reg)
  | cvtdq2pd (dst : Reg) (src : Addr)
  | shufpd (dst src : Reg) (imm : BitVec 8)
  | logic (op : Logic) (dst src : Reg)
  deriving DecidableEq, Repr

/-! ### What the instructions do -/

/-- A result at a width; the upper half of a 32-bit result is zero. -/
def narrow : Width → BitVec 64 → BitVec 64
  | .w32, v => (v.setWidth 32).setWidth 64
  | .w64, v => v

def Addr.ea (a : Addr) (gpr : Reg → BitVec 64) : BitVec 64 :=
  (match a.base with
    | some r => gpr r
    | none => 0) +
  (match a.index with
    | some (r, scale) => gpr r <<< scale
    | none => 0) + a.disp.signExtend 64

/-- The bytes from an address on. -/
def view (mem : BitVec 64 → UInt8) (a : BitVec 64) : ℕ → UInt8 :=
    fun i => mem (a + BitVec.ofNat 64 i)

def load32 (mem : BitVec 64 → UInt8) (a : BitVec 64) : BitVec 32 := read 4 (view mem a)

def load64 (mem : BitVec 64 → UInt8) (a : BitVec 64) : BitVec 64 := read 8 (view mem a)

/-- The memory with the `n` lowest bytes of a word at an address. -/
def poke {w : ℕ} (n : ℕ) (mem : BitVec 64 → UInt8) (a : BitVec 64) (v : BitVec w) :
    BitVec 64 → UInt8 :=
  fun x => if (x - a).toNat < n then byte v (x - a).toNat else mem x

def loadWidth (mem : BitVec 64 → UInt8) (a : BitVec 64) : Width → BitVec 64
  | .w32 => (load32 mem a).setWidth 64
  | .w64 => load64 mem a

namespace Machine

def setReg (m : Machine) (r : Reg) (v : BitVec 64) : Machine :=
  { m with gpr := Function.update m.gpr r v }

def setXmm (m : Machine) (r : Reg) (v : Lanes) : Machine :=
  { m with xmm := Function.update m.xmm r v }

def setZf (m : Machine) (z : Option Bool) : Machine := { m with zf := z }

def poke {w : ℕ} (m : Machine) (n : ℕ) (a : BitVec 64) (v : BitVec w) : Machine :=
  { m with mem := X86.poke n m.mem a v }

/-- The result of an operation at a width, and the flag it leaves. -/
def result (m : Machine) (w : Width) (dst : Reg) (v : BitVec 64) : Machine :=
  (m.setReg dst (narrow w v)).setZf (some (narrow w v == 0))

def value (m : Machine) (w : Width) : Operand → BitVec 64
  | .reg r => narrow w (m.gpr r)
  | .mem a => loadWidth m.mem (a.ea m.gpr) w

/-- A count is taken modulo the width. -/
def count (m : Machine) : Width → Count → ℕ
  | .w32, .imm c => c.toNat % 32
  | .w64, .imm c => c.toNat % 64
  | .w32, .cl => (m.gpr 1).toNat % 32
  | .w64, .cl => (m.gpr 1).toNat % 64

end Machine

def Alu.eval : Alu → BitVec 64 → BitVec 64 → BitVec 64
  | .add, a, b => a + b
  | .or, a, b => a ||| b
  | .and, a, b => a &&& b
  | .sub, a, b => a - b
  | .xor, a, b => a ^^^ b

def Packed.eval (u : Units) (mxcsr : BitVec 32) : Packed → BitVec 64 → BitVec 64 → BitVec 64
  | .add => u.add mxcsr
  | .sub => u.sub mxcsr
  | .mul => u.mul mxcsr
  | .div => u.div mxcsr

def Logic.eval : Logic → BitVec 64 → BitVec 64 → BitVec 64
  | .and, a, b => a &&& b
  | .or, a, b => a ||| b
  | .xor, a, b => a ^^^ b

/-- The upper half of a product of two words. -/
def mulHigh (signed : Bool) (a b : BitVec 64) : BitVec 64 :=
  match signed with
  | false => BitVec.ofNat 64 (a.toNat * b.toNat / 2 ^ 64)
  | true => BitVec.ofInt 64 (a.toInt * b.toInt / 2 ^ 64)

/-- What an instruction other than a jump does. -/
def effect (u : Units) (m : Machine) : Instr → Option Machine
  | .nop => some m
  | .lea w dst src => some (m.setReg dst (narrow w (src.ea m.gpr)))
  | .load w dst src => some (m.setReg dst (m.value w src))
  | .store .w32 dst src => some (m.poke 4 (dst.ea m.gpr) (m.gpr src))
  | .store .w64 dst src => some (m.poke 8 (dst.ea m.gpr) (m.gpr src))
  | .movImm w dst imm => some (m.setReg dst (narrow w imm))
  | .alu op w dst src => some (m.result w dst (op.eval (m.gpr dst) (m.value w src)))
  | .aluImm op w dst imm => some (m.result w dst (op.eval (m.gpr dst) imm))
  | .test w dst imm => some (m.setZf (some (narrow w (m.gpr dst &&& imm) == 0)))
  | .imul w dst src => some ((m.setReg dst (narrow w (m.gpr dst * m.value w src))).setZf none)
  | .imulImm w dst src imm => some ((m.setReg dst (narrow w (m.value w src * imm))).setZf none)
  | .mulWide signed src =>
    let v := m.value .w64 src
    some (((m.setReg 0 (m.gpr 0 * v)).setReg 2 (mulHigh signed (m.gpr 0) v)).setZf none)
  | .div src =>
    let n := (m.gpr 2).toNat * 2 ^ 64 + (m.gpr 0).toNat
    let d := (m.gpr src).toNat
    -- a quotient that does not fit is a fault, as is a division by zero
    if d = 0 ∨ 2 ^ 64 ≤ n / d then none
    else some
      (((m.setReg 0 (BitVec.ofNat 64 (n / d))).setReg 2 (BitVec.ofNat 64 (n % d))).setZf none)
  | .neg dst => some (m.result .w64 dst (-(m.gpr dst)))
  | .bsr dst src =>
    -- the register is undefined when no bit is set
    if m.gpr src = 0 then none
    else some ((m.setReg dst (BitVec.ofNat 64 (m.gpr src).toNat.log2)).setZf (some false))
  | .rotate true dst c => some (m.setReg dst ((m.gpr dst).rotateLeft (m.count .w64 c)))
  | .rotate false dst c => some (m.setReg dst ((m.gpr dst).rotateRight (m.count .w64 c)))
  | .shift left w dst c =>
    let v := if left then m.gpr dst <<< m.count w c else narrow w (m.gpr dst) >>> m.count w c
    -- a count of zero leaves the flags as they are
    if m.count w c = 0 then some (m.setReg dst (narrow w (m.gpr dst))) else some (m.result w dst v)
  | .xchg dst src => some ((m.setReg dst (m.gpr src)).setReg src (m.gpr dst))
  | .ldmxcsr a => some { m with mxcsr := load32 m.mem (a.ea m.gpr) }
  | .packed op dst src =>
    some (m.setXmm dst ((m.xmm dst).map₂ (op.eval u m.mxcsr) (m.xmm src)))
  | .sqrtpd dst src =>
    some (m.setXmm dst ⟨u.sqrt m.mxcsr (m.xmm src).lo, u.sqrt m.mxcsr (m.xmm src).hi⟩)
  | .cvtdq2pd dst src =>
    let v := load64 m.mem (src.ea m.gpr)
    some (m.setXmm dst ⟨u.ofInt (v.setWidth 32), u.ofInt ((v >>> 32).setWidth 32)⟩)
  | .shufpd dst src imm =>
    some (m.setXmm dst ⟨if imm.getLsbD 0 then (m.xmm dst).hi else (m.xmm dst).lo,
      if imm.getLsbD 1 then (m.xmm src).hi else (m.xmm src).lo⟩)
  | .logic op dst src => some (m.setXmm dst ((m.xmm dst).map₂ op.eval (m.xmm src)))
  | .jcc _ _ => none

/-- The instructions of a block, one after the other; none of them is a jump. -/
def block (u : Units) : List Instr → Machine → Option Machine
  | [], m => some m
  | i :: is, m => (effect u m i).bind (block u is)

/-! ### How instructions are decoded -/

inductive Prefix | none | p66 | pF3
  deriving DecidableEq, Repr

/-- The bits of a REX prefix. -/
structure Rex where
  w : Bool
  r : Bool
  x : Bool
  b : Bool
  deriving DecidableEq, Repr

def Rex.width (rex : Rex) : Width := if rex.w then .w64 else .w32

def Rex.ofByte (b : UInt8) : Rex where
  w := b.toNat / 8 % 2 = 1
  r := b.toNat / 4 % 2 = 1
  x := b.toNat / 2 % 2 = 1
  b := b.toNat % 2 = 1

/-- A register number, extended by a bit of the REX prefix. -/
def ext (bit : Bool) (k : ℕ) : Reg := Fin.ofNat 16 (k + if bit then 8 else 0)

/-- The displacement of an address, as its mode says. -/
def withDisp (mode : ℕ) (base : Option Reg) (index : Option (Reg × ℕ)) (bs : List UInt8) :
    Option (Operand × List UInt8) :=
  match mode with
  | 0 => some (.mem ⟨base, index, 0⟩, bs)
  | 1 => (take 1 bs).map fun (d, bs) => (.mem ⟨base, index, BitVec.signExtend 32 (w := 8) d⟩, bs)
  | _ => (take 4 bs).map fun (d, bs) => (.mem ⟨base, index, d⟩, bs)

def sib (rex : Rex) (mode : ℕ) : List UInt8 → Option (Operand × List UInt8)
  | [] => none
  | b :: bs =>
    let index := if b.toNat / 8 % 8 = 4 ∧ rex.x = false then none
      else some (ext rex.x (b.toNat / 8 % 8), b.toNat / 64)
    if b.toNat % 8 = 5 ∧ mode = 0 then withDisp 2 none index bs
    else withDisp mode (some (ext rex.b (b.toNat % 8))) index bs

/-- The register field of a ModRM byte, and the operand it begins. -/
def modRM (rex : Rex) : List UInt8 → Option (ℕ × Operand × List UInt8)
  | [] => none
  | m :: bs =>
    let field := m.toNat / 8 % 8
    if m.toNat / 64 = 3 then some (field, .reg (ext rex.b (m.toNat % 8)), bs)
    else if m.toNat % 8 = 4 then (sib rex (m.toNat / 64) bs).map fun (o, bs) => (field, o, bs)
    -- relative to the instruction pointer
    else if m.toNat % 8 = 5 ∧ m.toNat / 64 = 0 then none
    else (withDisp (m.toNat / 64) (some (ext rex.b (m.toNat % 8))) none bs).map
      fun (o, bs) => (field, o, bs)

/-- An immediate of one byte or four, extended to a word. -/
def immediate (n : ℕ) (bs : List UInt8) : Option (BitVec 64 × List UInt8) :=
  (take n bs).map fun (v, bs) => (v.signExtend 64, bs)

/-- An instruction with an immediate of `n` bytes. -/
def withImm (n : ℕ) (f : BitVec (8 * n) → Instr) (bs : List UInt8) : Option (Instr × List UInt8) :=
  (take n bs).map fun (v, bs) => (f v, bs)

/-- An instruction with a register and an operand. -/
def regOperand (rex : Rex) (f : Reg → Operand → Option Instr) (bs : List UInt8) :
    Option (Instr × List UInt8) :=
  (modRM rex bs).bind fun (field, o, bs) => (f (ext rex.r field) o).map fun i => (i, bs)

/-- An instruction with an operand and what follows it, chosen by the register field. -/
def groupOperand (rex : Rex) (f : ℕ → Operand → List UInt8 → Option (Instr × List UInt8))
    (bs : List UInt8) : Option (Instr × List UInt8) :=
  (modRM rex bs).bind fun (field, o, bs) => f field o bs

/-! The instructions that a register and an operand stand for. -/

namespace Form

def alu (op : Alu) (w : Width) (r : Reg) (o : Operand) : Option Instr := some (.alu op w r o)

def load (w : Width) (r : Reg) (o : Operand) : Option Instr := some (.load w r o)

def imul (w : Width) (r : Reg) (o : Operand) : Option Instr := some (.imul w r o)

/-- The operand is the destination. -/
def store (w : Width) (r : Reg) : Operand → Option Instr
  | .reg dst => some (.load w dst (.reg r))
  | .mem a => some (.store w a r)

def lea (w : Width) (r : Reg) : Operand → Option Instr
  | .mem a => some (.lea w r a)
  | _ => none

/-- Two registers. -/
def regs (f : Reg → Reg → Instr) (r : Reg) : Operand → Option Instr
  | .reg src => some (f r src)
  | _ => none

/-- A register and an address. -/
def address (f : Reg → Addr → Instr) (r : Reg) : Operand → Option Instr
  | .mem a => some (f r a)
  | _ => none

end Form

/-! The groups of instructions that share an opcode. -/

namespace Group

/-- The operations with an immediate. -/
def aluOf : ℕ → Option Alu
  | 0 => some .add
  | 1 => some .or
  | 4 => some .and
  | 5 => some .sub
  | 6 => some .xor
  | _ => none

def alu (w : Width) (n field : ℕ) : Operand → List UInt8 → Option (Instr × List UInt8)
  | .reg r, bs => (aluOf field).bind fun op =>
    (immediate n bs).map fun (v, bs) => (.aluImm op w r v, bs)
  | _, _ => none

/-- Rotations and shifts. -/
def shiftOf (rex : Rex) (c : Count) : ℕ → Operand → Option Instr
  | 0, .reg r => if rex.w then some (.rotate true r c) else none
  | 1, .reg r => if rex.w then some (.rotate false r c) else none
  | 4, .reg r => some (.shift true rex.width r c)
  | 5, .reg r => some (.shift false rex.width r c)
  | _, _ => none

def shiftImm (rex : Rex) (field : ℕ) (o : Operand) (bs : List UInt8) :
    Option (Instr × List UInt8) :=
  (take 1 bs).bind fun (c, bs) => (shiftOf rex (.imm c) field o).map fun i => (i, bs)

def shiftCl (rex : Rex) (field : ℕ) (o : Operand) (bs : List UInt8) : Option (Instr × List UInt8) :=
  (shiftOf rex .cl field o).map fun i => (i, bs)

/-- `test`, `neg`, the wide multiplications and the division, of 64-bit operands. -/
def unary : ℕ → Operand → List UInt8 → Option (Instr × List UInt8)
  | 0, .reg r, bs => (immediate 4 bs).map fun (v, bs) => (.test .w64 r v, bs)
  | 3, .reg r, bs => some (.neg r, bs)
  | 4, o, bs => some (.mulWide false o, bs)
  | 5, o, bs => some (.mulWide true o, bs)
  | 6, .reg r, bs => some (.div r, bs)
  | _, _, _ => none

def imulImm (rex : Rex) (field : ℕ) (o : Operand) (bs : List UInt8) : Option (Instr × List UInt8) :=
  (immediate 4 bs).map fun (v, bs) => (.imulImm rex.width (ext rex.r field) o v, bs)

def ldmxcsr : ℕ → Operand → List UInt8 → Option (Instr × List UInt8)
  | 2, .mem a, bs => some (.ldmxcsr a, bs)
  | _, _, _ => none

def shufpd (rex : Rex) (field : ℕ) : Operand → List UInt8 → Option (Instr × List UInt8)
  | .reg src, bs => (take 1 bs).map fun (v, bs) => (.shufpd (ext rex.r field) src v, bs)
  | _, _ => none

end Group

def decodeOne (rex : Rex) (op : UInt8) (bs : List UInt8) : Option (Instr × List UInt8) :=
  if op = 0x03 then regOperand rex (Form.alu .add rex.width) bs
  else if op = 0x2b then regOperand rex (Form.alu .sub rex.width) bs
  else if op = 0x33 then regOperand rex (Form.alu .xor rex.width) bs
  else if op = 0x25 then withImm 4 (fun v => .aluImm .and .w32 0 (v.signExtend 64)) bs
  else if op = 0x0d then withImm 4 (fun v => .aluImm .or .w32 0 (v.signExtend 64)) bs
  else if op = 0xa9 then withImm 4 (fun v => .test .w32 0 (v.signExtend 64)) bs
  else if op = 0x81 then groupOperand rex (Group.alu rex.width 4) bs
  else if op = 0x8b then regOperand rex (Form.load rex.width) bs
  else if op = 0x89 then regOperand rex (Form.store rex.width) bs
  else if op = 0x8d then regOperand rex (Form.lea rex.width) bs
  else if op = 0x69 then groupOperand rex (Group.imulImm rex) bs
  else if op = 0xf7 then if rex.w then groupOperand rex Group.unary bs else none
  else if op.toNat / 8 = 23 then
    -- 0xb8 .. 0xbf
    match rex.width with
    | .w32 => withImm 4 (fun v => .movImm .w32 (ext rex.b (op.toNat % 8)) (v.setWidth 64)) bs
    | .w64 => withImm 8 (fun v => .movImm .w64 (ext rex.b (op.toNat % 8)) v) bs
  else if op = 0xc1 then groupOperand rex (Group.shiftImm rex) bs
  else if op = 0xd3 then groupOperand rex (Group.shiftCl rex) bs
  else if op = 0x87 then if rex.w then regOperand rex (Form.regs .xchg) bs else none
  else if op = 0x75 then withImm 1 (fun v => .jcc false (BitVec.signExtend 32 (w := 8) v)) bs
  else if op = 0x90 then some (.nop, bs)
  else none

def decodeTwoPlain (rex : Rex) (op : UInt8) (bs : List UInt8) : Option (Instr × List UInt8) :=
  if op = 0xaf then regOperand rex (Form.imul rex.width) bs
  else if op = 0x84 then withImm 4 (.jcc true) bs
  else if op = 0xae then groupOperand rex Group.ldmxcsr bs
  else if op = 0x57 then regOperand rex (Form.regs (.logic .xor)) bs
  else if op = 0x54 then regOperand rex (Form.regs (.logic .and)) bs
  else if op = 0x56 then regOperand rex (Form.regs (.logic .or)) bs
  else none

def decodeTwo66 (rex : Rex) (op : UInt8) (bs : List UInt8) : Option (Instr × List UInt8) :=
  if op = 0x58 then regOperand rex (Form.regs (.packed .add)) bs
  else if op = 0x5c then regOperand rex (Form.regs (.packed .sub)) bs
  else if op = 0x59 then regOperand rex (Form.regs (.packed .mul)) bs
  else if op = 0x5e then regOperand rex (Form.regs (.packed .div)) bs
  else if op = 0x51 then regOperand rex (Form.regs .sqrtpd) bs
  else if op = 0xc6 then groupOperand rex (Group.shufpd rex) bs
  else none

def decodeTwo : Prefix → Rex → List UInt8 → Option (Instr × List UInt8)
  | _, _, [] => none
  | .none, rex, op :: bs => decodeTwoPlain rex op bs
  | .p66, rex, op :: bs => decodeTwo66 rex op bs
  | .pF3, rex, op :: bs => if op = 0xe6 then regOperand rex (Form.address .cvtdq2pd) bs else none

/-- The opcode, after the prefixes. -/
def decodeOpcode (p : Prefix) (rex : Rex) : List UInt8 → Option (Instr × List UInt8)
  | [] => none
  | b :: bs =>
    if b = 0x0f then decodeTwo p rex bs
    else if p = .none then decodeOne rex b bs
    else none

/-- A REX prefix stands right before the opcode. -/
def decodeRex (p : Prefix) : List UInt8 → Option (Instr × List UInt8)
  | [] => none
  | b :: bs =>
    if b.toNat / 16 = 4 then decodeOpcode p (Rex.ofByte b) bs
    else decodeOpcode p ⟨false, false, false, false⟩ (b :: bs)

/-- The instruction at the front of a list of bytes, and the bytes after it. -/
def decode : List UInt8 → Option (Instr × List UInt8)
  | [] => none
  | b :: bs =>
    if b = 0x66 then decodeRex .p66 bs
    else if b = 0xf3 then decodeRex .pF3 bs
    else decodeRex .none (b :: bs)

/-! ### Runs -/

/-- A machine and the place in the code that it executes next. -/
structure State where
  machine : Machine
  rip : ℕ

/-- Go on at a distance from a place. -/
def jump (m : Machine) (next : ℕ) (rel : BitVec 32) : Option State :=
  if 0 ≤ (next : ℤ) + rel.toInt then some ⟨m, ((next : ℤ) + rel.toInt).toNat⟩ else none

/-- One instruction, before another place. -/
def exec (u : Units) (m : Machine) (next : ℕ) : Instr → Option State
  | .jcc zero rel => m.zf.bind fun z => if z = zero then jump m next rel else some ⟨m, next⟩
  | i => (effect u m i).map fun m => ⟨m, next⟩

def step (u : Units) (code : List UInt8) (s : State) : Option State :=
  (decode (code.drop s.rip)).bind fun (i, rest) =>
    exec u s.machine (code.length - rest.length) i

/-- The state after a number of instructions. -/
def run (u : Units) (code : List UInt8) : ℕ → State → Option State
  | 0, s => some s
  | n + 1, s => (step u code s).bind (run u code n)

/-- Executing the code gets from one state to the other. -/
def Reaches (u : Units) (code : List UInt8) (s s' : State) : Prop := ∃ n, run u code n s = some s'

/-- The bytes are those of an instruction, whatever comes after them. -/
def Encodes (bs : List UInt8) (i : Instr) : Prop := ∀ rest, decode (bs ++ rest) = some (i, rest)

/-- The bytes are those of a list of instructions. -/
inductive Assembles : List UInt8 → List Instr → Prop
  | nil : Assembles [] []
  | cons {b bs : List UInt8} {i : Instr} {is : List Instr} (head : Encodes b i)
    (tail : Assembles bs is) : Assembles (b ++ bs) (i :: is)

end X86
