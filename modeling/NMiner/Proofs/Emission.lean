import NMiner.Lib.X86Code
import NMiner.Proofs.Bytecode
import NMiner.Spec.Jit

/-! What the compiler emits, read back: the bytes of each handler are those of a list of x86
instructions, whatever the registers and the immediates. -/

namespace NMiner.RandomX

open Word X86

/-- The general register that holds an integer register of the virtual machine. -/
def gp (k : Fin 8) : Reg := ext true k

/-- The vector registers that hold the registers of group F, E and A. -/
def xf (k : Fin 4) : Reg := ext false k

def xe (k : Fin 4) : Reg := ext false (4 + k)

def xa (k : Fin 4) : Reg := ext true k

/-- `[rsi + rax]` and `[rsi + rcx]` -/
def atIndex (r : Reg) : Addr := ⟨some 6, some (r, 0), 0⟩

/-- `[rsi + disp32]` -/
def atOffset (d : BitVec 32) : Addr := ⟨some 6, none, d⟩

theorem emitByte_add_sib (k : Fin 8) :
    Denotes ⟨true, true, false, false⟩ (emitByte (0x04 + 8 * k) ++ emitByte 0x06) k
      (.mem (atIndex 0)) :=
  denotes_sib (r := k.val) (by omega) k.isLt (by decide : 0x06 = 64 * 0 + 8 * 0 + 6) (by decide)
    (by decide) (by decide) (by decide) _ (.inl (by decide))

theorem emitByte_disp (k : Fin 8) (d : BitVec 32) :
    Denotes ⟨true, true, false, false⟩ (emitByte (0x86 + 8 * k) ++ emit32 d) k
      (.mem (atOffset d)) :=
  denotes_disp (r := k.val) (m := 6) (by omega) k.isLt (by decide) (by decide) _ d

/-! ### Addresses -/

/-- `lea` and `and`: an address of the scratchpad in a register. -/
def addressInstrs (dst : Reg) (src : Fin 8) (imm mask : BitVec 32) : List Instr :=
  [.lea .w32 dst ⟨some (gp src), none, imm⟩, .aluImm .and .w32 dst (mask.signExtend 64)]

theorem encodes_lea (field : ℕ) (hfield : field < 2) (src : Fin 8) (imm : BitVec 32) :
    Encodes (LEA_32 ++ (emitByte (0x80 + src + 8 * field) ++
      ((if src = RegisterNeedsSib then emitByte 0x24 else []) ++ emit32 imm)))
      (.lea .w32 (ext false field) ⟨some (gp src), none, imm⟩) := by
  by_cases h : src = RegisterNeedsSib
  · subst h
    exact encodes_regOperand ⟨false, false, false, true⟩ (Form.lea .w32) (fun _ => rfl)
      (denotes_sib_none (r := field) (show 0x80 + 4 + 8 * field = _ by omega)
        (by omega) _ rfl imm) rfl
  · have h4 : src.val ≠ 4 := fun h4 => h (Fin.ext h4)
    rw [if_neg h, List.nil_append]
    exact encodes_regOperand ⟨false, false, false, true⟩ (Form.lea .w32) (fun _ => rfl)
      (denotes_disp (r := field) (by omega) (by omega) src.isLt h4 _ imm) rfl

theorem encodes_and_eax (mask : BitVec 32) :
    Encodes (AND_EAX_I ++ emit32 mask) (.aluImm .and .w32 0 (mask.signExtend 64)) :=
  encodes_imm (n := 4) (f := fun v => .aluImm .and .w32 0 (v.signExtend 64)) (fun _ => rfl) mask

theorem encodes_and_ecx (mask : BitVec 32) :
    Encodes (AND_ECX_I ++ emit32 mask) (.aluImm .and .w32 1 (mask.signExtend 64)) := by
  change Encodes ([0x81] ++ [UInt8.ofNat 0xe1] ++ bytes 4 mask) _
  exact encodes_aluImm ⟨false, false, false, false⟩ .w32 (r := 4) (m := 1) (fun _ => rfl) rfl rfl
    (by decide) (by decide) mask

theorem assembles_genAddressReg (instr : Instruction) (rax : Bool) :
    Assembles (genAddressReg instr rax)
      (addressInstrs (if rax then 0 else 1) instr.isrc instr.imm32 (levelMask instr)) := by
  unfold genAddressReg
  simp only [List.append_assoc]
  rw [← List.append_assoc, ← List.append_assoc, ← List.append_assoc]
  cases rax with
  | true =>
    exact .append (.single (encodes_lea 0 (by decide) _ _)) (.single (encodes_and_eax _))
  | false =>
    exact .append (.single (encodes_lea 1 (by decide) _ _)) (.single (encodes_and_ecx _))

/-! ### Families of handlers -/

/-- A register modified by a word of the scratchpad. -/
def memoryInstrs (f : Reg → Operand → Instr) (instr : Instruction) : List Instr :=
  if instr.isrc ≠ instr.idst then
    addressInstrs 0 instr.isrc instr.imm32 (levelMask instr) ++
      [f (gp instr.idst) (.mem (atIndex 0))]
  else [f (gp instr.idst) (.mem (atOffset (instr.imm32 &&& ScratchpadL3Mask)))]

/-- What a handler does to the compiler: it emits the bytes of some instructions, and marks the
registers that they modify. -/
def Emits (is : List Instr) (ks : List (Fin 8)) (i : ℤ) (c c' : Jit) : Prop :=
  ∃ bs, Assembles bs is ∧ c'.code = c.code ++ bs ∧ c'.instructionOffsets = c.instructionOffsets ∧
    c'.registerUsage = fun k => if k ∈ ks then i else c.registerUsage k

theorem emits_emit {bs : List UInt8} {is : List Instr} (h : Assembles bs is) (i : ℤ) (c : Jit) :
    Emits is [] i c (c.emit bs) := ⟨bs, h, rfl, rfl, by simp [Jit.emit]⟩

theorem emits_nothing (i : ℤ) (c : Jit) : Emits [] [] i c c :=
  ⟨[], .nil, (List.append_nil _).symm, rfl, by simp⟩

theorem emits_use {bs : List UInt8} {is : List Instr} (h : Assembles bs is) (k : Fin 8) (i : ℤ)
    (c : Jit) : Emits is [k] i c ((c.use k i).emit bs) :=
  ⟨bs, h, rfl, rfl, funext fun j => update_eq_ite c.registerUsage i k j⟩

theorem emits_memory {op : List UInt8} {f : Reg → Operand → Instr}
    {F : Reg → Operand → Option Instr}
    (hpre : ∀ bs, decode (op ++ bs) = regOperand ⟨true, true, false, false⟩ F bs)
    (hF : ∀ r o, F r o = some (f r o)) (instr : Instruction) (i : ℤ) (c : Jit) :
    Emits (memoryInstrs f instr) [instr.idst] i c (handler.memory op instr i c) := by
  unfold handler.memory memoryInstrs
  dsimp only
  split_ifs with h
  · apply emits_use
    rw [List.append_assoc, List.append_assoc]
    exact .append (assembles_genAddressReg instr true)
      (.single (encodes_regOperand _ _ hpre (emitByte_add_sib instr.idst) (hF _ _)))
  · apply emits_use
    rw [List.append_assoc]
    exact .single (encodes_regOperand _ _ hpre (emitByte_disp instr.idst _) (hF _ _))

theorem encodes_mov_rax (k : Fin 8) :
    Encodes (REX_MOV_RR64 ++ emitByte (0xc0 + k)) (.load .w64 0 (.reg (gp k))) :=
  encodes_regOperand ⟨true, false, false, true⟩ (Form.load .w64) (fun _ => rfl)
    (denotes_reg (r := 0) (by omega) (by decide) k.isLt _) rfl

theorem encodes_mov_rdx (k : Fin 8) :
    Encodes (REX_MOV_R64R ++ emitByte (0xc2 + 8 * k)) (.load .w64 (gp k) (.reg 2)) :=
  encodes_regOperand ⟨true, true, false, false⟩ (Form.load .w64) (fun _ => rfl)
    (denotes_reg (r := k.val) (m := 2) (by omega) k.isLt (by decide) _) rfl

/-- The field of the wide multiplications. -/
def wideField (signed : Bool) : ℕ := if signed then 5 else 4

theorem unary_wide (signed : Bool) (o : Operand) (rest : List UInt8) :
    Group.unary (wideField signed) o rest = some (.mulWide signed o, rest) := by
  cases signed <;> rfl

theorem wideField_lt (signed : Bool) : wideField signed < 8 := by cases signed <;> decide

theorem encodes_mul_reg (signed : Bool) (k : Fin 8) :
    Encodes (REX_MUL_R ++ emitByte (192 + 8 * wideField signed + k))
      (.mulWide signed (.reg (gp k))) :=
  encodes_group ⟨true, false, false, true⟩ Group.unary (fun _ => rfl)
    (denotes_reg rfl (wideField_lt signed) k.isLt _) (unary_wide signed _)

theorem encodes_mul_disp (signed : Bool) (d : BitVec 32) :
    Encodes (REX_MUL_M ++ (emitByte (0x86 + 8 * wideField signed) ++ emit32 d))
      (.mulWide signed (.mem (atOffset d))) :=
  encodes_group ⟨true, false, false, false⟩ Group.unary (fun _ => rfl)
    (denotes_disp (b := 0x86 + 8 * wideField signed) (m := 6) (by omega) (wideField_lt signed)
      (by decide) (by decide) _ d) (unary_wide signed _)

/-- The upper half of a product with a register. -/
def highRegInstrs (signed : Bool) (instr : Instruction) : List Instr :=
  [.load .w64 0 (.reg (gp instr.idst)), .mulWide signed (.reg (gp instr.isrc)),
    .load .w64 (gp instr.idst) (.reg 2)]

theorem emits_highReg (signed : Bool) (instr : Instruction) (i : ℤ) (c : Jit) :
    Emits (highRegInstrs signed instr) [instr.idst] i c
      (handler.highReg (192 + 8 * wideField signed) instr i c) := by
  apply emits_use
  have h : Assembles _ (highRegInstrs signed instr) := .cons (encodes_mov_rax instr.idst)
    (.cons (encodes_mul_reg signed instr.isrc) (.single (encodes_mov_rdx instr.idst)))
  exact h.of_eq (by simp only [List.append_assoc])

/-- The upper half of a product with a word of the scratchpad. -/
def highMemoryInstrs (signed : Bool) (instr : Instruction) : List Instr :=
  if instr.isrc ≠ instr.idst then
    addressInstrs 1 instr.isrc instr.imm32 (levelMask instr) ++
      [.load .w64 0 (.reg (gp instr.idst)), .mulWide signed (.mem (atIndex 1)),
        .load .w64 (gp instr.idst) (.reg 2)]
  else
    [.load .w64 0 (.reg (gp instr.idst)),
      .mulWide signed (.mem (atOffset (instr.imm32 &&& ScratchpadL3Mask))),
      .load .w64 (gp instr.idst) (.reg 2)]

theorem emits_highMemory {signed : Bool} {mem : List UInt8}
    (hmem : Encodes mem (.mulWide signed (.mem (atIndex 1)))) (instr : Instruction)
    (i : ℤ) (c : Jit) :
    Emits (highMemoryInstrs signed instr) [instr.idst] i c
      (handler.highMemory mem (0x86 + 8 * wideField signed) instr i c) := by
  apply emits_use
  unfold highMemoryInstrs
  split_ifs with h
  · have hbs := (assembles_genAddressReg instr false).append
      (.cons (encodes_mov_rax instr.idst) (.cons hmem (.single (encodes_mov_rdx instr.idst))))
    exact hbs.of_eq (by simp only [List.append_assoc])
  · have hbs := Assembles.cons (encodes_mov_rax instr.idst)
      (.cons (encodes_mul_disp signed (instr.imm32 &&& ScratchpadL3Mask))
        (.single (encodes_mov_rdx instr.idst)))
    exact hbs.of_eq (by simp only [List.append_assoc, genAddressImm])

theorem encodes_mov_ecx (k : Fin 8) :
    Encodes (REX_MOV_RR ++ emitByte (0xc8 + k)) (.load .w32 1 (.reg (gp k))) :=
  encodes_regOperand ⟨false, false, false, true⟩ (Form.load .w32) (fun _ => rfl)
    (denotes_reg (r := 1) (by omega) (by decide) k.isLt _) rfl

/-- The field of the rotations. -/
def rotateField (left : Bool) : ℕ := if left then 0 else 1

theorem rotateField_lt (left : Bool) : rotateField left < 8 := by cases left <;> decide

theorem encodes_rotate_cl (left : Bool) (k : Fin 8) :
    Encodes (REX_ROT_CL ++ emitByte (192 + 8 * rotateField left + k)) (.rotate left (gp k) .cl) :=
  encodes_group ⟨true, false, false, true⟩ (Group.shiftCl ⟨true, false, false, true⟩) (fun _ => rfl)
    (denotes_reg rfl (rotateField_lt left) k.isLt _) (fun _ => by cases left <;> rfl)

theorem emitByte_eq (n : ℕ) : emitByte n = bytes 1 (BitVec.ofNat 8 n) := by
  rw [emitByte, bytes, List.range_one, List.map_singleton, byte]
  congr 1
  rw [← UInt8.toBitVec_inj]
  exact (BitVec.extractLsb'_eq_self).symm

theorem encodes_rotate_imm {p : List UInt8} {bit : Bool}
    (hpre : ∀ bs, decode (p ++ bs) =
      groupOperand ⟨true, false, false, bit⟩ (Group.shiftImm ⟨true, false, false, bit⟩) bs)
    (left : Bool) {m : ℕ} (hm : m < 8) (n : ℕ) :
    Encodes (p ++ (emitByte (192 + 8 * rotateField left + m) ++ emitByte n))
      (.rotate left (ext bit m) (.imm (BitVec.ofNat 8 n))) := by
  rw [← List.append_assoc, emitByte_eq n]
  refine encodes_groupOperand _ _ hpre (denotes_reg rfl (rotateField_lt left) hm _) fun rest => ?_
  rw [Group.shiftImm, take_bytes (n := 1) (BitVec.ofNat 8 n) rest]
  cases left <;> rfl

/-- A rotation by a register, or by an immediate. -/
def rotationInstrs (left : Bool) (instr : Instruction) : List Instr :=
  if instr.isrc ≠ instr.idst then
    [.load .w32 1 (.reg (gp instr.isrc)), .rotate left (gp instr.idst) .cl]
  else [.rotate left (gp instr.idst) (.imm (BitVec.ofNat 8 (instr.imm32 &&& 63).toNat))]

theorem emits_rotation (left : Bool) (instr : Instruction) (i : ℤ) (c : Jit) :
    Emits (rotationInstrs left instr) [instr.idst] i c
      (handler.rotation (192 + 8 * rotateField left) instr i c) := by
  unfold handler.rotation rotationInstrs
  dsimp only
  split_ifs with h
  · apply emits_use
    have hbs := Assembles.cons (encodes_mov_ecx instr.isrc)
      (.single (encodes_rotate_cl left instr.idst))
    exact hbs.of_eq (by simp only [List.append_assoc])
  · apply emits_use
    rw [List.append_assoc]
    exact .single (encodes_rotate_imm (fun _ => rfl) left instr.idst.isLt _)

/-- A register modified by another, or by an immediate. -/
def regOrImmInstrs (f : Reg → Operand → Instr) (g : Reg → BitVec 64 → Instr) (instr : Instruction) :
    List Instr :=
  if instr.isrc ≠ instr.idst then [f (gp instr.idst) (.reg (gp instr.isrc))]
  else [g (gp instr.idst) (instr.imm32.signExtend 64)]

theorem encodes_regs {pre : List UInt8} {f : Reg → Operand → Instr}
    {F : Reg → Operand → Option Instr}
    (hpre : ∀ bs, decode (pre ++ bs) = regOperand ⟨true, true, false, true⟩ F bs)
    (hF : ∀ r o, F r o = some (f r o)) (d s : Fin 8) :
    Encodes (pre ++ emitByte (0xc0 + 8 * d + s)) (f (gp d) (.reg (gp s))) :=
  encodes_regOperand _ _ hpre (denotes_reg rfl d.isLt s.isLt _) (hF _ _)

theorem encodes_81 {op : Alu} {r b : ℕ} (hop : Group.aluOf r = some op) (k : Fin 8)
    (hb : b = 192 + 8 * r + k) (hr : r < 8) (imm : BitVec 32) :
    Encodes ([0x49, 0x81] ++ emitByte b ++ emit32 imm)
      (.aluImm op .w64 (gp k) (imm.signExtend 64)) :=
  encodes_aluImm ⟨true, false, false, true⟩ .w64 (fun _ => rfl) hop hb hr k.isLt imm

/-! Vector registers. -/

theorem encodes_vector (rex : Rex) {pre : List UInt8} {f : Reg → Reg → Instr}
    (hpre : ∀ bs, decode (pre ++ bs) = regOperand rex (Form.regs f) bs) {b r m : ℕ}
    (hb : b = 192 + 8 * r + m) (hr : r < 8) (hm : m < 8) :
    Encodes (pre ++ emitByte b) (f (ext rex.r r) (ext rex.b m)) :=
  encodes_regOperand _ _ hpre (denotes_reg hb hr hm rex) rfl

theorem emits_floatReg {op : List UInt8} {p : Packed}
    (hop : ∀ bs, decode (op ++ bs) =
      regOperand ⟨false, false, false, true⟩ (Form.regs (.packed p)) bs)
    {modrm r : ℕ} (hr : modrm = 192 + 8 * r) (hr' : r ≤ 4) (instr : Instruction) (i : ℤ) (c : Jit) :
    Emits [.packed p (ext false (r + instr.fdst)) (xa instr.fsrc)] [] i c
      (handler.floatReg op modrm instr c) :=
  emits_emit (.single (encodes_vector _ (r := r + instr.fdst) (m := instr.fsrc) hop (by omega)
    (by omega) (by omega))) i c

theorem encodes_cvtdq2pd : Encodes REX_CVTDQ2PD_XMM12 (.cvtdq2pd 12 (atIndex 0)) := fun _ => rfl

/-- Two integers of the scratchpad are converted before the instructions. -/
def floatMemoryInstrs (is : List Instr) (instr : Instruction) : List Instr :=
  addressInstrs 0 instr.isrc instr.imm32 (levelMask instr) ++ (.cvtdq2pd 12 (atIndex 0) :: is)

theorem emits_floatMemory {op : List UInt8} {is : List Instr} {modrm : ℕ} {instr : Instruction}
    (hop : Assembles (op ++ emitByte (modrm + 8 * instr.fdst)) is) (i : ℤ) (c : Jit) :
    Emits (floatMemoryInstrs is instr) [] i c (handler.floatMemory op modrm instr c) := by
  apply emits_emit
  have h : Assembles _ (floatMemoryInstrs is instr) :=
    (assembles_genAddressReg instr true).append (.cons encodes_cvtdq2pd hop)
  exact h.of_eq (by simp only [List.append_assoc])

/-! ### The other handlers -/

def addRsInstrs (instr : Instruction) : List Instr :=
  [.lea .w64 (gp instr.idst)
    ⟨some (gp instr.idst), some (gp instr.isrc, instr.getModShift),
      if instr.idst = RegisterNeedsDisplacement then instr.imm32 else 0⟩]

theorem getModShift_lt (instr : Instruction) : instr.getModShift < 4 := Nat.mod_lt _ (by decide)

theorem genSIB_eq {scale : ℕ} (hscale : scale < 4) (index base : Fin 8) :
    scale <<< 6 ||| index.val <<< 3 ||| base.val = 64 * scale + 8 * index + base := by
  have h : ∀ (s : Fin 4) (i b : Fin 8),
      s.val <<< 6 ||| i.val <<< 3 ||| b.val = 64 * s.val + 8 * i.val + b.val := by decide
  exact h ⟨scale, hscale⟩ index base

theorem emits_IADD_RS (instr : Instruction) (i : ℤ) (c : Jit) :
    Emits (addRsInstrs instr) [instr.idst] i c (h_IADD_RS instr i c) := by
  apply emits_use
  unfold addRsInstrs
  have hsib := genSIB_eq (getModShift_lt instr) instr.isrc instr.idst
  by_cases h : instr.idst = RegisterNeedsDisplacement
  · rw [if_pos h, if_pos h, if_pos h]
    have hd : 0xac = 128 + 8 * instr.idst.val + 4 := by rw [h]; rfl
    have hbs := encodes_regOperand ⟨true, true, true, true⟩ (Form.lea .w64) (p := REX_LEA)
      (fun _ => rfl) (denotes_sib_disp hd instr.idst.isLt hsib (getModShift_lt instr)
        instr.isrc.isLt
        instr.idst.isLt _ (.inr rfl) instr.imm32) rfl
    exact (Assembles.single hbs).of_eq (by simp [emitByte, genSIB, emit32])
  · have h5 : instr.idst.val ≠ 5 := fun h5 => h (Fin.ext h5)
    rw [if_neg h, if_neg h, if_neg h, List.append_nil]
    have hbs := encodes_regOperand ⟨true, true, true, true⟩ (Form.lea .w64) (p := REX_LEA)
      (fun _ => rfl) (denotes_sib (b := 0x04 + 8 * instr.idst) (by omega) instr.idst.isLt hsib
        (getModShift_lt instr) instr.isrc.isLt instr.idst.isLt h5 _ (.inr rfl)) rfl
    exact (Assembles.single hbs).of_eq (by simp [emitByte, genSIB])

theorem emits_ISUB_R (instr : Instruction) (i : ℤ) (c : Jit) :
    Emits (regOrImmInstrs (.alu .sub .w64) (.aluImm .sub .w64) instr) [instr.idst] i c
      (h_ISUB_R instr i c) := by
  unfold h_ISUB_R regOrImmInstrs
  dsimp only
  split_ifs
  · exact emits_use (.single (encodes_regs (fun _ => rfl) (fun _ _ => rfl) _ _)) ..
  · exact emits_use (.single (encodes_81 (r := 5) rfl _ (by omega) (by decide) _)) ..

theorem emits_IXOR_R (instr : Instruction) (i : ℤ) (c : Jit) :
    Emits (regOrImmInstrs (.alu .xor .w64) (.aluImm .xor .w64) instr) [instr.idst] i c
      (h_IXOR_R instr i c) := by
  unfold h_IXOR_R regOrImmInstrs
  dsimp only
  split_ifs
  · exact emits_use (.single (encodes_regs (fun _ => rfl) (fun _ _ => rfl) _ _)) ..
  · exact emits_use (.single (encodes_81 (r := 6) rfl _ (by omega) (by decide) _)) ..

theorem encodes_imulImm (k : Fin 8) (imm : BitVec 32) :
    Encodes (REX_IMUL_RRI ++ emitByte (0xc0 + 9 * k) ++ emit32 imm)
      (.imulImm .w64 (gp k) (.reg (gp k)) (imm.signExtend 64)) := by
  apply encodes_groupOperand ⟨true, true, false, true⟩ (Group.imulImm ⟨true, true, false, true⟩)
    (fun _ => rfl) (denotes_reg (r := k) (m := k) (by omega) k.isLt k.isLt _)
  intro rest
  rw [Group.imulImm, emit32, immediate_bytes]
  rfl

theorem emits_IMUL_R (instr : Instruction) (i : ℤ) (c : Jit) :
    Emits (regOrImmInstrs (.imul .w64) (fun r => .imulImm .w64 r (.reg r)) instr) [instr.idst] i c
      (h_IMUL_R instr i c) := by
  unfold h_IMUL_R regOrImmInstrs
  dsimp only
  split_ifs
  · exact emits_use (.single (encodes_regs (fun _ => rfl) (fun _ _ => rfl) _ _)) ..
  · exact emits_use (.single (encodes_imulImm _ _)) ..

def mulRcpInstrs (u : Units) (instr : Instruction) : List Instr :=
  if isZeroOrPowerOf2 (instr.imm32.setWidth 64) then []
  else [.movImm .w64 0 (randomx_reciprocal_fast u instr.imm32), .imul .w64 (gp instr.idst) (.reg 0)]

theorem encodes_mov_imm (v : BitVec 64) : Encodes (MOV_RAX_I ++ emit64 v) (.movImm .w64 0 v) :=
  encodes_imm (n := 8) (f := fun v => .movImm .w64 0 v) (fun _ => rfl) v

theorem encodes_imul_rax (k : Fin 8) :
    Encodes (REX_IMUL_RM ++ emitByte (0xc0 + 8 * k)) (.imul .w64 (gp k) (.reg 0)) :=
  encodes_regOperand ⟨true, true, false, false⟩ (Form.imul .w64) (fun _ => rfl)
    (denotes_reg (r := k) (m := 0) (by omega) k.isLt (by decide) _) rfl

theorem encodes_neg (k : Fin 8) : Encodes (REX_NEG ++ emitByte (0xd8 + k)) (.neg (gp k)) :=
  encodes_group ⟨true, false, false, true⟩ Group.unary (fun _ => rfl)
    (denotes_reg (r := 3) (m := k) (by omega) (by decide) k.isLt _) (fun _ => rfl)

def swapInstrs (instr : Instruction) : List Instr :=
  if instr.isrc ≠ instr.idst then [.xchg (gp instr.idst) (gp instr.isrc)] else []

theorem encodes_xchg (d s : Fin 8) :
    Encodes (REX_XCHG ++ emitByte (0xc0 + s + 8 * d)) (.xchg (gp d) (gp s)) :=
  encodes_vector ⟨true, true, false, true⟩ (f := .xchg) (fun _ => rfl)
    (r := d) (m := s) (by omega) d.isLt s.isLt

theorem encodes_shufpd (k : Fin 8) :
    Encodes (SHUFPD ++ emitByte (0xc0 + 9 * k) ++ emitByte 1)
      (.shufpd (ext false k) (ext false k) 1) := by
  rw [emitByte_eq 1]
  apply encodes_groupOperand ⟨false, false, false, false⟩
    (Group.shufpd ⟨false, false, false, false⟩)
    (fun _ => rfl) (denotes_reg (r := k) (m := k) (by omega) k.isLt k.isLt _)
  intro rest
  rw [Group.shufpd, take_bytes (n := 1) (BitVec.ofNat 8 1) rest]
  rfl

theorem emits_IMUL_RCP (u : Units) (instr : Instruction) (i : ℤ) (c : Jit) :
    Emits (mulRcpInstrs u instr)
      (if isZeroOrPowerOf2 (instr.imm32.setWidth 64) then [] else [instr.idst]) i c
      (h_IMUL_RCP u instr i c) := by
  unfold h_IMUL_RCP mulRcpInstrs
  split_ifs
  · exact emits_nothing ..
  · apply emits_use
    have h := Assembles.cons (encodes_mov_imm (randomx_reciprocal_fast u instr.imm32))
      (.single (encodes_imul_rax instr.idst))
    exact h.of_eq (by simp only [List.append_assoc])

theorem emits_ISWAP_R (instr : Instruction) (i : ℤ) (c : Jit) :
    Emits (swapInstrs instr) (if instr.isrc ≠ instr.idst then [instr.idst, instr.isrc] else []) i c
      (h_ISWAP_R instr i c) := by
  unfold h_ISWAP_R swapInstrs
  split_ifs
  · refine ⟨_, .single (encodes_xchg instr.idst instr.isrc), rfl, rfl, funext fun k => ?_⟩
    simp only [Jit.emit, Jit.use, Function.update_apply, List.mem_cons, List.not_mem_nil, or_false]
    split_ifs <;> simp_all
  · exact emits_nothing ..

theorem encodes_fscal (k : Fin 4) :
    Encodes (REX_XORPS ++ emitByte (0xc7 + 8 * k)) (.logic .xor (xf k) 15) :=
  encodes_vector ⟨false, false, false, true⟩ (f := .logic .xor) (fun _ => rfl) (r := k)
    (m := 7) (by omega) (by omega) (by decide)

theorem encodes_fsqrt (k : Fin 4) :
    Encodes (SQRTPD ++ emitByte (0xe4 + 9 * k)) (.sqrtpd (xe k) (xe k)) :=
  encodes_vector ⟨false, false, false, false⟩ (f := .sqrtpd) (fun _ => rfl) (r := 4 + k)
    (m := 4 + k) (by omega) (by omega) (by omega)

/-- The rounding mode is loaded from the stack. -/
def roundingInstrs : List Instr :=
  [.aluImm .and .w32 0 0x6000, .aluImm .or .w32 0 0x9fc0, .store .w32 ⟨some 4, none, 0⟩ 0,
    .ldmxcsr ⟨some 4, none, 0⟩]

theorem encodes_or_eax (imm : BitVec 32) :
    Encodes ([0x0d] ++ emit32 imm) (.aluImm .or .w32 0 (imm.signExtend 64)) :=
  encodes_imm (n := 4) (f := fun v => .aluImm .or .w32 0 (v.signExtend 64)) (fun _ => rfl) imm

theorem assembles_rounding : Assembles AND_OR_MOV_LDMXCSR roundingInstrs :=
  .cons (encodes_and_eax 0x6000) (.cons (encodes_or_eax 0x9fc0)
    (.cons (b := [0x89, 0x04, 0x24]) (fun _ => rfl)
      (.cons (b := [0x0f, 0xae, 0x14, 0x24]) (fun _ => rfl) .nil)))

/-- A register, rotated such that the bits of the rounding mode are where they belong. -/
def rotatedInstrs (instr : Instruction) : List Instr :=
  let rotate := (13 + 64 - (instr.imm32 &&& 63).toNat) % 64
  .load .w64 0 (.reg (gp instr.isrc)) ::
    if rotate ≠ 0 then [.rotate true 0 (.imm (BitVec.ofNat 8 rotate))] else []

def skipInstrs : List Instr := [.test .w32 0 0x78000, .jcc false 17]

def cfroundInstrs (flags : Flags) (instr : Instruction) : List Instr :=
  rotatedInstrs instr ++ (if flags.v2 then skipInstrs else []) ++ roundingInstrs

/-- The bytes of a register that is rotated. -/
def rotatedBytes (instr : Instruction) : List UInt8 :=
  let rotate := (13 + 64 - (instr.imm32 &&& 63).toNat) % 64
  REX_MOV_RR64 ++ emitByte (0xc0 + instr.isrc) ++
    if rotate ≠ 0 then ROL_RAX ++ emitByte rotate else []

def skipBytes : List UInt8 := TEST_EAX_60SL13 ++ JNZ_SHORT ++ emitByte AND_OR_MOV_LDMXCSR.length

def cfroundBytes (flags : Flags) (instr : Instruction) : List UInt8 :=
  rotatedBytes instr ++ (if flags.v2 then skipBytes else []) ++ AND_OR_MOV_LDMXCSR

theorem encodes_test_eax (imm : BitVec 32) :
    Encodes ([0xa9] ++ emit32 imm) (.test .w32 0 (imm.signExtend 64)) :=
  encodes_imm (n := 4) (f := fun v => .test .w32 0 (v.signExtend 64)) (fun _ => rfl) imm

theorem encodes_jnz (rel : BitVec 8) : Encodes (JNZ_SHORT ++ bytes 1 rel)
    (.jcc false (rel.signExtend 32)) :=
  encodes_imm (n := 1) (f := fun v : BitVec 8 => .jcc false (v.signExtend 32)) (fun _ => rfl) rel

theorem assembles_skip : Assembles skipBytes skipInstrs := by
  have h : Assembles _ skipInstrs := .cons (encodes_test_eax 0x78000) (.single (encodes_jnz 17))
  exact h.of_eq rfl

theorem assembles_rotated (instr : Instruction) :
    Assembles (rotatedBytes instr) (rotatedInstrs instr) := by
  unfold rotatedBytes rotatedInstrs
  dsimp only
  apply Assembles.cons (encodes_mov_rax instr.isrc)
  split_ifs
  · exact .single (encodes_rotate_imm (p := [0x48, 0xc1]) (fun _ =>
      rfl) true (m := 0) (by decide) _)
  · exact .nil

theorem emits_CFROUND (flags : Flags) (instr : Instruction) (i : ℤ) (c : Jit) :
    Emits (cfroundInstrs flags instr) [] i c (h_CFROUND flags instr c) := by
  apply emits_emit
  unfold cfroundInstrs
  refine .append (.append (assembles_rotated instr) ?_) assembles_rounding
  split_ifs
  · exact assembles_skip
  · exact .nil

def storeInstrs (instr : Instruction) : List Instr :=
  addressInstrs 0 instr.idst instr.imm32
      (if instr.getModCond < StoreL3Condition then levelMask instr else ScratchpadL3Mask) ++
    [.store .w64 (atIndex 0) (gp instr.isrc)]

theorem emits_ISTORE (instr : Instruction) (i : ℤ) (c : Jit) :
    Emits (storeInstrs instr) [] i c (h_ISTORE instr c) := by
  apply emits_emit
  have hmask : (if instr.getModCond < StoreL3Condition then emit32 (levelMask instr)
      else emit32 ScratchpadL3Mask) =
      emit32 (if instr.getModCond < StoreL3Condition then levelMask instr
        else ScratchpadL3Mask) := by
    split_ifs <;> rfl
  have h : Assembles _ (storeInstrs instr) :=
    .append (.cons (encodes_lea 0 (by decide) instr.idst instr.imm32) (.single (encodes_and_eax _)))
      (.single (encodes_regOperand ⟨true, true, false, false⟩ (Form.store .w64) (p := REX_MOV_MR)
        (fun _ => rfl) (emitByte_add_sib instr.isrc) rfl))
  exact h.of_eq (by simp only [genAddressRegDst, hmask, List.append_assoc,
    Nat.mul_zero, Nat.add_zero])

/-- A register is added to, tested, and the jump taken. -/
def cbranchInstrs (instr : Instruction) (rel : BitVec 32) : List Instr :=
  let shift := instr.getModCond + ConditionOffset
  let imm := (instr.imm32 ||| (1#32 <<< shift)) &&& ~~~(1#32 <<< (shift - 1))
  [.aluImm .add .w64 (gp instr.idst) (imm.signExtend 64),
    .test .w64 (gp instr.idst) ((ConditionMask <<< shift).signExtend 64), .jcc true rel]

theorem encodes_test (k : Fin 8) (imm : BitVec 32) :
    Encodes (REX_TEST ++ emitByte (0xc0 + k) ++ emit32 imm)
      (.test .w64 (gp k) (imm.signExtend 64)) := by
  apply encodes_groupOperand ⟨true, false, false, true⟩ Group.unary (fun _ => rfl)
    (denotes_reg (r := 0) (m := k) (by omega) (by decide) k.isLt _)
  intro rest
  rw [Group.unary, emit32, immediate_bytes]
  rfl

theorem encodes_jz (rel : BitVec 32) : Encodes (JZ ++ emit32 rel) (.jcc true rel) :=
  encodes_imm (n := 4) (f := .jcc true) (fun _ => rfl) rel

/-- The distance of a jump: from the end of its code to the instruction after the last that modifies
its register. -/
def distance (instr : Instruction) (c : Jit) (next : ℕ) : BitVec 32 :=
  BitVec.ofInt 32 (c.instructionOffsets.getD (c.registerUsage instr.idst + 1).toNat 0 - next)

/-- What comes before the distance. -/
def cbranchBytes (instr : Instruction) : List UInt8 :=
  let shift := instr.getModCond + ConditionOffset
  let imm := (instr.imm32 ||| (1#32 <<< shift)) &&& ~~~(1#32 <<< (shift - 1))
  REX_ADD_I ++ emitByte (0xc0 + instr.idst) ++ emit32 imm ++
    REX_TEST ++ emitByte (0xc0 + instr.idst) ++ emit32 (ConditionMask <<< shift) ++ JZ

theorem h_CBRANCH_code (instr : Instruction) (i : ℤ) (c : Jit) :
    (h_CBRANCH instr i c).code = c.code ++ cbranchBytes instr ++
      emit32 (distance instr c ((c.code ++ cbranchBytes instr).length + 4)) := rfl

theorem emits_CBRANCH (instr : Instruction) (i : ℤ) (c : Jit) :
    Emits (cbranchInstrs instr (distance instr c (h_CBRANCH instr i c).code.length))
      (List.finRange 8) i c (h_CBRANCH instr i c) := by
  have hlen : (h_CBRANCH instr i c).code.length = (c.code ++ cbranchBytes instr).length + 4 := by
    rw [h_CBRANCH_code, List.length_append, emit32, length_bytes]
  have h : Assembles _ (cbranchInstrs instr (distance instr c (h_CBRANCH instr i c).code.length)) :=
    .cons (encodes_81 (r := 0) (b := 0xc0 + instr.idst) rfl instr.idst (by omega) (by decide) _)
      (.cons (encodes_test instr.idst _) (.single (encodes_jz _)))
  refine ⟨_, h, ?_, rfl, by simp [h_CBRANCH]⟩
  rw [hlen, h_CBRANCH_code, List.append_assoc]
  simp only [cbranchBytes, List.append_assoc]
  rfl

/-! ### Every instruction -/

/-- The x86 instructions for an instruction, whose jump goes to a distance. -/
def jitInstrs (u : Units) (flags : Flags) (instr : Instruction) (rel : BitVec 32) : List Instr :=
  match opcodeType instr.opcode with
  | .IADD_RS => addRsInstrs instr
  | .IADD_M => memoryInstrs (.alu .add .w64) instr
  | .ISUB_R => regOrImmInstrs (.alu .sub .w64) (.aluImm .sub .w64) instr
  | .ISUB_M => memoryInstrs (.alu .sub .w64) instr
  | .IMUL_R => regOrImmInstrs (.imul .w64) (fun r => .imulImm .w64 r (.reg r)) instr
  | .IMUL_M => memoryInstrs (.imul .w64) instr
  | .IMULH_R => highRegInstrs false instr
  | .IMULH_M => highMemoryInstrs false instr
  | .ISMULH_R => highRegInstrs true instr
  | .ISMULH_M => highMemoryInstrs true instr
  | .IMUL_RCP => mulRcpInstrs u instr
  | .INEG_R => [.neg (gp instr.idst)]
  | .IXOR_R => regOrImmInstrs (.alu .xor .w64) (.aluImm .xor .w64) instr
  | .IXOR_M => memoryInstrs (.alu .xor .w64) instr
  | .IROR_R => rotationInstrs false instr
  | .IROL_R => rotationInstrs true instr
  | .ISWAP_R => swapInstrs instr
  | .FSWAP_R => [.shufpd (ext false instr.idst) (ext false instr.idst) 1]
  | .FADD_R => [.packed .add (xf instr.fdst) (xa instr.fsrc)]
  | .FADD_M => floatMemoryInstrs [.packed .add (xf instr.fdst) 12] instr
  | .FSUB_R => [.packed .sub (xf instr.fdst) (xa instr.fsrc)]
  | .FSUB_M => floatMemoryInstrs [.packed .sub (xf instr.fdst) 12] instr
  | .FSCAL_R => [.logic .xor (xf instr.fdst) 15]
  | .FMUL_R => [.packed .mul (xe instr.fdst) (xa instr.fsrc)]
  | .FDIV_M =>
    floatMemoryInstrs [.logic .and 12 13, .logic .or 12 14, .packed .div (xe instr.fdst) 12] instr
  | .FSQRT_R => [.sqrtpd (xe instr.fdst) (xe instr.fdst)]
  | .CBRANCH => cbranchInstrs instr rel
  | .CFROUND => cfroundInstrs flags instr
  | .ISTORE => storeInstrs instr
  | .NOP => [.nop]

theorem engine_eq (opcode : UInt8) : engine.getD opcode.toNat .NOP = opcodeType opcode := by
  have h : ∀ n < 256, engine.getD n .NOP = opcodeType (UInt8.ofNat n) := by decide +kernel
  simpa using h opcode.toNat opcode.toNat_lt

theorem emits_floatReg_low {op : List UInt8} {p : Packed}
    (hop : ∀ bs, decode (op ++ bs) =
      regOperand ⟨false, false, false, true⟩ (Form.regs (.packed p)) bs)
    (instr : Instruction) (i : ℤ) (c : Jit) :
    Emits [.packed p (xf instr.fdst) (xa instr.fsrc)] [] i c
      (handler.floatReg op 0xc0 instr c) := by
  have h := emits_floatReg (r := 0) hop rfl (by decide) instr i c
  rwa [Nat.zero_add] at h

theorem emits_floatMemory_packed {op : List UInt8} {p : Packed}
    (hop : ∀ bs, decode (op ++ bs) =
      regOperand ⟨false, false, false, true⟩ (Form.regs (.packed p)) bs)
    (instr : Instruction) (i : ℤ) (c : Jit) :
    Emits (floatMemoryInstrs [.packed p (xf instr.fdst) 12] instr) [] i c
      (handler.floatMemory op 0xc4 instr c) :=
  emits_floatMemory (.single (encodes_vector _ (r := instr.fdst) (m := 4) hop (by omega) (by omega)
    (by decide))) i c

theorem assembles_fdiv (k : Fin 4) :
    Assembles (REX_ANDPS_XMM12 ++ REX_DIVPD ++ emitByte (0xe4 + 8 * k))
      [.logic .and 12 13, .logic .or 12 14, .packed .div (xe k) 12] := by
  have hdiv : Encodes (REX_DIVPD ++ emitByte (0xe4 + 8 * k)) (.packed .div (xe k) 12) :=
    encodes_vector ⟨false, false, false, true⟩ (f := .packed .div) (fun _ => rfl)
      (r := 4 + k) (m := 4) (by omega) (by omega) (by decide)
  have h : Assembles _ [.logic .and 12 13, .logic .or 12 14, .packed .div (xe k) 12] :=
    .cons (b := [0x45, 0x0f, 0x54, 0xe5]) (fun _ => rfl)
      (.cons (b := [0x45, 0x0f, 0x56, 0xe6]) (fun _ => rfl) (.single hdiv))
  exact h.of_eq rfl

/-- What `generateCode` adds to the code buffer are the instructions of the table. -/
theorem emits_generateCode (u : Units) (flags : Flags) (instr : Instruction) (i : ℤ) (c : Jit) :
    Emits (jitInstrs u flags instr (distance instr
        { c with instructionOffsets := c.instructionOffsets ++ [c.code.length] }
        (generateCode u flags instr i c).code.length)) (modified instr) i
      { c with instructionOffsets := c.instructionOffsets ++ [c.code.length] }
      (generateCode u flags instr i c) := by
  unfold generateCode jitInstrs modified
  rw [engine_eq]
  generalize { c with instructionOffsets := c.instructionOffsets ++ [c.code.length] } = c
  cases opcodeType instr.opcode with
  | IADD_RS => exact emits_IADD_RS ..
  | IADD_M | ISUB_M | IMUL_M | IXOR_M => exact emits_memory (fun _ => rfl) (fun _ _ => rfl) ..
  | ISUB_R => exact emits_ISUB_R ..
  | IMUL_R => exact emits_IMUL_R ..
  | IXOR_R => exact emits_IXOR_R ..
  | IMULH_R | ISMULH_R => exact emits_highReg ..
  | IMULH_M | ISMULH_M => exact emits_highMemory (fun _ => rfl) ..
  | IMUL_RCP => exact emits_IMUL_RCP ..
  | INEG_R => exact emits_use (.single (encodes_neg _)) ..
  | IROR_R | IROL_R => exact emits_rotation ..
  | ISWAP_R => exact emits_ISWAP_R ..
  | FSWAP_R => exact emits_emit (.single (encodes_shufpd _)) ..
  | FADD_R | FSUB_R =>
    exact emits_floatReg_low (by exact fun _ => rfl) ..
  | FMUL_R => exact emits_floatReg (r := 4) (by exact fun _ => rfl) rfl (by decide) ..
  | FADD_M | FSUB_M => exact emits_floatMemory_packed (by exact fun _ => rfl) ..
  | FDIV_M => exact emits_floatMemory (assembles_fdiv _) ..
  | FSCAL_R => exact emits_emit (.single (encodes_fscal _)) ..
  | FSQRT_R => exact emits_emit (.single (encodes_fsqrt _)) ..
  | CBRANCH => exact emits_CBRANCH ..
  | CFROUND => exact emits_CFROUND ..
  | ISTORE => exact emits_ISTORE ..
  | NOP => exact emits_emit (.single fun _ => rfl) ..

theorem generateCode_cfround (u : Units) (flags : Flags) {instr : Instruction}
    (htype : opcodeType instr.opcode = .CFROUND) (i : ℤ) (c : Jit) :
    (generateCode u flags instr i c).code = c.code ++ cfroundBytes flags instr := by
  unfold generateCode
  rw [engine_eq, htype]
  rfl

end NMiner.RandomX
