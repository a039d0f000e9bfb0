import NMiner.Lib.X86Memory
import NMiner.Proofs.Emission
import NMiner.Proofs.Words

/-! The compiled instructions do what the bytecode does: a machine that matches the virtual machine
before an instruction matches it after the x86 instructions that stand for it. -/

namespace NMiner.RandomX

open Word X86

variable {u : Units} {flags : Flags} {config : ProgramConfiguration} {m₀ : Machine}

/-- The mask of the scale instruction, in both lanes. -/
def scaleMask : Lanes := ⟨0x80F0000000000000, 0x80F0000000000000⟩

/-- The registers that a compiled program leaves as they are: the counter, the stack, the dataset
and the scratchpad. -/
def savedRegs : List Reg := [3, 4, 5, 6, 7]

/-- A machine that holds the state of the virtual machine: its registers, the scratchpad from `rsi`
on and the constants of the program. Of the registers and the memory of the machine before, it has
changed nothing else but the word on top of the stack. -/
structure Matches (config : ProgramConfiguration) (m₀ : Machine) (s : Vm) (m : Machine) : Prop where
  r : ∀ k, m.gpr (gp k) = s.r k
  f : ∀ k, m.xmm (xf k) = s.f k
  e : ∀ k, m.xmm (xe k) = s.e k
  a : ∀ k, m.xmm (xa k) = s.a k
  mantissa : m.xmm 13 = ⟨dynamicMantissaMask, dynamicMantissaMask⟩
  exponent : m.xmm 14 = config.eMask
  scale : m.xmm 15 = scaleMask
  mxcsr : m.mxcsr = s.mxcsr
  saved : ∀ r ∈ savedRegs, m.gpr r = m₀.gpr r
  scratchpad : ∀ i < ScratchpadSize, view m.mem (m₀.gpr 6) i = s.scratchpad i
  memory : ∀ x, ScratchpadSize ≤ (x - m₀.gpr 6).toNat → 4 ≤ (x - m₀.gpr 4).toNat →
    m.mem x = m₀.mem x

/-- The word on top of the stack is not in the scratchpad. -/
def Apart (m : Machine) : Prop :=
  ∀ i < ScratchpadSize, 4 ≤ (m.gpr 6 + BitVec.ofNat 64 i - m.gpr 4).toNat

/-! ### The registers are apart -/

theorem gp_injective : Function.Injective gp := by decide

theorem xf_injective : Function.Injective xf := by decide

theorem xe_injective : Function.Injective xe := by decide

theorem gp_ne_saved (k : Fin 8) : gp k ∉ savedRegs := by revert k; decide

theorem gp_ne_temp (k : Fin 8) {t : Reg} (ht : t.val < 3) : gp k ≠ t := by revert k t; decide

theorem saved_ne_temp {r t : Reg} (hr : r ∈ savedRegs) (ht : t.val < 3) : r ≠ t := by
  revert r t; decide

theorem xf_ne_xe (k j : Fin 4) : xf k ≠ xe j := by revert k j; decide

theorem xa_ne_xf (k j : Fin 4) : xa k ≠ xf j := by revert k j; decide

theorem xa_ne_xe (k j : Fin 4) : xa k ≠ xe j := by revert k j; decide

/-- The registers of a group and the constants are apart. -/
theorem low_ne_high (k : Fin 4) {t : Reg} (ht : 12 ≤ t.val) : xf k ≠ t ∧ xe k ≠ t ∧ xa k ≠ t := by
  revert k t; decide

/-- An update of a family of registers that stand for others. -/
theorem update_family {ι κ α : Type*} [DecidableEq ι] [DecidableEq κ] {g : ι → κ}
    (hg : Function.Injective g) {f : κ → α} {f' : ι → α} (h : ∀ j, f (g j) = f' j) (k : ι) (v : α)
    (j : ι) : Function.update f (g k) v (g j) = Function.update f' k v j := by
  by_cases hj : j = k
  · rw [hj, Function.update_self, Function.update_self]
  · rw [Function.update_of_ne (hg.ne hj), Function.update_of_ne hj, h]

/-! ### What keeps a machine matched -/

namespace Matches

variable {s : Vm} {m : Machine}

theorem setZf (h : Matches config m₀ s m) (z : Option Bool) : Matches config m₀ s (m.setZf z) :=
  { h with }

theorem setTemp (h : Matches config m₀ s m) {t : Reg} (ht : t.val < 3) (v : BitVec 64) :
    Matches config m₀ s (m.setReg t v) :=
  { h with
    r := fun k => (m.setReg_gpr_of_ne (gp_ne_temp k ht) v).trans (h.r k)
    saved := fun r hr => (m.setReg_gpr_of_ne (saved_ne_temp hr ht) v).trans (h.saved r hr) }

theorem setR (h : Matches config m₀ s m) (k : Fin 8) (v : BitVec 64) :
    Matches config m₀ (s.setR k v) (m.setReg (gp k) v) :=
  { h with
    r := update_family gp_injective h.r k v
    saved := fun r hr => by
      have hne : r ≠ gp k := fun heq => gp_ne_saved k (heq ▸ hr)
      exact (m.setReg_gpr_of_ne hne v).trans (h.saved r hr) }

theorem setF (h : Matches config m₀ s m) (k : Fin 4) (v : Lanes) :
    Matches config m₀ (s.setFlt (.f k) v) (m.setXmm (xf k) v) :=
  { h with
    f := update_family xf_injective h.f k v
    e := fun j => (m.setXmm_xmm_of_ne (xf_ne_xe k j).symm v).trans (h.e j)
    a := fun j => (m.setXmm_xmm_of_ne (xa_ne_xf j k) v).trans (h.a j)
    mantissa := (m.setXmm_xmm_of_ne (low_ne_high k (by decide)).1.symm v).trans h.mantissa
    exponent := (m.setXmm_xmm_of_ne (low_ne_high k (by decide)).1.symm v).trans h.exponent
    scale := (m.setXmm_xmm_of_ne (low_ne_high k (by decide)).1.symm v).trans h.scale }

theorem setE (h : Matches config m₀ s m) (k : Fin 4) (v : Lanes) :
    Matches config m₀ (s.setFlt (.e k) v) (m.setXmm (xe k) v) :=
  { h with
    e := update_family xe_injective h.e k v
    f := fun j => (m.setXmm_xmm_of_ne (xf_ne_xe j k) v).trans (h.f j)
    a := fun j => (m.setXmm_xmm_of_ne (xa_ne_xe j k) v).trans (h.a j)
    mantissa := (m.setXmm_xmm_of_ne (low_ne_high k (by decide)).2.1.symm v).trans h.mantissa
    exponent := (m.setXmm_xmm_of_ne (low_ne_high k (by decide)).2.1.symm v).trans h.exponent
    scale := (m.setXmm_xmm_of_ne (low_ne_high k (by decide)).2.1.symm v).trans h.scale }

/-- The register for what is loaded from the scratchpad. -/
theorem setLoaded (h : Matches config m₀ s m) (v : Lanes) : Matches config m₀ s (m.setXmm 12 v) :=
  { h with
    f := fun j => (m.setXmm_xmm_of_ne (low_ne_high j (by decide)).1 v).trans (h.f j)
    e := fun j => (m.setXmm_xmm_of_ne (low_ne_high j (by decide)).2.1 v).trans (h.e j)
    a := fun j => (m.setXmm_xmm_of_ne (low_ne_high j (by decide)).2.2 v).trans (h.a j)
    mantissa := (m.setXmm_xmm_of_ne (by decide : (13 : Reg) ≠ 12) v).trans h.mantissa
    exponent := (m.setXmm_xmm_of_ne (by decide : (14 : Reg) ≠ 12) v).trans h.exponent
    scale := (m.setXmm_xmm_of_ne (by decide : (15 : Reg) ≠ 12) v).trans h.scale }

theorem setMxcsr (h : Matches config m₀ s m) (v : BitVec 32) :
    Matches config m₀ { s with mxcsr := v } { m with mxcsr := v } :=
  { h with mxcsr := rfl }

theorem rsi (h : Matches config m₀ s m) : m.gpr 6 = m₀.gpr 6 := h.saved 6 (by decide)

theorem rsp (h : Matches config m₀ s m) : m.gpr 4 = m₀.gpr 4 := h.saved 4 (by decide)

/-- A store to the scratchpad. -/
theorem store (h : Matches config m₀ s m) {addr : ℕ} (haddr : addr + 8 ≤ ScratchpadSize)
    (v : BitVec 64) :
    Matches config m₀ { s with scratchpad := write 8 s.scratchpad addr v }
      (m.poke 8 (m₀.gpr 6 + BitVec.ofNat 64 addr) v) := by
  have hsize : ScratchpadSize < 2 ^ 62 := by decide
  refine { h with scratchpad := fun i hi => ?_, memory := fun x hx hx' => ?_ }
  · refine (view_poke m.mem (m₀.gpr 6) v (by omega) (by omega) (by decide)).trans ?_
    dsimp only [write]
    split_ifs
    · rfl
    · exact h.scratchpad i hi
  · refine (poke_of_le m.mem v ?_).trans (h.memory x hx hx')
    rw [toNat_sub_add x (m₀.gpr 6) (by omega)]
    omega

/-- A store on top of the stack. -/
theorem push (h : Matches config m₀ s m) (hapart : Apart m₀) (v : BitVec 64) :
    Matches config m₀ s (m.poke 4 (m₀.gpr 4) v) := by
  refine { h with scratchpad := fun i hi => ?_, memory := fun x hx hx' => ?_ }
  · exact (poke_of_le m.mem v (hapart i hi)).trans (h.scratchpad i hi)
  · exact (poke_of_le m.mem v hx').trans (h.memory x hx hx')

/-- What is loaded from the scratchpad. -/
theorem load (h : Matches config m₀ s m) {v : BitVec 64} (hv : v.toNat + 8 ≤ ScratchpadSize) :
    load64 m.mem (m₀.gpr 6 + v) = read 8 fun i => s.scratchpad (v.toNat + i) := by
  have hof : v = BitVec.ofNat 64 v.toNat := by rw [BitVec.ofNat_toNat, BitVec.setWidth_eq]
  conv_lhs => rw [hof, load64_add]
  exact read_congr fun i hi => h.scratchpad _ (by omega)

end Matches

/-! ### Addresses -/

theorem ea_atIndex (gpr : Reg → BitVec 64) (t : Reg) : (atIndex t).ea gpr = gpr 6 + gpr t := by
  change gpr 6 + gpr t <<< 0 + (0 : BitVec 32).signExtend 64 = _
  rw [BitVec.shiftLeft_zero, show (0 : BitVec 32).signExtend 64 = 0#64 by decide, BitVec.add_zero]

theorem ea_atOffset (gpr : Reg → BitVec 64) (d : BitVec 32) :
    (atOffset d).ea gpr = gpr 6 + d.signExtend 64 := by
  change gpr 6 + 0#64 + d.signExtend 64 = _
  rw [BitVec.add_zero]

/-- The address that a register, an immediate and a mask make. -/
def maskedAddress (x : BitVec 64) (imm mask : BitVec 32) : BitVec 64 :=
  (x + imm.signExtend 64) &&& mask.setWidth 64

theorem maskedAddress_le {mask : BitVec 32} (h : mask.toNat + 8 ≤ ScratchpadSize) (x : BitVec 64)
    (imm : BitVec 32) : (maskedAddress x imm mask).toNat + 8 ≤ ScratchpadSize := masked_le h

theorem msb_of_mask {mask : BitVec 32} (h : mask.toNat + 8 ≤ ScratchpadSize) :
    mask.msb = false := by
  have hsize : ScratchpadSize < 2 ^ 31 := by decide
  rw [BitVec.msb_eq_false_iff_two_mul_lt]
  omega

theorem getScratchpadAddress_eq (ibc : InstructionByteCode) (s : Vm) :
    getScratchpadAddress ibc s = ((ibc.source s + ibc.imm) &&& ibc.memMask.setWidth 64).toNat := by
  rw [getScratchpadAddress, BitVec.toNat_setWidth, Nat.mod_eq_of_lt (and_mask_lt _ _)]

namespace Matches

variable {s : Vm} {m : Machine}

theorem address (h : Matches config m₀ s m) {t : Reg} (ht : t.val < 3)
    (src : Fin 8) (imm : BitVec 32)
    {mask : BitVec 32} (hmask : mask.toNat + 8 ≤ ScratchpadSize) :
    ∃ m', block u (addressInstrs t src imm mask) m = some m' ∧ Matches config m₀ s m' ∧
      m'.gpr t = maskedAddress (s.r src) imm mask := by
  refine ⟨_, rfl, ((h.setTemp ht _).setTemp ht _).setZf _, ?_⟩
  have hea : (Addr.mk (some (gp src)) none imm).ea m.gpr = s.r src + imm.signExtend 64 := by
    change m.gpr (gp src) + 0#64 + _ = _
    rw [BitVec.add_zero, h.r]
  refine (Machine.setReg_gpr_self ..).trans ?_
  rw [Machine.setReg_gpr_self, hea]
  exact narrow_and_mask _ (msb_of_mask hmask)

theorem value_reg (h : Matches config m₀ s m) (j : Fin 8) :
    m.value .w64 (.reg (gp j)) = s.r j := h.r j

theorem value_index (h : Matches config m₀ s m) {t : Reg} {v : BitVec 64} (ht : m.gpr t = v)
    (hv : v.toNat + 8 ≤ ScratchpadSize) :
    m.value .w64 (.mem (atIndex t)) = read 8 fun i => s.scratchpad (v.toNat + i) := by
  rw [Machine.value, ea_atIndex, h.rsi, ht, loadWidth, h.load hv]

theorem value_offset (h : Matches config m₀ s m) (imm : BitVec 32) :
    m.value .w64 (.mem (atOffset (imm &&& ScratchpadL3Mask))) =
      read 8 fun i => s.scratchpad ((maskedAddress 0 imm ScratchpadL3Mask).toNat + i) := by
  have heq : (imm &&& ScratchpadL3Mask).signExtend 64 = maskedAddress 0 imm ScratchpadL3Mask := by
    rw [maskedAddress, zero_add, signExtend_and_mask imm (by decide)]
  rw [Machine.value, ea_atOffset, h.rsi, heq, loadWidth, h.load (maskedAddress_le (by decide) _ _)]

end Matches

/-! ### Families of instructions -/

/-- The x86 instructions do what an instruction of the bytecode does. -/
def Simulates (u : Units) (config : ProgramConfiguration) (m₀ : Machine) (is : List Instr)
    (next : Vm → Option Vm) : Prop :=
  ∀ s s' m, Matches config m₀ s m → next s = some s' →
    ∃ m', block u is m = some m' ∧ Matches config m₀ s' m'

/-- An x86 instruction that updates a register with an operand. -/
def Updates (u : Units) (f : Reg → Operand → Instr)
    (op : BitVec 64 → BitVec 64 → BitVec 64) : Prop :=
  ∀ m r o, ∃ z, effect u m (f r o) = some ((m.setReg r (op (m.gpr r) (m.value .w64 o))).setZf z)

theorem updates_alu (op : Alu) : Updates u (.alu op .w64) op.eval := fun _ _ _ => ⟨_, rfl⟩

theorem updates_imul : Updates u (.imul .w64) (· * ·) := fun _ _ _ => ⟨_, rfl⟩

theorem Updates.matches {f : Reg → Operand → Instr} {op : BitVec 64 → BitVec 64 → BitVec 64}
    (hf : Updates u f op) {s : Vm} {m : Machine} (h : Matches config m₀ s m) (j : Fin 8)
    {o : Operand} {v : BitVec 64} (ho : m.value .w64 o = v) :
    ∃ m', effect u m (f (gp j) o) = some m' ∧ Matches config m₀ (s.setR j (op (s.r j) v)) m' := by
  obtain ⟨z, hz⟩ := hf m (gp j) o
  refine ⟨_, hz, ?_⟩
  rw [ho, h.r]
  exact (h.setR j _).setZf _

theorem memory_address_of_ne {instr : Instruction} (hne : instr.isrc ≠ instr.idst)
    (type : InstructionType) (i : ℤ) (ibc : InstructionByteCode) (usage : RegisterUsage) (s : Vm) :
    getScratchpadAddress (compile.memory type instr i ibc usage).1 s =
      (maskedAddress (s.r instr.isrc) instr.imm32 (levelMask instr)).toNat := by
  rw [getScratchpadAddress_eq, compile.memory]
  simp only [if_pos hne]
  rfl

theorem memory_address_of_eq {instr : Instruction} (heq : ¬ instr.isrc ≠ instr.idst)
    (type : InstructionType) (i : ℤ) (ibc : InstructionByteCode) (usage : RegisterUsage) (s : Vm) :
    getScratchpadAddress (compile.memory type instr i ibc usage).1 s =
      (maskedAddress 0 instr.imm32 ScratchpadL3Mask).toNat := by
  rw [getScratchpadAddress_eq, compile.memory]
  simp only [if_neg heq]
  rfl

theorem simulates_memory {f : Reg → Operand → Instr} {op : BitVec 64 → BitVec 64 → BitVec 64}
    {type : InstructionType} (hf : Updates u f op)
    (hexe : ∀ ibc s, ibc.type = type → executeInstruction u flags config ibc s = exeMemory op ibc s)
    (instr : Instruction) (i : ℤ) (ibc : InstructionByteCode) (usage : RegisterUsage) :
    Simulates u config m₀ (memoryInstrs f instr)
      (executeInstruction u flags config (compile.memory type instr i ibc usage).1) := by
  intro s s' m h hs
  rw [hexe _ _ (memory_type ..), exeMemory,
    Vm.load64_eq (getScratchpadAddress_le (memory_mask_le ..) s), memory_idst, Option.map_some,
    Option.some.injEq] at hs
  subst hs
  unfold memoryInstrs
  split_ifs with hne
  · obtain ⟨m₁, hblock, h₁, haddr⟩ :=
      h.address (u := u) (t := 0) (by decide) instr.isrc instr.imm32 (levelMask_le instr)
    have hv := h₁.value_index haddr (maskedAddress_le (levelMask_le instr) _ _)
    obtain ⟨m₂, heffect, h₂⟩ := hf.matches h₁ instr.idst hv
    refine ⟨m₂, by rw [block_append hblock, block_cons heffect, block], ?_⟩
    rwa [memory_address_of_ne hne]
  · obtain ⟨m₂, heffect, h₂⟩ := hf.matches h instr.idst (h.value_offset instr.imm32)
    refine ⟨m₂, by rw [block_cons heffect, block], ?_⟩
    rwa [memory_address_of_eq hne]

/-- An x86 instruction that updates a register with an immediate. -/
def UpdatesImm (u : Units) (g : Reg → BitVec 64 → Instr) (op : BitVec 64 → BitVec 64 → BitVec 64) :
    Prop :=
  ∀ m r v, ∃ z, effect u m (g r v) = some ((m.setReg r (op (m.gpr r) v)).setZf z)

theorem updatesImm_alu (op : Alu) : UpdatesImm u (.aluImm op .w64) op.eval := fun _ _ _ => ⟨_, rfl⟩

theorem updatesImm_imul : UpdatesImm u (fun r => .imulImm .w64 r (.reg r)) (· * ·) := fun _ _ _ =>
  ⟨_, rfl⟩

theorem simulates_regOrImm {f : Reg → Operand → Instr} {g : Reg → BitVec 64 → Instr}
    {op : BitVec 64 → BitVec 64 → BitVec 64} {type : InstructionType} (hf : Updates u f op)
    (hg : UpdatesImm u g op)
    (hexe : ∀ ibc s, ibc.type = type → executeInstruction u flags config ibc s = exeReg op ibc s)
    (instr : Instruction) (i : ℤ) (ibc : InstructionByteCode) (usage : RegisterUsage) :
    Simulates u config m₀ (regOrImmInstrs f g instr) (executeInstruction u flags config
      (compile.regOrImm type (signExtend2sCompl instr.imm32) instr i ibc usage).1) := by
  intro s s' m h hs
  rw [hexe _ _ (regOrImm_type ..), exeReg, regOrImm_idst, Option.some.injEq] at hs
  subst hs
  unfold regOrImmInstrs compile.regOrImm
  split_ifs with hne
  · obtain ⟨m', heffect, h'⟩ := hf.matches h instr.idst (h.value_reg instr.isrc)
    exact ⟨m', by rw [block_cons heffect, block], h'⟩
  · obtain ⟨z, hz⟩ := hg m (gp instr.idst) (instr.imm32.signExtend 64)
    rw [h.r] at hz
    exact ⟨_, (block_cons hz).trans rfl, (h.setR _ _).setZf _⟩

/-- A product of two words, whose upper half goes into a register. -/
theorem Matches.wide {s : Vm} {m : Machine} (h : Matches config m₀ s m) (signed : Bool) (j : Fin 8)
    {o : Operand} {v : BitVec 64}
    (ho : (m.setReg 0 (m.gpr (gp j))).value .w64 o = v) :
    ∃ m', block u [.load .w64 0 (.reg (gp j)), .mulWide signed o, .load .w64 (gp j) (.reg 2)] m =
        some m' ∧ Matches config m₀ (s.setR j (mulHigh signed (s.r j) v)) m' := by
  have hmul : effect u (m.setReg 0 (m.gpr (gp j))) (.mulWide signed o) = some _ := rfl
  have hload : effect u m (.load .w64 0 (.reg (gp j))) =
      some (m.setReg 0 (m.gpr (gp j))) := rfl
  rw [block_cons hload, block_cons hmul]
  refine ⟨_, rfl, ?_⟩
  have h₁ := (((h.setTemp (t := 0) (by decide) (m.gpr (gp j))).setTemp (t := 0) (by decide)
    (m.gpr (gp j) * v)).setTemp (t := 2) (by decide) (mulHigh signed (m.gpr (gp j)) v)).setZf none
  rw [ho, ← h.r]
  exact h₁.setR j _

theorem simulates_highReg {signed : Bool} {op : BitVec 64 → BitVec 64 → BitVec 64}
    {type : InstructionType} (hop : ∀ a b, op a b = mulHigh signed a b)
    (hexe : ∀ ibc s, ibc.type = type → executeInstruction u flags config ibc s = exeReg op ibc s)
    (instr : Instruction) (i : ℤ) (ibc : InstructionByteCode) (usage : RegisterUsage) :
    Simulates u config m₀ (highRegInstrs signed instr)
      (executeInstruction u flags config (compile.reg type instr i ibc usage).1) := by
  intro s s' m h hs
  rw [hexe _ _ rfl, exeReg, Option.some.injEq] at hs
  subst hs
  rw [hop]
  exact h.wide signed instr.idst
    ((h.setTemp (t := 0) (by decide) (m.gpr (gp instr.idst))).value_reg instr.isrc)

theorem simulates_highMemory {signed : Bool} {op : BitVec 64 → BitVec 64 → BitVec 64}
    {type : InstructionType} (hop : ∀ a b, op a b = mulHigh signed a b)
    (hexe : ∀ ibc s, ibc.type = type → executeInstruction u flags config ibc s = exeMemory op ibc s)
    (instr : Instruction) (i : ℤ) (ibc : InstructionByteCode) (usage : RegisterUsage) :
    Simulates u config m₀ (highMemoryInstrs signed instr)
      (executeInstruction u flags config (compile.memory type instr i ibc usage).1) := by
  intro s s' m h hs
  rw [hexe _ _ (memory_type ..), exeMemory,
    Vm.load64_eq (getScratchpadAddress_le (memory_mask_le ..) s), memory_idst, Option.map_some,
    Option.some.injEq] at hs
  subst hs
  rw [hop]
  unfold highMemoryInstrs
  split_ifs with hne
  · obtain ⟨m₁, hblock, h₁, haddr⟩ :=
      h.address (u := u) (t := 1) (by decide) instr.isrc instr.imm32 (levelMask_le instr)
    have hv := (h₁.setTemp (t := 0) (by decide) (m₁.gpr (gp instr.idst))).value_index
      ((m₁.setReg_gpr_of_ne (by decide : (1 : Reg) ≠ 0) _).trans haddr)
      (maskedAddress_le (levelMask_le instr) _ _)
    rw [block_append hblock, memory_address_of_ne hne]
    exact h₁.wide signed instr.idst hv
  · rw [memory_address_of_eq hne]
    exact h.wide signed instr.idst
      ((h.setTemp (t := 0) (by decide) (m.gpr (gp instr.idst))).value_offset instr.imm32)

/-- A rotation by the six lowest bits of a word. -/
def rotateBy (left : Bool) (a b : BitVec 64) : BitVec 64 :=
  if left then rotl a (b &&& 63).toNat else rotr a (b &&& 63).toNat

theorem and_63_toNat {w : ℕ} (x : BitVec w) (h : 6 < w) : (x &&& 63).toNat = x.toNat % 64 := by
  have h63 : (63 : BitVec w).toNat = 2 ^ 6 - 1 := by
    change 63 % 2 ^ w = 63
    exact Nat.mod_eq_of_lt (Nat.lt_of_lt_of_le (by decide : 63 < 2 ^ 7)
      (Nat.pow_le_pow_right (by decide) h))
  rw [BitVec.toNat_and, h63, Nat.and_two_pow_sub_one_eq_mod]

theorem effect_rotate {m : Machine} (left : Bool) (r : Reg) (c : Count) (b : BitVec 64)
    (hc : m.count .w64 c = b.toNat % 64) :
    effect u m (.rotate left r c) = some (m.setReg r (rotateBy left (m.gpr r) b)) := by
  have hlt : b.toNat % 64 < 64 := Nat.mod_lt _ (by decide)
  rw [rotateBy, and_63_toNat b (by decide), rotl_eq _ hlt, rotr_eq _ hlt]
  cases left with
  | false => rw [effect, hc]; rfl
  | true => rw [effect, hc]; rfl

theorem simulates_rotation {left : Bool} {type : InstructionType}
    (hexe : ∀ ibc s, ibc.type = type →
      executeInstruction u flags config ibc s = exeReg (rotateBy left) ibc s)
    (instr : Instruction) (i : ℤ) (ibc : InstructionByteCode) (usage : RegisterUsage) :
    Simulates u config m₀ (rotationInstrs left instr) (executeInstruction u flags config
      (compile.regOrImm type (instr.imm32.setWidth 64) instr i ibc usage).1) := by
  intro s s' m h hs
  rw [hexe _ _ (regOrImm_type ..), exeReg, regOrImm_idst, Option.some.injEq] at hs
  subst hs
  unfold rotationInstrs compile.regOrImm
  split_ifs with hne
  · have h₁ := h.setTemp (t := 1) (by decide) (narrow .w32 (m.gpr (gp instr.isrc)))
    have hcount : (m.setReg 1 (narrow .w32 (m.gpr (gp instr.isrc)))).count .w64 .cl =
        (s.r instr.isrc).toNat % 64 := by
      rw [Machine.count, Machine.setReg_gpr_self, h.r, narrow, BitVec.toNat_setWidth,
        BitVec.toNat_setWidth]
      omega
    have hload : effect u m (.load .w32 1 (.reg (gp instr.isrc))) =
      some (m.setReg 1 (narrow .w32 (m.gpr (gp instr.isrc)))) := rfl
    rw [block_cons hload, block_cons (effect_rotate left _ _ _ hcount), block, h₁.r]
    exact ⟨_, rfl, h₁.setR _ _⟩
  · have hcount : m.count .w64 (.imm (BitVec.ofNat 8 (instr.imm32 &&& 63).toNat)) =
        (instr.imm32.setWidth 64).toNat % 64 := by
      rw [Machine.count, BitVec.toNat_ofNat, and_63_toNat _ (by decide), BitVec.toNat_setWidth]
      omega
    rw [block_cons (effect_rotate left _ _ _ hcount), block, h.r]
    exact ⟨_, rfl, h.setR _ _⟩

/-! ### Vector registers -/

/-- The vector register that holds a register of one of the groups. -/
def xreg : FloatReg → Reg
  | .f k => xf k
  | .e k => xe k
  | .a k => xa k

/-- The registers of group A are not written. -/
def Writable : FloatReg → Prop
  | .a _ => False
  | _ => True

namespace Matches

variable {s : Vm} {m : Machine}

theorem flt (h : Matches config m₀ s m) (d : FloatReg) : m.xmm (xreg d) = s.flt d := by
  cases d with
  | f k => exact h.f k
  | e k => exact h.e k
  | a k => exact h.a k

theorem setFlt (h : Matches config m₀ s m) {d : FloatReg} (hd : Writable d) (v : Lanes) :
    Matches config m₀ (s.setFlt d v) (m.setXmm (xreg d) v) := by
  cases d with
  | f k => exact h.setF k v
  | e k => exact h.setE k v
  | a k => exact hd.elim

theorem packed (h : Matches config m₀ s m) {d : FloatReg} (hd : Writable d) (p : Packed) {t : Reg}
    {v : Lanes} (ht : m.xmm t = v) :
    ∃ m', effect u m (.packed p (xreg d) t) = some m' ∧
      Matches config m₀ (s.setFlt d ((s.flt d).map₂ (p.eval u s.mxcsr) v)) m' := by
  refine ⟨_, rfl, ?_⟩
  rw [ht, h.flt, h.mxcsr]
  exact h.setFlt hd _

/-- Two integers of the scratchpad are loaded and converted. -/
theorem loaded (h : Matches config m₀ s m) (instr : Instruction) :
    ∃ m', block u (addressInstrs 0 instr.isrc instr.imm32 (levelMask instr) ++
        [.cvtdq2pd 12 (atIndex 0)]) m = some m' ∧ Matches config m₀ s m' ∧
      m'.xmm 12 = rx_cvt_packed_int_vec_f128 u (read 8 fun i => s.scratchpad
        ((maskedAddress (s.r instr.isrc) instr.imm32 (levelMask instr)).toNat + i)) := by
  obtain ⟨m₁, hblock, h₁, haddr⟩ :=
    h.address (u := u) (t := 0) (by decide) instr.isrc instr.imm32 (levelMask_le instr)
  have hload := h₁.load (maskedAddress_le (levelMask_le instr) (s.r instr.isrc) instr.imm32)
  rw [block_append hblock]
  refine ⟨_, rfl, h₁.setLoaded _, (Machine.setXmm_xmm_self ..).trans ?_⟩
  rw [ea_atIndex, h₁.rsi, haddr, hload]
  rfl

end Matches

theorem simulates_floatReg {p : Packed} {d : FloatReg} (hd : Writable d) {type : InstructionType}
    (hexe : ∀ ibc s, ibc.type = type → executeInstruction u flags config ibc s =
      exeFloatReg (Lanes.map₂ (p.eval u s.mxcsr)) ibc s)
    (instr : Instruction) (ibc : InstructionByteCode) (usage : RegisterUsage) :
    Simulates u config m₀ [.packed p (xreg d) (xa instr.fsrc)]
      (executeInstruction u flags config (compile.floatReg type d instr ibc usage).1) := by
  intro s s' m h hs
  rw [hexe _ _ rfl, exeFloatReg, Option.some.injEq] at hs
  subst hs
  obtain ⟨m', heffect, h'⟩ := h.packed (u := u) hd p (h.a instr.fsrc)
  exact ⟨m', by rw [block_cons heffect, block], h'⟩

/-- After two integers have been loaded, the rest of the instructions do what is left. -/
theorem simulates_floatMemory (op : Vm → Lanes → Lanes → Lanes) {is : List Instr} {d : FloatReg}
    {type : InstructionType}
    (hexe : ∀ ibc s, ibc.type = type →
      executeInstruction u flags config ibc s = exeFloatMemory u (op s) ibc s)
    (his : ∀ s m v, Matches config m₀ s m → m.xmm 12 = v →
      ∃ m', block u is m = some m' ∧ Matches config m₀ (s.setFlt d (op s (s.flt d) v)) m')
    (instr : Instruction) (ibc : InstructionByteCode) (usage : RegisterUsage) :
    Simulates u config m₀ (floatMemoryInstrs is instr)
      (executeInstruction u flags config (compile.floatMemory type d instr ibc usage).1) := by
  intro s s' m h hs
  have haddr : getScratchpadAddress (compile.floatMemory type d instr ibc usage).1 s =
      (maskedAddress (s.r instr.isrc) instr.imm32 (levelMask instr)).toNat :=
        getScratchpadAddress_eq ..
  rw [hexe _ _ rfl, exeFloatMemory, haddr, Vm.load64_eq (maskedAddress_le (levelMask_le instr) _ _),
    Option.map_some, Option.some.injEq] at hs
  subst hs
  obtain ⟨m₁, hblock, h₁, hv⟩ := h.loaded (u := u) instr
  rw [floatMemoryInstrs, List.append_cons, block_append hblock]
  exact his s m₁ _ h₁ hv

theorem simulates_packedMemory {p : Packed} {d : FloatReg} (hd : Writable d)
    {type : InstructionType}
    (hexe : ∀ ibc s, ibc.type = type → executeInstruction u flags config ibc s =
      exeFloatMemory u (Lanes.map₂ (p.eval u s.mxcsr)) ibc s)
    (instr : Instruction) (ibc : InstructionByteCode) (usage : RegisterUsage) :
    Simulates u config m₀ (floatMemoryInstrs [.packed p (xreg d) 12] instr)
      (executeInstruction u flags config (compile.floatMemory type d instr ibc usage).1) := by
  apply simulates_floatMemory (fun s => Lanes.map₂ (p.eval u s.mxcsr)) hexe
  intro s m v h hv
  obtain ⟨m', heffect, h'⟩ := h.packed (u := u) hd p hv
  exact ⟨m', by rw [block_cons heffect, block], h'⟩

/-- The divisor gets a mantissa and an exponent that keep it positive. -/
theorem simulates_fdiv (instr : Instruction) (ibc : InstructionByteCode) (usage : RegisterUsage)
    (k : Fin 4) :
    Simulates u config m₀
      (floatMemoryInstrs [.logic .and 12 13, .logic .or 12 14, .packed .div (xe k) 12] instr)
      (executeInstruction u flags config
        (compile.floatMemory .FDIV_M (.e k) instr ibc usage).1) := by
  apply simulates_floatMemory
    (fun s x y => Lanes.map₂ (u.div s.mxcsr) x (maskRegisterExponentMantissa config y))
    (fun ibc s h => by rw [executeInstruction, h])
  intro s m v h hv
  have h₁ := h.setLoaded ((m.xmm 12).map₂ (Logic.eval .and) (m.xmm 13))
  have h₂ :=
    h₁.setLoaded (((m.setXmm 12 ((m.xmm 12).map₂ (Logic.eval .and) (m.xmm 13))).xmm 12).map₂
    (Logic.eval .or) ((m.setXmm 12 ((m.xmm 12).map₂ (Logic.eval .and) (m.xmm 13))).xmm 14))
  have hdiv := h₂.packed (u := u) (d := .e k) (t := 12) (v := maskRegisterExponentMantissa config v)
    trivial .div (by
      rw [Machine.setXmm_xmm_self, Machine.setXmm_xmm_self, h₁.exponent, h.mantissa, hv]
      rfl)
  obtain ⟨m', heffect, h'⟩ := hdiv
  refine ⟨m', ?_, h'⟩
  have hand : effect u m (.logic .and 12 13) = some _ := rfl
  have hor : effect u (m.setXmm 12 ((m.xmm 12).map₂ (Logic.eval .and) (m.xmm 13)))
    (.logic .or 12 14) = some _ := rfl
  rw [block_cons hand, block_cons hor]
  exact (block_cons heffect).trans rfl

/-! ### The other instructions -/

theorem ea_addRs (instr : Instruction) (s : Vm) {m : Machine} (h : Matches config m₀ s m) :
    (Addr.mk (some (gp instr.idst)) (some (gp instr.isrc, instr.getModShift))
      (if instr.idst = RegisterNeedsDisplacement then instr.imm32 else 0)).ea m.gpr =
    s.r instr.idst + ((s.r instr.isrc <<< instr.getModShift) +
      if instr.idst ≠ RegisterNeedsDisplacement then 0 else signExtend2sCompl instr.imm32) := by
  change m.gpr (gp instr.idst) + m.gpr (gp instr.isrc) <<< instr.getModShift + _ = _
  rw [h.r, h.r, BitVec.add_assoc]
  congr 2
  by_cases h5 : instr.idst = RegisterNeedsDisplacement
  · rw [if_pos h5, if_neg (not_not.mpr h5)]
    rfl
  · rw [if_neg h5, if_pos h5]
    rfl

theorem simulates_addRs {instr : Instruction} (htype : opcodeType instr.opcode = .IADD_RS) (i : ℤ)
    (ibc : InstructionByteCode) (usage : RegisterUsage) :
    Simulates u config m₀ (addRsInstrs instr)
      (executeInstruction u flags config (compileInstruction instr i ibc usage).1) := by
  intro s s' m h hs
  refine ⟨_, rfl, ?_⟩
  have hs' : s' = s.setR instr.idst (s.r instr.idst + ((s.r instr.isrc <<< instr.getModShift) +
      if instr.idst ≠ RegisterNeedsDisplacement then 0 else signExtend2sCompl instr.imm32)) := by
    rw [compileInstruction, htype] at hs
    dsimp only at hs
    split_ifs at hs ⊢
    · exact (Option.some.inj hs).symm
    · exact (Option.some.inj hs).symm
  rw [hs', ← ea_addRs instr s h]
  exact h.setR _ _

theorem simulates_mulRcp {instr : Instruction} (htype : opcodeType instr.opcode = .IMUL_RCP) (i : ℤ)
    (ibc : InstructionByteCode) (usage : RegisterUsage) :
    Simulates u config m₀ (mulRcpInstrs u instr)
      (executeInstruction u flags config (compileInstruction instr i ibc usage).1) := by
  intro s s' m h hs
  rw [compileInstruction, htype] at hs
  dsimp only at hs
  unfold mulRcpInstrs
  split_ifs at hs ⊢ with hpow
  · exact ⟨m, rfl, Option.some.inj hs ▸ h⟩
  · have hfast := randomx_reciprocal_fast_eq u (d := instr.imm32) (by simpa using hpow)
    have h₁ := h.setTemp (t := 0) (by decide) (randomx_reciprocal_fast u instr.imm32)
    have hmov : effect u m (.movImm .w64 0 (randomx_reciprocal_fast u instr.imm32)) =
      some (m.setReg 0 (randomx_reciprocal_fast u instr.imm32)) := rfl
    obtain ⟨m', heffect, h'⟩ := updates_imul.matches (u := u) h₁ instr.idst
      (o := .reg 0) (Machine.setReg_gpr_self ..)
    refine ⟨m', by rw [block_cons hmov, block_cons heffect, block], ?_⟩
    rw [← Option.some.inj hs]
    change Matches config m₀
      (s.setR instr.idst (s.r instr.idst * randomx_reciprocal instr.imm32)) m'
    rwa [← hfast]

theorem simulates_neg {instr : Instruction} (htype : opcodeType instr.opcode = .INEG_R) (i : ℤ)
    (ibc : InstructionByteCode) (usage : RegisterUsage) :
    Simulates u config m₀ [.neg (gp instr.idst)]
      (executeInstruction u flags config (compileInstruction instr i ibc usage).1) := by
  intro s s' m h hs
  rw [compileInstruction, htype, executeInstruction, Option.some.injEq] at hs
  subst hs
  refine ⟨_, rfl, ?_⟩
  have hneg : ~~~(s.r instr.idst) + 1 = -(m.gpr (gp instr.idst)) := by
    rw [h.r, BitVec.neg_eq_not_add]
    rfl
  dsimp only
  rw [hneg]
  exact (h.setR _ _).setZf _

theorem simulates_swap {instr : Instruction} (htype : opcodeType instr.opcode = .ISWAP_R) (i : ℤ)
    (ibc : InstructionByteCode) (usage : RegisterUsage) :
    Simulates u config m₀ (swapInstrs instr)
      (executeInstruction u flags config (compileInstruction instr i ibc usage).1) := by
  intro s s' m h hs
  rw [compileInstruction, htype] at hs
  dsimp only at hs
  unfold swapInstrs
  split_ifs at hs ⊢ with hne
  · refine ⟨_, rfl, ?_⟩
    have hcomm : (s.setR instr.isrc (s.r instr.idst)).setR instr.idst (s.r instr.isrc) =
        (s.setR instr.idst (s.r instr.isrc)).setR instr.isrc (s.r instr.idst) := by
      simp only [Vm.setR, Function.update_comm hne]
    rw [← Option.some.inj hs, hcomm, h.r, h.r]
    exact (h.setR _ _).setR _ _
  · exact ⟨m, rfl, Option.some.inj hs ▸ h⟩

/-- The register of group F or E that an integer register number stands for. -/
def swapReg (k : Fin 8) : FloatReg :=
  if k.val < 4 then .f (Fin.ofNat 4 k) else .e (Fin.ofNat 4 (k - 4))

theorem xreg_swapReg (k : Fin 8) : xreg (swapReg k) = ext false k := by revert k; decide

theorem writable_swapReg (k : Fin 8) : Writable (swapReg k) := by
  unfold swapReg
  split_ifs <;> trivial

theorem simulates_fswap {instr : Instruction} (htype : opcodeType instr.opcode = .FSWAP_R) (i : ℤ)
    (ibc : InstructionByteCode) (usage : RegisterUsage) :
    Simulates u config m₀ [.shufpd (ext false instr.idst) (ext false instr.idst) 1]
      (executeInstruction u flags config (compileInstruction instr i ibc usage).1) := by
  intro s s' m h hs
  rw [compileInstruction, htype] at hs
  have hs' : s' = s.setFlt (swapReg instr.idst) (rx_swap_vec_f128 (s.flt (swapReg instr.idst))) :=
    (Option.some.inj hs).symm
  refine ⟨_, rfl, ?_⟩
  rw [hs', ← xreg_swapReg, h.flt]
  exact h.setFlt (writable_swapReg _) _

theorem simulates_fscal {instr : Instruction} (htype : opcodeType instr.opcode = .FSCAL_R) (i : ℤ)
    (ibc : InstructionByteCode) (usage : RegisterUsage) :
    Simulates u config m₀ [.logic .xor (xf instr.fdst) 15]
      (executeInstruction u flags config (compileInstruction instr i ibc usage).1) := by
  intro s s' m h hs
  rw [compileInstruction, htype] at hs
  refine ⟨_, rfl, ?_⟩
  rw [← Option.some.inj hs, h.scale, h.f]
  exact h.setF _ _

theorem simulates_fsqrt {instr : Instruction} (htype : opcodeType instr.opcode = .FSQRT_R) (i : ℤ)
    (ibc : InstructionByteCode) (usage : RegisterUsage) :
    Simulates u config m₀ [.sqrtpd (xe instr.fdst) (xe instr.fdst)]
      (executeInstruction u flags config (compileInstruction instr i ibc usage).1) := by
  intro s s' m h hs
  rw [compileInstruction, htype] at hs
  refine ⟨_, rfl, ?_⟩
  rw [← Option.some.inj hs, h.e, h.mxcsr]
  exact h.setE _ _

theorem storeMask_le (instr : Instruction) :
    (if instr.getModCond < StoreL3Condition then levelMask instr else ScratchpadL3Mask).toNat + 8 ≤
      ScratchpadSize := by
  split_ifs
  · exact levelMask_le instr
  · exact (by decide : ScratchpadL3Mask.toNat + 8 ≤ ScratchpadSize)

theorem simulates_store {instr : Instruction} (htype : opcodeType instr.opcode = .ISTORE) (i : ℤ)
    (ibc : InstructionByteCode) (usage : RegisterUsage) :
    Simulates u config m₀ (storeInstrs instr)
      (executeInstruction u flags config (compileInstruction instr i ibc usage).1) := by
  intro s s' m h hs
  have hle := maskedAddress_le (storeMask_le instr) (s.r instr.idst) instr.imm32
  rw [compileInstruction, htype] at hs
  have hs' : s.store64 (maskedAddress (s.r instr.idst) instr.imm32
      (if instr.getModCond < StoreL3Condition then levelMask instr else ScratchpadL3Mask)).toNat
      (s.r instr.isrc) = some s' := hs
  rw [Vm.store64_eq hle, Option.some.injEq] at hs'
  obtain ⟨m₁, hblock, h₁, haddr⟩ :=
    h.address (u := u) (t := 0) (by decide) instr.idst instr.imm32 (storeMask_le instr)
  rw [storeInstrs, block_append hblock]
  refine ⟨_, rfl, ?_⟩
  rw [← hs', ea_atIndex, h₁.rsi, haddr, h₁.r]
  have hstore := h₁.store hle (s.r instr.isrc)
  rwa [BitVec.ofNat_toNat, BitVec.setWidth_eq] at hstore

/-! ### Rounding modes -/

/-- The source of a rounding mode, as the bytecode rotates it. -/
def roundingSource (s : Vm) (instr : Instruction) : BitVec 64 :=
  (s.r instr.isrc).rotateRight (instr.imm32 &&& 63).toNat

theorem rotl_zero (x : BitVec 64) : rotl x 0 = x := by simp [rotl, negCount]

namespace Matches

variable {s : Vm} {m : Machine}

theorem rotated (h : Matches config m₀ s m) (instr : Instruction) :
    ∃ m', block u (rotatedInstrs instr) m = some m' ∧ Matches config m₀ s m' ∧
      m'.gpr 0 = (roundingSource s instr).rotateLeft 13 := by
  have hn : (instr.imm32 &&& 63).toNat < 64 := by
    rw [and_63_toNat _ (by decide)]
    exact Nat.mod_lt _ (by decide)
  have h₁ := h.setTemp (t := 0) (by decide) (m.gpr (gp instr.isrc))
  have hload : effect u m (.load .w64 0 (.reg (gp instr.isrc))) =
    some (m.setReg 0 (m.gpr (gp instr.isrc))) := rfl
  unfold rotatedInstrs roundingSource
  dsimp only
  rw [← rotateLeft_rotateRight _ hn, block_cons hload]
  split_ifs with hzero
  · have hcount : (BitVec.ofNat 8 ((13 + 64 - (instr.imm32 &&& 63).toNat) % 64)).toNat % 64 =
        (13 + 64 - (instr.imm32 &&& 63).toNat) % 64 := by
      rw [BitVec.toNat_ofNat]
      omega
    refine ⟨_, rfl, h₁.setTemp (t := 0) (by decide) _, (Machine.setReg_gpr_self ..).trans ?_⟩
    rw [Machine.count, hcount, Machine.setReg_gpr_self, h.r]
  · rw [not_not.mp hzero, ← rotl_eq _ (by decide : 0 < 64), rotl_zero]
    exact ⟨_, rfl, h₁, (Machine.setReg_gpr_self ..).trans (h.r _)⟩

/-- The rounding mode is put together in a register and goes over the stack. -/
theorem rounding (h : Matches config m₀ s m) (hapart : Apart m₀) {y : BitVec 64}
    (hax : m.gpr 0 = y.rotateLeft 13) :
    ∃ m', block u roundingInstrs m = some m' ∧
      Matches config m₀ (rx_set_rounding_mode s ((y % 4).setWidth 32)) m' := by
  have hea : ∀ gpr : Reg → BitVec 64, (Addr.mk (some 4) none 0).ea gpr = gpr 4 := by
    intro gpr
    change gpr 4 + 0#64 + (0 : BitVec 32).signExtend 64 = _
    rw [show (0 : BitVec 32).signExtend 64 = 0#64 by decide, BitVec.add_zero, BitVec.add_zero]
  let a := narrow .w32 (y.rotateLeft 13 &&& 0x6000)
  let b := narrow .w32 (a ||| 0x9fc0)
  let m₂ := ((((m.setReg 0 a).setZf (some (a == 0))).setReg 0 b).setZf (some (b == 0)))
  have h₂ : Matches config m₀ s m₂ :=
    (((h.setTemp (t := 0) (by decide) a).setZf _).setTemp (t := 0) (by decide) b).setZf _
  have hand : effect u m (.aluImm .and .w32 0 0x6000) =
      some ((m.setReg 0 a).setZf (some (a == 0))) := by
    change some (m.result .w32 0 (m.gpr 0 &&& 0x6000)) = _
    rw [hax]
    rfl
  have hor : effect u ((m.setReg 0 a).setZf (some (a == 0)))
      (.aluImm .or .w32 0 0x9fc0) = some m₂ := by
    change some (Machine.result _ .w32 0 ((m.setReg 0 a).gpr 0 ||| 0x9fc0)) = _
    rw [Machine.setReg_gpr_self]
    rfl
  have hstore : effect u m₂ (.store .w32 ⟨some 4, none, 0⟩ 0) =
      some (m₂.poke 4 (m₀.gpr 4) b) := by
    change some (m₂.poke 4 ((Addr.mk (some 4) none 0).ea m₂.gpr) (m₂.gpr 0)) = _
    rw [hea, h₂.rsp]
    rfl
  have hld : effect u (m₂.poke 4 (m₀.gpr 4) b) (.ldmxcsr ⟨some 4, none, 0⟩) =
      some { m₂.poke 4 (m₀.gpr 4) b with mxcsr := b.setWidth 32 } := by
    change some { m₂.poke 4 (m₀.gpr 4) b with
      mxcsr := load32 (X86.poke 4 m₂.mem (m₀.gpr 4) b) ((Addr.mk (some 4) none 0).ea m₂.gpr) } = _
    rw [hea, h₂.rsp, load32_poke]
  refine ⟨_, by rw [roundingInstrs, block_cons hand, block_cons hor,
    block_cons hstore, block_cons hld,
    block], ?_⟩
  rw [rotate_mode y]
  exact (h₂.push hapart b).setMxcsr _

end Matches

/-- What the bytecode does to change the rounding mode. -/
theorem execute_cfround {instr : Instruction} (htype : opcodeType instr.opcode = .CFROUND) (i : ℤ)
    (ibc : InstructionByteCode) (usage : RegisterUsage) (s : Vm) :
    executeInstruction u flags config (compileInstruction instr i ibc usage).1 s =
      if flags.v2 = false ∨ roundingSource s instr &&& 60 = 0 then
        some (rx_set_rounding_mode s ((roundingSource s instr % 4).setWidth 32))
      else some s := by
  have hlt : (instr.imm32 &&& 63).toNat < 64 := by
    rw [and_63_toNat _ (by decide)]
    exact Nat.mod_lt _ (by decide)
  have hsource : rotr (s.r instr.isrc) ((instr.imm32 &&& 63).setWidth 64 : BitVec 64).toNat =
      roundingSource s instr := by
    rw [BitVec.toNat_setWidth_of_le (by decide), rotr_eq _ hlt, roundingSource]
  rw [compileInstruction, htype, ← hsource]
  rfl

/-- In the second version of the algorithm most sources leave the rounding mode as it is: the code
jumps over what sets it. -/
theorem Matches.skip {code rest : List UInt8} {s : Vm} {m : Machine} (h : Matches config m₀ s m)
    (hapart : Apart m₀) {y : BitVec 64} (hax : m.gpr 0 = y.rotateLeft 13) {n : ℕ}
    (hcode : code.drop n = skipBytes ++ (AND_OR_MOV_LDMXCSR ++ rest)) :
    ∃ m', Reaches u code ⟨m, n⟩ ⟨m', n + (skipBytes ++ AND_OR_MOV_LDMXCSR).length⟩ ∧
      Matches config m₀
        (if y &&& 60 = 0 then rx_set_rounding_mode s ((y % 4).setWidth 32) else s) m' := by
  have hbs : skipBytes = TEST_EAX_60SL13 ++ (JNZ_SHORT ++ bytes 1 (17 : BitVec 8)) := rfl
  rw [hbs, List.append_assoc] at hcode
  have hcode₁ := drop_append_length hcode
  have hcode₂ := drop_append_length hcode₁
  let z := narrow .w32 (y.rotateLeft 13 &&& 0x78000) == 0
  have htest : effect u m (.test .w32 0 0x78000) = some (m.setZf (some z)) := by
    change some (m.setZf (some (narrow .w32 (m.gpr 0 &&& 0x78000) == 0))) = _
    rw [hax]
  have hstart :=
    (Assembles.single (encodes_test_eax 0x78000)).reaches hcode (block_cons (l := []) htest)
  by_cases hmode : y &&& 60 = 0
  · rw [if_pos hmode]
    have hz : z = true := by
      rw [beq_iff_eq]
      exact (rotate_test _).mpr hmode
    obtain ⟨m', hround, h'⟩ := (h.setZf (some z)).rounding (u := u) hapart hax
    have hfall := reaches_not_taken (u := u) (encodes_jnz 17) (m := m.setZf (some z)) hcode₁ rfl
      (by rw [hz]; decide)
    exact ⟨m', (hstart.trans hfall).trans (assembles_rounding.reaches hcode₂ hround), h'⟩
  · rw [if_neg hmode]
    have hz : z = false := by
      rw [beq_eq_false_iff_ne]
      exact fun h0 => hmode ((rotate_test _).mp h0)
    have hjump := reaches_taken (u := u) (encodes_jnz 17) (m := m.setZf (some z)) hcode₁
      (congrArg some hz) (t := n + 24) (by
        rw [show ((17 : BitVec 8).signExtend 32).toInt = 17 by decide]
        rfl)
    exact ⟨_, hstart.trans hjump, h.setZf _⟩

/-- The code of a rounding mode. -/
theorem reaches_cfround {code rest : List UInt8} {instr : Instruction}
    (htype : opcodeType instr.opcode = .CFROUND) (hapart : Apart m₀) {i : ℤ}
    {ibc : InstructionByteCode} {usage : RegisterUsage} {s s' : Vm} {m : Machine} {n : ℕ}
    (hcode : code.drop n = cfroundBytes flags instr ++ rest) (h : Matches config m₀ s m)
    (hs : executeInstruction u flags config (compileInstruction instr i ibc usage).1 s = some s') :
    ∃ m', Reaches u code ⟨m, n⟩ ⟨m', n + (cfroundBytes flags instr).length⟩ ∧
      Matches config m₀ s' m' := by
  rw [execute_cfround htype] at hs
  obtain ⟨m₁, hrot, h₁, hax⟩ := h.rotated (u := u) instr
  unfold cfroundBytes at hcode ⊢
  cases hv : flags.v2 with
  | false =>
    rw [if_pos (.inl hv), Option.some.injEq] at hs
    rw [hv, if_neg (by decide), List.append_nil] at hcode
    rw [if_neg (by decide), List.append_nil]
    obtain ⟨m', hround, h'⟩ := h₁.rounding (u := u) hapart hax
    subst hs
    exact ⟨m', ((assembles_rotated instr).append assembles_rounding).reaches hcode
      ((block_append hrot).trans hround), h'⟩
  | true =>
    rw [hv, if_pos rfl, List.append_assoc, List.append_assoc] at hcode
    rw [if_pos rfl, List.append_assoc, List.length_append, ← Nat.add_assoc]
    obtain ⟨m', hskip, h'⟩ := h₁.skip (u := u) hapart hax (drop_append_length hcode)
    refine ⟨m', ((assembles_rotated instr).reaches hcode hrot).trans hskip, ?_⟩
    by_cases hmode : roundingSource s instr &&& 60 = 0
    · rw [if_pos (.inr hmode), Option.some.injEq] at hs
      rwa [if_pos hmode, hs] at h'
    · have hnot : ¬ (flags.v2 = false ∨ roundingSource s instr &&& 60 = 0) := by
        rw [hv]
        exact fun hor => hor.elim Bool.noConfusion hmode
      rw [if_neg hnot, Option.some.injEq] at hs
      rwa [if_neg hmode, hs] at h'

/-! ### Jumps -/

/-- What a jump adds to its register. -/
def branchImm (instr : Instruction) : BitVec 32 :=
  (instr.imm32 ||| (1#32 <<< (instr.getModCond + ConditionOffset))) &&&
    ~~~(1#32 <<< (instr.getModCond + ConditionOffset - 1))

/-- The register of a jump after the addition. -/
def branchValue (s : Vm) (instr : Instruction) : BitVec 64 :=
  s.r instr.idst + (branchImm instr).signExtend 64

def branchMask (instr : Instruction) : BitVec 32 :=
  ConditionMask <<< (instr.getModCond + ConditionOffset)

theorem branchMask_msb (instr : Instruction) : (branchMask instr).msb = false := by
  have h : ∀ n < 16, (ConditionMask <<< (n + ConditionOffset)).msb = false := by decide
  refine h _ ?_
  have := instr.mod.toNat_lt
  rw [Instruction.getModCond, Nat.shiftRight_eq_div_pow]
  omega

/-- What the bytecode does at a jump. -/
theorem execute_cbranch {instr : Instruction} (htype : opcodeType instr.opcode = .CBRANCH) (i : ℤ)
    (ibc : InstructionByteCode) (usage : RegisterUsage) (s : Vm) :
    executeInstruction u flags config (compileInstruction instr i ibc usage).1 s =
      some { s.setR instr.idst (branchValue s instr) with
        pc := if branchValue s instr &&& (branchMask instr).setWidth 64 = 0 then usage instr.idst
          else s.pc } := by
  have hshift := getModCond_le instr
  have hpos : 0 < instr.getModCond + ConditionOffset :=
    Nat.lt_of_lt_of_le (by decide) (Nat.le_add_left ..)
  have himm := branch_imm instr.imm32 (show instr.getModCond + ConditionOffset < 31 by omega) hpos
  rw [compileInstruction, htype]
  simp only [executeInstruction, Vm.setR_r_self, ← himm]
  change (if branchValue s instr &&& (branchMask instr).setWidth 64 = 0 then _ else _) = _
  split_ifs <;> rfl

/-- The code of a jump. -/
theorem reaches_cbranch {code bs rest : List UInt8} {instr : Instruction} {rel : BitVec 32}
    (hbs : Assembles bs (cbranchInstrs instr rel)) {s : Vm} {m : Machine} {n : ℕ}
    (hcode : code.drop n = bs ++ rest) (h : Matches config m₀ s m) :
    ∃ m', Matches config m₀ (s.setR instr.idst (branchValue s instr)) m' ∧
      (branchValue s instr &&& (branchMask instr).setWidth 64 = 0 →
        ∀ t : ℕ, ((n + bs.length : ℕ) : ℤ) + rel.toInt = t → Reaches u code ⟨m, n⟩ ⟨m', t⟩) ∧
      (branchValue s instr &&& (branchMask instr).setWidth 64 ≠ 0 →
        Reaches u code ⟨m, n⟩ ⟨m', n + bs.length⟩) := by
  obtain ⟨b, c, rfl, hb, hc⟩ := Assembles.split (l := [_, _]) hbs
  obtain ⟨c', hjcc, rfl⟩ : ∃ c', Encodes c' (.jcc true rel) ∧ c = c' := by
    cases hc with
    | cons head tail =>
      cases tail with
      | nil => exact ⟨_, head, List.append_nil _⟩
  let v := branchValue s instr
  let z := v &&& (branchMask instr).signExtend 64 == 0
  rw [List.append_assoc] at hcode
  have hadd : effect u m (.aluImm .add .w64 (gp instr.idst)
      ((branchImm instr).signExtend 64)) =
        some ((m.setReg (gp instr.idst) v).setZf (some (v == 0))) := by
    change some (m.result .w64 (gp instr.idst) (m.gpr (gp instr.idst) + _)) = _
    rw [h.r]
    rfl
  have htest : effect u ((m.setReg (gp instr.idst) v).setZf (some (v == 0)))
      (.test .w64 (gp instr.idst) ((branchMask instr).signExtend 64)) =
      some (((m.setReg (gp instr.idst) v).setZf (some (v == 0))).setZf (some z)) := by
    change some
      (Machine.setZf _ (some ((m.setReg (gp instr.idst) v).gpr (gp instr.idst) &&& _ == 0))) = _
    rw [Machine.setReg_gpr_self]
  have hblock := hb.reaches (u := u) hcode ((block_cons hadd).trans (block_cons htest))
  have hcode' := drop_append_length hcode
  have hmask : (branchMask instr).signExtend 64 = (branchMask instr).setWidth 64 :=
    BitVec.signExtend_eq_setWidth_of_msb_false (branchMask_msb instr)
  refine ⟨_, ((h.setR instr.idst v).setZf (some (v == 0))).setZf (some z), fun hzero t ht => ?_,
    fun hne => ?_⟩
  · have hz : z = true := by
      rw [beq_iff_eq, hmask]
      exact hzero
    refine hblock.trans (reaches_taken hjcc hcode' (congrArg some hz) ?_)
    rw [← ht, List.length_append, Nat.add_assoc]
  · have hz : z = false := by
      rw [beq_eq_false_iff_ne, hmask]
      exact hne
    have hfall := reaches_not_taken (u := u) hjcc
      (m := ((m.setReg (gp instr.idst) v).setZf (some (v == 0))).setZf (some z)) hcode' rfl
      (by rw [hz]; decide)
    rw [List.length_append, ← Nat.add_assoc]
    exact hblock.trans hfall

/-! ### Every instruction but the jumps -/

/-- The x86 instructions for an instruction without a jump do what its bytecode does. -/
theorem simulates_instruction {instr : Instruction} (hjump : opcodeType instr.opcode ≠ .CBRANCH)
    (hround : opcodeType instr.opcode ≠ .CFROUND) (rel : BitVec 32)
    (i : ℤ) (ibc : InstructionByteCode)
    (usage : RegisterUsage) :
    Simulates u config m₀ (jitInstrs u flags instr rel)
      (executeInstruction u flags config (compileInstruction instr i ibc usage).1) := by
  unfold jitInstrs
  cases htype : opcodeType instr.opcode with
  | CBRANCH => exact absurd htype hjump
  | CFROUND => exact absurd htype hround
  | IADD_RS => exact simulates_addRs htype i ibc usage
  | IMUL_RCP => exact simulates_mulRcp htype i ibc usage
  | INEG_R => exact simulates_neg htype i ibc usage
  | ISWAP_R => exact simulates_swap htype i ibc usage
  | FSWAP_R => exact simulates_fswap htype i ibc usage
  | FSCAL_R => exact simulates_fscal htype i ibc usage
  | FSQRT_R => exact simulates_fsqrt htype i ibc usage
  | ISTORE => exact simulates_store htype i ibc usage
  | IADD_M | ISUB_M | IXOR_M =>
    rw [compileInstruction, htype]
    exact simulates_memory (updates_alu _) (fun ibc s h => by rw [executeInstruction, h]; rfl)
      instr i ibc usage
  | IMUL_M =>
    rw [compileInstruction, htype]
    exact simulates_memory updates_imul (fun ibc s h => by rw [executeInstruction, h])
      instr i ibc usage
  | ISUB_R | IXOR_R =>
    rw [compileInstruction, htype]
    exact simulates_regOrImm (updates_alu _) (updatesImm_alu _)
      (fun ibc s h => by rw [executeInstruction, h]; rfl) instr i ibc usage
  | IMUL_R =>
    rw [compileInstruction, htype]
    exact simulates_regOrImm updates_imul updatesImm_imul
      (fun ibc s h => by rw [executeInstruction, h]) instr i ibc usage
  | IMULH_R =>
    rw [compileInstruction, htype]
    exact simulates_highReg mulh_eq (fun ibc s h => by rw [executeInstruction, h]) instr i ibc usage
  | ISMULH_R =>
    rw [compileInstruction, htype]
    exact simulates_highReg smulh_eq (fun ibc s h => by rw [executeInstruction, h])
      instr i ibc usage
  | IMULH_M =>
    rw [compileInstruction, htype]
    exact simulates_highMemory mulh_eq (fun ibc s h => by rw [executeInstruction, h])
      instr i ibc usage
  | ISMULH_M =>
    rw [compileInstruction, htype]
    exact simulates_highMemory smulh_eq (fun ibc s h => by rw [executeInstruction, h])
      instr i ibc usage
  | IROR_R | IROL_R =>
    rw [compileInstruction, htype]
    exact simulates_rotation (fun ibc s h => by rw [executeInstruction, h]; rfl) instr i ibc usage
  | FADD_R | FSUB_R =>
    rw [compileInstruction, htype]
    exact simulates_floatReg (d := .f instr.fdst) trivial
      (fun ibc s h => by rw [executeInstruction, h]; rfl) instr ibc usage
  | FMUL_R =>
    rw [compileInstruction, htype]
    exact simulates_floatReg (d := .e instr.fdst) trivial
      (fun ibc s h => by rw [executeInstruction, h]; rfl) instr ibc usage
  | FADD_M | FSUB_M =>
    rw [compileInstruction, htype]
    exact simulates_packedMemory (d := .f instr.fdst) trivial
      (fun ibc s h => by rw [executeInstruction, h]; rfl) instr ibc usage
  | FDIV_M =>
    rw [compileInstruction, htype]
    exact simulates_fdiv instr ibc usage instr.fdst
  | NOP =>
    rw [compileInstruction, htype]
    intro s s' m h hs
    exact ⟨m, rfl, Option.some.inj hs ▸ h⟩

end NMiner.RandomX
