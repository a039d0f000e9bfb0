import NMiner.Lib.X86

/-! Code of the x86 subset: blocks of instructions are executed where their bytes are, and the bytes
that operands and instructions are made of decode to them. -/

namespace X86

open Word

variable {u : Units} {code : List UInt8}

/-! ### Registers -/

theorem Machine.setReg_gpr_self (m : Machine) (r : Reg) (v : BitVec 64) :
    (m.setReg r v).gpr r = v :=
  Function.update_self ..

theorem Machine.setReg_gpr_of_ne (m : Machine) {r t : Reg} (h : r ≠ t) (v : BitVec 64) :
    (m.setReg t v).gpr r = m.gpr r := Function.update_of_ne h ..

theorem Machine.setXmm_xmm_self (m : Machine) (r : Reg) (v : Lanes) : (m.setXmm r v).xmm r = v :=
  Function.update_self ..

theorem Machine.setXmm_xmm_of_ne (m : Machine) {r t : Reg} (h : r ≠ t) (v : Lanes) :
    (m.setXmm t v).xmm r = m.xmm r := Function.update_of_ne h ..

/-! ### Runs and blocks -/

theorem Reaches.refl (s : State) : Reaches u code s s := ⟨0, rfl⟩

theorem run_add (m n : ℕ) (s : State) : run u code (m + n) s = (run u code m s).bind
    (run u code n) := by
  induction m generalizing s with
  | zero => rw [Nat.zero_add]; rfl
  | succ m ih =>
    rw [Nat.add_right_comm, run, run, Option.bind_assoc]
    congr 1
    funext s'
    exact ih s'

theorem Reaches.trans {s t r : State} (h : Reaches u code s t) (h' : Reaches u code t r) :
    Reaches u code s r := by
  obtain ⟨m, hm⟩ := h
  obtain ⟨n, hn⟩ := h'
  exact ⟨m + n, by rw [run_add, hm]; exact hn⟩

theorem Reaches.single {s t : State} (h : step u code s = some t) : Reaches u code s t :=
  ⟨1, by simp [run, h]⟩

/-- The bytes of an instruction at the place executed next: it is executed, and the one after them
is next. -/
theorem step_of_encodes {bs rest : List UInt8} {i : Instr} (h : Encodes bs i) {s : State}
    (hcode : code.drop s.rip = bs ++ rest) (hbs : bs ≠ []) :
    step u code s = exec u s.machine (s.rip + bs.length) i := by
  have hlen : code.length - rest.length = s.rip + bs.length := by
    have hl := congrArg List.length hcode
    rw [List.length_drop, List.length_append] at hl
    have hpos := List.length_pos_iff.mpr hbs
    omega
  rw [step, hcode, h rest, Option.bind_some]
  dsimp only
  rw [hlen]

theorem Encodes.ne_nil {bs : List UInt8} {i : Instr} (h : Encodes bs i) : bs ≠ [] := by
  rintro rfl
  exact absurd (h []) (by simp [decode])

theorem drop_append_length {code bs rest : List UInt8} {n : ℕ} (h : code.drop n = bs ++ rest) :
    code.drop (n + bs.length) = rest := by
  rw [← List.drop_drop, h, List.drop_left]

theorem exec_of_effect {m m' : Machine} {next : ℕ} {i : Instr} (h : effect u m i = some m') :
    exec u m next i = some ⟨m', next⟩ := by
  have hsome := congrArg (Option.map fun m => State.mk m next) h
  cases i with
  | jcc z rel => cases h
  | _ => exact hsome

theorem block_cons {i : Instr} {l : List Instr} {m m' : Machine}
    (h : effect u m i = some m') : block u (i :: l) m = block u l m' := by
  rw [block, h, Option.bind_some]

theorem block_append {is is' : List Instr} {m m' : Machine} (h : block u is m = some m') :
    block u (is ++ is') m = block u is' m' := by
  induction is generalizing m with
  | nil =>
    rw [block, Option.some.injEq] at h
    rw [List.nil_append, h]
  | cons i is ih =>
    rw [block, Option.bind_eq_some_iff] at h
    obtain ⟨m₁, h₁, hrest⟩ := h
    rw [List.cons_append, block_cons h₁]
    exact ih hrest

/-- A block whose bytes come next is executed, and what comes after them is next. -/
theorem Assembles.reaches {bs rest : List UInt8} {is : List Instr} (h : Assembles bs is) {n : ℕ}
    {m m' : Machine} (hcode : code.drop n = bs ++ rest) (hblock : block u is m = some m') :
    Reaches u code ⟨m, n⟩ ⟨m', n + bs.length⟩ := by
  induction h generalizing n m with
  | nil =>
    rw [block, Option.some.injEq] at hblock
    exact hblock ▸ Reaches.refl _
  | @cons b bs i is head tail ih =>
    rw [block, Option.bind_eq_some_iff] at hblock
    obtain ⟨m₁, h₁, hrest⟩ := hblock
    rw [List.append_assoc] at hcode
    have hone : step u code ⟨m, n⟩ = some ⟨m₁, n + b.length⟩ := by
      rw [step_of_encodes head hcode head.ne_nil]
      exact exec_of_effect h₁
    rw [List.length_append, ← Nat.add_assoc]
    exact (Reaches.single hone).trans (ih (drop_append_length hcode) hrest)

/-- The bytes of a list of instructions are split where the list is. -/
theorem Assembles.split {bs : List UInt8} {l l' : List Instr} (h : Assembles bs (l ++ l')) :
    ∃ b b', bs = b ++ b' ∧ Assembles b l ∧ Assembles b' l' := by
  induction l generalizing bs with
  | nil => exact ⟨[], bs, rfl, .nil, h⟩
  | cons i l ih =>
    rw [List.cons_append] at h
    cases h with
    | @cons c bs _ _ head tail =>
      obtain ⟨b, b', rfl, hb, hb'⟩ := ih tail
      exact ⟨c ++ b, b', (List.append_assoc ..).symm, .cons head hb, hb'⟩

theorem Assembles.append {bs bs' : List UInt8} {is is' : List Instr} (h : Assembles bs is)
    (h' : Assembles bs' is') : Assembles (bs ++ bs') (is ++ is') := by
  induction h with
  | nil => exact h'
  | cons head _ ih =>
    rw [List.append_assoc]
    exact .cons head ih

/-- The bytes, grouped in another way. -/
theorem Assembles.of_eq {bs bs' : List UInt8} {is : List Instr} (h : Assembles bs is)
    (heq : bs' = bs) :
    Assembles bs' is := heq ▸ h

theorem Assembles.single {bs : List UInt8} {i : Instr} (h : Encodes bs i) : Assembles bs [i] := by
  have := Assembles.cons h .nil
  rwa [List.append_nil] at this

/-! ### Jumps -/

theorem exec_jcc (m : Machine) (next : ℕ) (zero : Bool) (rel : BitVec 32) :
    exec u m next (.jcc zero rel) =
      m.zf.bind fun z => if z = zero then jump m next rel else some ⟨m, next⟩ := rfl

/-- A jump whose condition holds. -/
theorem reaches_taken {bs rest : List UInt8} {zero : Bool} {rel : BitVec 32}
    (h : Encodes bs (.jcc zero rel)) {m : Machine} {n t : ℕ} (hcode : code.drop n = bs ++ rest)
    (hz : m.zf = some zero) (ht : ((n + bs.length : ℕ) : ℤ) + rel.toInt = t) :
    Reaches u code ⟨m, n⟩ ⟨m, t⟩ := by
  apply Reaches.single
  rw [step_of_encodes h (s := ⟨m, n⟩) hcode h.ne_nil, exec_jcc, hz,
    Option.bind_some, if_pos rfl, jump, ht,
    if_pos (Int.natCast_nonneg t), Int.toNat_natCast]

/-- A jump whose condition does not hold. -/
theorem reaches_not_taken {bs rest : List UInt8} {zero z : Bool} {rel : BitVec 32}
    (h : Encodes bs (.jcc zero rel)) {m : Machine} {n : ℕ} (hcode : code.drop n = bs ++ rest)
    (hz : m.zf = some z) (hne : z ≠ zero) : Reaches u code ⟨m, n⟩ ⟨m, n + bs.length⟩ := by
  apply Reaches.single
  rw [step_of_encodes h (s := ⟨m, n⟩) hcode h.ne_nil, exec_jcc, hz, Option.bind_some, if_neg hne]

/-! ### Bytes of operands and of instructions -/

/-- The bytes of a ModRM byte and what belongs to it: a register field and an operand. -/
def Denotes (rex : Rex) (bs : List UInt8) (field : ℕ) (o : Operand) : Prop :=
  ∀ rest, modRM rex (bs ++ rest) = some (field, o, rest)

theorem toNat_ofNat_byte {b : ℕ} (h : b < 256) : (UInt8.ofNat b).toNat = b := by
  rw [UInt8.toNat_ofNat']
  exact Nat.mod_eq_of_lt h

theorem denotes_reg {b r m : ℕ} (h : b = 192 + 8 * r + m) (hr : r < 8) (hm : m < 8) (rex : Rex) :
    Denotes rex [UInt8.ofNat b] r (.reg (ext rex.b m)) := by
  intro rest
  have hb : (UInt8.ofNat b).toNat = b := toNat_ofNat_byte (by omega)
  rw [List.singleton_append]
  simp only [modRM, hb]
  rw [if_pos (by omega), show b / 8 % 8 = r by omega, show b % 8 = m by omega]

theorem denotes_disp {b r m : ℕ} (h : b = 128 + 8 * r + m) (hr : r < 8) (hm : m < 8) (hsib : m ≠ 4)
    (rex : Rex) (d : BitVec 32) :
    Denotes rex (UInt8.ofNat b :: bytes 4 d) r (.mem ⟨some (ext rex.b m), none, d⟩) := by
  intro rest
  have hb : (UInt8.ofNat b).toNat = b := toNat_ofNat_byte (by omega)
  have htake := take_bytes (n := 4) d rest
  rw [List.cons_append]
  simp only [modRM, hb]
  rw [if_neg (by omega), if_neg (by omega), if_neg (by omega), show b / 64 = 2 by omega,
    show b / 8 % 8 = r by omega, show b % 8 = m by omega]
  simp only [withDisp, htake, Option.map_some]

/-- A base and an index, without a displacement. -/
theorem denotes_sib {b c r scale index base : ℕ} (h : b = 8 * r + 4) (hr : r < 8)
    (hc : c = 64 * scale + 8 * index + base) (hscale : scale < 4) (hindex : index < 8)
    (hbase : base < 8) (hfive : base ≠ 5) (rex : Rex) (hnone : index ≠ 4 ∨ rex.x = true) :
    Denotes rex [UInt8.ofNat b, UInt8.ofNat c] r
      (.mem ⟨some (ext rex.b base), some (ext rex.x index, scale), 0⟩) := by
  intro rest
  have hb : (UInt8.ofNat b).toNat = b := toNat_ofNat_byte (by omega)
  have hc' : (UInt8.ofNat c).toNat = c := toNat_ofNat_byte (by omega)
  rw [List.cons_append, List.singleton_append]
  simp only [modRM, hb]
  rw [if_neg (by omega), if_pos (by omega), show b / 64 = 0 by omega, show b / 8 % 8 = r by omega]
  simp only [sib, hc']
  have hidx : ¬ (c / 8 % 8 = 4 ∧ rex.x = false) := by
    rintro ⟨h4, hx⟩
    rcases hnone with hne | hx'
    · omega
    · rw [hx] at hx'
      cases hx'
  rw [if_neg hidx, if_neg (by omega), show c / 8 % 8 = index by omega, show c / 64 = scale by omega,
    show c % 8 = base by omega]
  rfl

/-- A base, an index and a displacement. -/
theorem denotes_sib_disp {b c r scale index base : ℕ} (h : b = 128 + 8 * r + 4) (hr : r < 8)
    (hc : c = 64 * scale + 8 * index + base) (hscale : scale < 4) (hindex : index < 8)
    (hbase : base < 8) (rex : Rex) (hnone : index ≠ 4 ∨ rex.x = true) (d : BitVec 32) :
    Denotes rex (UInt8.ofNat b :: UInt8.ofNat c :: bytes 4 d) r
      (.mem ⟨some (ext rex.b base), some (ext rex.x index, scale), d⟩) := by
  intro rest
  have hb : (UInt8.ofNat b).toNat = b := toNat_ofNat_byte (by omega)
  have hc' : (UInt8.ofNat c).toNat = c := toNat_ofNat_byte (by omega)
  have htake := take_bytes (n := 4) d rest
  rw [List.cons_append, List.cons_append]
  simp only [modRM, hb]
  rw [if_neg (by omega), if_pos (by omega), show b / 64 = 2 by omega, show b / 8 % 8 = r by omega]
  simp only [sib, hc']
  have hidx : ¬ (c / 8 % 8 = 4 ∧ rex.x = false) := by
    rintro ⟨h4, hx⟩
    rcases hnone with hne | hx'
    · omega
    · rw [hx] at hx'
      cases hx'
  rw [if_neg hidx, if_neg (by omega), show c / 8 % 8 = index by omega, show c / 64 = scale by omega,
    show c % 8 = base by omega]
  simp only [withDisp, htake, Option.map_some]

/-- The base that needs a SIB byte although there is no index. -/
theorem denotes_sib_none {b r : ℕ} (h : b = 128 + 8 * r + 4) (hr : r < 8) (rex : Rex)
    (hx : rex.x = false) (d : BitVec 32) :
    Denotes rex (UInt8.ofNat b :: UInt8.ofNat 0x24 :: bytes 4 d) r
      (.mem ⟨some (ext rex.b 4), none, d⟩) := by
  intro rest
  have hb : (UInt8.ofNat b).toNat = b := toNat_ofNat_byte (by omega)
  have hc : (UInt8.ofNat 0x24).toNat = 36 := rfl
  have htake := take_bytes (n := 4) d rest
  rw [List.cons_append, List.cons_append]
  simp only [modRM, hb]
  rw [if_neg (by omega), if_pos (by omega), show b / 64 = 2 by omega, show b / 8 % 8 = r by omega]
  simp only [sib, hc, hx, and_true, withDisp, htake]
  rfl

theorem encodes_regOperand (rex : Rex) (f : Reg → Operand → Option Instr) {p bs : List UInt8}
    {field : ℕ} {o : Operand} {i : Instr} (hpre : ∀ bs, decode (p ++ bs) = regOperand rex f bs)
    (hbs : Denotes rex bs field o) (hf : f (ext rex.r field) o = some i) : Encodes (p ++ bs) i := by
  intro rest
  rw [List.append_assoc, hpre, regOperand, hbs rest, Option.bind_some]
  simp only [hf, Option.map_some]

theorem encodes_groupOperand (rex : Rex)
    (f : ℕ → Operand → List UInt8 → Option (Instr × List UInt8)) {pre bs t : List UInt8} {field : ℕ}
    {o : Operand} {i : Instr} (hpre : ∀ bs, decode (pre ++ bs) = groupOperand rex f bs)
    (hbs : Denotes rex bs field o) (hf : ∀ rest, f field o (t ++ rest) = some (i, rest)) :
    Encodes (pre ++ bs ++ t) i := by
  intro rest
  rw [List.append_assoc, List.append_assoc, hpre, groupOperand, hbs, Option.bind_some]
  exact hf rest

/-- An instruction of a group that has nothing after its operand. -/
theorem encodes_group (rex : Rex) (f : ℕ → Operand → List UInt8 → Option (Instr × List UInt8))
    {pre bs : List UInt8} {field : ℕ} {o : Operand} {i : Instr}
    (hpre : ∀ bs, decode (pre ++ bs) = groupOperand rex f bs) (hbs : Denotes rex bs field o)
    (hf : ∀ rest, f field o rest = some (i, rest)) : Encodes (pre ++ bs) i := by
  have h := encodes_groupOperand rex f hpre hbs (t := []) hf
  rwa [List.append_nil] at h

theorem encodes_imm {pre : List UInt8} {n : ℕ} {f : BitVec (8 * n) → Instr}
    (hpre : ∀ bs, decode (pre ++ bs) = withImm n f bs) (v : BitVec (8 * n)) :
    Encodes (pre ++ bytes n v) (f v) := by
  intro rest
  rw [List.append_assoc, hpre, withImm, take_bytes]
  rfl

theorem immediate_bytes (v : BitVec 32) (rest : List UInt8) :
    immediate 4 (bytes 4 v ++ rest) = some (v.signExtend 64, rest) := by
  rw [immediate, take_bytes (n := 4) v rest]
  rfl

/-- An operation on a register with an immediate of four bytes. -/
theorem encodes_aluImm (rex : Rex) (w : Width) {pre : List UInt8}
    (hpre : ∀ bs, decode (pre ++ bs) = groupOperand rex (Group.alu w 4) bs) {op : Alu} {b r m : ℕ}
    (hop : Group.aluOf r = some op) (hb : b = 192 + 8 * r + m) (hr : r < 8) (hm : m < 8)
    (v : BitVec 32) :
    Encodes (pre ++ [UInt8.ofNat b] ++ bytes 4 v)
      (.aluImm op w (ext rex.b m) (v.signExtend 64)) := by
  apply encodes_groupOperand rex _ hpre (denotes_reg hb hr hm rex)
  intro rest
  rw [Group.alu, hop, Option.bind_some, immediate_bytes]
  rfl

end X86
