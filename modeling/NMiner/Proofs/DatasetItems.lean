import NMiner.Proofs.Parallel
import NMiner.Proofs.Superscalar
import NMiner.Proofs.VirtualMachine

/-! The items of the dataset: the reciprocals that are kept beside the cache are those that the
programs would compute, and a light machine, which computes the items that it reads, runs every
program as a full machine does, however many threads have filled the dataset and in whatever
order. -/

namespace NMiner.RandomX

open SuperscalarInstructionType

variable {blake2b : List UInt8 → List UInt8} {fuel : ℕ}

/-! ### Reciprocals -/

theorem prefix_cacheReciprocals (prog : List Instruction) (rcps : List (BitVec 64)) :
    rcps <+: (cacheReciprocals prog rcps).2 := by
  induction prog generalizing rcps with
  | nil => exact List.prefix_refl _
  | cons instr rest ih =>
    unfold cacheReciprocals
    split_ifs
    · exact (List.prefix_append rcps _).trans (ih _)
    · exact ih rcps

theorem length_cacheReciprocals (prog : List Instruction) (rcps : List (BitVec 64)) :
    (cacheReciprocals prog rcps).2.length ≤ rcps.length + prog.length := by
  induction prog generalizing rcps with
  | nil => exact Nat.le_refl _
  | cons instr rest ih =>
    unfold cacheReciprocals
    split_ifs
    · have h := ih (rcps ++ [randomx_reciprocal instr.imm32])
      rw [List.length_append, List.length_singleton] at h
      rw [List.length_cons]
      dsimp only
      omega
    · have h := ih rcps
      rw [List.length_cons]
      dsimp only
      omega

/-- Only `IMUL_RCP` looks at the reciprocals. -/
theorem superscalarValue_of_ne {instr : Instruction} (h : ofByte instr.opcode ≠ .IMUL_RCP)
    (reciprocals : Option (List (BitVec 64))) (x y : BitVec 64) :
    superscalarValue reciprocals instr x y = superscalarValue none instr x y := by
  unfold superscalarValue
  cases htype : ofByte instr.opcode with
  | IMUL_RCP => exact absurd htype h
  | _ => rfl

theorem superscalarValue_cached {instr : Instruction} (h : ofByte instr.opcode = .IMUL_RCP)
    {rcps all : List (BitVec 64)} (hall : rcps ++ [randomx_reciprocal instr.imm32] <+: all)
    (hlength : rcps.length < 2 ^ 32) (x y : BitVec 64) :
    superscalarValue (some all) { instr with imm32 := BitVec.ofNat 32 rcps.length } x y =
      superscalarValue none instr x y := by
  have hget : all[rcps.length]? = some (randomx_reciprocal instr.imm32) := by
    obtain ⟨tail, rfl⟩ := hall
    simp
  have hindex : (BitVec.ofNat 32 rcps.length).toNat = rcps.length := by
    rw [BitVec.toNat_ofNat, Nat.mod_eq_of_lt hlength]
  unfold superscalarValue
  simp only [h, hindex, hget, Option.map_some]

theorem executeSuperscalar_cached {prog : List Instruction} {rcps all : List (BitVec 64)}
    (hall : (cacheReciprocals prog rcps).2 <+: all) (hlength : rcps.length + prog.length ≤ 2 ^ 32)
    (r : Fin 8 → BitVec 64) :
    executeSuperscalar (some all) (cacheReciprocals prog rcps).1 r =
      executeSuperscalar none prog r := by
  induction prog generalizing rcps r with
  | nil => rfl
  | cons instr rest ih =>
    rw [List.length_cons] at hlength
    by_cases htype : ofByte instr.opcode = .IMUL_RCP
    · rw [cacheReciprocals, if_pos htype] at hall ⊢
      have hpre :=
        (prefix_cacheReciprocals rest (rcps ++ [randomx_reciprocal instr.imm32])).trans hall
      have hrest := ih hall (by rw [List.length_append, List.length_singleton]; omega)
      simp only [executeSuperscalar, superscalarValue_cached htype hpre (by omega), hrest]
    · rw [cacheReciprocals, if_neg htype] at hall ⊢
      have hrest := ih hall (by omega)
      simp only [executeSuperscalar, superscalarValue_of_ne htype (some all), hrest]

/-- The programs as they are generated, before their reciprocals are moved. -/
def generatedPrograms (blake2b : List UInt8 → List UInt8) (fuel : ℕ) :
    ℕ → Blake2Generator → Option (List SuperscalarProgram)
  | 0, _ => some []
  | n + 1, gen =>
    (generateSuperscalar blake2b fuel gen).bind fun (prog, gen) =>
      (generatedPrograms blake2b fuel n gen).map (prog :: ·)

theorem generatePrograms_spec {n : ℕ} {gen : Blake2Generator} {rcps : List (BitVec 64)}
    {r : List SuperscalarProgram × List (BitVec 64)}
    (h : generatePrograms blake2b fuel n gen rcps = some r)
    (hlength : rcps.length + n * SuperscalarMaxSize ≤ 2 ^ 32) :
    rcps <+: r.2 ∧ ∃ progs, generatedPrograms blake2b fuel n gen = some progs ∧
      (∀ prog ∈ progs, prog.Valid) ∧ ∀ memory item rl,
        mixPrograms (some r.2) memory r.1 item rl = mixPrograms none memory progs item rl := by
  induction n generalizing gen rcps r with
  | zero =>
    rw [generatePrograms, Option.some.injEq] at h
    subst h
    exact ⟨List.prefix_refl _, [], rfl, fun _ h => absurd h List.not_mem_nil, fun _ _ _ => rfl⟩
  | succ n ih =>
    rw [generatePrograms, Option.bind_eq_some_iff] at h
    obtain ⟨⟨prog, gen'⟩, hprog, h⟩ := h
    dsimp only at h
    rw [Option.map_eq_some_iff] at h
    obtain ⟨⟨progs', all⟩, hrest, rfl⟩ := h
    have hvalid := valid_of_generateSuperscalar hprog
    have hmore := length_cacheReciprocals prog.programBuffer rcps
    have hsize := hvalid.length
    dsimp only at hsize
    rw [Nat.succ_mul] at hlength
    obtain ⟨hpre, progs, hprogs, hall, hmix⟩ := ih hrest (by omega)
    dsimp only at hpre hmix
    refine ⟨(prefix_cacheReciprocals _ _).trans hpre, prog :: progs,
      ?_, ?_, fun memory item rl => ?_⟩
    · rw [generatedPrograms, hprog, Option.bind_some]
      dsimp only
      rw [hprogs]
      rfl
    · intro p hp
      rcases List.mem_cons.mp hp with rfl | hp
      · exact hvalid
      · exact hall p hp
    · simp only [mixPrograms,
        executeSuperscalar_cached hpre (show rcps.length + prog.programBuffer.length ≤
        2 ^ 32 by omega), hmix]

theorem exists_generatePrograms (hdraw : Generation.Draws blake2b fuel)
    (n : ℕ) (gen : Blake2Generator)
    (rcps : List (BitVec 64)) : ∃ r, generatePrograms blake2b fuel n gen rcps = some r := by
  induction n generalizing gen rcps with
  | zero => exact ⟨_, rfl⟩
  | succ n ih =>
    obtain ⟨prog, gen', hprog, -⟩ := exists_generateSuperscalar hdraw gen
    obtain ⟨r, hr⟩ := ih gen' (cacheReciprocals prog.programBuffer rcps).2
    exact ⟨_, by rw [generatePrograms, hprog, Option.bind_some]; dsimp only; rw [hr]; rfl⟩

theorem exists_initCache (hdraw : Generation.Draws blake2b fuel) (memory : ℕ → UInt8)
    (key : List UInt8) :
    ∃ cache, initCache blake2b fuel memory key = some cache := by
  obtain ⟨r, hr⟩ := exists_generatePrograms hdraw RANDOMX_CACHE_ACCESSES (.ofSeed key 0) []
  exact ⟨_, by rw [initCache, hr]; rfl⟩

/-! ### Items can be computed -/

theorem superscalarValue_isSome {instr : Instruction} (h : ofByte instr.opcode ≠ .INVALID)
    (x y : BitVec 64) : (superscalarValue none instr x y).isSome = true := by
  unfold superscalarValue
  cases htype : ofByte instr.opcode with
  | INVALID => exact absurd htype h
  | _ => rfl

theorem executeSuperscalar_isSome {prog : List Instruction}
    (h : ∀ instr ∈ prog, ValidInstruction instr)
    (r : Fin 8 → BitVec 64) : (executeSuperscalar none prog r).isSome = true := by
  induction prog generalizing r with
  | nil => rfl
  | cons instr rest ih =>
    have hinstr := h instr List.mem_cons_self
    obtain ⟨v, hv⟩ := Option.isSome_iff_exists.mp (superscalarValue_isSome hinstr.type
      (r ⟨instr.dst.toNat, hinstr.dst⟩) (r ⟨instr.src.toNat, hinstr.src⟩))
    rw [executeSuperscalar, reg?_eq_some hinstr.dst, Option.bind_some, reg?_eq_some hinstr.src,
      Option.bind_some, hv, Option.bind_some]
    exact ih (fun i hi => h i (List.mem_cons_of_mem instr hi)) _

theorem mixPrograms_isSome {progs : List SuperscalarProgram} (h : ∀ prog ∈ progs, prog.Valid)
    (memory : ℕ → UInt8) (item : BitVec 64) (rl : Fin 8 → BitVec 64) :
    (mixPrograms none memory progs item rl).isSome = true := by
  induction progs generalizing item rl with
  | nil => rfl
  | cons prog rest ih =>
    obtain ⟨rl', hrl⟩ := Option.isSome_iff_exists.mp
      (executeSuperscalar_isSome (h prog List.mem_cons_self).instructions rl)
    rw [mixPrograms, hrl, Option.bind_some]
    exact ih (fun p hp => h p (List.mem_cons_of_mem prog hp)) _ _

theorem initCache_spec {memory : ℕ → UInt8} {key : List UInt8} {cache : Cache}
    (h : initCache blake2b fuel memory key = some cache) :
    ∃ progs, generatedPrograms blake2b fuel RANDOMX_CACHE_ACCESSES (.ofSeed key 0) = some progs ∧
      (∀ prog ∈ progs, prog.Valid) ∧
      ∀ item, initDatasetItem cache item = mixPrograms none memory progs item (itemStart item) := by
  rw [initCache, Option.map_eq_some_iff] at h
  obtain ⟨r, hr, rfl⟩ := h
  obtain ⟨-, progs, hprogs, hvalid, hmix⟩ := generatePrograms_spec hr (by decide)
  exact ⟨progs, hprogs, hvalid, fun item => hmix memory item _⟩

theorem initDatasetItem_isSome {memory : ℕ → UInt8} {key : List UInt8} {cache : Cache}
    (h : initCache blake2b fuel memory key = some cache) (item : BitVec 64) :
    (initDatasetItem cache item).isSome = true := by
  obtain ⟨progs, -, hvalid, hitem⟩ := initCache_spec h
  rw [hitem]
  exact mixPrograms_isSome hvalid memory item _

/-- The items that are computed with the reciprocals of the cache are those of the programs as they
have been generated, and every item can be computed. -/
theorem initDatasetItem_generated {memory : ℕ → UInt8} {key : List UInt8} {cache : Cache}
    (h : initCache blake2b fuel memory key = some cache) :
    ∃ progs, generatedPrograms blake2b fuel RANDOMX_CACHE_ACCESSES (.ofSeed key 0) = some progs ∧
      ∀ item, initDatasetItem cache item = mixPrograms none memory progs item (itemStart item) ∧
        (initDatasetItem cache item).isSome = true := by
  obtain ⟨progs, hprogs, -, hitem⟩ := initCache_spec h
  exact ⟨progs, hprogs, fun item => ⟨hitem item, initDatasetItem_isSome h item⟩⟩

theorem initDatasetItem_generated_threes :
    ∃ cache progs, initCache threes 65 (fun _ => 0) [] = some cache ∧
      ∀ item, initDatasetItem cache item = mixPrograms none (fun _ => 0) progs item
        (itemStart item) ∧
        (initDatasetItem cache item).isSome = true := by
  obtain ⟨cache, hcache⟩ := exists_initCache draws_threes (fun _ => 0) []
  obtain ⟨progs, -, hitems⟩ := initDatasetItem_generated hcache
  exact ⟨cache, progs, hcache, hitems⟩

/-! ### Filling a dataset -/

/-- The place of an item holds that item. -/
def Holds (cache : Cache) (dataset : ℕ → UInt8) (n : ℕ) : Prop :=
  initDatasetItem cache (BitVec.ofNat 64 n) = some (getLine dataset (CacheLineSize * n))

/-- Items that are written to their own places are held there, whatever is written between them. -/
theorem writeItems_holds {cache : Cache}
    (htotal : ∀ item, (initDatasetItem cache item).isSome = true)
    {ws : List (ℕ × ℕ)} (hown : ∀ p ∈ ws, p.1 = p.2) (dataset : ℕ → UInt8) :
    ∃ dataset', writeItems cache ws dataset = some dataset' ∧
      ∀ n, (n, n) ∈ ws ∨ Holds cache dataset n → Holds cache dataset' n := by
  induction ws generalizing dataset with
  | nil => exact ⟨dataset, rfl, fun n hn => hn.resolve_left List.not_mem_nil⟩
  | cons p ws ih =>
    obtain ⟨place, item⟩ := p
    obtain rfl : place = item := hown _ List.mem_cons_self
    obtain ⟨line, hline⟩ := Option.isSome_iff_exists.mp (htotal (BitVec.ofNat 64 place))
    obtain ⟨dataset', hwrite, hholds⟩ := ih (fun q hq => hown q (List.mem_cons_of_mem _ hq))
      (putLine dataset (CacheLineSize * place) line)
    refine ⟨dataset', by rw [writeItems, hline, Option.bind_some]; exact hwrite,
      fun n hn => hholds n ?_⟩
    have hsize : CacheLineSize = 64 := rfl
    by_cases hplace : n = place
    · right
      rw [hplace, Holds, getLine_putLine, hline]
    · rcases hn with hmem | hheld
      · rcases List.mem_cons.mp hmem with heq | hmem
        · exact absurd (congrArg Prod.fst heq) hplace
        · exact .inl hmem
      · right
        rw [Holds, getLine_putLine_of_not]
        · exact hheld
        · rw [hsize]
          rcases Nat.lt_or_gt_of_ne hplace with hlt | hlt <;> omega

/-- Whatever number of threads there are, and in whatever order they write: in the end every item is
in its place. -/
theorem dataset_filled {cache : Cache} (htotal : ∀ item, (initDatasetItem cache item).isSome = true)
    (cpus : ℤ) (hcpus : cpus < 2 ^ 31) {ws : List (ℕ × ℕ)}
    (hws : ws.Perm ((datasetRanges cpus).flatMap fun r => randomx_init_dataset r.start r.count))
    (dataset : ℕ → UInt8) :
    ∃ dataset', writeItems cache ws dataset = some dataset' ∧
      ∀ n < randomx_dataset_item_count, Holds cache dataset' n := by
  obtain ⟨hcover, hown⟩ := datasetRanges_fill cpus hcpus
  obtain ⟨dataset', hwrite, hholds⟩ := writeItems_holds htotal
    (fun p hp => by
      obtain ⟨r, hr, hpr⟩ := List.mem_flatMap.mp (hws.mem_iff.mp hp)
      exact (hown r hr p hpr).1) dataset
  refine ⟨dataset', hwrite, fun n hn => hholds n (.inl (hws.mem_iff.mpr (List.mem_flatMap.mpr ?_)))⟩
  obtain ⟨i, ⟨r, hr, hmem⟩, -⟩ := hcover n hn
  exact ⟨r, List.mem_of_getElem? hr, hmem⟩

/-! ### Light machines -/

theorem iteration_congr {u : X86.Units} {flags : Flags} {config : ProgramConfiguration}
    {bytecode : ℕ → InstructionByteCode} {n datasetOffset : ℕ} {read read' : ℕ → Option Line}
    (h : ∀ ma : BitVec 32, read (datasetOffset + (ma &&& CacheLineAlignMask).toNat) =
      read' (datasetOffset + (ma &&& CacheLineAlignMask).toNat)) :
    iteration u flags config bytecode n datasetOffset read =
      iteration u flags config bytecode n datasetOffset read' := by
  funext l
  unfold iteration
  simp only [h]

/-- The lines that iterations read are items. -/
theorem address_eq (prog : Program) (ma : BitVec 32) :
    ∃ n < randomx_dataset_item_count,
      (vmInitialize prog).datasetOffset + (ma &&& CacheLineAlignMask).toNat =
        CacheLineSize * n := by
  have haligned : (ma &&& CacheLineAlignMask).toNat % 64 = 0 := by
    have hmask : CacheLineAlignMask.toNat = (2 ^ 25 - 1) <<< 6 := by decide
    rw [BitVec.toNat_and, hmask, and_shiftLeft, Nat.shiftLeft_eq]
    exact Nat.mul_mod_left _ _
  have hle := datasetOffset_le prog ma
  have hoffset : (vmInitialize prog).datasetOffset =
      (prog.entropy 13).toNat % (DatasetExtraItems + 1) * CacheLineSize := rfl
  have hsize : CacheLineSize = 64 := rfl
  have htotal : DatasetSize = CacheLineSize * randomx_dataset_item_count := by decide
  rw [htotal, hsize] at hle
  rw [hsize] at hoffset
  refine ⟨((vmInitialize prog).datasetOffset + (ma &&& CacheLineAlignMask).toNat) /
    64, by omega, ?_⟩
  rw [hsize]
  omega

theorem light_read_eq {cache : Cache} {dataset : ℕ → UInt8}
    (h : ∀ n < randomx_dataset_item_count, Holds cache dataset n) (prog : Program)
    (ma : BitVec 32) :
    InterpretedLightVm.datasetRead cache
        ((vmInitialize prog).datasetOffset + (ma &&& CacheLineAlignMask).toNat) =
      InterpretedVm.datasetRead dataset
        ((vmInitialize prog).datasetOffset + (ma &&& CacheLineAlignMask).toNat) := by
  obtain ⟨n, hn, haddress⟩ := address_eq prog ma
  have hle := datasetOffset_le prog ma
  rw [haddress] at hle ⊢
  have hcount : randomx_dataset_item_count = 34078719 := by decide
  have hitem : (BitVec.ofNat 32 (CacheLineSize * n / CacheLineSize)).setWidth 64 =
    BitVec.ofNat 64 n := by
    rw [Nat.mul_div_cancel_left n (by decide : 0 < CacheLineSize)]
    apply BitVec.eq_of_toNat_eq
    rw [BitVec.toNat_setWidth, BitVec.toNat_ofNat, BitVec.toNat_ofNat]
    omega
  rw [InterpretedLightVm.datasetRead, InterpretedVm.datasetRead, if_pos hle, hitem]
  exact h n hn

/-- A machine with only the cache runs every program exactly as one with the whole dataset does,
however many threads have filled the dataset, in whatever order they have written its items and
whatever has been in its memory before. -/
theorem light_run_eq {memory : ℕ → UInt8} {key : List UInt8} {cache : Cache}
    (hcache : initCache blake2b fuel memory key = some cache) (cpus : ℤ) (hcpus : cpus < 2 ^ 31)
    {ws : List (ℕ × ℕ)}
    (hws : ws.Perm ((datasetRanges cpus).flatMap fun r => randomx_init_dataset r.start r.count))
    (before : ℕ → UInt8) :
    ∃ dataset, writeItems cache ws before = some dataset ∧
      ∀ u flags bytecode prog scratchpad mxcsr,
        InterpretedVm.run u flags
          (InterpretedLightVm.datasetRead cache) bytecode prog scratchpad mxcsr =
          InterpretedVm.run u flags
            (InterpretedVm.datasetRead dataset) bytecode prog scratchpad mxcsr := by
  obtain ⟨dataset, hwrite, hholds⟩ :=
    dataset_filled (initDatasetItem_isSome hcache) cpus hcpus hws before
  refine ⟨dataset, hwrite, fun u flags bytecode prog scratchpad mxcsr => ?_⟩
  unfold InterpretedVm.run
  dsimp only
  rw [iteration_congr (light_read_eq hholds prog)]

theorem light_run_eq_threes :
    ∃ cache dataset, initCache threes 65 (fun _ => 0) [] = some cache ∧
      writeItems cache ((datasetRanges 2).flatMap fun r => randomx_init_dataset r.start r.count)
        (fun _ => 0) =
        some dataset ∧
      ∀ u flags bytecode prog scratchpad mxcsr,
        InterpretedVm.run u flags
          (InterpretedLightVm.datasetRead cache) bytecode prog scratchpad mxcsr =
          InterpretedVm.run u flags
            (InterpretedVm.datasetRead dataset) bytecode prog scratchpad mxcsr := by
  obtain ⟨cache, hcache⟩ := exists_initCache draws_threes (fun _ => 0) []
  obtain ⟨dataset, hwrite, hrun⟩ :=
    light_run_eq hcache 2 (by decide) (List.Perm.refl _) (fun _ => 0)
  exact ⟨cache, dataset, hcache, hwrite, hrun⟩

end NMiner.RandomX
