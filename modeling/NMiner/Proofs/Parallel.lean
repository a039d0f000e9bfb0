import NMiner.Lib.Boundaries
import NMiner.Spec.Parallel

/-! The workers of a dataset fill consecutive ranges that cover it: every item is the work of one
worker, however many threads there are. -/

namespace NMiner

theorem u32_of_lt {n : ℕ} (h : n < 2 ^ 32) : u32 n = n := Nat.mod_eq_of_lt h

theorem u64_of_lt {n : ℕ} (h : n < 2 ^ 64) : u64 n = n := Nat.mod_eq_of_lt h

/-- No product of a boundary exceeds 64 bits. -/
theorem product_lt {items threads i : ℕ} (hfits : items * threads < 2 ^ 64) (hi : i ≤ threads) :
    items * i < 2 ^ 64 := lt_of_le_of_lt (Nat.mul_le_mul_left items hi) hfits

theorem boundary_le {items threads i : ℕ} (hthreads : 1 ≤ threads) (hi : i ≤ threads) :
    items * i / threads ≤ items :=
  calc items * i / threads ≤ items * threads / threads :=
        Nat.div_le_div_right (Nat.mul_le_mul_left items hi)
    _ = items := Nat.mul_div_cancel items hthreads

/-- Nothing is cut off a boundary on the way to it. -/
theorem boundary_eq {items threads i : ℕ} (hitems : items < 2 ^ 32) (hthreads : 1 ≤ threads)
    (hfits : items * threads < 2 ^ 64) (hi : i ≤ threads) :
    u32 (u64 (items * i) / threads) = items * i / threads := by
  rw [u64_of_lt (product_lt hfits hi)]
  exact u32_of_lt (lt_of_le_of_lt (boundary_le hthreads hi) hitems)

theorem workerRange_eq {items threads i : ℕ} (hitems : items < 2 ^ 32) (hthreads : 1 ≤ threads)
    (hfits : items * threads < 2 ^ 64) (hi : i < threads) :
    workerRange items threads i =
      { start := items * i / threads, end_ := items * (i + 1) / threads } := by
  unfold workerRange
  rw [boundary_eq hitems hthreads hfits hi.le, boundary_eq hitems hthreads hfits hi]

theorem count_eq {r : ItemRange} (hle : r.start ≤ r.end_) (hlt : r.end_ < 2 ^ 32) :
    r.count = r.end_ - r.start := by
  unfold ItemRange.count u32
  omega

theorem init_parallel_getElem? {items threads i : ℕ} (hi : i < threads) :
    (init_parallel items threads)[i]? = some (workerRange items threads i) := by
  unfold init_parallel
  rw [List.getElem?_map, List.getElem?_range hi, Option.map_some]

theorem mem_init_parallel {items threads : ℕ} {r : ItemRange} :
    r ∈ init_parallel items threads ↔ ∃ i < threads, workerRange items threads i = r := by
  unfold init_parallel
  simp only [List.mem_map, List.mem_range]

/-- The ranges start at `0`, each one where the one before it ends, and end at `items`; each worker
is told the size of its range, every item is in the range of exactly one worker, and neither a
product nor a cast loses anything. -/
theorem init_parallel_partitions (items threads : ℕ) (hitems : items < 2 ^ 32)
    (hthreads : 1 ≤ threads) (hfits : items * threads < 2 ^ 64) :
    (init_parallel items threads).length = threads ∧
      (init_parallel items threads).head?.map ItemRange.start = some 0 ∧
      (init_parallel items threads).getLast?.map ItemRange.end_ = some items ∧
      (init_parallel items threads).IsChain (fun r s => r.end_ = s.start) ∧
      (∀ r ∈ init_parallel items threads, r.start ≤ r.end_ ∧ r.end_ ≤ items ∧
        r.count = r.end_ - r.start) ∧
      (∀ n < items, ∃! i : ℕ, ∃ r : ItemRange, (init_parallel items threads)[i]? = some r ∧
        r.start ≤ n ∧ n < r.end_) ∧
      ∀ i ≤ threads, u64 (items * i) = items * i ∧
        u32 (items * i / threads) = items * i / threads := by
  have hlength : (init_parallel items threads).length = threads := by
    unfold init_parallel
    rw [List.length_map, List.length_range]
  have hrange := fun i hi => workerRange_eq (i := i) hitems hthreads hfits hi
  have hcancel : items * threads / threads = items := Nat.mul_div_cancel items hthreads
  refine ⟨hlength, ?_, ?_, ?_, fun r hr => ?_, fun n hn => ?_, fun i hi => ⟨?_, ?_⟩⟩
  · rw [List.head?_eq_getElem?, init_parallel_getElem? hthreads, hrange 0 hthreads, Option.map_some,
      Nat.mul_zero, Nat.zero_div]
  · have hlast : threads - 1 < threads := by omega
    rw [List.getLast?_eq_getElem?, hlength, init_parallel_getElem? hlast, hrange _ hlast,
      Option.map_some, Nat.sub_add_cancel hthreads, hcancel]
  · rw [List.isChain_iff_getElem]
    intro i hi
    rw [hlength] at hi
    have hget : ∀ j (hj : j < (init_parallel items threads).length),
        (init_parallel items threads)[j] = workerRange items threads j := by
      intro j hj
      exact List.getElem_of_getElem? (init_parallel_getElem? (hlength ▸ hj)) |>.2
    rw [hget, hget, hrange i (by omega), hrange (i + 1) hi]
  · obtain ⟨i, hi, rfl⟩ := mem_init_parallel.mp hr
    rw [hrange i hi]
    have hle : items * i / threads ≤ items * (i + 1) / threads :=
      Boundaries.monotone_mul_div items threads (Nat.le_succ i)
    have hend : items * (i + 1) / threads ≤ items := boundary_le hthreads hi
    exact ⟨hle, hend, count_eq hle (lt_of_le_of_lt hend hitems)⟩
  · obtain ⟨i, ⟨hi, hx⟩, hunique⟩ := Boundaries.existsUnique_between (x := n) (k := threads)
      (Boundaries.monotone_mul_div items threads) (by simp) (by rwa [hcancel])
    refine ⟨i, ⟨_, init_parallel_getElem? hi, by rwa [hrange i hi]⟩, ?_⟩
    rintro j ⟨r, hr, hx'⟩
    have hj : j < threads := hlength ▸ (List.getElem?_eq_some_iff.mp hr).1
    rw [init_parallel_getElem? hj, Option.some.injEq, hrange j hj] at hr
    subst hr
    exact hunique j ⟨hj, hx'⟩
  · exact u64_of_lt (product_lt hfits hi)
  · exact u32_of_lt (lt_of_le_of_lt (boundary_le hthreads hi) hitems)

/-- Five threads for three items: two of them have nothing to do. -/
theorem init_parallel_partitions_idle : init_parallel 3 5 =
      [⟨0, 0⟩, ⟨0, 1⟩, ⟨1, 1⟩, ⟨1, 2⟩, ⟨2, 3⟩] ∧
    ∀ n < 3, ∃! i : ℕ, ∃ r : ItemRange, (init_parallel 3 5)[i]? = some r ∧
      r.start ≤ n ∧ n < r.end_ :=
  ⟨by decide, (init_parallel_partitions 3 5 (by decide) (by decide) (by decide)).2.2.2.2.2.1⟩

/-! ### What the workers write -/

/-- Consecutive items written from the place of the first of them on. -/
theorem mem_fill_range' {start k : ℕ} {p : ℕ × ℕ} :
    p ∈ fill start (List.range' start k) ↔ p.1 = p.2 ∧ start ≤ p.1 ∧ p.1 < start + k := by
  unfold fill
  simp only [List.mem_map, Prod.exists, List.mem_zipIdx_iff_getElem?, List.getElem?_eq_some_iff,
    List.getElem_range', List.length_range', Nat.one_mul]
  constructor
  · rintro ⟨item, j, ⟨hj, rfl⟩, rfl⟩
    exact ⟨rfl, Nat.le_add_right start j, Nat.add_lt_add_left hj start⟩
  · rintro ⟨heq, hle, hlt⟩
    refine ⟨p.2, p.1 - start, ⟨by omega, by omega⟩, ?_⟩
    rw [Nat.add_sub_cancel' hle]

theorem datasetInit_eq {startItem endItem : ℕ} (hle : startItem ≤ endItem) (h : endItem < 2 ^ 32) :
    datasetInit startItem endItem = List.range' startItem (endItem - startItem) := by
  unfold datasetInit
  rw [u32_of_lt h, u32_of_lt (lt_of_le_of_lt hle h)]

/-- Exactly the items of the range are written, each in its own place. -/
theorem mem_randomx_init_dataset {startItem itemCount : ℕ}
    (h : startItem + itemCount + 4 < 2 ^ 32) {p : ℕ × ℕ} :
    p ∈ randomx_init_dataset startItem itemCount ↔
      p.1 = p.2 ∧ startItem ≤ p.1 ∧ p.1 < startItem + itemCount := by
  unfold randomx_init_dataset
  split_ifs with hsmall hfour
  · rw [datasetInit_eq (by omega) (by omega), Nat.add_sub_cancel_left,
      List.take_range'_of_length_ge hsmall.le]
    exact mem_fill_range'
  · rw [datasetInit_eq (by omega) (by omega), Nat.add_sub_cancel_left]
    exact mem_fill_range'
  · -- the last four items, some of them for the second time
    rw [datasetInit_eq (by omega) (by omega), datasetInit_eq (by omega) (by omega), List.mem_append,
      mem_fill_range', mem_fill_range']
    omega

/-- However many processing units are found, every item of the dataset is written by exactly one
worker, and nothing else is. -/
theorem datasetRanges_fill (cpus : ℤ) (hcpus : cpus < 2 ^ 31) :
    (∀ n < randomx_dataset_item_count, ∃! i : ℕ, ∃ r : ItemRange,
      (datasetRanges cpus)[i]? = some r ∧
        (n, n) ∈ randomx_init_dataset r.start r.count) ∧
      ∀ r ∈ datasetRanges cpus, ∀ p ∈ randomx_init_dataset r.start r.count,
        p.1 = p.2 ∧ p.1 < randomx_dataset_item_count := by
  have hitems : randomx_dataset_item_count = 34078719 := by decide
  unfold datasetRanges
  generalize hthreads : (if cpus > 0 then cpus.toNat else 1) = threads
  have hpos : 1 ≤ threads ∧ threads < 2 ^ 31 := by
    split_ifs at hthreads <;> omega
  have hfits : randomx_dataset_item_count * threads < 2 ^ 64 := by
    rw [hitems]
    omega
  obtain ⟨-, -, -, -, hranges, hunique, -⟩ := init_parallel_partitions randomx_dataset_item_count
    threads (by omega) hpos.1 hfits
  have hwrites : ∀ r ∈ init_parallel randomx_dataset_item_count threads, ∀ p,
      p ∈ randomx_init_dataset r.start r.count ↔ p.1 = p.2 ∧ r.start ≤ p.1 ∧ p.1 < r.end_ := by
    intro r hr p
    obtain ⟨hle, hend, hcount⟩ := hranges r hr
    rw [mem_randomx_init_dataset (by omega), hcount, Nat.add_sub_cancel' hle]
  refine ⟨fun n hn => ?_, fun r hr p hp => ?_⟩
  · refine (existsUnique_congr fun i => exists_congr fun r => and_congr_right fun hr => ?_).mp
      (hunique n hn)
    rw [hwrites r (List.mem_of_getElem? hr), eq_self_iff_true, true_and]
  · obtain ⟨heq, -, hlt⟩ := (hwrites r hr p).mp hp
    exact ⟨heq, lt_of_lt_of_le hlt (hranges r hr).2.1⟩

end NMiner
