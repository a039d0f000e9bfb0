import Mathlib

/-! How a dataset is filled: `init_parallel` of `rx_worker.cpp` cuts the items into a range for each
thread, and `randomx_init_dataset` fills one range. Products are `uint64_t`, boundaries and item
numbers `uint32_t`. -/

namespace NMiner

def u32 (n : ℕ) : ℕ := n % 2 ^ 32

def u64 (n : ℕ) : ℕ := n % 2 ^ 64

structure ItemRange where
  start : ℕ
  end_ : ℕ
  deriving DecidableEq, Repr

/-- `end - start` of two `uint32_t`. -/
def ItemRange.count (r : ItemRange) : ℕ := u32 (2 ^ 32 + r.end_ - r.start)

/-- The boundaries of the `i`th worker. -/
def workerRange (items threads i : ℕ) : ItemRange where
  start := u32 (u64 (items * i) / threads)
  end_ := u32 (u64 (items * (i + 1)) / threads)

/-- The ranges of the workers, in the order in which they are started. -/
def init_parallel (items threads : ℕ) : List ItemRange :=
  (List.range threads).map (workerRange items threads)

/-- The numbers of the items that `cache->datasetInit` computes, in order. -/
def datasetInit (startItem endItem : ℕ) : List ℕ :=
  List.range' (u32 startItem) (u32 endItem - u32 startItem)

/-- Items written one after the other from a place in the dataset on. -/
def fill (place : ℕ) (items : List ℕ) : List (ℕ × ℕ) :=
  items.zipIdx.map fun (item, j) => (place + j, item)

/-- What one call writes: the places, each with the number of the item that is written there. -/
def randomx_init_dataset (startItem itemCount : ℕ) : List (ℕ × ℕ) :=
  if itemCount < 4 then
    -- computed in a buffer of four items, of which `itemCount` are copied
    fill startItem ((datasetInit startItem (startItem + 4)).take itemCount)
  else if itemCount % 4 = 0 then
    fill startItem (datasetInit startItem (startItem + itemCount))
  else
    fill startItem (datasetInit startItem (startItem + itemCount - itemCount % 4)) ++
      fill (startItem + itemCount - 4)
        (datasetInit (startItem + itemCount - 4) (startItem + itemCount - 4 + 4))

def RANDOMX_DATASET_BASE_SIZE : ℕ := 2147483648

def RANDOMX_DATASET_EXTRA_SIZE : ℕ := 33554368

def RANDOMX_DATASET_ITEM_SIZE : ℕ := 64

def randomx_dataset_item_count : ℕ :=
  (RANDOMX_DATASET_BASE_SIZE + RANDOMX_DATASET_EXTRA_SIZE) / RANDOMX_DATASET_ITEM_SIZE

/-- What `BuildDataset` passes to the workers of one dataset; `cpus` is the number of processing
units found, which may be none. -/
def datasetRanges (cpus : ℤ) : List ItemRange :=
  init_parallel randomx_dataset_item_count (if cpus > 0 then cpus.toNat else 1)

end NMiner
