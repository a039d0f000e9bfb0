import Mathlib

/-! A ring of `k` slots that the entries of a log are written to in turn: it holds the last `k` of
them, and a write evicts the entry `k` places back. -/

namespace Ring

variable {α : Type*}

structure Holds (k : ℕ) (empty : α) (ring log : List α) : Prop where
  length : ring.length = k
  recent : ∀ i < log.length, log.length ≤ i + k → ring[i % k]? = log[i]?
  fresh : ∀ j < k, log.length ≤ j → ring[j]? = some empty

theorem Holds.nil (k : ℕ) (empty : α) : Holds k empty (List.replicate k empty) [] := by
  refine ⟨List.length_replicate, fun i hi => ?_, fun j hj _ => ?_⟩
  · exact absurd hi (Nat.not_lt_zero i)
  · rw [List.getElem?_replicate, if_pos hj]

/-- Two places less than a round apart have different slots. -/
theorem mod_ne {k i n : ℕ} (hlt : i < n) (hle : n < i + k) : n % k ≠ i % k := by
  intro h
  have hdvd : k ∣ n - i := (Nat.modEq_iff_dvd' hlt.le).mp h.symm
  have := Nat.le_of_dvd (by omega) hdvd
  omega

variable {k : ℕ} {empty : α} {ring log : List α}

theorem Holds.push (h : Holds k empty ring log) (hk : 0 < k) (a : α) :
    Holds k empty (ring.set (log.length % k) a) (log ++ [a]) := by
  have hslot : log.length % k < ring.length := h.length.symm ▸ Nat.mod_lt _ hk
  refine ⟨by rw [List.length_set, h.length], fun i hi hle => ?_, fun j hj hle => ?_⟩
  · rw [List.length_append, List.length_singleton] at hi hle
    rcases Nat.lt_succ_iff_lt_or_eq.mp hi with hlt | rfl
    · rw [List.getElem?_set_ne (mod_ne hlt (by omega)), List.getElem?_append_left hlt]
      exact h.recent i hlt (by omega)
    · rw [List.getElem?_set_self hslot, List.getElem?_concat_length]
  · rw [List.length_append, List.length_singleton] at hle
    have hne : log.length % k ≠ j := by
      rw [Nat.mod_eq_of_lt (by omega)]
      omega
    rw [List.getElem?_set_ne hne]
    exact h.fresh j hj (by omega)

/-- The slot of the next write holds the entry `k` places back, if there is one. -/
theorem Holds.next (h : Holds k empty ring log) (hk : 0 < k) :
    ring[log.length % k]? = if k ≤ log.length then log[log.length - k]? else some empty := by
  split_ifs with hle
  · rw [← h.recent (log.length - k) (by omega) (by omega), Nat.mod_eq_sub_mod hle]
  · rw [not_le] at hle
    rw [Nat.mod_eq_of_lt hle]
    exact h.fresh log.length hle le_rfl

/-- The slots written so far hold the last `k` entries. -/
theorem Holds.mem_take (h : Holds k empty ring log) (hk : 0 < k) (a : α) :
    a ∈ ring.take log.length ↔ a ∈ log.rtake k := by
  have hlength := h.length
  constructor
  · intro ha
    obtain ⟨j, hj, hget⟩ := List.getElem_of_mem ha
    rw [List.length_take] at hj
    rw [List.getElem_take] at hget
    -- the last entry that was written to slot `j`
    have hmod := Nat.mod_add_div (log.length - 1 - j) k
    have hlt := Nat.mod_lt (log.length - 1 - j) hk
    have hslot : (j + k * ((log.length - 1 - j) / k)) % k = j := by
      rw [Nat.add_mul_mod_self_left, Nat.mod_eq_of_lt (by omega)]
    have hrecent := h.recent (j + k * ((log.length - 1 - j) / k)) (by omega) (by omega)
    rw [hslot, List.getElem?_eq_getElem (by omega), hget] at hrecent
    rw [List.rtake, List.mem_iff_getElem?]
    refine ⟨j + k * ((log.length - 1 - j) / k) - (log.length - k), ?_⟩
    rw [List.getElem?_drop, Nat.add_sub_cancel' (by omega)]
    exact hrecent.symm
  · intro ha
    rw [List.rtake] at ha
    obtain ⟨i, hi, hget⟩ := List.getElem_of_mem ha
    rw [List.length_drop] at hi
    rw [List.getElem_drop] at hget
    have hlt := Nat.mod_lt (log.length - k + i) hk
    have hle := Nat.mod_le (log.length - k + i) k
    have hrecent : ring[(log.length - k + i) % k]? = some a := by
      rw [h.recent (log.length - k + i) (by omega) (by omega), List.getElem?_eq_getElem (by omega),
        hget]
    refine List.mem_iff_getElem?.mpr ⟨(log.length - k + i) % k, ?_⟩
    rw [List.getElem?_take_of_lt (by omega)]
    exact hrecent

/-- A full ring writes over the entry that leaves the last `k`. -/
theorem Holds.leaves (h : Holds (k + 1) empty ring log) (hfull : k + 1 ≤ log.length) :
    ∃ old, ring[log.length % (k + 1)]? = some old ∧ log.rtake (k + 1) = old :: log.rtake k := by
  have hlt : log.length - (k + 1) < log.length := by omega
  refine ⟨log[log.length - (k + 1)], ?_, ?_⟩
  · rw [h.next (Nat.succ_pos k), if_pos hfull, List.getElem?_eq_getElem hlt]
  · rw [List.rtake, List.drop_eq_getElem_cons hlt, List.rtake]
    congr 2
    omega

end Ring
