import NMiner.Proofs.Moves

/-! Every nonce that a ledger owns lies in a range that was recorded for the miner under its
current job or the job before it, in every state of an upstream. -/

namespace NMiner

/-! ### The newest jobs of a record, newest range first -/

section

variable {α : Type*} (key : α → String)

/-- The ranges of the newest job. -/
def block : List α → List α
  | [] => []
  | r :: rs => r :: rs.takeWhile fun x => key x = key r

/-- The ranges recorded before the newest job came. -/
def beyond : List α → List α
  | [] => []
  | r :: rs => rs.dropWhile fun x => key x = key r

/-- The ranges of the current and of the previous job, from a record with the oldest first. -/
def recent (log : List α) : List α := block key log.reverse ++ block key (beyond key log.reverse)

variable {key}

theorem block_cons_same {r r' : α} (h : key r = key r') (rs : List α) :
    block key (r' :: r :: rs) = r' :: block key (r :: rs) ∧
      beyond key (r' :: r :: rs) = beyond key (r :: rs) := by
  simp [block, beyond, h]

theorem block_cons_new {r r' : α} (h : key r ≠ key r') (rs : List α) :
    block key (r' :: r :: rs) = [r'] ∧ beyond key (r' :: r :: rs) = r :: rs := by
  simp [block, beyond, h]

theorem mem_of_mem_block {r : α} {log : List α} (h : r ∈ block key log) : r ∈ log := by
  cases log with
  | nil => exact h
  | cons x rs =>
    rcases List.mem_cons.mp h with rfl | h
    · exact List.mem_cons_self
    · exact List.mem_cons_of_mem _ (List.takeWhile_subset _ h)

theorem beyond_subset (log : List α) : beyond key log ⊆ log := by
  cases log with
  | nil => exact List.Subset.refl _
  | cons x rs => exact fun r h => List.mem_cons_of_mem _ (List.dropWhile_subset _ h)

theorem recent_subset (log : List α) : recent key log ⊆ log := by
  intro r h
  rcases List.mem_append.mp h with h | h
  · exact List.mem_reverse.mp (mem_of_mem_block h)
  · exact List.mem_reverse.mp (beyond_subset _ (mem_of_mem_block h))

end

/-- The id of the job that the range was recorded for. -/
def Issued.job_id (r : Issued) : String := r.job.job_id

/-! ### Ledgers -/

theorem has_of_appendRange {gs : List Grant} {g : Grant} {n : ℤ}
    (h : (appendRange gs g).any (·.has n) = true) : gs.any (·.has n) = true ∨ g.has n = true := by
  induction gs with
  | nil => exact Or.inr (by simpa [appendRange] using h)
  | cons x gs ih =>
    cases gs with
    | nil =>
      unfold appendRange at h
      split_ifs at h with hmerge
      · -- the merged range is the union of the two
        simp only [List.any_cons, List.any_nil, Bool.or_false, Grant.has, decide_eq_true_eq] at h ⊢
        omega
      · simpa using h
    | cons y gs =>
      simp only [appendRange, List.any_cons, Bool.or_eq_true] at h ih ⊢
      rcases h with h | h
      · exact Or.inl (Or.inl h)
      · exact (ih h).imp_left Or.inr

section

variable {α : Type*} {key : α → String} {range : α → Grant}

/-- The ledger's ranges are on record, newest first, under the current and the previous job. -/
structure Ledger.Booked (key : α → String) (range : α → Grant) (l : Ledger) (log : List α) :
    Prop where
  ranges : ∀ n, l.ranges.any (·.has n) = true → ∃ r ∈ block key log, (range r).has n = true
  prior : ∀ n, l.prior.any (·.has n) = true →
    ∃ r ∈ block key (beyond key log), (range r).has n = true
  current : l = {} ∨ ∃ r rs, log = r :: rs ∧ key r = l.job_id

theorem Ledger.booked_empty (log : List α) : Ledger.Booked key range {} log :=
  ⟨by simp, by simp, Or.inl rfl⟩

/-- Recording a range in the ledger and in the record. -/
theorem Ledger.Booked.record {l : Ledger} {log : List α} (h : l.Booked key range log) (r : α) :
    (l.record (key r) (range r)).Booked key range (r :: log) := by
  have hself : r ∈ block key (r :: log) := List.mem_cons_self
  by_cases hid : l.job_id = key r
  · have hrecord : l.record (key r) (range r) =
        { l with ranges := appendRange l.ranges (range r) } := by
      simp [Ledger.record, hid]
    rw [hrecord]
    refine ⟨?_, ?_, Or.inr ⟨r, log, rfl, hid.symm⟩⟩
    · intro n hn
      rcases has_of_appendRange hn with hn | hn
      · obtain ⟨x, hx, hxn⟩ := h.ranges n hn
        rcases h.current with rfl | ⟨y, rs, rfl, hy⟩
        · simp at hn
        · rw [(block_cons_same (hy.trans hid) rs).1]
          exact ⟨x, List.mem_cons_of_mem _ hx, hxn⟩
      · exact ⟨r, hself, hn⟩
    · intro n hn
      rcases h.current with rfl | ⟨y, rs, rfl, hy⟩
      · simp at hn
      · rw [(block_cons_same (hy.trans hid) rs).2]
        exact h.prior n hn
  · have hrecord : l.record (key r) (range r) =
        { job_id := key r, prior := l.ranges, ranges := [range r] } := by
      simp [Ledger.record, hid, appendRange]
    rw [hrecord]
    refine ⟨?_, ?_, Or.inr ⟨r, log, rfl, rfl⟩⟩
    · intro n hn
      exact ⟨r, hself, by simpa using hn⟩
    · intro n hn
      rcases h.current with rfl | ⟨y, rs, rfl, hy⟩
      · simp at hn
      · rw [(block_cons_new (hy.trans_ne hid) rs).2]
        exact h.ranges n hn

theorem Ledger.Booked.owns {l : Ledger} {log : List α} (h : l.Booked key range log.reverse) {n : ℤ}
    (hn : l.owns n = true) : ∃ r ∈ recent key log, (range r).has n = true := by
  rcases (Bool.or_eq_true _ _).mp hn with hn | hn
  · obtain ⟨r, hr, hrn⟩ := h.ranges n hn
    exact ⟨r, List.mem_append_left _ hr, hrn⟩
  · obtain ⟨r, hr, hrn⟩ := h.prior n hn
    exact ⟨r, List.mem_append_right _ hr, hrn⟩

end

namespace Upstream

/-! ### Upstreams -/

/-- Every miner's ledger is on record. -/
def Booked (u : Upstream) : Prop :=
  ∀ c, (u.ledgers c).Booked Issued.job_id Issued.range (u.issued c).reverse

/-- The change keeps the ledgers on record. -/
def Books (u v : Upstream) : Prop := u.Booked → v.Booked

theorem record_books (u : Upstream) (c : ClientId) (l : LinkId) (job : StratumJob) (range : Grant) :
    Books u (u.record c l job range) := by
  intro h x
  unfold record
  dsimp only
  by_cases hx : x = c
  · subst hx
    rw [Function.update_self, Function.update_self, List.reverse_append]
    exact (h x).record { link := l, job := job, range := range }
  · rw [Function.update_of_ne hx, Function.update_of_ne hx]
    exact h x

theorem grant_books (u : Upstream) (l : LinkId) (c : ClientId) : Books u (u.grant l c).2 := by
  rcases grant_cases u l c with h | ⟨space, ⟨r, h, -⟩ | ⟨g, job, -, h⟩⟩
  · rw [h]
    exact id
  · rw [h]
    exact id
  · rw [h]
    exact record_books (u.setLink l fun k => { k with space := space }) c l job g

/-- Only a cut changes a ledger otherwise than by emptying it. -/
theorem Moves.books {owes : ℕ → ClientId → Prop} {places : LinkId → Prop} {u v : Upstream}
    (h : Moves owes places u v) : Books u v := by
  refine h.keeps fun w w' hmove hw => ?_
  cases hmove with
  | keep h =>
    intro c
    rw [h.issued]
    rcases h.ledgers c with hc | hc
    · rw [hc]
      exact hw c
    · rw [hc]
      exact Ledger.booked_empty _
  | suspend t h => exact hw
  | grant l c => exact grant_books w l c hw
  | emit d h => exact hw
  | place l job h => exact hw

end Upstream

end NMiner
