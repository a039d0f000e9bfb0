import NMiner.Proofs.Datagrams

/-! The dedupe window of a datagram link, whatever its peer writes: it is the last `SEEN_WINDOW`
numbers accepted as long as no negative number leaves the ring, as `accept` does not evict one. -/

namespace NMiner

open Transition

/-! ### The texts of an engine that rounds -/

theorem roundedInt36_some (text : Text) : roundedInt36 some text = parseInt36 text := by
  have hbind : ∀ digits, (base36.parse digits).bind some = base36.parse digits := fun digits => by
    cases base36.parse digits <;> rfl
  unfold roundedInt36 parseInt36
  simp only [hbind]

theorem roundedDataOf_some (text : Text) : roundedDataOf some text = dataOf text := by
  unfold roundedDataOf dataOf
  simp only [roundedInt36_some]

namespace Side

variable {round : ℕ → Option ℕ} {d d' : Side}

/-- Where every number has an exact value `hear` is `receive`. -/
theorem hear_some (d : Side) (text : Text) : d.hear some text = (d.receive text).1 := by
  unfold hear receive
  rw [roundedInt36_some, roundedDataOf_some]
  split_ifs
  · cases parseInt36 (text.drop 1) <;> rfl
  · cases dataOf text <;> rfl

/-! ### The window -/

/-- The seen set is that of the numbers stored in the ring, the last `SEEN_WINDOW` accepted. -/
structure Deduped (d : Side) : Prop where
  ring : d.link.seen = (d.link.ring.take d.numbers.length).toFinset
  recent : d.link.seen = (d.numbers.rtake SEEN_WINDOW).toFinset
  card : d.link.seen.card ≤ SEEN_WINDOW

/-- The ring holds the numbers accepted, no two of the last `SEEN_WINDOW` alike. -/
structure Recorded (d : Side) : Prop where
  ring : Ring.Holds SEEN_WINDOW (-1) d.link.ring d.numbers
  at_ : d.link.at_ = d.numbers.length % SEEN_WINDOW
  nodup : (d.numbers.rtake SEEN_WINDOW).Nodup

/-- The slot that the next number goes to holds none yet, or one that is evicted. -/
def evicts (d : Side) : Bool :=
  d.numbers.length < SEEN_WINDOW ∨ 0 ≤ d.link.ring.getD d.link.at_ (-1)

/-- The condition on a step: if a text carries a number that has not been seen, there is a slot for
it. -/
def orderly (round : ℕ → Option ℕ) (d : Side) : Event → Bool
  | .receive text => (roundedDataOf round text).all fun p => p.1 ∈ d.link.seen ∨ d.evicts = true
  | _ => true

theorem Recorded.deduped_iff (h : d.Recorded) :
    d.Deduped ↔ d.link.seen = (d.numbers.rtake SEEN_WINDOW).toFinset := by
  refine ⟨Deduped.recent, fun hseen => ⟨?_, hseen, ?_⟩⟩
  · ext n
    rw [hseen, List.mem_toFinset, List.mem_toFinset, h.ring.mem_take window_pos]
  · rw [hseen]
    refine (List.toFinset_card_le _).trans ?_
    rw [List.rtake, List.length_drop]
    omega

/-! ### Calls that leave the window alone -/

/-- No number is accepted. -/
structure SameWindow (d d' : Side) : Prop where
  seen : d'.link.seen = d.link.seen
  ring : d'.link.ring = d.link.ring
  at_ : d'.link.at_ = d.link.at_
  delivered : d'.delivered = d.delivered

theorem SameWindow.numbers (h : SameWindow d d') : d'.numbers = d.numbers :=
  congrArg (List.map Prod.fst) h.delivered

theorem SameWindow.deduped (h : SameWindow d d') (hd : d.Deduped) : d'.Deduped := by
  constructor
  · rw [h.seen, h.ring, h.numbers]
    exact hd.ring
  · rw [h.seen, h.numbers]
    exact hd.recent
  · rw [h.seen]
    exact hd.card

theorem SameWindow.recorded (h : SameWindow d d') (hd : d.Recorded) : d'.Recorded := by
  constructor
  · rw [h.ring, h.numbers]
    exact hd.ring
  · rw [h.at_, h.numbers]
    exact hd.at_
  · rw [h.numbers]
    exact hd.nodup

theorem resend_sameWindow (d : Side) (now : ℤ) : SameWindow d (d.resend now) := by
  unfold resend
  dsimp only
  split_ifs <;> exact ⟨rfl, rfl, rfl, rfl⟩

theorem receiveAck_sameWindow (d : Side) (seq : ℤ) : SameWindow d (d.receiveAck seq) := by
  unfold receiveAck
  split_ifs <;> exact ⟨rfl, rfl, rfl, rfl⟩

theorem receiveData_sameWindow {seq : ℤ} (hseen : seq ∈ d.link.seen) (payload : Text) :
    SameWindow d (d.receiveData seq payload) := by
  rw [receiveData, if_pos hseen]
  exact ⟨rfl, rfl, rfl, rfl⟩

/-! ### A number that is accepted -/

theorem rtake_concat (log : List ℤ) (seq : ℤ) :
    (log ++ [seq]).rtake SEEN_WINDOW = log.rtake (SEEN_WINDOW - 1) ++ [seq] :=
  List.rtake_concat_succ log (SEEN_WINDOW - 1) seq

/-- Before the ring is full nothing leaves it, then it is the oldest entry that does. -/
theorem Recorded.evicted (h : d.Recorded) :
    (d.numbers.length < SEEN_WINDOW ∧ d.link.ring.getD d.link.at_ (-1) = -1 ∧
        d.numbers.rtake SEEN_WINDOW = d.numbers.rtake (SEEN_WINDOW - 1)) ∨
      SEEN_WINDOW ≤ d.numbers.length ∧ d.numbers.rtake SEEN_WINDOW =
        d.link.ring.getD d.link.at_ (-1) :: d.numbers.rtake (SEEN_WINDOW - 1) := by
  rw [List.getD_eq_getElem?_getD, h.at_]
  rcases Nat.lt_or_ge d.numbers.length SEEN_WINDOW with hlt | hfull
  · refine Or.inl ⟨hlt, ?_, ?_⟩
    · rw [h.ring.next window_pos, if_neg (not_le.mpr hlt), Option.getD_some]
    · have hle : d.numbers.length ≤ SEEN_WINDOW - 1 := Nat.le_pred_of_lt hlt
      rw [List.rtake, List.rtake, Nat.sub_eq_zero_of_le hlt.le, Nat.sub_eq_zero_of_le hle]
  · obtain ⟨old, hold, hrtake⟩ := Ring.Holds.leaves (k := SEEN_WINDOW - 1) h.ring hfull
    refine Or.inr ⟨hfull, ?_⟩
    rw [show d.link.ring[d.numbers.length % SEEN_WINDOW]? = some old from hold, Option.getD_some]
    exact hrtake

theorem Recorded.accept (h : d.Recorded) (hd : d.Deduped) {seq : ℤ} (hseq : seq ∉ d.link.seen)
    (payload : Text) : (d.receiveData seq payload).Recorded := by
  have hnumbers := receiveData_numbers d seq payload
  have hlink := receiveData_link d seq payload
  rw [if_neg hseq] at hnumbers hlink
  refine ⟨?_, ?_, ?_⟩
  · rw [hnumbers, hlink]
    have hpush := h.ring.push window_pos seq
    rw [← h.at_] at hpush
    exact hpush
  · rw [hnumbers, hlink, List.length_append, List.length_singleton]
    change (d.link.at_ + 1) % SEEN_WINDOW = _
    rw [h.at_, Nat.mod_add_mod]
  · rw [hnumbers, rtake_concat, ← List.concat_eq_append]
    have hnodup := h.nodup
    rw [hd.recent, List.mem_toFinset] at hseq
    rcases h.evicted with ⟨-, -, hrtake⟩ | ⟨-, hrtake⟩
    · rw [hrtake] at hnodup hseq
      exact hnodup.concat hseq
    · rw [hrtake] at hnodup hseq
      exact hnodup.of_cons.concat fun hmem => hseq (List.mem_cons_of_mem _ hmem)

/-- A number keeps the window exactly if there is a slot for it. -/
theorem Recorded.accept_deduped_iff (h : d.Recorded) (hd : d.Deduped) {seq : ℤ}
    (hseq : seq ∉ d.link.seen) (payload : Text) :
    (d.receiveData seq payload).Deduped ↔ d.evicts = true := by
  have hnumbers := receiveData_numbers d seq payload
  have hlink := receiveData_link d seq payload
  have hold := hseq
  rw [if_neg hseq] at hnumbers hlink
  have hseen : (d.receiveData seq payload).link.seen = insert seq
      (if 0 ≤ d.link.ring.getD d.link.at_ (-1) then
        d.link.seen.erase (d.link.ring.getD d.link.at_ (-1)) else d.link.seen) := by
    rw [hlink]
    rfl
  rw [(h.accept hd hseq payload).deduped_iff, hnumbers, rtake_concat, hseen, List.toFinset_append,
    hd.recent, evicts, decide_eq_true_eq]
  rw [hd.recent, List.mem_toFinset] at hold
  have hnodup := h.nodup
  rcases h.evicted with ⟨hlt, hevicted, hrtake⟩ | ⟨hfull, hrtake⟩
  · refine iff_of_true ?_ (Or.inl hlt)
    rw [hevicted, if_neg (by decide), hrtake, List.toFinset_cons, List.toFinset_nil,
      insert_empty_eq, Finset.insert_eq, Finset.union_comm]
  · generalize d.link.ring.getD d.link.at_ (-1) = old at hrtake ⊢
    rw [hrtake] at hold hnodup ⊢
    have hnotin : old ∉ (d.numbers.rtake (SEEN_WINDOW - 1)).toFinset := by
      rw [List.mem_toFinset]
      exact (List.nodup_cons.mp hnodup).1
    rw [or_iff_right (not_lt.mpr hfull), List.toFinset_cons, List.toFinset_cons, List.toFinset_nil,
      insert_empty_eq]
    split_ifs with hnonneg
    · refine iff_of_true ?_ hnonneg
      rw [Finset.erase_insert hnotin, Finset.insert_eq, Finset.union_comm]
    · -- the number that leaves the ring stays in the set
      refine iff_of_false (fun heq => ?_) hnonneg
      have hmem : old ∈ insert seq (insert old (d.numbers.rtake (SEEN_WINDOW - 1)).toFinset) :=
        Finset.mem_insert_of_mem (Finset.mem_insert_self _ _)
      rw [heq, Finset.mem_union, Finset.mem_singleton] at hmem
      rcases hmem with hmem | rfl
      · exact hnotin hmem
      · exact hold List.mem_cons_self

/-! ### Steps and runs -/

theorem hear_data {text payload : Text} {seq : ℤ}
    (h : roundedDataOf round text = some (seq, payload)) :
    d.hear round text = d.receiveData seq payload := by
  have hhead : text.head? ≠ some ACK := by
    intro hack
    have hne : text.head? ≠ some DATA ∨ ':' ∉ text := by
      rw [hack]
      exact Or.inl (by decide)
    rw [roundedDataOf, if_pos hne] at h
    cases h
  rw [hear, if_neg hhead, h]

theorem hear_sameWindow {text : Text} (h : roundedDataOf round text = none) :
    SameWindow d (d.hear round text) := by
  unfold hear
  rw [h]
  split_ifs
  · split
    · exact receiveAck_sameWindow d _
    · exact ⟨rfl, rfl, rfl, rfl⟩
  · exact ⟨rfl, rfl, rfl, rfl⟩

/-- A step leaves the window alone, or it accepts a number. -/
theorem step_cases {a : Event} (h : d.step round a = some d') :
    (SameWindow d d' ∧ d.orderly round a = true) ∨
      ∃ seq payload, seq ∉ d.link.seen ∧ d' = d.receiveData seq payload ∧
        d.orderly round a = d.evicts := by
  cases a with
  | receive text =>
    obtain rfl := Option.some.inj h
    rcases hdata : roundedDataOf round text with _ | ⟨seq, payload⟩
    · exact Or.inl ⟨hear_sameWindow hdata, by rw [orderly, hdata]; rfl⟩
    · have horderly : d.orderly round (.receive text) =
          decide (seq ∈ d.link.seen ∨ d.evicts = true) := by
        rw [orderly, hdata]
        rfl
      rw [horderly, hear_data hdata]
      by_cases hseen : seq ∈ d.link.seen
      · exact Or.inl ⟨receiveData_sameWindow hseen payload, decide_eq_true (Or.inl hseen)⟩
      · refine Or.inr ⟨seq, payload, hseen, rfl, ?_⟩
        simp [hseen]
  | send payload now =>
    obtain rfl := Option.some.inj h
    exact Or.inl ⟨⟨rfl, rfl, rfl, rfl⟩, rfl⟩
  | resend now =>
    obtain rfl := Option.some.inj h
    exact Or.inl ⟨resend_sameWindow d now, rfl⟩
  | stop =>
    obtain rfl := Option.some.inj h
    exact Or.inl ⟨⟨rfl, rfl, rfl, rfl⟩, rfl⟩

theorem step_isSome (round : ℕ → Option ℕ) (d : Side) (a : Event) :
    (d.step round a).isSome = true := by
  cases a <;> rfl

theorem step_recorded (d : Side) (a : Event) (d' : Side) (h : d.Recorded) (hd : d.Deduped)
    (hstep : d.step round a = some d') : d'.Recorded := by
  rcases step_cases hstep with ⟨hsame, -⟩ | ⟨seq, payload, hseq, rfl, -⟩
  · exact hsame.recorded h
  · exact h.accept hd hseq payload

theorem step_deduped_iff (d : Side) (a : Event) (d' : Side) (h : d.Recorded) (hd : d.Deduped)
    (hstep : d.step round a = some d') : d'.Deduped ↔ d.orderly round a = true := by
  rcases step_cases hstep with ⟨hsame, horderly⟩ | ⟨seq, payload, hseq, rfl, horderly⟩
  · exact iff_of_true (hsame.deduped hd) horderly
  · rw [horderly]
    exact h.accept_deduped_iff hd hseq payload

theorem new_recorded : Recorded {} := ⟨Ring.Holds.nil _ _, rfl, List.nodup_nil⟩

theorem new_deduped : Deduped {} := ⟨rfl, rfl, Nat.zero_le _⟩

/-- In a run of calls with any texts the seen set is at all times that of the numbers stored in the
ring, the last `SEEN_WINDOW` accepted, if and only if no negative number is to leave the ring. -/
theorem dedupe_window_iff (round : ℕ → Option ℕ) (events : List Event) :
    Meets (step round) (fun d a => d.orderly round a = true) {} events ↔
      ∀ n d, exec (step round) {} (events.take n) = some d → d.Deduped := by
  obtain ⟨d, hd⟩ := Option.isSome_iff_exists.mp (exec_isSome (step_isSome round) {} events)
  exact meets_iff_forall (I := Recorded) (P := Deduped) step_deduped_iff
    (fun d a d' h hd hstep _ => step_recorded d a d' h hd hstep) new_recorded new_deduped hd

/-- The text of a number of two digits, with an empty payload. -/
def frame (n : ℕ) : Text := [DATA, base36.digit (n / 36), base36.digit (n % 36), ':']

/-- The number -2 and then `SEEN_WINDOW` others: the set has outgrown the ring. -/
theorem dedupe_window_outgrown : ¬ ∀ d, exec (step some) {}
    (.receive [DATA, '-', '2', ':'] ::
      (List.range SEEN_WINDOW).map fun n => .receive (frame n)) = some d → d.Deduped := by
  intro h
  have hrun : (exec (step some) {} (.receive [DATA, '-', '2', ':'] ::
      (List.range SEEN_WINDOW).map fun n => .receive (frame n))).any
      (fun d => d.link.seen.card = SEEN_WINDOW + 1) = true := by decide +kernel
  obtain ⟨d, hd, hcard⟩ := (Option.any_eq_true _ _).mp hrun
  have hle := (h d hd).card
  rw [of_decide_eq_true hcard] at hle
  exact Nat.not_succ_le_self _ hle

end Side

end NMiner
