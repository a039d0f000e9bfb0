import NMiner.Proofs.Credits
import NMiner.Proofs.Difficulty
import NMiner.Spec.Worker

/-! Shares that a worker absorbs reach the primary as aggregates, which `account` turns back into an
average, rounds, and multiplies out. The totals of a session stay those of its shares exactly as
long as the average is whole. -/

namespace NMiner

/-- What happens to the tally of a session. -/
inductive Absorption
  | share (difficulty actual : ℕ)
  | flush
  deriving DecidableEq, Repr

def WorkerBackend.absorb (s : SessionId) (w : WorkerBackend) : Absorption → WorkerBackend
  | .share difficulty actual => w.tally s difficulty actual
  | .flush => w.flush

/-- The messages that carry the shares to the primary; the last flush sends what is left. -/
def WorkerBackend.sends (s : SessionId) (events : List Absorption) : List Up :=
  ((events.foldl (absorb s) {}).flush).sent

/-- The difficulties of the shares between two flushes, after those of `batch`. -/
def batches : List Absorption → List ℕ → List (List ℕ)
  | [], batch => if batch = [] then [] else [batch]
  | .share difficulty _ :: events, batch => batches events (batch ++ [difficulty])
  | .flush :: events, batch =>
    if batch = [] then batches events [] else batch :: batches events []

def Absorption.difficulty : Absorption → List ℕ
  | .share difficulty _ => [difficulty]
  | .flush => []

/-- No share is left out. -/
theorem batches_flatten (events : List Absorption) (batch : List ℕ) :
    (batches events batch).flatten = batch ++ events.flatMap Absorption.difficulty := by
  induction events generalizing batch with
  | nil =>
    unfold batches
    split_ifs with hempty
    · simp [hempty]
    · simp
  | cons event events ih =>
    cases event with
    | share difficulty actual =>
      rw [batches, ih]
      simp [Absorption.difficulty]
    | flush =>
      rw [batches]
      split_ifs with hempty
      · rw [ih, hempty]
        simp [Absorption.difficulty]
      · rw [List.flatten_cons, ih]
        simp [Absorption.difficulty]

namespace Backend

/-- The part of `PrimaryHub.handle` for an `acc` message whose sessions it knows. -/
def receive (b : Backend) : Up → Backend
  | .acc tallies =>
    tallies.foldl (fun b p => b.account p.1 p.2.shares p.2.work p.2.actual) b
  | _ => b

/-- The difficulties that the share sink has been given for a session. -/
def sunk (s : SessionId) (e : Entry) (os : List Output) : ℤ :=
  (os.filterMap fun o => match o with
    | .share s' e' report => if s' = s ∧ e' = e then some report.difficulty else none
    | _ => none).sum

/-- `VarDiff.accepted` and `VarDiff.work` of the session, and what the share sink has been given. -/
def totals (b : Backend) (s : SessionId) (e : Entry) : ℕ × ℚ × ℤ :=
  ((b.vardiff e).accepted, (b.vardiff e).work, sunk s e b.outbox)

/-- The totals with these shares on top. -/
def credited (t : ℕ × ℚ × ℤ) (difficulties : List ℕ) : ℕ × ℚ × ℤ :=
  (t.1 + difficulties.length, t.2.1 + difficulties.sum, t.2.2 + difficulties.sum)

theorem credited_append (t : ℕ × ℚ × ℤ) (ds ds' : List ℕ) :
    credited (credited t ds) ds' = credited t (ds ++ ds') := by
  unfold credited
  rw [List.length_append, List.sum_append]
  push_cast
  rw [Nat.add_assoc, add_assoc, add_assoc]

theorem sunk_append (s : SessionId) (e : Entry) (os os' : List Output) :
    sunk s e (os ++ os') = sunk s e os + sunk s e os' := by
  unfold sunk
  rw [List.filterMap_append, List.sum_append]

theorem sunk_replicate (s : SessionId) (e : Entry) (report : ShareReport) (n : ℕ) :
    sunk s e (List.replicate n (.share s e report)) = n * report.difficulty := by
  induction n with
  | zero => simp [sunk]
  | succ n ih =>
    have hone : sunk s e [.share s e report] = report.difficulty := by simp [sunk]
    rw [List.replicate_succ', sunk_append, ih, hone]
    push_cast
    ring

/-! ### One share by itself -/

/-- A share that is submitted to the primary and absorbed adds one share of its difficulty. -/
theorem submit_totals {b : Backend} (hb : b.Sound) {s : SessionId} {e : Entry}
    (he : b.entries s = some e) (job_id : String) {nonce result : String} {d : ℕ} {v : VarDiff}
    (hv : b.decide e nonce result = (.absorbed d, v)) :
    (b.submit s job_id nonce result).totals s e = credited (b.totals s e) [d] := by
  have hcredit : (b.decide e nonce result).1.credit = some d := by
    rw [hv]
    rfl
  obtain ⟨haccepted, hwork⟩ :=
    Prod.mk.inj (vardiff_of_counting (submit_counting he job_id hcredit))
  unfold totals credited
  rw [(submit_absorbed hb he job_id hv).1, haccepted, hwork, sunk_append]
  have hone : sunk s e [.share s e (b.report e d result), .reply b.nextCall (.ok .ok)] = d := by
    simp [sunk, report]
  rw [hone]
  simp

/-! ### An aggregate -/

/-- The difficulty that `account` credits for each share of an aggregate. -/
def average (shares work : ℕ) : ℤ := jsRound ((work : ℚ) / shares)

theorem account_totals {b : Backend} (hb : b.Sound) {s : SessionId} {e : Entry}
    (he : b.entries s = some e) (shares work actual : ℕ) :
    (b.account s shares work actual).totals s e =
      ((b.totals s e).1 + shares, (b.totals s e).2.1 + average shares work * shares,
        (b.totals s e).2.2 + shares * average shares work) := by
  obtain ⟨report, hreport, hout⟩ := account_outbox hb he shares work actual
  obtain ⟨haccepted, hwork⟩ :=
    Prod.mk.inj (vardiff_of_counting (account_counters he shares work actual))
  unfold totals average
  rw [hout, sunk_append, sunk_replicate, hreport, haccepted, hwork]

/-- The average is exact when it is whole, and only then. -/
theorem average_exact_iff {shares : ℕ} (hshares : shares ≠ 0) (work : ℕ) :
    shares * average shares work = work ↔ shares ∣ work := by
  refine ⟨fun h => Int.natCast_dvd_natCast.mp ⟨_, h.symm⟩, ?_⟩
  rintro ⟨q, rfl⟩
  have hpos : (shares : ℚ) ≠ 0 := Nat.cast_ne_zero.mpr hshares
  unfold average
  rw [Nat.cast_mul, mul_div_cancel_left₀ _ hpos]
  have hround := jsRound_int q
  push_cast at hround ⊢
  rw [hround]

theorem account_exact_iff {b : Backend} (hb : b.Sound) {s : SessionId} {e : Entry}
    (he : b.entries s = some e) {ds : List ℕ} (hds : ds ≠ []) (actual : ℕ) :
    (b.account s ds.length ds.sum actual).totals s e = credited (b.totals s e) ds ↔
      ds.length ∣ ds.sum := by
  have hlength : ds.length ≠ 0 := fun h => hds (List.length_eq_zero_iff.mp h)
  rw [account_totals hb he, ← average_exact_iff hlength, credited]
  simp only [Prod.mk.injEq, true_and, add_right_inj]
  refine ⟨fun h => h.2, fun h => ⟨?_, h⟩⟩
  have hq := congrArg (fun z : ℤ => (z : ℚ)) h
  rw [Int.cast_mul, Int.cast_natCast, Int.cast_natCast] at hq
  rw [mul_comm]
  exact hq

end Backend

/-! ### The worker's messages -/

namespace WorkerBackend

/-- The worker holds the shares of the batch. -/
structure Holds (s : SessionId) (w : WorkerBackend) (batch : List ℕ) : Prop where
  connected : w.connected = true
  tallies : batch = [] ∧ w.tallies = [] ∨ batch ≠ [] ∧ ∃ t : Tally, w.tallies = [(s, t)] ∧
    t.shares = batch.length ∧ t.work = batch.sum

/-- The message is the aggregate of these shares. -/
def Carries (s : SessionId) (m : Up) (ds : List ℕ) : Prop :=
  ds ≠ [] ∧ ∃ t : Tally, m = .acc [(s, t)] ∧ t.shares = ds.length ∧ t.work = ds.sum

theorem Holds.share {s : SessionId} {w : WorkerBackend} {batch : List ℕ} (h : Holds s w batch)
    (difficulty actual : ℕ) :
    Holds s (w.tally s difficulty actual) (batch ++ [difficulty]) := by
  refine ⟨h.connected, Or.inr ⟨by simp, ?_⟩⟩
  unfold tally
  rcases h.tallies with ⟨rfl, htallies⟩ | ⟨-, t, htallies, hshares, hwork⟩
  · rw [htallies]
    exact ⟨_, rfl, rfl, by simp⟩
  · rw [htallies]
    refine ⟨_, by rw [Cluster.addTally, if_pos rfl], ?_, ?_⟩
    · simp [hshares]
    · simp [hwork]

/-- A flush sends the batch if there is one. -/
theorem Holds.flush {s : SessionId} {w : WorkerBackend} {batch : List ℕ} (h : Holds s w batch) :
    Holds s w.flush [] ∧ ∃ ms, w.flush.sent = w.sent ++ ms ∧
      List.Forall₂ (Carries s) ms (if batch = [] then [] else [batch]) := by
  unfold WorkerBackend.flush send
  rcases h.tallies with ⟨rfl, htallies⟩ | ⟨hbatch, t, htallies, hshares, hwork⟩
  · rw [if_pos htallies, if_pos rfl]
    exact ⟨h, [], (List.append_nil _).symm, .nil⟩
  · have hsome : ¬ w.tallies = [] := by
      rw [htallies]
      exact List.cons_ne_nil _ _
    rw [if_neg hsome, if_neg hbatch, if_pos (by exact h.connected), htallies]
    refine ⟨⟨h.connected, Or.inl ⟨rfl, rfl⟩⟩, [.acc [(s, t)]], rfl, ?_⟩
    exact .cons ⟨hbatch, t, rfl, hshares, hwork⟩ .nil

theorem sends_carry {s : SessionId} (events : List Absorption) {w : WorkerBackend} {batch : List ℕ}
    (h : Holds s w batch) : ∃ ms, ((events.foldl (absorb s) w).flush).sent = w.sent ++ ms ∧
      List.Forall₂ (Carries s) ms (batches events batch) := by
  induction events generalizing w batch with
  | nil => exact h.flush.2
  | cons event events ih =>
    cases event with
    | share difficulty actual => exact ih (h.share difficulty actual)
    | flush =>
      obtain ⟨hnext, ms, hms, hcarry⟩ := h.flush
      obtain ⟨rest, hrest, hcarries⟩ := ih hnext
      refine ⟨ms ++ rest, ?_, ?_⟩
      · rw [List.foldl_cons, absorb, hrest, hms, List.append_assoc]
      · rw [batches]
        split_ifs at hcarry ⊢
        · rw [List.forall₂_nil_right_iff.mp hcarry, List.nil_append]
          exact hcarries
        · exact List.rel_append hcarry hcarries

end WorkerBackend

/-! ### The totals -/

namespace Backend

open Transition
open WorkerBackend (Carries sends)

theorem receive_carried {b : Backend} (hb : b.Sound) {s : SessionId} {e : Entry}
    (he : b.entries s = some e) {m : Up} {ds : List ℕ} (hm : Carries s m ds) :
    (b.receive m).Sound ∧ (b.receive m).entries s = some e ∧
      ((b.receive m).totals s e = credited (b.totals s e) ds ↔ ds.length ∣ ds.sum) := by
  obtain ⟨hds, t, rfl, hshares, hwork⟩ := hm
  have hentries := (account_quiet hb.drained s t.shares t.work t.actual).entries
  refine ⟨account_sound hb .., ?_, ?_⟩
  · exact (congrFun hentries s).trans he
  · change (b.account s t.shares t.work t.actual).totals s e = _ ↔ _
    rw [hshares, hwork]
    exact account_exact_iff hb he hds t.actual

theorem carried_exact_iff {s : SessionId} {e : Entry} {ms : List Up} {bs : List (List ℕ)}
    (hcarry : List.Forall₂ (Carries s) ms bs) {b : Backend} (hb : b.Sound)
    (he : b.entries s = some e) :
    (∀ k, ((ms.take k).foldl receive b).totals s e = credited (b.totals s e) (bs.take k).flatten) ↔
      ∀ ds ∈ bs, ds.length ∣ ds.sum := by
  induction hcarry generalizing b with
  | nil =>
    refine ⟨fun _ ds hds => absurd hds List.not_mem_nil, fun _ k => ?_⟩
    rw [List.take_nil, List.take_nil]
    simp [credited]
  | @cons m ds ms bs hm hrest ih =>
    obtain ⟨hsound, hentry, hexact⟩ := receive_carried hb he hm
    have hih := ih hsound hentry
    constructor
    · intro h
      have hfirst : (b.receive m).totals s e = credited (b.totals s e) ds := by
        simpa using h 1
      refine List.forall_mem_cons.mpr ⟨hexact.mp hfirst, hih.mp fun k => ?_⟩
      rw [hfirst, credited_append]
      exact h (k + 1)
    · intro h k
      obtain ⟨hds, hbs⟩ := List.forall_mem_cons.mp h
      cases k with
      | zero => simp [credited]
      | succ k =>
        have hnext := hih.mpr hbs k
        rw [hexact.mpr hds, credited_append] at hnext
        exact hnext

/-- The primary's totals for a session are those of the shares that its worker has absorbed, after
each aggregate, exactly if the shares of each aggregate divide its work. -/
theorem aggregates_exact_iff {maxLinks idleTimeout : ℕ} {expand : Bool}
    {now : ℕ} {actions : List Action}
    {b : Backend} (hrun : exec step (start maxLinks idleTimeout expand now) actions = some b)
    {s : SessionId}
    {e : Entry} (he : b.entries s = some e) (events : List Absorption) :
    (∀ k, (((sends s events).take k).foldl receive b).totals s e =
      credited (b.totals s e) ((batches events []).take k).flatten) ↔
        ∀ ds ∈ batches events [], ds.length ∣ ds.sum := by
  have hholds : WorkerBackend.Holds s {} [] := ⟨rfl, Or.inl ⟨rfl, rfl⟩⟩
  obtain ⟨ms, hms, hcarry⟩ := WorkerBackend.sends_carry events hholds
  have hsends : sends s events = ms := hms
  rw [hsends]
  exact carried_exact_iff hcarry (exec_sound hrun) he

def loggingIn : List Action :=
  [.login 0 "a" none, .resolved 0 (.ok { pool := "p", address := "w", pass := "x" })]

/-- Two shares of one difficulty, and one of another after the flush. -/
def steady : List Absorption := [.share 10 12, .share 10 11, .flush, .share 30 40]

theorem loggingIn_entry : ∃ b e, exec step (start 64 300000 false 1000) loggingIn = some b ∧
    b.entries 0 = some e := by
  have hrun : (exec step (start 64 300000 false 1000) loggingIn).any
      (fun b => (b.entries 0).isSome) = true := by decide +kernel
  obtain ⟨b, hb, he⟩ := (Option.any_eq_true _ _).mp hrun
  obtain ⟨e, he⟩ := Option.isSome_iff_exists.mp he
  exact ⟨b, e, hb, he⟩

theorem aggregates_exact_steady : ∃ b e, exec step (start 64 300000 false 1000) loggingIn = some b ∧
    b.entries 0 = some e ∧ ∀ k, (((sends 0 steady).take k).foldl receive b).totals 0 e =
      credited (b.totals 0 e) ((batches steady []).take k).flatten := by
  obtain ⟨b, e, hrun, he⟩ := loggingIn_entry
  exact ⟨b, e, hrun, he, (aggregates_exact_iff hrun he steady).mpr (by decide)⟩

/-- Two shares of difficulties 1 and 2 in one aggregate are credited with 2 each. -/
theorem aggregates_rounded : ¬ ∀ b e events, exec step
    (start 64 300000 false 1000) loggingIn = some b →
    b.entries 0 = some e → ((sends 0 events).foldl receive b).totals 0 e =
      credited (b.totals 0 e) (events.flatMap Absorption.difficulty) := by
  intro h
  obtain ⟨b, e, hrun, he⟩ := loggingIn_entry
  have htotals := h b e [.share 1 1, .share 2 2] hrun he
  have hcarry : Carries 0 (.acc [(0, { shares := 2, work := 3, actual := 3, ids := [0, 1] })])
      [1, 2] := ⟨by decide, _, rfl, rfl, rfl⟩
  have hexact := (receive_carried (exec_sound hrun) he hcarry).2.2.mp htotals
  exact absurd hexact (by decide)

end Backend

end NMiner
