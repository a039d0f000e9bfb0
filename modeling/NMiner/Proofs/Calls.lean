import NMiner.Proofs.LateShares

/-! The shares a step of `LocalBackend` credits, and the calls that await the pool's reply to
one. Such a call is only made by `submit`, and its number is new. -/

namespace NMiner

namespace Backend

/-! ### Calls that await the pool -/

/-- Below this number no call begins to await the pool. -/
structure Ages (m : CallId) (b b' : Backend) : Prop where
  nextCall : b.nextCall ≤ b'.nextCall
  forwarding : ∀ n, n < m → ∀ s e report pool stray,
    b'.calls n = some (.forwarding s e report pool stray) →
      b.calls n = some (.forwarding s e report pool stray)

theorem Ages.of_calls {m : CallId} {b b' : Backend} (h : b'.calls = b.calls)
    (hn : b.nextCall ≤ b'.nextCall) : Ages m b b' := by
  refine ⟨hn, ?_⟩
  intro n _ s e report pool stray hcall
  rwa [h] at hcall

theorem Ages.trans {m : CallId} {a b c : Backend} (h : Ages m a b) (h' : Ages m b c) :
    Ages m a c := by
  refine ⟨h.nextCall.trans h'.nextCall, ?_⟩
  intro n hn s e report pool stray hcall
  exact h.forwarding n hn _ _ _ _ _ (h'.forwarding n hn _ _ _ _ _ hcall)

theorem setCall_ages {m : CallId} (b : Backend) (n : CallId) (call : Option Call)
    (h : m ≤ n ∨ ∀ s e report pool stray, call ≠ some (.forwarding s e report pool stray)) :
    Ages m b (b.setCall n call) := by
  refine ⟨le_rfl, ?_⟩
  intro k hk s e report pool stray hcall
  change Function.update b.calls n call k = _ at hcall
  by_cases hkn : k = n
  · subst hkn
    rw [Function.update_self] at hcall
    rcases h with h | h
    · exact absurd hk (not_lt_of_ge h)
    · exact absurd hcall (h s e report pool stray)
  · rwa [Function.update_of_ne hkn] at hcall

theorem answer_ages {m : CallId} (b : Backend) (n : CallId) (result : Except String Reply) :
    Ages m b (b.answer n result) :=
  (setCall_ages b n none (Or.inr (by simp))).trans (.of_calls rfl le_rfl)

theorem deliver_ages {m : CallId} (b : Backend) (i : UpstreamId) (d : Delivery) :
    Ages m b (b.deliver i d) := by
  cases d with
  | job c payload =>
    simp only [deliver]
    split <;> exact .of_calls rfl le_rfl
  | drop c message =>
    simp only [deliver]
    split <;> exact .of_calls rfl le_rfl
  | attached n result =>
    simp only [deliver]
    split
    · exact setCall_ages b n _ (Or.inr (by simp))
    · exact .of_calls rfl le_rfl
  | chunked n result =>
    simp only [deliver]
    split
    · exact setCall_ages b n _ (Or.inr (by simp))
    · exact .of_calls rfl le_rfl
  | submitted n l job_id nonce result => exact .of_calls rfl le_rfl
  | retired =>
    simp only [deliver, retire]
    split_ifs <;> exact .of_calls rfl le_rfl

theorem run_ages {m : CallId} (b : Backend) (i : UpstreamId) (u : Upstream) :
    Ages m b (b.run i u) := by
  have key : ∀ (ds : List Delivery) (b : Backend),
      Ages m b (ds.foldl (fun b d => b.deliver i d) b) := by
    intro ds
    induction ds with
    | nil => exact fun _ => .of_calls rfl le_rfl
    | cons d ds ih => exact fun b => (deliver_ages b i d).trans (ih _)
  have hset : Ages m b (b.setUpstream i u) := .of_calls rfl le_rfl
  exact hset.trans (key _ _)

theorem drop_ages {m : CallId} (b : Backend) (s : SessionId) : Ages m b (b.drop s) := by
  unfold drop
  split
  · exact .of_calls rfl le_rfl
  · have hentries : ∀ es, Ages m b { b with entries := es } := fun es => .of_calls rfl le_rfl
    exact (hentries _).trans (run_ages _ _ _)

theorem login_ages {m : CallId} (b : Backend) (s : SessionId) (address : String)
    (threads : Option ℚ) : Ages m b (b.login s address threads) := by
  have hlogged : ∀ b' : Backend, Ages m b' { b' with logged := Function.update b.logged s false } :=
    fun b' => .of_calls rfl le_rfl
  have hnext : ∀ b' : Backend, Ages m b' { b' with nextCall := b'.nextCall + 1 } :=
    fun b' => .of_calls rfl (Nat.le_succ _)
  refine (drop_ages b s).trans ((hlogged _).trans ?_)
  exact (setCall_ages _ _ _ (Or.inr (by simp))).trans (hnext _)

theorem close_ages {m : CallId} (b : Backend) (s : SessionId) : Ages m b (b.close s) :=
  (drop_ages b s).trans (.of_calls rfl le_rfl)

theorem resolved_ages {m : CallId} (b : Backend) (n : CallId) (s : SessionId) (address : String)
    (threads : Option ℚ) (outcome : Except String Credentials) :
    Ages m b (b.resolved n s address threads outcome) := by
  cases outcome with
  | error message => exact answer_ages b n _
  | ok credentials =>
    have hget : Ages m b (b.get credentials).2 := by
      unfold get
      split <;> exact .of_calls rfl le_rfl
    have hbook : ∀ (b' : Backend) es ow c, Ages m b'
        { b' with entries := es, owner := ow, nextClient := c } :=
      fun b' es ow c => .of_calls rfl le_rfl
    simp only [resolved]
    refine hget.trans (Ages.trans ?_ (run_ages _ _ _))
    exact (setCall_ages _ n _ (Or.inr (by simp))).trans (hbook _ _ _ _)

theorem settle_ages {m : CallId} (b : Backend) (n : CallId) (s : SessionId) (e : Entry)
    (result : Except String Payload) : Ages m b (b.settle n s e result) := by
  have hentries : ∀ es, Ages m b { b with entries := es } := fun es => .of_calls rfl le_rfl
  have hfail : ∀ message, Ages m b (b.settle n s e (.error message)) := by
    intro message
    unfold settle
    dsimp only
    split_ifs
    · exact ((hentries _).trans (run_ages _ _ _)).trans (answer_ages _ _ _)
    · exact (run_ages _ _ _).trans (answer_ages _ _ _)
  cases result with
  | error message => exact hfail message
  | ok payload =>
    have hok := answer_ages (m := m) b n (.ok (.job payload))
    have hfailed := hfail "Superseded by a newer login."
    unfold settle at hfailed ⊢
    dsimp only at hfailed ⊢
    split_ifs at hfailed ⊢
    · exact hok.trans (.of_calls rfl le_rfl)
    · exact hfailed

theorem counted_ages {m : CallId} (b : Backend) (e : Entry) (v : VarDiff) :
    Ages m b (b.counted e v) := by
  unfold counted
  exact run_ages _ _ _

/-- A request takes the next number. -/
theorem next_ages {m : CallId} (b : Backend) : Ages m b { b with nextCall := b.nextCall + 1 } :=
  .of_calls rfl (Nat.le_succ _)

theorem chunk_ages {m : CallId} (b : Backend) (s : SessionId) (job_id : String)
    (hashrate : Option ℚ) : Ages m { b with nextCall := b.nextCall + 1 }
    (b.chunk s job_id hashrate) := by
  unfold chunk
  dsimp only
  cases b.entries s with
  | none => exact answer_ages _ _ _
  | some e => exact (setCall_ages _ _ _ (Or.inr (by simp))).trans (run_ages _ _ _)

theorem chunked_ages {m : CallId} (b : Backend) (n : CallId) (e : Entry)
    (result : Except String ChunkReply) : Ages m b (b.chunked n e result) := by
  unfold chunked
  split
  · exact answer_ages _ _ _
  · dsimp only
    split
    · exact answer_ages _ _ _
    · split
      · exact answer_ages _ _ _
      · rename_i v _
        have hset :
          Ages m b (b.setUpstream e.upstream (setVardiff (b.upstream e.upstream) e.client v)) :=
          .of_calls rfl le_rfl
        exact hset.trans (answer_ages _ _ _)
  · exact answer_ages _ _ _

theorem submit_ages {m : CallId} (b : Backend) (hm : m ≤ b.nextCall) (s : SessionId)
    (job_id nonce result : String) :
    Ages m { b with nextCall := b.nextCall + 1 } (b.submit s job_id nonce result) := by
  have hemit : ∀ (b' : Backend) o, Ages m b' (b'.emit o) := fun b' o => .of_calls rfl le_rfl
  unfold submit
  dsimp only
  cases b.entries s with
  | none => exact answer_ages _ _ _
  | some e =>
    generalize ({ b with nextCall := b.nextCall + 1 } : Backend) = b'
    dsimp only
    rcases hdecide : b'.decide e nonce result with ⟨decision, v⟩
    have hcount := counted_ages (m := m) b' e v
    cases decision with
    | denied reason => exact answer_ages _ _ _
    | thrown =>
      dsimp only
      split_ifs
      · exact answer_ages _ _ _
      · exact hcount.trans (answer_ages _ _ _)
    | absorbed d => exact (hcount.trans (hemit _ _)).trans (answer_ages _ _ _)
    | forwarded d =>
      dsimp only
      cases ((b'.counted e v).upstream e.upstream).submit b.nextCall
        e.client job_id nonce result with
      | none => exact (hcount.trans (hemit _ _)).trans (answer_ages _ _ _)
      | some p =>
        exact (hcount.trans (setCall_ages _ _ _ (Or.inl hm))).trans (run_ages _ _ _)

theorem poolReply_ages {m : CallId} (b : Backend) (n : CallId) (s : SessionId) (e : Entry)
    (report : ShareReport) (pool : ℕ) (stray : Bool) (outcome : Except String Bool) :
    Ages m b (b.poolReply n s e report pool stray outcome) := by
  have hemit : ∀ (b' : Backend) o, Ages m b' (b'.emit o) := fun b' o => .of_calls rfl le_rfl
  unfold poolReply
  cases outcome with
  | error message => exact ((run_ages _ _ _).trans (hemit _ _)).trans (answer_ages _ _ _)
  | ok accepted =>
    dsimp only
    refine Ages.trans ?_ ((hemit _ _).trans (answer_ages _ _ _))
    split_ifs <;> exact .of_calls rfl le_rfl

theorem account_ages {m : CallId} (b : Backend) (s : SessionId) (shares work actual : ℕ) :
    Ages m b (b.account s shares work actual) := by
  unfold account
  split
  · exact .of_calls rfl le_rfl
  · split_ifs
    · exact .of_calls rfl le_rfl
    · rw [foldl_emit]
      exact (counted_ages b _ _).trans (.of_calls rfl le_rfl)

/-- What the backend does by itself. -/
theorem step_ages {m : CallId} {b b' : Backend} {a : Action} (hm : m ≤ b.nextCall)
    (h : step b a = some b') : Ages m b b' := by
  cases step_fires h with
  | login s address threads _ => exact login_ages b s address threads
  | resolved _ outcome => exact resolved_ages b _ _ _ _ outcome
  | settle _ => exact settle_ages b _ _ _ _
  | close s => exact close_ages b s
  | chunk s job_id hashrate _ => exact (next_ages b).trans (chunk_ages b s job_id hashrate)
  | chunked _ => exact chunked_ages b _ _ _
  | submit s job_id nonce result _ =>
    exact (next_ages b).trans (submit_ages b hm s job_id nonce result)
  | poolReply _ outcome => exact poolReply_ages b _ _ _ _ _ _ outcome
  | account s shares work actual _ => exact account_ages b s shares work actual
  | upstream _ _ => exact run_ages b _ _
  | tick ms => exact .of_calls rfl le_rfl

/-! ### Shares credited -/

/-- A tally is put out as that many shares of the session's entry, each of the difficulty of the
aggregate. -/
theorem account_outbox {b : Backend} (hb : b.Sound) {s : SessionId} {e : Entry}
    (he : b.entries s = some e) (shares work actual : ℕ) :
    ∃ report : ShareReport, report.difficulty = jsRound ((work : ℚ) / shares) ∧
      (b.account s shares work actual).outbox =
        b.outbox ++ List.replicate shares (.share s e report) := by
  have hout := fun v => (counted_frame hb e v).1
  unfold account
  rw [he]
  dsimp only
  split_ifs with hzero
  · subst hzero
    exact ⟨{ b.report e 0 "" with difficulty := jsRound (work / (0 : ℕ)) }, rfl,
      (List.append_nil _).symm⟩
  · rw [foldl_emit]
    dsimp only
    rw [hout]
    exact ⟨_, rfl, rfl⟩

theorem rejected_outbox (u : Upstream) (stray : Bool) : (u.rejected stray).outbox = u.outbox := by
  have hnarrow : ∀ (ls : List LinkId) (v : Upstream),
      (ls.foldl (fun u l => u.setLink l fun k => { k with extra := [] }) v).outbox = v.outbox := by
    intro ls
    induction ls with
    | nil => exact fun _ => rfl
    | cons l ls ih => exact fun v => ih _
  unfold Upstream.rejected Upstream.narrow
  dsimp only
  split_ifs
  · exact hnarrow _ _
  · rfl
  · rfl
  · rfl

/-- The pool's reply puts the share out, for the entry that submitted it. -/
theorem poolReply_outbox {b : Backend} (hb : b.Sound) (n : CallId) (s : SessionId) (e : Entry)
    (report : ShareReport) (pool : ℕ) (stray : Bool) (outcome : Except String Bool) :
    ∃ (r : ShareReport) (reply : Except String Reply), r.difficulty = report.difficulty ∧
      (b.poolReply n s e report pool stray outcome).outbox =
        b.outbox ++ [.share s e r, .reply n reply] := by
  unfold poolReply
  cases outcome with
  | error message =>
    have hout : ((b.upstream e.upstream).rejected stray).outbox = [] :=
      (rejected_outbox _ stray).trans (hb.drained _)
    rw [run_of_silent b e.upstream hout]
    exact ⟨{ report with accepted := false }, _, rfl, List.append_assoc ..⟩
  | ok accepted =>
    refine ⟨{ report with accepted := accepted, solved := if accepted then pool else 0 },
      .ok (.pool accepted), rfl, ?_⟩
    dsimp only
    split_ifs <;> exact List.append_assoc ..

/-- A share that passes the checks of `submit` is put out at once, or its call awaits the pool, at
the difficulty it is credited. -/
theorem submit_outbox {b : Backend} (hb : b.Sound) {s : SessionId} {e : Entry}
    (he : b.entries s = some e) (job_id : String) {nonce result : String}
    (hacc : b.accepts e nonce result = true) :
    ∃ d : ℕ, (b.decide e nonce result).1.credit = some d ∧
      (((∃ (r : ShareReport) (reply : Except String Reply), r.difficulty = d ∧
        (b.submit s job_id nonce result).outbox =
          b.outbox ++ [.share s e r, .reply b.nextCall reply]) ∧
        (b.submit s job_id nonce result).calls b.nextCall = none) ∨
      ∃ (l : LinkId) (report : ShareReport) (pool : ℕ) (stray : Bool), report.difficulty = d ∧
        (b.submit s job_id nonce result).outbox =
          b.outbox ++ [.submitted e.upstream l job_id nonce result] ∧
        (b.submit s job_id nonce result).calls b.nextCall =
          some (.forwarding s e report pool stray)) := by
  obtain ⟨job, claimed, d, hjob, -, -, hdecide⟩ := decide_of_accepts hacc
  obtain ⟨home, hhome, -⟩ := Option.bind_eq_some_iff.mp hjob
  rcases hv : b.decide e nonce result with ⟨decision, v⟩
  rw [hv] at hdecide
  rcases hdecide with ⟨hd, -⟩ | ⟨hd, -⟩
  · dsimp only at hd
    subst hd
    refine ⟨d, rfl, ?_⟩
    rcases submit_forwarded hb he job_id hv hhome with
      ⟨-, hos, report, pool, stray, hd, hcall⟩ | ⟨-, ⟨r, hd, hos⟩, hcall⟩
    · exact Or.inr ⟨home, report, pool, stray, hd, hos, hcall⟩
    · exact Or.inl ⟨⟨r, _, hd, hos⟩, hcall⟩
  · dsimp only at hd
    subst hd
    obtain ⟨hos, hcall⟩ := submit_absorbed hb he job_id hv
    exact ⟨d, rfl, Or.inl ⟨⟨_, _, rfl, hos⟩, hcall⟩⟩

/-- The share passes the checks of `LocalBackend.submit`: the miner's home link has a job, its
ledger owns the nonce, the value meets the easiest target it was assigned, and the targets
decode. -/
def passes (b : Backend) (e : Entry) (nonce result : String) : Bool :=
  let u := b.upstream e.upstream
  let value := hashValue result
  match u.jobOf e.client, claimedNonce nonce with
  | some job, some n =>
    u.owns e.client n && meetsValue value (b.vardiff e).floor.target = some true &&
      (meetsValue value (b.vardiff e).target).isSome && (meetsValue value job.target).isSome
  | _, _ => false

theorem accepts_of_passes {b : Backend} {e : Entry} {nonce result : String}
    (h : b.passes e nonce result = true) : b.accepts e nonce result = true := by
  unfold passes at h
  unfold accepts decide decideShare
  dsimp only at h ⊢
  cases hjob : (b.upstream e.upstream).jobOf e.client with
  | none => simp [hjob] at h
  | some job =>
    cases hclaim : claimedNonce nonce with
    | none => simp [hjob, hclaim] at h
    | some n =>
      simp only [hjob, hclaim, Bool.and_eq_true, decide_eq_true_eq] at h
      obtain ⟨⟨⟨howns, hfloor⟩, htarget⟩, hpool⟩ := h
      obtain ⟨t, ht⟩ := Option.isSome_iff_exists.mp htarget
      obtain ⟨p, hp⟩ := Option.isSome_iff_exists.mp hpool
      have hjudge : ∃ d v, (b.vardiff e).judge (hashValue result) = some (some d, v) := by
        unfold VarDiff.judge
        dsimp only
        rw [hfloor, Option.bind_some, if_pos rfl, ht]
        split_ifs <;> exact ⟨_, _, rfl⟩
      obtain ⟨d, v, hv⟩ := hjudge
      dsimp only
      rw [if_pos howns, hv]
      dsimp only
      rw [hp]
      cases p <;> rfl

end Backend

end NMiner
