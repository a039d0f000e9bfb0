import NMiner.Proofs.Attached
import NMiner.Spec.Backend

/-! What a step of `LocalBackend` leaves alone when it is not about a login: the entries, the
logins under way, and who is attached where. -/

namespace NMiner

open Upstream (Calm notable)

namespace Backend

structure Quiet (b b' : Backend) : Prop where
  entries : b'.entries = b.entries
  owner : b'.owner = b.owner
  closed : b'.closed = b.closed
  logged : b'.logged = b.logged
  nextClient : b'.nextClient = b.nextClient
  nextUpstream : b'.nextUpstream = b.nextUpstream
  nextCall : b.nextCall ≤ b'.nextCall
  pools : b'.pools ⊆ b.pools
  logins : ∀ n call, call.login.isSome = true → (b'.calls n = some call ↔ b.calls n = some call)
  /-- Calls keep getting fresh numbers. -/
  numbered : (∀ n, b.calls n ≠ none → n < b.nextCall) → ∀ n, b'.calls n ≠ none → n < b'.nextCall
  upstream : ∀ i, Calm (b.upstream i) (b'.upstream i)
  drained : (∀ i, (b.upstream i).outbox = []) → ∀ i, (b'.upstream i).outbox = []

theorem Quiet.refl (b : Backend) : Quiet b b :=
  ⟨rfl, rfl, rfl, rfl, rfl, rfl, le_rfl, List.Subset.refl _, fun _ _ _ => Iff.rfl, id,
    fun i => .refl (b.upstream i), id⟩

theorem Quiet.trans {a b c : Backend} (h : Quiet a b) (h' : Quiet b c) : Quiet a c where
  entries := h'.entries.trans h.entries
  owner := h'.owner.trans h.owner
  closed := h'.closed.trans h.closed
  logged := h'.logged.trans h.logged
  nextClient := h'.nextClient.trans h.nextClient
  nextUpstream := h'.nextUpstream.trans h.nextUpstream
  nextCall := h.nextCall.trans h'.nextCall
  pools := List.Subset.trans h'.pools h.pools
  logins n call hc := (h'.logins n call hc).trans (h.logins n call hc)
  numbered hn := h'.numbered (h.numbered hn)
  upstream i := (h.upstream i).trans (h'.upstream i)
  drained hd := h'.drained (h.drained hd)

theorem emit_quiet (b : Backend) (o : Output) : Quiet b (b.emit o) :=
  ⟨rfl, rfl, rfl, rfl, rfl, rfl, le_rfl, List.Subset.refl _, fun _ _ _ => Iff.rfl, id,
    fun i => .refl (b.upstream i), id⟩

/-- No login has this number. -/
def Idle (b : Backend) (n : CallId) : Prop := ∀ call, b.calls n = some call → call.login = none

theorem Idle.of_some {b : Backend} {n : CallId} {call : Call} (h : b.calls n = some call)
    (hc : call.login = none) : b.Idle n := by
  intro c hcall
  rw [h, Option.some.injEq] at hcall
  exact hcall ▸ hc

theorem Quiet.idle {b b' : Backend} (h : Quiet b b') {n : CallId} (hn : b.Idle n) : b'.Idle n := by
  intro call hcall
  by_contra hlogin
  have hsome : call.login.isSome = true := Option.isSome_iff_ne_none.mpr hlogin
  exact hlogin (hn call ((h.logins n call hsome).mp hcall))

/-- A call that is no login is made, continues or settles. -/
theorem setCall_quiet {b : Backend} {n : CallId} (hidle : b.Idle n) (call : Option Call)
    (hnew : ∀ c, call = some c → c.login = none ∧ (b.calls n ≠ none ∨ n < b.nextCall)) :
    Quiet b (b.setCall n call) := by
  refine ⟨rfl, rfl, rfl, rfl, rfl, rfl, le_rfl, List.Subset.refl _,
    ?_, ?_, fun i => .refl (b.upstream i), id⟩
  · intro m c hc
    by_cases hm : m = n
    · subst hm
      change Function.update b.calls m call m = some c ↔ _
      rw [Function.update_self]
      constructor
      · intro h
        rw [(hnew c h).1] at hc
        exact absurd hc (by simp)
      · intro h
        rw [hidle c h] at hc
        exact absurd hc (by simp)
    · change Function.update b.calls n call m = some c ↔ _
      rw [Function.update_of_ne hm]
  · intro hnum m hm
    change m < b.nextCall
    change Function.update b.calls n call m ≠ none at hm
    by_cases hmn : m = n
    · subst hmn
      rw [Function.update_self] at hm
      obtain ⟨c, hc⟩ := Option.ne_none_iff_exists'.mp hm
      rcases (hnew c hc).2 with h | h
      · exact hnum m h
      · exact h
    · rw [Function.update_of_ne hmn] at hm
      exact hnum m hm

theorem answer_quiet {b : Backend} {n : CallId} (hidle : b.Idle n) (result : Except String Reply) :
    Quiet b (b.answer n result) :=
  (setCall_quiet hidle none (by simp)).trans (emit_quiet _ _)

theorem update_calm {b : Backend} {i : UpstreamId} {u : Upstream} (h : Calm (b.upstream i) u)
    (j : UpstreamId) : Calm (b.upstream j) (Function.update b.upstream i u j) := by
  by_cases hj : j = i
  · subst hj
    rw [Function.update_self]
    exact h
  · rw [Function.update_of_ne hj]
    exact .refl _

theorem setUpstream_quiet {b : Backend} {i : UpstreamId} {u : Upstream}
    (h : Calm (b.upstream i) u) : Quiet b (b.setUpstream i u) := by
  have hcalm : Calm (b.upstream i) { u with outbox := [] } := ⟨h.live, h.homes, h.roll, by simp⟩
  refine ⟨rfl, rfl, rfl, rfl, rfl, rfl, le_rfl, List.Subset.refl _, fun _ _ _ => Iff.rfl, id,
    update_calm hcalm, ?_⟩
  intro hd j
  change (Function.update b.upstream i { u with outbox := [] } j).outbox = []
  by_cases hj : j = i
  · rw [hj, Function.update_self]
  · rw [Function.update_of_ne hj]
    exact hd j

theorem retire_quiet {b : Backend} {i : UpstreamId} (h : (b.upstream i).live = ∅) :
    Quiet b (b.retire i) := by
  unfold retire
  split_ifs
  · have hcalm : Calm (b.upstream i) (b.upstream i).close :=
      ⟨h.symm, fun _ hc => absurd rfl hc, rfl, fun _ hd _ => Or.inl hd⟩
    refine ⟨rfl, rfl, rfl, rfl, rfl, rfl, le_rfl, List.filter_subset_self _ ,
      fun _ _ _ => Iff.rfl, id,
      update_calm hcalm, ?_⟩
    intro hd j
    change (Function.update b.upstream i (b.upstream i).close j).outbox = []
    by_cases hj : j = i
    · rw [hj, Function.update_self]
      exact hd i
    · rw [Function.update_of_ne hj]
      exact hd j
  · exact .refl b

theorem deliver_quiet {b : Backend} {i : UpstreamId} {d : Delivery}
    (h : notable d = true → d = .retired ∧ (b.upstream i).live = ∅) :
    Quiet b (b.deliver i d) := by
  cases d with
  | job c payload =>
    simp only [deliver]
    split
    · exact emit_quiet b _
    · exact .refl b
  | drop c message =>
    simp only [deliver]
    split
    · exact emit_quiet b _
    · exact .refl b
  | attached n result => exact absurd (h rfl).1 (by simp)
  | chunked n result =>
    simp only [deliver]
    split
    · rename_i e hcall
      refine setCall_quiet (.of_some hcall rfl) _ ?_
      rintro c ⟨⟩
      exact ⟨rfl, Or.inl (by rw [hcall]; simp)⟩
    · exact .refl b
  | submitted n l job_id nonce result => exact emit_quiet b _
  | retired => exact retire_quiet (h rfl).2

/-- An upstream that changes calmly disturbs no login. -/
theorem run_quiet {b : Backend} {i : UpstreamId} {u : Upstream} (hout : (b.upstream i).outbox = [])
    (h : Calm (b.upstream i) u) : Quiet b (b.run i u) := by
  have key : ∀ (ds : List Delivery) (b : Backend),
      (∀ d ∈ ds, notable d = true → d = .retired ∧ (b.upstream i).live = ∅) →
        Quiet b (ds.foldl (fun b d => b.deliver i d) b) := by
    intro ds
    induction ds with
    | nil => exact fun b _ => .refl b
    | cons d ds ih =>
      intro b hds
      have hstep := deliver_quiet (hds d List.mem_cons_self)
      refine hstep.trans (ih _ fun d' hd' hn => ?_)
      rw [(hstep.upstream i).live]
      exact hds d' (List.mem_cons_of_mem _ hd') hn
  have hset := setUpstream_quiet h
  refine hset.trans (key u.outbox _ ?_)
  intro d hd hn
  rcases h.notices d hd hn with hd | ⟨hret, hlive⟩
  · rw [hout] at hd
    exact absurd hd (by simp)
  · refine ⟨hret, ?_⟩
    rw [(hset.upstream i).live, ← h.live]
    exact hlive

/-! ### Requests -/

theorem setVardiff_calm (u : Upstream) (c : ClientId) (v : VarDiff) : Calm u (setVardiff u c v) :=
  ⟨rfl, fun _ hc => Or.inr hc, rfl, fun _ hd _ => Or.inl hd⟩

theorem counted_quiet {b : Backend} (hd : ∀ i, (b.upstream i).outbox = []) (e : Entry)
    (v : VarDiff) : Quiet b (b.counted e v) := by
  have hset := setVardiff_calm (b.upstream e.upstream) e.client v
  unfold counted
  dsimp only
  split_ifs
  · exact run_quiet (hd _) hset
  · exact run_quiet (hd _) (hset.trans (Upstream.report_calm _ _ _))

/-- A request takes the next number, which is idle. -/
theorem next_quiet (b : Backend) : Quiet b { b with nextCall := b.nextCall + 1 } :=
  ⟨rfl, rfl, rfl, rfl, rfl, rfl, Nat.le_succ _, List.Subset.refl _, fun _ _ _ => Iff.rfl,
    fun hnum n hn => Nat.lt_succ_of_lt (hnum n hn), fun i => .refl (b.upstream i), id⟩

theorem next_idle {b : Backend} (hnum : ∀ n, b.calls n ≠ none → n < b.nextCall) :
    b.Idle b.nextCall := by
  intro call hcall
  have hne : b.calls b.nextCall ≠ none := by
    rw [hcall]
    simp
  exact absurd (hnum _ hne) (lt_irrefl _)

variable {b : Backend} (hd : ∀ i, (b.upstream i).outbox = [])
  (hnum : ∀ n, b.calls n ≠ none → n < b.nextCall)

include hd hnum

theorem chunk_quiet (s : SessionId) (job_id : String) (hashrate : Option ℚ) :
    Quiet b (b.chunk s job_id hashrate) := by
  have hnext := next_quiet b
  have hidle := hnext.idle (next_idle hnum)
  unfold chunk
  dsimp only
  cases hentry : b.entries s with
  | none => exact hnext.trans (answer_quiet hidle _)
  | some e =>
    dsimp only
    have hcall := setCall_quiet hidle (some (.chunking e)) (by
      rintro c ⟨⟩
      exact ⟨rfl, Or.inr (Nat.lt_succ_self _)⟩)
    refine (hnext.trans hcall).trans
      (run_quiet (hd _) (Calm.trans ?_ (Upstream.chunk_stays ..).calm))
    cases hashrate with
    | none => exact .refl _
    | some h =>
      dsimp only
      split_ifs
      · exact (setVardiff_calm ..).trans (Upstream.report_calm ..)
      · exact .refl _

omit hd hnum in
theorem chunked_quiet {n : CallId} (hidle : b.Idle n) (e : Entry)
    (result : Except String ChunkReply) : Quiet b (b.chunked n e result) := by
  unfold chunked
  split
  · exact answer_quiet hidle _
  · dsimp only
    split
    · exact answer_quiet hidle _
    · split
      · exact answer_quiet hidle _
      · rename_i v _
        have hset := setUpstream_quiet (setVardiff_calm (b.upstream e.upstream) e.client v)
        exact hset.trans (answer_quiet (hset.idle hidle) _)
  · exact answer_quiet hidle _

theorem submit_quiet (s : SessionId) (job_id nonce result : String) :
    Quiet b (b.submit s job_id nonce result) := by
  have hnext := next_quiet b
  have hidle := hnext.idle (next_idle hnum)
  unfold submit
  dsimp only
  cases b.entries s with
  | none => exact hnext.trans (answer_quiet hidle _)
  | some e =>
    refine hnext.trans ?_
    have hd' := hnext.drained hd
    have hlt : b.nextCall < ({ b with nextCall := b.nextCall + 1 } : Backend).nextCall :=
      Nat.lt_succ_self _
    -- `b'` is the state with the call numbered
    generalize ({ b with nextCall := b.nextCall + 1 } : Backend) = b' at hidle hd' hlt
    dsimp only
    rcases hdecide : b'.decide e nonce result with ⟨decision, v⟩
    have hcount := counted_quiet hd' e v
    cases decision with
    | denied reason => exact answer_quiet hidle _
    | thrown =>
      dsimp only
      split_ifs
      · exact answer_quiet hidle _
      · exact hcount.trans (answer_quiet (hcount.idle hidle) _)
    | absorbed d =>
      have hemit := hcount.trans (emit_quiet _ (.share s e (b'.report e d result)))
      exact hemit.trans (answer_quiet (hemit.idle hidle) _)
    | forwarded d =>
      dsimp only
      cases hsub : ((b'.counted e v).upstream e.upstream).submit b.nextCall e.client job_id nonce
          result with
      | none =>
        have hemit := hcount.trans (emit_quiet _ (.share s e
          { b'.report e d result with forwarded := true, accepted := false }))
        exact hemit.trans (answer_quiet (hemit.idle hidle) _)
      | some p =>
        have hcall : ∀ call, call.login = none →
            Quiet b' ((b'.counted e v).setCall b.nextCall (some call)) := by
          intro call hlogin
          refine hcount.trans (setCall_quiet (hcount.idle hidle) _ ?_)
          rintro c ⟨⟩
          exact ⟨hlogin, Or.inr (hlt.trans_le hcount.nextCall)⟩
        refine (hcall _ rfl).trans (run_quiet ((hcall _ rfl).drained hd' _) ?_)
        exact .of_core (Upstream.core_submit hsub)

omit hnum in
theorem poolReply_quiet {n : CallId} (hidle : b.Idle n) (s : SessionId) (e : Entry)
    (report : ShareReport) (pool : ℕ) (stray : Bool) (outcome : Except String Bool) :
    Quiet b (b.poolReply n s e report pool stray outcome) := by
  unfold poolReply
  cases outcome with
  | error message =>
    have hrun := run_quiet (hd e.upstream) (.of_core (Upstream.core_rejected _ stray))
    have hemit := hrun.trans (emit_quiet _ (.share s e { report with accepted := false }))
    exact hemit.trans (answer_quiet (hemit.idle hidle) _)
  | ok accepted =>
    dsimp only
    have key : ∀ b', Quiet b b' → ∀ o r, Quiet b ((b'.emit o).answer n r) := by
      intro b' h o r
      have hemit := h.trans (emit_quiet b' o)
      exact hemit.trans (answer_quiet (hemit.idle hidle) r)
    apply key
    split_ifs
    · exact setUpstream_quiet (setVardiff_calm ..)
    · exact .refl b

omit hnum in
theorem account_quiet (s : SessionId) (shares work actual : ℕ) :
    Quiet b (b.account s shares work actual) := by
  have key : ∀ (os : List Output) (b : Backend), Quiet b (os.foldl emit b) := by
    intro os
    induction os with
    | nil => exact .refl
    | cons o os ih => exact fun b => (emit_quiet b o).trans (ih _)
  unfold account
  split
  · exact .refl b
  · split_ifs
    · exact .refl b
    · exact (counted_quiet hd _ _).trans (key _ _)

end Backend

end NMiner
