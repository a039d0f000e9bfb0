import NMiner.Proofs.Everywhere
import NMiner.Proofs.Tidy

/-! Sessions and clients stay one to one, as long as no login gets its credentials for a
session that has been closed or that has an entry which no pending login will look at
again. -/

namespace NMiner

open Transition
open Upstream (Calm Settles)

namespace Backend

/-! ### Steps -/

theorem run_detach {b : Backend} (hb : b.Tidy) {s : SessionId} {e : Entry} :
    run (if b.entries s = some e then { b with entries := Function.update b.entries s none } else b)
      e.upstream ((b.upstream e.upstream).detach e.client) = b.discard s e := by
  have hout : ((b.upstream e.upstream).detach e.client).outbox = [] :=
    (Upstream.detach_frame _ _).2.2.trans (hb.drained _)
  rw [run_of_silent _ _ hout]
  unfold discard setUpstream
  split_ifs <;> rfl

theorem drop_eq {b : Backend} (hb : b.Tidy) {s : SessionId} {e : Entry}
    (he : b.entries s = some e) : b.drop s = b.discard s e := by
  rw [← run_detach hb, if_pos he]
  unfold drop
  rw [he]

/-- What the session had is gone. -/
theorem drop_tidy {b : Backend} (hb : b.Tidy) {s : SessionId} (hlog : b.logged s = false) :
    (b.drop s).Tidy ∧ (b.drop s).entries s = none := by
  cases he : b.entries s with
  | none =>
    unfold drop
    rw [he]
    exact ⟨hb, he⟩
  | some e =>
    rw [drop_eq hb he]
    refine ⟨discard_tidy hb (hb.entry s e he) fun _ => hlog, ?_⟩
    unfold discard
    dsimp only
    rw [if_pos he, Function.update_self]

/-- The session is not logged in any more, and loses what it had. -/
theorem logout_tidy {b : Backend} (hb : b.Tidy) (s : SessionId) :
    ({ b.drop s with logged := Function.update b.logged s false } : Backend).Tidy ∧
      (b.drop s).entries s = none := by
  let b' : Backend := { b with logged := Function.update b.logged s false }
  have hb' : b'.Tidy := by
    refine { hb with logged := ?_ }
    intro s' hs
    change Function.update b.logged s false s' = true at hs
    rw [Function.update_apply] at hs
    split_ifs at hs
    exact hb.logged s' hs
  obtain ⟨htidy, hnone⟩ := drop_tidy hb' (s := s) (Function.update_self ..)
  have hsame : b'.drop s = { b.drop s with logged := Function.update b.logged s false } := by
    cases he : b.entries s with
    | none =>
      unfold drop
      dsimp only [b']
      rw [he]
    | some e =>
      rw [drop_eq hb he, drop_eq hb' he]
      rfl
  rw [hsame] at htidy hnone
  exact ⟨htidy, hnone⟩

theorem drop_closed {b : Backend} (hb : b.Tidy) (s : SessionId) :
    (b.drop s).closed = b.closed ∧ (b.drop s).calls = b.calls ∧
      (b.drop s).nextCall = b.nextCall := by
  cases he : b.entries s with
  | none =>
    unfold drop
    rw [he]
    exact ⟨rfl, rfl, rfl⟩
  | some e =>
    rw [drop_eq hb he]
    exact ⟨rfl, rfl, rfl⟩

theorem close_tidy {b : Backend} (hb : b.Tidy) (s : SessionId) : (b.close s).Tidy := by
  obtain ⟨htidy, hnone⟩ := logout_tidy hb s
  refine { htidy with closed := ?_ }
  intro s' hs
  rcases Finset.mem_insert.mp hs with rfl | hs
  · exact hnone
  · rw [← (drop_closed hb s).1] at hs
    exact htidy.closed s' hs

theorem login_tidy {b : Backend} (hb : b.Tidy) (s : SessionId) (address : String)
    (threads : Option ℚ) : (b.login s address threads).Tidy := by
  obtain ⟨htidy, -⟩ := logout_tidy hb s
  generalize hb' : ({ b.drop s with logged := Function.update b.logged s false } : Backend) = b'
    at htidy
  have hlogin : b.login s address threads =
      { b'.setCall b'.nextCall (some (.resolving s address threads)) with
        nextCall := b'.nextCall + 1 } := by
    rw [← hb']
    rfl
  rw [hlogin]
  have hfree := next_idle htidy.numbered
  have hcalls : ∀ n, (b'.setCall b'.nextCall (some (.resolving s address threads))).calls n =
      if n = b'.nextCall then some (.resolving s address threads) else b'.calls n :=
    Function.update_apply _ _ _
  -- a call that has made an entry is not the new one
  have hkeep : ∀ n call, call.made ≠ none →
      ((b'.setCall b'.nextCall (some (.resolving s address threads))).calls n = some call ↔
        b'.calls n = some call) := by
    intro n call hmade
    rw [hcalls]
    split_ifs with hn
    · subst hn
      constructor
      · rintro ⟨⟩
        exact absurd rfl hmade
      · intro h
        have hnone := hfree call h
        cases call <;> simp [Call.login, Call.made] at hnone hmade
    · exact Iff.rfl
  have hmakes : ∀ n s' e, Makes { b'.setCall b'.nextCall (some (.resolving s address threads)) with
      nextCall := b'.nextCall + 1 } n s' e ↔ b'.Makes n s' e := by
    intro n s' e
    unfold Makes
    rw [hkeep n (.attaching s' e) (by simp [Call.made])]
    exact or_congr Iff.rfl (exists_congr fun r => hkeep n _ (by simp [Call.made]))
  refine
    { htidy with
      numbered := ?_, made := ?_, once := ?_, known := ?_, roll := ?_,
      logged := ?_, attached := ?_ }
  · intro n hn
    dsimp only at hn ⊢
    rw [hcalls] at hn
    split_ifs at hn with heq
    · exact heq ▸ Nat.lt_succ_self _
    · exact Nat.lt_succ_of_lt (htidy.numbered n hn)
  · exact fun n s' e hn => htidy.made n s' e ((hmakes n s' e).mp hn)
  · exact fun n n' s' s'' e hn hn' =>
      htidy.once n n' s' s'' e ((hmakes n s' e).mp hn) ((hmakes n' s'' e).mp hn')
  · intro i c hc
    obtain ⟨s', e, ho, hi, huse⟩ := htidy.known i c hc
    exact ⟨s', e, ho, hi, huse.imp_right (Exists.imp fun n hn => (hmakes n s' e).mpr hn)⟩
  · intro i c o hc
    obtain ⟨n, s', e, ho, hn, hci⟩ := htidy.roll i c o hc
    exact ⟨n, s', e, ho, (hkeep n _ (by simp [Call.made])).mpr hn, hci⟩
  · intro s' hs
    obtain ⟨e, he, hin, hn⟩ := htidy.logged s' hs
    exact ⟨e, he, hin, fun n s'' hm => hn n s'' ((hmakes n s'' e).mp hm)⟩
  · exact fun n s' e p hn he =>
      htidy.attached n s' e p ((hkeep n _ (by simp [Call.made])).mp hn) he

theorem settle_tidy {b : Backend} (hb : b.Tidy) {n : CallId} {s : SessionId} {e : Entry}
    {result : Except String Payload} (hcall : b.calls n = some (.attached s e result)) :
    (b.settle n s e result).Tidy := by
  have hmake : b.Makes n s e := Or.inr ⟨result, hcall⟩
  have ho := hb.made n s e hmake
  have hpending : ∀ s' e', b.calls n ≠ some (.attaching s' e') := by
    intro s' e'
    rw [hcall]
    simp
  have hfail : ∀ message, ((run (if b.entries s = some e then
      { b with entries := Function.update b.entries s none } else b) e.upstream
        ((b.upstream e.upstream).detach e.client)).answer n (.error message)).Tidy := by
    intro message
    rw [run_detach hb]
    have hlog : b.entries s = some e → b.logged s = false := by
      intro he
      by_contra hs
      obtain ⟨e', he', -, hn⟩ := hb.logged s (Bool.not_eq_false _ ▸ hs)
      rw [he, Option.some.injEq] at he'
      exact hn n s (he' ▸ hmake)
    refine answer_tidy (discard_tidy hb ho hlog) _ hpending ?_
    intro s' e' hm
    obtain ⟨rfl, rfl⟩ := hmake.same hm
    refine Or.inr fun hknows => ?_
    exact ((discard_upstream b s e _).2.2 _).mp hknows |>.2 ⟨rfl, rfl⟩
  have hup : ∀ m, (b.settle n s e (.error m)) = ((run (if b.entries s = some e then
      { b with entries := Function.update b.entries s none } else b) e.upstream
        ((b.upstream e.upstream).detach e.client)).answer n (.error m)) := by
    intro m
    unfold settle
    dsimp only
    split_ifs <;> rfl
  cases result with
  | error message =>
    rw [hup]
    exact hfail message
  | ok payload =>
    by_cases he : b.entries s = some e
    · have htidy := answer_tidy hb (n := n) (.ok (.job payload)) hpending (by
        intro s' e' hm
        obtain ⟨rfl, rfl⟩ := hmake.same hm
        exact Or.inl he)
      have hsettle : b.settle n s e (.ok payload) = { b.answer n (.ok (.job payload)) with
          logged := Function.update b.logged s true } := by
        unfold settle
        dsimp only
        rw [if_pos he]
      rw [hsettle]
      refine { htidy with logged := ?_ }
      intro s' hs
      dsimp only at hs
      rw [Function.update_apply] at hs
      split_ifs at hs with hss
      · subst hss
        refine ⟨e, he, hb.attached n s' e payload hcall he, ?_⟩
        intro m s'' hm
        obtain ⟨hm, hmn⟩ := (answer_makes b n m (.ok (.job payload)) s'' e).mp hm
        exact hmn (hb.once m n s'' s' e hm hmake)
      · exact htidy.logged s' hs
    · have hsettle : b.settle n s e (.ok payload) =
          b.settle n s e (.error "Superseded by a newer login.") := by
        unfold settle
        dsimp only
        rw [if_neg he]
      rw [hsettle, hup]
      exact hfail _

theorem resolved_tidy {b : Backend} (hb : b.Tidy) {n : CallId} {s : SessionId} {address : String}
    {threads : Option ℚ} {outcome : Except String Credentials}
    (hcall : b.calls n = some (.resolving s address threads))
    (hok : ∀ c, outcome = .ok c → s ∉ b.closed ∧
      ∀ e, b.entries s = some e → ∃ m s', b.Makes m s' e) :
    (b.resolved n s address threads outcome).Tidy := by
  cases outcome with
  | error message =>
    refine answer_tidy hb _ ?_ ?_
    · intro s' e
      rw [hcall]
      simp
    · intro s' e hm
      rcases hm with hm | ⟨r, hm⟩ <;> rw [hcall] at hm <;> simp at hm
  | ok credentials =>
    obtain ⟨hopen, hentry⟩ := hok credentials rfl
    obtain ⟨hget, hlt, hcalls, hclosed, hentries⟩ := get_tidy hb credentials
    simp only [resolved]
    generalize hg : b.get credentials = p at hget hlt hcalls hclosed hentries
    obtain ⟨i, b'⟩ := p
    dsimp only at hget hlt hcalls hclosed hentries ⊢
    generalize hu : (b'.upstream i).setClient b'.nextClient (fun _ =>
      ({ hashrate := (VarDiff.new (seed threads) b'.now).hashrate,
         vardiff := VarDiff.new (seed threads) b'.now } : Client)) = u
    have hframe := Upstream.attach_frame u b'.nextClient (.login n)
    have hsetup : u.live = (b'.upstream i).live ∧ u.homes = (b'.upstream i).homes ∧
        u.roll = (b'.upstream i).roll ∧ u.outbox = (b'.upstream i).outbox := by
      rw [← hu]
      exact ⟨rfl, rfl, rfl, rfl⟩
    rw [hsetup.1, hsetup.2.1, hsetup.2.2.1, hsetup.2.2.2, hget.drained i] at hframe
    obtain ⟨hlive, hhomes, hroll, hout⟩ := hframe
    rw [run_of_silent _ _ hout]
    refine enroll_tidy (u := { u.attach b'.nextClient (.login n) with outbox := [] })
      (e := { client := b'.nextClient, upstream := i, address := address, login := n }) hget
      (hcalls ▸ hcall) (hclosed ▸ hopen) ?_ rfl hlt hlive hhomes hroll rfl
    intro e he
    rw [hentries] at he
    obtain ⟨m, s', hm⟩ := hentry e he
    exact ⟨m, s', (Makes.of_calls (congrFun hcalls m)).mpr hm⟩

/-- A login under way made the entry. -/
def heldEntry (b : Backend) (e : Entry) : Bool :=
  (List.range b.nextCall).any fun m => (b.calls m).bind Call.made = some e

/-- The condition: a login only gets its credentials while its session is open and has no entry, or
one that a login under way has made. -/
def mayEnroll (b : Backend) : Action → Bool
  | .resolved n (.ok _) => match b.calls n with
    | some (.resolving s _ _) => s ∉ b.closed && match b.entries s with
      | none => true
      | some e => b.heldEntry e
    | _ => true
  | _ => true

theorem makes_of_heldEntry {b : Backend} {e : Entry} (h : b.heldEntry e = true) :
    ∃ m s, b.Makes m s e := by
  obtain ⟨m, -, hm⟩ := List.any_eq_true.mp h
  obtain ⟨call, hcall, hmade⟩ := Option.bind_eq_some_iff.mp (of_decide_eq_true hm)
  cases call with
  | attaching s e' =>
    obtain rfl : e' = e := by simpa [Call.made] using hmade
    exact ⟨m, s, Or.inl hcall⟩
  | attached s e' r =>
    obtain rfl : e' = e := by simpa [Call.made] using hmade
    exact ⟨m, s, Or.inr ⟨r, hcall⟩⟩
  | resolving s address threads => simp [Call.made] at hmade
  | chunking e' => simp [Call.made] at hmade
  | chunked e' r => simp [Call.made] at hmade
  | forwarding s e' report pool stray => simp [Call.made] at hmade

/-- No link is lost. -/
def keepsLinks : Action → Bool
  | .upstream _ (.lost _) => false
  | _ => true

/-- What an upstream does by itself, short of losing a link. -/
theorem upstream_tidy {b : Backend} (hb : b.Tidy) {i : UpstreamId} {a : Upstream.Action}
    {u : Upstream} (ha : autonomous a = true) (hkeep : keepsLinks (.upstream i a) = true)
    (h : (b.upstream i).step a = some u) : (b.run i u).Tidy := by
  have hout := hb.drained i
  have calm : Calm (b.upstream i) u → (b.run i u).Tidy := fun hu => (run_quiet hout hu).tidy hb
  cases a with
  | resume k =>
    rcases Upstream.resume_cases h with hu | ⟨c, o, r, w, rfl, hperm, hw⟩
    · exact calm hu
    · exact attached_tidy hb hperm hw.knows (hw.outbox.trans hout) hw.live
  | dialed l outcome =>
    simp only [Upstream.step] at h
    split_ifs at h
    rw [Option.some.injEq] at h
    exact calm (h ▸ (Upstream.dialed_stays _ l outcome).calm)
  | loggedIn l outcome =>
    simp only [Upstream.step] at h
    split_ifs at h
    rw [Option.some.injEq] at h
    exact calm (h ▸ (Upstream.loggedIn_stays _ l outcome).calm)
  | job l job =>
    simp only [Upstream.step] at h
    split_ifs at h
    rw [Option.some.injEq] at h
    exact calm (h ▸ (Upstream.accept_stays _ l job).calm)
  | rebalance =>
    simp only [Upstream.step] at h
    split_ifs at h
    rw [Option.some.injEq] at h
    exact calm (h ▸ Upstream.rebalance_calm _)
  | lost l => simp [keepsLinks] at hkeep
  | attach call c => simp [autonomous] at ha
  | detach c => simp [autonomous] at ha
  | report c hashrate => simp [autonomous] at ha
  | chunk call c job_id => simp [autonomous] at ha
  | submit call c job_id nonce result => simp [autonomous] at ha
  | rejected stray => simp [autonomous] at ha
  | tick ms => simp [autonomous] at ha
  | close => simp [autonomous] at ha

theorem tick_quiet (b : Backend) (ms : ℕ) : Quiet b { b with
    now := b.now + ms, upstream := fun i => { b.upstream i with now := b.now + ms } } :=
  ⟨rfl, rfl, rfl, rfl, rfl, rfl, le_rfl, List.Subset.refl _, fun _ _ _ => Iff.rfl, id,
    fun _ => .of_core rfl, fun hd i => hd i⟩

theorem step_tidy (b : Backend) (a : Action) (b' : Backend) (hb : b.Tidy)
    (hg : keepsLinks a = true ∧ b.mayEnroll a = true) (h : step b a = some b') : b'.Tidy := by
  cases step_fires h with
  | login s address threads _ => exact login_tidy hb s address threads
  | @resolved n s address threads hcall outcome =>
    refine resolved_tidy hb hcall ?_
    rintro c rfl
    have hg := hg.2
    simp only [mayEnroll, hcall, Bool.and_eq_true, decide_eq_true_eq] at hg
    refine ⟨hg.1, fun e he => ?_⟩
    rw [he] at hg
    exact makes_of_heldEntry hg.2
  | settle hcall => exact settle_tidy hb hcall
  | close s => exact close_tidy hb s
  | chunk s job_id hashrate _ =>
    exact (chunk_quiet hb.drained hb.numbered s job_id hashrate).tidy hb
  | chunked hcall => exact (chunked_quiet (.of_some hcall rfl) _ _).tidy hb
  | submit s job_id nonce result _ =>
    exact (submit_quiet hb.drained hb.numbered s job_id nonce result).tidy hb
  | poolReply hcall outcome =>
    exact (poolReply_quiet hb.drained (.of_some hcall rfl) _ _ _ _ _ outcome).tidy hb
  | account s shares work actual _ => exact (account_quiet hb.drained s shares work actual).tidy hb
  | upstream ha hu => exact upstream_tidy hb ha hg.1 hu
  | tick ms => exact (tick_quiet b ms).tidy hb

theorem start_tidy (maxLinks idleTimeout : ℕ) (expand : Bool) (now : ℕ) :
    (start maxLinks idleTimeout expand now).Tidy where
  drained _ := rfl
  pools _ hp := absurd hp (List.not_mem_nil)
  unused _ _ := rfl
  numbered _ hn := absurd rfl hn
  owned _ _ _ hc := by simp [start] at hc
  entry _ _ he := by simp [start] at he
  closed _ _ := rfl
  made _ _ _ hm := by simp [Makes, start] at hm
  once _ _ _ _ _ hm := by simp [Makes, start] at hm
  known _ _ hc := by simp [Upstream.Knows, start, Upstream.start] at hc
  roll _ _ _ hc := by simp [Upstream.roll, start, Upstream.start] at hc
  rolls _ := List.nodup_nil
  logged _ hs := by simp [start] at hs
  attached _ _ _ _ hn := by simp [start] at hn

/-! ### Runs -/

/-- A login of the session is under way. -/
def loginPending (b : Backend) (s : SessionId) : Bool :=
  (List.range b.nextCall).any fun n => (b.calls n).bind Call.login = some s

/-- A session that is logged in has an entry whose client is the only one of the session that an
upstream knows, and a closed one has neither an entry nor a client. -/
structure OneToOne (b : Backend) (s : SessionId) : Prop where
  logged : s ∉ b.closed → b.logged s = true → ∃ e, b.entries s = some e ∧
    ∀ i c, (∃ e', b.owner c = some (s, e')) ∧ (b.upstream i).Knows c ↔ i = e.upstream ∧ c = e.client
  closed : s ∈ b.closed → b.entries s = none ∧
    ∀ i c e, b.owner c = some (s, e) → ¬ (b.upstream i).Knows c

theorem Tidy.not_makes {b : Backend} (hb : b.Tidy) {s : SessionId}
    (hidle : b.loginPending s = false) (n : CallId) (e : Entry)
    (ho : b.owner e.client = some (s, e)) (s' : SessionId) : ¬ b.Makes n s' e := by
  intro hm
  obtain ⟨rfl, -⟩ := owner_inj ho (hb.made n s' e hm) rfl
  have hlogin : (b.calls n).bind Call.login = some s' ∧ b.calls n ≠ none := by
    rcases hm with hm | ⟨r, hm⟩ <;> rw [hm] <;> exact ⟨rfl, by simp⟩
  have hpending : b.loginPending s' = true := by
    refine List.any_eq_true.mpr ⟨n, List.mem_range.mpr (hb.numbered n hlogin.2), ?_⟩
    exact decide_eq_true hlogin.1
  rw [hidle] at hpending
  exact absurd hpending (by simp)

theorem Tidy.oneToOne {b : Backend} (hb : b.Tidy) {s : SessionId}
    (hidle : b.loginPending s = false) : b.OneToOne s := by
  -- who is known is in use by the entry
  have hused : ∀ i c e, b.owner c = some (s, e) → (b.upstream i).Knows c →
      b.entries s = some e ∧ e.upstream = i ∧ e.client = c := by
    intro i c e ho hc
    obtain ⟨s', e', ho', hi, huse⟩ := hb.known i c hc
    rw [ho, Option.some.injEq, Prod.mk.injEq] at ho'
    obtain ⟨rfl, rfl⟩ := ho'
    have hclient := (hb.owned c s e ho).1
    refine ⟨huse.resolve_right ?_, hi, hclient⟩
    rintro ⟨n, hm⟩
    exact hb.not_makes hidle n e (hclient.symm ▸ ho) s hm
  constructor
  · intro _ hs
    obtain ⟨e, he, hlive, -⟩ := hb.logged s hs
    refine ⟨e, he, fun i c => ⟨?_, ?_⟩⟩
    · rintro ⟨⟨e', ho⟩, hc⟩
      obtain ⟨he', rfl, rfl⟩ := hused i c e' ho hc
      rw [he, Option.some.injEq] at he'
      exact he' ▸ ⟨rfl, rfl⟩
    · rintro ⟨rfl, rfl⟩
      exact ⟨⟨e, hb.entry s e he⟩, Or.inl hlive⟩
  · intro hs
    have hnone := hb.closed s hs
    refine ⟨hnone, fun i c e ho hc => ?_⟩
    have he := (hused i c e ho hc).1
    rw [hnone] at he
    exact absurd he (by simp)

/-- In every state that a run without link losses reaches, if logins only get their credentials for
open sessions without an entry in use, sessions and clients are one to one. -/
theorem sessions_one_to_one (maxLinks idleTimeout : ℕ) (expand : Bool)
    (now : ℕ) (actions : List Action)
    (b : Backend) (s : SessionId) (hkeep : ∀ a ∈ actions, keepsLinks a = true)
    (hguard : Meets step (fun b a => b.mayEnroll a = true)
      (start maxLinks idleTimeout expand now) actions)
    (hrun : exec step (start maxLinks idleTimeout expand now) actions = some b)
    (hidle : b.loginPending s = false) : b.OneToOne s :=
  (exec_invariant step_tidy (start_tidy maxLinks idleTimeout expand now)
    (meets_and (meets_of_forall step _ hkeep) hguard) hrun).oneToOne hidle

def wallet : Credentials := { pool := "pool", address := "wallet", pass := "x" }

/-- A session that logs in again twice at once: the later login supersedes the earlier one. -/
theorem sessions_one_to_one_relogin : ∃ b, exec step (start 64 300000 false 1000)
    [.login 0 "a" none, .resolved 0 (.ok wallet), .upstream 0 (.dialed 0 (.ok ())),
      .upstream 0 (.loggedIn 0 (.ok Upstream.plainJob)), .upstream 0 (.resume 0),
      .upstream 0 (.resume 0), .settle 0, .login 0 "b" none, .login 0 "c" none,
      .resolved 1 (.ok wallet), .resolved 2 (.ok wallet), .upstream 0 (.resume 0),
      .upstream 0 (.resume 0), .settle 1, .settle 2] = some b ∧ b.logged 0 = true ∧
        b.OneToOne 0 := by
  have hrun : (exec step (start 64 300000 false 1000)
    [.login 0 "a" none, .resolved 0 (.ok wallet), .upstream 0 (.dialed 0 (.ok ())),
      .upstream 0 (.loggedIn 0 (.ok Upstream.plainJob)), .upstream 0 (.resume 0),
      .upstream 0 (.resume 0), .settle 0, .login 0 "b" none, .login 0 "c" none,
      .resolved 1 (.ok wallet), .resolved 2 (.ok wallet), .upstream 0 (.resume 0),
      .upstream 0 (.resume 0), .settle 1, .settle 2]).map
        (fun b => (b.logged 0, b.loginPending 0)) = some (true, false) := by decide +kernel
  obtain ⟨b, hb, hstate⟩ := Option.map_eq_some_iff.mp hrun
  rw [Prod.mk.injEq] at hstate
  exact ⟨b, hb, hstate.1,
    sessions_one_to_one 64 300000 false 1000 _ b 0 (by decide) (by decide +kernel) hb hstate.2⟩

/-- The session is closed while its login awaits the resolver; the login then succeeds. -/
theorem closed_session_attached : ¬ ∀ b, exec step (start 64 300000 false 1000)
    [.login 0 "a" none, .close 0, .resolved 0 (.ok wallet), .upstream 0 (.dialed 0 (.ok ())),
      .upstream 0 (.loggedIn 0 (.ok Upstream.plainJob)), .upstream 0 (.resume 0),
      .upstream 0 (.resume 0), .settle 0] = some b → b.loginPending 0 = false → b.OneToOne 0 := by
  intro h
  have hrun : (exec step (start 64 300000 false 1000)
    [.login 0 "a" none, .close 0, .resolved 0 (.ok wallet), .upstream 0 (.dialed 0 (.ok ())),
      .upstream 0 (.loggedIn 0 (.ok Upstream.plainJob)), .upstream 0 (.resume 0),
      .upstream 0 (.resume 0), .settle 0]).map
        (fun b => (Decidable.decide (0 ∈ b.closed), b.loginPending 0, (b.entries 0).isSome)) =
      some (true, false, true) := by decide +kernel
  obtain ⟨b, hb, hstate⟩ := Option.map_eq_some_iff.mp hrun
  simp only [Prod.mk.injEq, decide_eq_true_eq] at hstate
  have hnone := ((h b hb hstate.2.1).closed hstate.1).1
  rw [hnone] at hstate
  exact absurd hstate.2.2 (by simp)

end Backend

end NMiner
