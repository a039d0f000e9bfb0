import NMiner.Proofs.Requests

/-! What is known of the sessions, the clients and the logins under way. Every client has one
owner, a session with the entry made for it; who is known to an upstream is in use, by the
session's entry or by a login under way. -/

namespace NMiner

open Upstream (Calm Settles)

namespace Backend

/-- The login with this number has made the entry and awaits its `attach`, or is about to
continue after it. -/
def Makes (b : Backend) (n : CallId) (s : SessionId) (e : Entry) : Prop :=
  b.calls n = some (.attaching s e) ∨ ∃ r, b.calls n = some (.attached s e r)

theorem Makes.same {b : Backend} {n : CallId} {s s' : SessionId} {e e' : Entry}
    (h : b.Makes n s e) (h' : b.Makes n s' e') : s = s' ∧ e = e' := by
  rcases h with h | ⟨r, h⟩ <;> rcases h' with h' | ⟨r', h'⟩ <;> rw [h] at h' <;> simp_all

theorem Makes.of_calls {b b' : Backend} {n : CallId} {s : SessionId} {e : Entry}
    (h : b'.calls n = b.calls n) : b'.Makes n s e ↔ b.Makes n s e := by
  unfold Makes
  rw [h]

structure Tidy (b : Backend) : Prop where
  drained : ∀ i, (b.upstream i).outbox = []
  pools : ∀ p ∈ b.pools, p.2 < b.nextUpstream
  unused : ∀ i, b.nextUpstream ≤ i → (b.upstream i).live = ∅
  numbered : ∀ n, b.calls n ≠ none → n < b.nextCall
  owned : ∀ c s e, b.owner c = some (s, e) → e.client = c ∧ c < b.nextClient
  entry : ∀ s e, b.entries s = some e → b.owner e.client = some (s, e)
  closed : ∀ s ∈ b.closed, b.entries s = none
  made : ∀ n s e, b.Makes n s e → b.owner e.client = some (s, e)
  once : ∀ n n' s s' e, b.Makes n s e → b.Makes n' s' e → n = n'
  known : ∀ i c, (b.upstream i).Knows c → ∃ s e, b.owner c = some (s, e) ∧ e.upstream = i ∧
    (b.entries s = some e ∨ ∃ n, b.Makes n s e)
  roll : ∀ i c o, (c, o) ∈ (b.upstream i).roll → ∃ n s e, o = .login n ∧
    b.calls n = some (.attaching s e) ∧ e.client = c ∧ e.upstream = i
  rolls : ∀ i, ((b.upstream i).roll.map Prod.snd).Nodup
  logged : ∀ s, b.logged s = true → ∃ e, b.entries s = some e ∧
    e.client ∈ (b.upstream e.upstream).live ∧ ∀ n s', ¬ b.Makes n s' e
  attached : ∀ n s e p, b.calls n = some (.attached s e (.ok p)) → b.entries s = some e →
    e.client ∈ (b.upstream e.upstream).live

/-- Entries with the same client are the same. -/
theorem owner_inj {b : Backend} {s s' : SessionId} {e e' : Entry}
    (h : b.owner e.client = some (s, e)) (h' : b.owner e'.client = some (s', e'))
    (hc : e'.client = e.client) : s' = s ∧ e' = e := by
  rw [hc, h, Option.some.injEq, Prod.mk.injEq] at h'
  exact ⟨h'.1.symm, h'.2.symm⟩

theorem Quiet.makes {b b' : Backend} (h : Quiet b b') {n : CallId} {s : SessionId} {e : Entry} :
    b'.Makes n s e ↔ b.Makes n s e := by
  unfold Makes
  rw [h.logins n (.attaching s e) rfl]
  exact or_congr Iff.rfl (exists_congr fun r => h.logins n (.attached s e r) rfl)

theorem Quiet.tidy {b b' : Backend} (h : Quiet b b') (hb : b.Tidy) : b'.Tidy where
  drained := h.drained hb.drained
  pools p hp := by
    rw [h.nextUpstream]
    exact hb.pools p (h.pools hp)
  unused i hi := by
    rw [h.nextUpstream] at hi
    exact (h.upstream i).live.trans (hb.unused i hi)
  numbered := h.numbered hb.numbered
  owned c s e hc := by
    rw [h.owner] at hc
    rw [h.nextClient]
    exact hb.owned c s e hc
  entry s e he := by
    rw [h.entries] at he
    rw [h.owner]
    exact hb.entry s e he
  closed s hs := by
    rw [h.closed] at hs
    rw [h.entries]
    exact hb.closed s hs
  made n s e hn := by
    rw [h.owner]
    exact hb.made n s e (h.makes.mp hn)
  once n n' s s' e hn hn' := hb.once n n' s s' e (h.makes.mp hn) (h.makes.mp hn')
  known i c hc := by
    obtain ⟨s, e, howner, hi, huse⟩ := hb.known i c ((h.upstream i).knows hc)
    rw [h.owner, h.entries]
    exact ⟨s, e, howner, hi, huse.imp_right (Exists.imp fun n hn => h.makes.mpr hn)⟩
  roll i c o hc := by
    rw [(h.upstream i).roll] at hc
    obtain ⟨n, s, e, ho, hn, hci⟩ := hb.roll i c o hc
    exact ⟨n, s, e, ho, (h.logins n _ rfl).mpr hn, hci⟩
  rolls i := by
    rw [(h.upstream i).roll]
    exact hb.rolls i
  logged s hs := by
    rw [h.logged] at hs
    obtain ⟨e, he, hlive, hn⟩ := hb.logged s hs
    refine ⟨e, by rw [h.entries, he], ?_, fun n s' hm => hn n s' (h.makes.mp hm)⟩
    rw [(h.upstream _).live]
    exact hlive
  attached n s e p hn he := by
    rw [h.entries] at he
    rw [(h.upstream _).live]
    exact hb.attached n s e p ((h.logins n _ rfl).mp hn) he

/-! ### A client that is detached, and a new upstream -/

theorem run_of_silent (b : Backend) (i : UpstreamId) {u : Upstream} (h : u.outbox = []) :
    b.run i u = b.setUpstream i u := by
  unfold run
  rw [h]
  rfl

/-- Detach the client of an entry and delete the entry where it is the session's. -/
def discard (b : Backend) (s : SessionId) (e : Entry) : Backend :=
  { b with
    entries := if b.entries s = some e then Function.update b.entries s none else b.entries
    upstream := Function.update b.upstream e.upstream
      { (b.upstream e.upstream).detach e.client with outbox := [] } }

theorem discard_entries {b : Backend} (hb : b.Tidy) {s : SessionId} {e : Entry}
    (ho : b.owner e.client = some (s, e)) (s' : SessionId) (e' : Entry) :
    (b.discard s e).entries s' = some e' ↔ b.entries s' = some e' ∧ e' ≠ e := by
  have hne : b.entries s' = some e → s' = s := fun h =>
    (owner_inj ho (hb.entry s' e h) rfl).1
  have hentries : (b.discard s e).entries s' =
      if b.entries s = some e ∧ s' = s then none else b.entries s' := by
    unfold discard
    by_cases he : b.entries s = some e
    · simp [he, Function.update_apply]
    · simp [he]
  rw [hentries]
  split_ifs with h
  · rw [h.2, h.1]
    simp [eq_comm]
  · constructor
    · intro h'
      refine ⟨h', ?_⟩
      rintro rfl
      exact h ⟨hne h' ▸ h', hne h'⟩
    · exact And.left

theorem discard_upstream (b : Backend) (s : SessionId) (e : Entry) (i : UpstreamId) :
    ((b.discard s e).upstream i).roll = (b.upstream i).roll ∧
      (∀ c, c ∈ ((b.discard s e).upstream i).live ↔
        c ∈ (b.upstream i).live ∧ ¬ (i = e.upstream ∧ c = e.client)) ∧
        ∀ c, ((b.discard s e).upstream i).Knows c ↔
          (b.upstream i).Knows c ∧ ¬ (i = e.upstream ∧ c = e.client) := by
  by_cases hi : i = e.upstream
  · subst hi
    obtain ⟨hlive, hroll, -⟩ := Upstream.detach_frame (b.upstream e.upstream) e.client
    have hup : (b.discard s e).upstream e.upstream =
        { (b.upstream e.upstream).detach e.client with outbox := [] } := Function.update_self ..
    rw [hup]
    refine ⟨hroll, fun c => ?_, fun c => ?_⟩
    · change c ∈ ((b.upstream e.upstream).detach e.client).live ↔ _
      rw [hlive, Finset.mem_erase]
      simp [and_comm]
    · refine (Upstream.detach_knows _ e.client c).trans ?_
      simp [and_comm]
  · have hup : (b.discard s e).upstream i = b.upstream i := Function.update_of_ne hi ..
    rw [hup]
    simp [hi]

/-- The client of a session's entry, or of one that a login has made and nobody uses, is
detached. -/
theorem discard_tidy {b : Backend} (hb : b.Tidy) {s : SessionId} {e : Entry}
    (ho : b.owner e.client = some (s, e)) (hlog : b.entries s = some e → b.logged s = false) :
    (b.discard s e).Tidy := by
  have hentries := discard_entries hb ho
  have hupstream := discard_upstream b s e
  refine
    { hb with
      drained := ?_, unused := ?_, entry := ?_, closed := ?_, known := ?_, roll := ?_, rolls := ?_,
      logged := ?_, attached := ?_ }
  · intro i
    by_cases hi : i = e.upstream
    · subst hi
      exact congrArg Upstream.outbox (Function.update_self e.upstream _ b.upstream)
    · exact (congrArg Upstream.outbox (Function.update_of_ne hi _ b.upstream)).trans (hb.drained i)
  · intro i hi
    refine Finset.eq_empty_of_forall_notMem fun c hc => ?_
    have hlive := (((hupstream i).2.1 c).mp hc).1
    rw [hb.unused i hi] at hlive
    exact absurd hlive (Finset.notMem_empty c)
  · intro s' e' he
    exact hb.entry s' e' ((hentries s' e').mp he).1
  · intro s' hs
    refine Option.eq_none_iff_forall_ne_some.mpr fun e' he => ?_
    have he' := ((hentries s' e').mp he).1
    rw [hb.closed s' hs] at he'
    exact absurd he' (by simp)
  · intro i c hc
    obtain ⟨hknown, hne⟩ := ((hupstream i).2.2 c).mp hc
    obtain ⟨s', e', howner, hi, huse⟩ := hb.known i c hknown
    refine ⟨s', e', howner, hi, huse.imp_left fun he => (hentries s' e').mpr ⟨he, ?_⟩⟩
    rintro rfl
    exact hne ⟨hi.symm, ((hb.owned c s' e' howner).1).symm⟩
  · intro i c o hc
    rw [(hupstream i).1] at hc
    exact hb.roll i c o hc
  · intro i
    rw [(hupstream i).1]
    exact hb.rolls i
  · intro s' hs
    obtain ⟨e', he, hlive, hn⟩ := hb.logged s' hs
    have hne : e' ≠ e := by
      rintro rfl
      obtain ⟨rfl, -⟩ := owner_inj ho (hb.entry s' e' he) rfl
      have hs : b.logged s' = true := hs
      rw [hlog he] at hs
      exact absurd hs (by simp)
    refine ⟨e', (hentries s' e').mpr ⟨he, hne⟩, ((hupstream _).2.1 _).mpr ⟨hlive, ?_⟩, hn⟩
    rintro ⟨-, hc⟩
    exact hne (owner_inj ho (hb.entry s' e' he) hc).2
  · intro n s' e' p hn he
    obtain ⟨he, hne⟩ := (hentries s' e').mp he
    refine ((hupstream _).2.1 _).mpr ⟨hb.attached n s' e' p hn he, ?_⟩
    rintro ⟨-, hc⟩
    exact hne (owner_inj ho (hb.entry s' e' he) hc).2

/-- The upstream of the credentials is there, and nobody is attached to a new one. -/
theorem get_tidy {b : Backend} (hb : b.Tidy) (c : Credentials) :
    (b.get c).2.Tidy ∧ (b.get c).1 < (b.get c).2.nextUpstream ∧
      (b.get c).2.calls = b.calls ∧ (b.get c).2.closed = b.closed ∧
        (b.get c).2.entries = b.entries := by
  unfold get
  cases hfind : b.pools.find? fun p => p.1 = c.key with
  | some p => exact ⟨hb, hb.pools p (List.mem_of_find?_eq_some hfind), rfl, rfl, rfl⟩
  | none =>
    dsimp only
    -- `fresh` is the new upstream, which knows nobody
    generalize hfresh : Upstream.start b.maxLinks b.idleTimeout b.expand b.now (fun _ =>
      ({ hashrate := 1000, vardiff := VarDiff.new 1000 b.now } : Client)) = fresh
    have hup : ∀ i, Function.update b.upstream b.nextUpstream fresh i =
        if i = b.nextUpstream then fresh else b.upstream i := Function.update_apply _ _ _
    have hout : fresh.outbox = [] := by rw [← hfresh]; rfl
    have hlive : fresh.live = ∅ := by rw [← hfresh]; rfl
    have hroll : fresh.roll = [] := by rw [← hfresh]; rfl
    have hknows : ∀ c, ¬ fresh.Knows c := by
      intro c
      rw [← hfresh]
      simp [Upstream.Knows, Upstream.start]
    have hlt : ∀ e : Entry, e.client ∈ (b.upstream e.upstream).live →
      e.upstream ≠ b.nextUpstream := by
      intro e he heq
      rw [hb.unused _ heq.ge] at he
      exact absurd he (Finset.notMem_empty _)
    refine ⟨{ hb with
      drained := ?_, pools := ?_, unused := ?_, known := ?_, roll := ?_, rolls := ?_, logged := ?_,
      attached := ?_ }, Nat.lt_succ_self _, rfl, rfl, rfl⟩
    · intro i
      dsimp only
      rw [hup]
      split_ifs
      · exact hout
      · exact hb.drained i
    · intro p hp
      rcases List.mem_append.mp hp with hp | hp
      · exact Nat.lt_succ_of_lt (hb.pools p hp)
      · rw [List.mem_singleton.mp hp]
        exact Nat.lt_succ_self _
    · intro i hi
      dsimp only at hi ⊢
      rw [hup]
      split_ifs
      · exact hlive
      · exact hb.unused i (Nat.le_of_succ_le hi)
    · intro i c hc
      dsimp only at hc
      rw [hup] at hc
      split_ifs at hc
      · exact absurd hc (hknows c)
      · exact hb.known i c hc
    · intro i c o hc
      dsimp only at hc
      rw [hup] at hc
      split_ifs at hc
      · rw [hroll] at hc
        exact absurd hc (by simp)
      · exact hb.roll i c o hc
    · intro i
      dsimp only
      rw [hup]
      split_ifs
      · rw [hroll]
        exact List.nodup_nil
      · exact hb.rolls i
    · intro s hs
      obtain ⟨e, he, hin, hn⟩ := hb.logged s hs
      refine ⟨e, he, ?_, hn⟩
      dsimp only
      rw [hup, if_neg (hlt e hin)]
      exact hin
    · intro n s e p hn he
      have hin := hb.attached n s e p hn he
      dsimp only
      rw [hup, if_neg (hlt e hin)]
      exact hin

/-! ### A login that begins its `attach` -/

/-- A login makes its client and begins the `attach`. -/
def enroll (b : Backend) (n : CallId) (s : SessionId) (e : Entry) (u : Upstream) : Backend :=
  { b with
    calls := Function.update b.calls n (some (.attaching s e))
    entries := Function.update b.entries s (some e)
    owner := Function.update b.owner b.nextClient (some (s, e))
    nextClient := b.nextClient + 1
    upstream := Function.update b.upstream e.upstream u }

/-- A login has made an entry with a client that nobody had, and begun its `attach`. -/
structure Enrolls (b b' : Backend) (n : CallId) (s : SessionId) (e : Entry) : Prop where
  resolving : ∃ address threads, b.calls n = some (.resolving s address threads)
  calls : ∀ m, b'.calls m = if m = n then some (.attaching s e) else b.calls m
  fresh : b.owner e.client = none
  owner : ∀ c, b'.owner c = if c = e.client then some (s, e) else b.owner c
  entries : ∀ s', b'.entries s' = if s' = s then some e else b.entries s'
  knows : ∀ i c, (b'.upstream i).Knows c → (b.upstream i).Knows c ∨ i = e.upstream ∧ c = e.client
  live : ∀ i, (b.upstream i).live ⊆ (b'.upstream i).live
  roll : ∀ i, (b'.upstream i).roll =
    (b.upstream i).roll ++ if i = e.upstream then [(e.client, .login n)] else []

theorem enroll_enrolls {b : Backend} (hb : b.Tidy) {n : CallId} {s : SessionId} {e : Entry}
    {u : Upstream} {address : String} {threads : Option ℚ}
    (hcall : b.calls n = some (.resolving s address threads)) (hclient : e.client = b.nextClient)
    (hlive : u.live = insert e.client (b.upstream e.upstream).live)
    (hhomes : u.homes = (b.upstream e.upstream).homes)
    (hroll : u.roll = (b.upstream e.upstream).roll ++ [(e.client, .login n)]) :
    Enrolls b (b.enroll n s e u) n s e := by
  have hup : ∀ i, (b.enroll n s e u).upstream i = if i = e.upstream then u else b.upstream i :=
    Function.update_apply _ _ _
  refine ⟨⟨address, threads, hcall⟩, Function.update_apply _ _ _, ?_, fun c => ?_,
    Function.update_apply _ _ _, fun i c hc => ?_, fun i => ?_, fun i => ?_⟩
  · by_contra h
    obtain ⟨⟨s', e'⟩, h⟩ := Option.ne_none_iff_exists'.mp h
    exact absurd (hb.owned _ s' e' h).2 (by rw [hclient]; exact lt_irrefl _)
  · rw [hclient]
    exact Function.update_apply _ _ _ _
  · rw [hup] at hc
    split_ifs at hc with hi
    · subst hi
      rcases hc with hc | hc
      · rw [hlive] at hc
        rcases Finset.mem_insert.mp hc with rfl | hc
        · exact Or.inr ⟨rfl, rfl⟩
        · exact Or.inl (Or.inl hc)
      · rw [hhomes] at hc
        exact Or.inl (Or.inr hc)
    · exact Or.inl hc
  · rw [hup]
    split_ifs with hi
    · rw [hlive, hi]
      exact Finset.subset_insert _ _
    · exact subset_rfl
  · rw [hup]
    split_ifs with hi
    · rw [hroll, hi]
    · rw [List.append_nil]

section Enrolls

variable {b b' : Backend} {n : CallId} {s : SessionId} {e : Entry}

/-- Nothing that the backend had before belongs to the new client. -/
theorem Enrolls.owner_of (h : Enrolls b b' n s e) {c : ClientId} {x : SessionId × Entry}
    (hc : b.owner c = some x) : b'.owner c = some x ∧ c ≠ e.client := by
  have hne : c ≠ e.client := by
    rintro rfl
    rw [h.fresh] at hc
    exact absurd hc (by simp)
  rw [h.owner, if_neg hne]
  exact ⟨hc, hne⟩

theorem Enrolls.call_of (h : Enrolls b b' n s e) {m : CallId} {call : Call}
    (hmade : call.made ≠ none) (hm : b.calls m = some call) : b'.calls m = some call ∧ m ≠ n := by
  have hne : m ≠ n := by
    rintro rfl
    obtain ⟨address, threads, hn⟩ := h.resolving
    rw [hn, Option.some.injEq] at hm
    exact hmade (hm ▸ rfl)
  rw [h.calls, if_neg hne]
  exact ⟨hm, hne⟩

theorem Enrolls.makes (h : Enrolls b b' n s e) {m : CallId} {s' : SessionId} {e' : Entry} :
    b'.Makes m s' e' ↔ b.Makes m s' e' ∨ m = n ∧ s' = s ∧ e' = e := by
  have hnew : b'.Makes n s e := Or.inl (by rw [h.calls, if_pos rfl])
  constructor
  · intro hm
    by_cases hmn : m = n
    · subst hmn
      exact Or.inr ⟨rfl, hm.same hnew⟩
    · exact Or.inl ((Makes.of_calls (by rw [h.calls, if_neg hmn])).mp hm)
  · rintro (hm | ⟨rfl, rfl, rfl⟩)
    · rcases hm with hm | ⟨r, hm⟩
      · exact Or.inl (h.call_of (by simp [Call.made]) hm).1
      · exact Or.inr ⟨r, (h.call_of (by simp [Call.made]) hm).1⟩
    · exact hnew

/-- No login had made the new entry, and no session had it. -/
theorem Enrolls.not_makes (h : Enrolls b b' n s e) (hb : b.Tidy) (m : CallId) (s' : SessionId) :
    ¬ b.Makes m s' e := fun hm => (h.owner_of (hb.made m s' e hm)).2 rfl

theorem Enrolls.entry_ne (h : Enrolls b b' n s e) (hb : b.Tidy) {s' : SessionId} {e' : Entry}
    (he : b.entries s' = some e') : e' ≠ e := by
  rintro rfl
  exact (h.owner_of (hb.entry s' e' he)).2 rfl

theorem Enrolls.once (h : Enrolls b b' n s e) (hb : b.Tidy) {m m' : CallId} {s' s'' : SessionId}
    {e' : Entry} (hm : b'.Makes m s' e') (hm' : b'.Makes m' s'' e') : m = m' := by
  rcases h.makes.mp hm with hm | ⟨rfl, -, rfl⟩ <;>
    rcases h.makes.mp hm' with hm' | ⟨rfl, -, he⟩
  · exact hb.once m m' s' s'' e' hm hm'
  · exact absurd (he ▸ hm) (h.not_makes hb m s')
  · exact absurd hm' (h.not_makes hb m' s'')
  · rfl

/-- An entry that is replaced is still held by the login that made it. -/
theorem Enrolls.known (h : Enrolls b b' n s e) (hb : b.Tidy)
    (hentry : ∀ e', b.entries s = some e' → ∃ m s', b.Makes m s' e') {i : UpstreamId}
    {c : ClientId} (hc : (b'.upstream i).Knows c) : ∃ s e, b'.owner c = some (s, e) ∧
      e.upstream = i ∧ (b'.entries s = some e ∨ ∃ n, b'.Makes n s e) := by
  rcases h.knows i c hc with hc | ⟨rfl, rfl⟩
  · obtain ⟨s', e', ho, hi, huse⟩ := hb.known i c hc
    refine ⟨s', e', (h.owner_of ho).1, hi, ?_⟩
    rcases huse with huse | ⟨m, hm⟩
    · by_cases hs : s' = s
      · subst hs
        obtain ⟨m, s'', hm⟩ := hentry e' huse
        have hs'' : s'' = s' := (owner_inj (hb.entry s' e' huse) (hb.made m s'' e' hm) rfl).1
        exact Or.inr ⟨m, h.makes.mpr (Or.inl (hs'' ▸ hm))⟩
      · exact Or.inl (by rw [h.entries, if_neg hs, huse])
    · exact Or.inr ⟨m, h.makes.mpr (Or.inl hm)⟩
  · refine ⟨s, e, ?_, rfl, Or.inl ?_⟩
    · rw [h.owner, if_pos rfl]
    · rw [h.entries, if_pos rfl]

theorem Enrolls.on_roll (h : Enrolls b b' n s e) (hb : b.Tidy) {i : UpstreamId} {c : ClientId}
    {o : Origin} (hc : (c, o) ∈ (b'.upstream i).roll) : ∃ n s e, o = .login n ∧
      b'.calls n = some (.attaching s e) ∧ e.client = c ∧ e.upstream = i := by
  rw [h.roll] at hc
  rcases List.mem_append.mp hc with hc | hc
  · obtain ⟨m, s', e', ho, hm, hci⟩ := hb.roll i c o hc
    exact ⟨m, s', e', ho, (h.call_of (by simp [Call.made]) hm).1, hci⟩
  · split_ifs at hc with hi
    · obtain ⟨rfl, rfl⟩ : c = e.client ∧ o = .login n := by simpa using hc
      exact ⟨n, s, e, rfl, by rw [h.calls, if_pos rfl], rfl, hi.symm⟩
    · exact absurd hc List.not_mem_nil

theorem Enrolls.rolls (h : Enrolls b b' n s e) (hb : b.Tidy) (i : UpstreamId) :
    ((b'.upstream i).roll.map Prod.snd).Nodup := by
  have hnew : Origin.login n ∉ (b.upstream i).roll.map Prod.snd := by
    intro hn
    obtain ⟨⟨c, o⟩, hc, rfl⟩ := List.mem_map.mp hn
    obtain ⟨m, s', e', ho, hm, -⟩ := hb.roll i c _ hc
    rw [Origin.login.injEq] at ho
    exact (h.call_of (by simp [Call.made]) hm).2 ho.symm
  rw [h.roll, List.map_append]
  split_ifs
  · exact List.nodup_append'.mpr ⟨hb.rolls i, List.nodup_singleton _,
      List.disjoint_singleton.mpr hnew⟩
  · rw [List.map_nil, List.append_nil]
    exact hb.rolls i

/-- A session that is logged in is not the one that logs in, whose entry is pending. -/
theorem Enrolls.logged (h : Enrolls b b' n s e) (hb : b.Tidy)
    (hentry : ∀ e', b.entries s = some e' → ∃ m s', b.Makes m s' e') {s' : SessionId}
    (hs : b.logged s' = true) : ∃ e, b'.entries s' = some e ∧
      e.client ∈ (b'.upstream e.upstream).live ∧ ∀ n s', ¬ b'.Makes n s' e := by
  obtain ⟨e', he, hin, hn⟩ := hb.logged s' hs
  refine ⟨e', ?_, h.live _ hin, ?_⟩
  · rw [h.entries, if_neg, he]
    rintro rfl
    obtain ⟨m, s'', hm⟩ := hentry e' he
    exact hn m s'' hm
  · intro m s'' hm
    rcases h.makes.mp hm with hm | ⟨-, -, heq⟩
    · exact hn m s'' hm
    · exact h.entry_ne hb he heq

theorem Enrolls.attached (h : Enrolls b b' n s e) (hb : b.Tidy) {m : CallId} {s' : SessionId}
    {e' : Entry} {p : Payload} (hm : b'.calls m = some (.attached s' e' (.ok p)))
    (he : b'.entries s' = some e') : e'.client ∈ (b'.upstream e'.upstream).live := by
  rw [h.calls] at hm
  split_ifs at hm
  · cases hm
  · rw [h.entries] at he
    split_ifs at he with hs
    · obtain rfl := Option.some.inj he
      exact absurd (Or.inr ⟨_, hm⟩) (h.not_makes hb m s')
    · exact h.live _ (hb.attached m s' e' p hm he)

end Enrolls

theorem enroll_tidy {b : Backend} (hb : b.Tidy) {n : CallId} {s : SessionId} {e : Entry}
    {u : Upstream} {address : String} {threads : Option ℚ}
    (hcall : b.calls n = some (.resolving s address threads)) (hopen : s ∉ b.closed)
    (hentry : ∀ e', b.entries s = some e' → ∃ m s', b.Makes m s' e')
    (hclient : e.client = b.nextClient) (hlt : e.upstream < b.nextUpstream)
    (hlive : u.live = insert e.client (b.upstream e.upstream).live)
    (hhomes : u.homes = (b.upstream e.upstream).homes)
    (hroll : u.roll = (b.upstream e.upstream).roll ++ [(e.client, .login n)])
    (hout : u.outbox = []) : (b.enroll n s e u).Tidy := by
  have h := enroll_enrolls hb hcall hclient hlive hhomes hroll
  have hup : ∀ i, (b.enroll n s e u).upstream i = if i = e.upstream then u else b.upstream i :=
    Function.update_apply _ _ _
  refine
    { drained := fun i => ?_
      pools := hb.pools
      unused := fun i hi => ?_
      numbered := fun m hm => ?_
      owned := fun c s' e' hc => ?_
      entry := fun s' e' he => ?_
      closed := fun s' hs => ?_
      made := fun m s' e' hm => ?_
      once := fun _ _ _ _ _ hm hm' => h.once hb hm hm'
      known := fun _ _ hc => h.known hb hentry hc
      roll := fun _ _ _ hc => h.on_roll hb hc
      rolls := h.rolls hb
      logged := fun _ hs => h.logged hb hentry hs
      attached := fun _ _ _ _ hm he => h.attached hb hm he }
  · rw [hup]
    split_ifs
    · exact hout
    · exact hb.drained i
  · have hne : i ≠ e.upstream := by
      rintro rfl
      exact absurd hi (not_le_of_gt hlt)
    rw [hup, if_neg hne]
    exact hb.unused i hi
  · rw [h.calls] at hm
    split_ifs at hm with hmn
    · exact hb.numbered m (by rw [hmn, hcall]; simp)
    · exact hb.numbered m hm
  · change e'.client = c ∧ c < b.nextClient + 1
    rw [h.owner] at hc
    split_ifs at hc with hcn
    · obtain ⟨rfl, rfl⟩ : s = s' ∧ e = e' := by simpa using hc
      exact ⟨hcn.symm, by rw [hcn, hclient]; exact Nat.lt_succ_self _⟩
    · obtain ⟨heq, hlt'⟩ := hb.owned c s' e' hc
      exact ⟨heq, Nat.lt_succ_of_lt hlt'⟩
  · rw [h.entries] at he
    split_ifs at he with hs
    · rw [Option.some.injEq] at he
      rw [← he, hs, h.owner, if_pos rfl]
    · exact (h.owner_of (hb.entry s' e' he)).1
  · have hne : s' ≠ s := by
      rintro rfl
      exact hopen hs
    rw [h.entries, if_neg hne]
    exact hb.closed s' hs
  · rcases h.makes.mp hm with hm | ⟨-, rfl, rfl⟩
    · exact (h.owner_of (hb.made m s' e' hm)).1
    · rw [h.owner, if_pos rfl]

/-! ### An `attach` that settles -/

/-- The `attach` of a login has settled, and the login is about to continue. -/
structure Lands (b b' : Backend) (n : CallId) (s : SessionId) (e : Entry)
    (r : Except String Payload) : Prop where
  attaching : b.calls n = some (.attaching s e)
  calls : ∀ m, b'.calls m = if m = n then some (.attached s e r) else b.calls m
  knows : ∀ i c, (b'.upstream i).Knows c → (b.upstream i).Knows c
  live : ∀ i, (b'.upstream i).live ⊆ (b.upstream i).live
  stays : ∀ i c, c ∈ (b.upstream i).live → c ≠ e.client → c ∈ (b'.upstream i).live
  landed : ∀ p, r = .ok p → e.client ∈ (b'.upstream e.upstream).live
  roll : ∀ i c o, (c, o) ∈ (b'.upstream i).roll → (c, o) ∈ (b.upstream i).roll ∧ o ≠ .login n
  rolls : ∀ i, ((b'.upstream i).roll.map Prod.snd).Nodup

/-- What the upstream does when it settles the `attach` of a call on its roll. -/
theorem attached_lands {b : Backend} (hb : b.Tidy) {n : CallId} {s : SessionId} {e : Entry}
    {w : Upstream} {r : Except String Payload} (hcall : b.calls n = some (.attaching s e))
    (hperm : (b.upstream e.upstream).roll.Perm ((e.client, .login n) :: w.roll))
    (hknows : ∀ x, w.Knows x → (b.upstream e.upstream).Knows x)
    (hlive : w.live = (b.upstream e.upstream).live ∧ e.client ∈ (b.upstream e.upstream).live ∨
      w.live = (b.upstream e.upstream).live.erase e.client ∧ ∀ p, r ≠ .ok p) :
    Lands b { b with
      upstream := Function.update b.upstream e.upstream { w with outbox := [] }
      calls := Function.update b.calls n (some (.attached s e r)) } n s e r := by
  have hup : ∀ i, Function.update b.upstream e.upstream { w with outbox := [] } i =
      if i = e.upstream then { w with outbox := [] } else b.upstream i :=
    Function.update_apply _ _ _
  have hnodup := (hperm.map Prod.snd).nodup_iff.mp (hb.rolls _)
  rw [List.map_cons, List.nodup_cons] at hnodup
  refine ⟨hcall, Function.update_apply _ _ _, fun i x hx => ?_, fun i => ?_, fun i c hc hne => ?_,
    fun p hp => ?_, fun i c o hc => ?_, fun i => ?_⟩
  · dsimp only at hx
    rw [hup] at hx
    split_ifs at hx with hi
    · exact hi ▸ hknows x hx
    · exact hx
  · dsimp only
    rw [hup]
    split_ifs with hi
    · subst hi
      rcases hlive with ⟨hlive, -⟩ | ⟨hlive, -⟩
      · exact hlive.subset
      · exact hlive.subset.trans (Finset.erase_subset _ _)
    · exact subset_rfl
  · dsimp only
    rw [hup]
    split_ifs with hi
    · subst hi
      rcases hlive with ⟨hlive, -⟩ | ⟨hlive, -⟩
      · exact hlive ▸ hc
      · exact hlive ▸ Finset.mem_erase.mpr ⟨hne, hc⟩
    · exact hc
  · dsimp only
    rw [hup, if_pos rfl]
    rcases hlive with ⟨hlive, hc⟩ | ⟨-, hr⟩
    · exact hlive ▸ hc
    · exact absurd hp (hr p)
  · dsimp only at hc
    rw [hup] at hc
    split_ifs at hc with hi
    · subst hi
      refine ⟨hperm.mem_iff.mpr (List.mem_cons_of_mem _ hc), ?_⟩
      rintro rfl
      exact hnodup.1 (List.mem_map.mpr ⟨_, hc, rfl⟩)
    · refine ⟨hc, ?_⟩
      rintro rfl
      -- the login is on the roll of the upstream of its entry only
      obtain ⟨m, s', e', ho, hm, -, hi'⟩ := hb.roll i c _ hc
      rw [Origin.login.injEq] at ho
      rw [← ho, hcall, Option.some.injEq, Call.attaching.injEq] at hm
      exact hi (hi'.symm.trans (hm.2 ▸ rfl))
  · dsimp only
    rw [hup]
    split_ifs
    · exact hnodup.2
    · exact hb.rolls i

section Lands

variable {b b' : Backend} {n : CallId} {s : SessionId} {e : Entry} {r : Except String Payload}

theorem Lands.makes (h : Lands b b' n s e r) {m : CallId} {s' : SessionId} {e' : Entry} :
    b'.Makes m s' e' ↔ b.Makes m s' e' := by
  by_cases hm : m = n
  · subst hm
    have hold : b.Makes m s e := Or.inl h.attaching
    have hnew : b'.Makes m s e := Or.inr ⟨r, by rw [h.calls, if_pos rfl]⟩
    constructor
    · intro hm
      obtain ⟨rfl, rfl⟩ := hnew.same hm
      exact hold
    · intro hm
      obtain ⟨rfl, rfl⟩ := hold.same hm
      exact hnew
  · exact Makes.of_calls (by rw [h.calls, if_neg hm])

theorem Lands.on_roll (h : Lands b b' n s e r) (hb : b.Tidy) {i : UpstreamId} {c : ClientId}
    {o : Origin} (hc : (c, o) ∈ (b'.upstream i).roll) : ∃ n s e, o = .login n ∧
      b'.calls n = some (.attaching s e) ∧ e.client = c ∧ e.upstream = i := by
  obtain ⟨hc, hne⟩ := h.roll i c o hc
  obtain ⟨m, s', e', rfl, hm, hci⟩ := hb.roll i c o hc
  refine ⟨m, s', e', rfl, ?_, hci⟩
  rw [h.calls, if_neg, hm]
  rintro rfl
  exact hne rfl

/-- The session of the login is not logged in, so a logged-in one keeps its client. -/
theorem Lands.logged (h : Lands b b' n s e r) (hb : b.Tidy) {s' : SessionId}
    (hs : b.logged s' = true) : ∃ e, b.entries s' = some e ∧
      e.client ∈ (b'.upstream e.upstream).live ∧ ∀ n s', ¬ b'.Makes n s' e := by
  obtain ⟨e', he, hin, hn⟩ := hb.logged s' hs
  refine ⟨e', he, h.stays _ _ hin fun hc => ?_, fun m s'' hm => hn m s'' (h.makes.mp hm)⟩
  have ho := hb.made n s e (Or.inl h.attaching)
  obtain ⟨rfl, rfl⟩ := owner_inj ho (hb.entry s' e' he) hc
  exact hn n s' (Or.inl h.attaching)

theorem Lands.attached (h : Lands b b' n s e r) (hb : b.Tidy) {m : CallId} {s' : SessionId}
    {e' : Entry} {p : Payload} (hm : b'.calls m = some (.attached s' e' (.ok p)))
    (he : b.entries s' = some e') : e'.client ∈ (b'.upstream e'.upstream).live := by
  rw [h.calls] at hm
  split_ifs at hm with hmn
  · obtain ⟨rfl, rfl, hr⟩ : s = s' ∧ e = e' ∧ r = .ok p := by simpa using hm
    exact h.landed p hr
  · refine h.stays _ _ (hb.attached m s' e' p hm he) fun hc => ?_
    have ho := hb.made n s e (Or.inl h.attaching)
    have hm' : b.Makes m s' e' := Or.inr ⟨_, hm⟩
    obtain ⟨rfl, rfl⟩ := owner_inj ho (hb.made m s' e' hm') hc
    exact hmn (hb.once m n s' s' e' hm' (Or.inl h.attaching))

end Lands

theorem attached_tidy {b : Backend} (hb : b.Tidy) {i : UpstreamId} {w : Upstream} {c : ClientId}
    {o : Origin} {r : Except String Payload}
    (hperm : (b.upstream i).roll.Perm ((c, o) :: w.roll))
    (hknows : ∀ x, w.Knows x → (b.upstream i).Knows x) (hout : w.outbox = [])
    (hlive : w.live = (b.upstream i).live ∧ c ∈ (b.upstream i).live ∨
      w.live = (b.upstream i).live.erase c ∧ ∀ p, r ≠ .ok p) :
    (b.run i (w.attachDone c o r)).Tidy := by
  obtain ⟨n, s, e, rfl, hcall, rfl, rfl⟩ :=
    hb.roll i c o (hperm.mem_iff.mpr List.mem_cons_self)
  have hrun : b.run e.upstream (w.attachDone e.client (.login n) r) =
      { b with
        upstream := Function.update b.upstream e.upstream { w with outbox := [] }
        calls := Function.update b.calls n (some (.attached s e r)) } := by
    change (w.outbox ++ [Delivery.attached n r]).foldl _ _ = _
    rw [hout]
    change (b.setUpstream e.upstream _).deliver e.upstream (.attached n r) = _
    simp only [deliver, setUpstream, hcall]
    rfl
  rw [hrun]
  have h := attached_lands hb hcall hperm hknows hlive
  refine
    { hb with
      drained := fun i => ?_
      unused := fun i hi => ?_
      numbered := fun m hm => ?_
      made := fun m s' e' hm => hb.made m s' e' (h.makes.mp hm)
      once := fun m m' s' s'' e' hm hm' =>
        hb.once m m' s' s'' e' (h.makes.mp hm) (h.makes.mp hm')
      known := fun i c hc => ?_
      roll := fun _ _ _ hc => h.on_roll hb hc
      rolls := h.rolls
      logged := fun _ hs => h.logged hb hs
      attached := fun _ _ _ _ hm he => h.attached hb hm he }
  · dsimp only
    rw [Function.update_apply]
    split_ifs
    · rfl
    · exact hb.drained i
  · exact Finset.subset_empty.mp ((h.live i).trans (hb.unused i hi).subset)
  · rw [h.calls] at hm
    split_ifs at hm with hmn
    · exact hb.numbered m (by rw [hmn, hcall]; simp)
    · exact hb.numbered m hm
  · obtain ⟨s', e', ho, hi, huse⟩ := hb.known i c (h.knows i c hc)
    exact ⟨s', e', ho, hi, huse.imp_right (Exists.imp fun m hm => h.makes.mpr hm)⟩

/-! ### The end of a login -/

theorem answer_makes (b : Backend) (n m : CallId) (result : Except String Reply) (s : SessionId)
    (e : Entry) : (b.answer n result).Makes m s e ↔ b.Makes m s e ∧ m ≠ n := by
  have hcalls : ∀ m, (b.answer n result).calls m = if m = n then none else b.calls m :=
    Function.update_apply _ _ _
  by_cases hm : m = n
  · subst hm
    simp [Makes, hcalls]
  · rw [Makes.of_calls (b := b) (by rw [hcalls, if_neg hm])]
    simp [hm]

/-- A login ends. -/
theorem answer_tidy {b : Backend} (hb : b.Tidy) {n : CallId} (result : Except String Reply)
    (hpending : ∀ s e, b.calls n ≠ some (.attaching s e))
    (hfree : ∀ s e, b.Makes n s e →
      b.entries s = some e ∨ ¬ (b.upstream e.upstream).Knows e.client) :
    (b.answer n result).Tidy := by
  have hcalls : ∀ m, (b.answer n result).calls m = if m = n then none else b.calls m :=
    Function.update_apply _ _ _
  have hmakes := fun m s e => answer_makes b n m result s e
  have hsome : ∀ m call, (b.answer n result).calls m = some call → b.calls m = some call := by
    intro m call hm
    rw [hcalls] at hm
    split_ifs at hm
    exact hm
  refine
    { hb with
      numbered := ?_, made := ?_, once := ?_, known := ?_, roll := ?_,
      logged := ?_, attached := ?_ }
  · intro m hm
    obtain ⟨call, hcall⟩ := Option.ne_none_iff_exists'.mp hm
    exact hb.numbered m (by rw [hsome m call hcall]; simp)
  · exact fun m s e hm => hb.made m s e ((hmakes m s e).mp hm).1
  · exact fun m m' s s' e hm hm' =>
      hb.once m m' s s' e ((hmakes m s e).mp hm).1 ((hmakes m' s' e).mp hm').1
  · intro i c hc
    obtain ⟨s, e, ho, hi, huse⟩ := hb.known i c hc
    refine ⟨s, e, ho, hi, ?_⟩
    rcases huse with huse | ⟨m, hm⟩
    · exact Or.inl huse
    · by_cases hmn : m = n
      · subst hmn
        rcases hfree s e hm with h | h
        · exact Or.inl h
        · rw [hi, (hb.owned c s e ho).1] at h
          exact absurd hc h
      · exact Or.inr ⟨m, (hmakes m s e).mpr ⟨hm, hmn⟩⟩
  · intro i c o hc
    obtain ⟨m, s, e, ho, hm, hci⟩ := hb.roll i c o hc
    refine ⟨m, s, e, ho, ?_, hci⟩
    rw [hcalls, if_neg, hm]
    rintro rfl
    exact hpending s e hm
  · intro s hs
    obtain ⟨e, he, hin, hn⟩ := hb.logged s hs
    exact ⟨e, he, hin, fun m s' hm => hn m s' ((hmakes m s' e).mp hm).1⟩
  · exact fun m s e p hm he => hb.attached m s e p (hsome m _ hm) he

end Backend

end NMiner
