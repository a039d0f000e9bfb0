import NMiner.Proofs.Counters

/-! No acknowledged share is lost or counted twice, as long as the primary finds the login a share
was submitted under: every share the worker has acknowledged is at one place, in a tally, in a
message on its way up, awaiting the pool's reply, or at the share sink; and whenever the primary
handles shares, the controller of their entry counts exactly those, and no other controller any. -/

namespace NMiner

open Transition

namespace Cluster

open Backend (Ages Sound)

/-- The shares that a message carries. -/
def carried : Up → List ℕ
  | .sub _ _ _ _ id => [id]
  | .acc tallies => tallies.flatMap fun p => p.2.ids
  | _ => []

def tallied (tallies : List (SessionId × Tally)) : List ℕ := tallies.flatMap fun p => p.2.ids

/-- The entry was made by the login that the share was submitted under. -/
def Credits (c : Cluster) (id : ℕ) (e : Entry) : Prop :=
  ∃ a, c.acked[id]? = some a ∧ c.asked e.login = some (a.session, a.login)

/-- The shares that controllers have been given to count, each with its entry and difficulty. -/
def counted (c : Cluster) : List (ℕ × Entry × ℤ) :=
  c.receipts.flatMap fun r => r.counted.map fun id => (id, r.entry, r.difficulty)

/-- The shares that have reached the share sink. -/
def reported (c : Cluster) : List (ℕ × Entry × ℤ) :=
  c.receipts.flatMap fun r => r.reported.map fun id => (id, r.entry, r.difficulty)

/-- The controllers have counted the shares of the receipt, to its entry and at its difficulty, and
no others; and the share sink has been given one output for each share, and no other. -/
structure Receipt.Exact (r : Receipt) : Prop where
  counters : r.after = r.entry.counting r.difficulty r.counted.length r.before
  sunk : r.sunk = List.replicate r.reported.length (r.session, r.entry, r.difficulty)

/-- Where the acknowledged shares are; `ids` are those of a message being handled. -/
structure Owing (c : Cluster) (ids : List ℕ) : Prop where
  sound : c.backend.Sound
  shares : (c.reported.map Prod.fst ++ c.waiting.map Prod.snd ++ ids ++
    (c.up.flatMap carried ++ tallied c.tallies)).Perm (List.range c.acked.length)
  handled : (c.counted.map Prod.fst).Perm (c.reported.map Prod.fst ++ c.waiting.map Prod.snd)
  exact : ∀ r ∈ c.receipts, Receipt.Exact r
  counts : ∀ p ∈ c.tallies, p.2.shares = p.2.ids.length
  sent : ∀ ts, Up.acc ts ∈ c.up → ∀ p ∈ ts, p.2.shares = p.2.ids.length
  asked : ∀ n, c.asked n ≠ none → n < c.backend.nextCall
  right : ∀ id e d, (id, e, d) ∈ c.counted → c.Credits id e
  same : ∀ x ∈ c.reported, x ∈ c.counted
  awaits : ∀ n id, (n, id) ∈ c.waiting → n < c.backend.nextCall ∧
    ∀ s e report pool stray, c.backend.calls n = some (.forwarding s e report pool stray) →
      (id, e, report.difficulty) ∈ c.counted
  once : (c.waiting.map Prod.fst).Nodup

theorem Credits.mono {c c' : Cluster} {id : ℕ} {e : Entry} (h : c.Credits id e)
    (hacked : ∃ as, c'.acked = c.acked ++ as)
    (hasked : ∀ n x, c.asked n = some x → c'.asked n = some x) : c'.Credits id e := by
  obtain ⟨a, ha, hlogin⟩ := h
  obtain ⟨as, has⟩ := hacked
  refine ⟨a, ?_, hasked _ _ hlogin⟩
  obtain ⟨hlt, -⟩ := List.getElem?_eq_some_iff.mp ha
  rw [has, List.getElem?_append_left hlt, ha]

/-! ### The worker -/

/-- A change at the worker: the shares it holds or has sent are the old ones and the newly
acknowledged ones. -/
theorem Owing.worker {c c' : Cluster} {ids : List ℕ} (fresh : List ℕ) (h : c.Owing ids)
    (hbackend : c'.backend = c.backend) (hasked : c'.asked = c.asked)
    (hreceipts : c'.receipts = c.receipts) (hwaiting : c'.waiting = c.waiting)
    (hacked : ∃ as, c'.acked = c.acked ++ as)
    (hrange : List.range c'.acked.length = List.range c.acked.length ++ fresh)
    (hshares : (c'.up.flatMap carried ++ tallied c'.tallies).Perm
      (c.up.flatMap carried ++ tallied c.tallies ++ fresh))
    (hcounts : ∀ p ∈ c'.tallies, p.2.shares = p.2.ids.length)
    (hsent : ∀ ts, Up.acc ts ∈ c'.up → ∀ p ∈ ts, p.2.shares = p.2.ids.length) : c'.Owing ids := by
  have hcredits : ∀ id e, c.Credits id e → c'.Credits id e := fun id e hc =>
    hc.mono hacked (by rw [hasked]; exact fun _ _ hx => hx)
  have hcounted : c'.counted = c.counted := by
    unfold counted
    rw [hreceipts]
  have hreported : c'.reported = c.reported := by
    unfold reported
    rw [hreceipts]
  refine ⟨hbackend ▸ h.sound, ?_, ?_, hreceipts ▸ h.exact, hcounts, hsent, ?_, ?_, ?_, ?_, ?_⟩
  · rw [hreported, hwaiting, hrange]
    refine (hshares.append_left _).trans ?_
    rw [← List.append_assoc]
    exact h.shares.append_right fresh
  · rw [hcounted, hreported, hwaiting]
    exact h.handled
  · rw [hasked, hbackend]
    exact h.asked
  · intro id e d hmem
    rw [hcounted] at hmem
    exact hcredits id e (h.right id e d hmem)
  · rw [hreported, hcounted]
    exact h.same
  · rw [hwaiting, hbackend, hcounted]
    exact h.awaits
  · rw [hwaiting]
    exact h.once

/-- A change that sends messages without shares, or nothing. -/
theorem Owing.quiet {c c' : Cluster} {ids : List ℕ} (h : c.Owing ids)
    (hbackend : c'.backend = c.backend) (hasked : c'.asked = c.asked)
    (hreceipts : c'.receipts = c.receipts) (hwaiting : c'.waiting = c.waiting)
    (hacked : c'.acked = c.acked) (htallies : c'.tallies = c.tallies)
    (hup : ∃ ms, c'.up = c.up ++ ms ∧ ∀ m ∈ ms, carried m = [] ∧ ∀ ts, m ≠ .acc ts) :
    c'.Owing ids := by
  obtain ⟨ms, hms, hall⟩ := hup
  refine Owing.worker [] h hbackend hasked hreceipts hwaiting ⟨[], by rw [hacked]; simp⟩
    (by rw [hacked]; simp) ?_ (htallies ▸ h.counts) ?_
  · have hnone : ms.flatMap carried = [] := List.flatMap_eq_nil_iff.mpr fun m hm => (hall m hm).1
    rw [hms, htallies, List.flatMap_append, hnone]
    simp
  · intro ts hts
    rw [hms] at hts
    rcases List.mem_append.mp hts with hts | hts
    · exact h.sent ts hts
    · exact absurd rfl ((hall _ hts).2 ts)

theorem call_owing {c : Cluster} (h : c.Owing []) (method : Method) (message : ℕ → Up)
    (hfree : carried (message c.seq) = [] ∧ ∀ ts, message c.seq ≠ .acc ts) :
    (c.call method message).Owing [] := by
  refine h.quiet rfl rfl rfl rfl rfl rfl ⟨[message c.seq], rfl, ?_⟩
  intro m hm
  rw [List.mem_singleton] at hm
  exact hm ▸ hfree

theorem flush_owing {c : Cluster} (h : c.Owing []) : c.flush.Owing [] := by
  unfold flush
  split_ifs
  · exact h
  · refine Owing.worker [] h rfl rfl rfl rfl ⟨[], by simp⟩ (by simp) ?_ (by simp) ?_
    · simp [tallied, carried]
    · intro ts hts
      rcases List.mem_append.mp hts with hts | hts
      · exact h.sent ts hts
      · rw [List.mem_singleton, Up.acc.injEq] at hts
        exact hts ▸ h.counts

theorem close_owing {c : Cluster} (h : c.Owing []) (s : SessionId) : (c.close s).Owing [] := by
  have key : ∀ c : Cluster, c.Owing [] → Owing { c with
      known := Function.update c.known s {}, heard := Function.update c.heard s [],
      sessions := c.sessions.erase s,
      gone := insert s c.gone, up := c.up ++ [.bye s] } [] := by
    intro c h
    refine h.quiet rfl rfl rfl rfl rfl rfl ⟨[.bye s], rfl, ?_⟩
    intro m hm
    rw [List.mem_singleton] at hm
    rw [hm]
    exact ⟨rfl, by simp⟩
  unfold close
  dsimp only
  split_ifs
  · exact key _ (flush_owing h)
  · exact key _ h

theorem addTally_shares (s : SessionId) (difficulty actual id : ℕ)
    (ts : List (SessionId × Tally)) :
    (tallied (addTally s difficulty actual id ts)).Perm (tallied ts ++ [id]) := by
  induction ts with
  | nil => exact .refl _
  | cons p ts ih =>
    obtain ⟨s', t⟩ := p
    unfold addTally
    split_ifs
    · -- the share comes before those of the later sessions
      have hswap : ([id] ++ tallied ts).Perm (tallied ts ++ [id]) := List.perm_append_comm
      simpa [tallied] using hswap.append_left t.ids
    · simpa [tallied] using ih.append_left t.ids

theorem addTally_counts {s : SessionId} {difficulty actual id : ℕ} {ts : List (SessionId × Tally)}
    (h : ∀ p ∈ ts, p.2.shares = p.2.ids.length) :
    ∀ p ∈ addTally s difficulty actual id ts, p.2.shares = p.2.ids.length := by
  induction ts with
  | nil =>
    intro p hp
    rw [List.mem_singleton.mp hp]
    rfl
  | cons q ts ih =>
    obtain ⟨s', t⟩ := q
    have ht : t.shares = t.ids.length := h (s', t) List.mem_cons_self
    have hrest := ih fun p hp => h p (List.mem_cons_of_mem _ hp)
    unfold addTally
    split_ifs
    · intro p hp
      rcases List.mem_cons.mp hp with rfl | hp
      · simp [ht]
      · exact h p (List.mem_cons_of_mem _ hp)
    · intro p hp
      rcases List.mem_cons.mp hp with rfl | hp
      · exact ht
      · exact hrest p hp

theorem submit_owing {c : Cluster} (h : c.Owing []) (s : SessionId) (login : ℕ)
    (job_id nonce result : String) : (c.submit s login job_id nonce result).Owing [] := by
  have hknown : ∀ known, Owing { c with known := Function.update c.known s known } [] :=
    fun known => h.quiet rfl rfl rfl rfl rfl rfl ⟨[], by simp, by simp⟩
  unfold submit
  rcases (c.known s).submit job_id nonce result with ⟨decision, known⟩
  cases decision with
  | delegated => exact call_owing (hknown known) _ _ ⟨rfl, by simp⟩
  | denied reason => exact hknown known
  | thrown => exact hknown known
  | absorbed difficulty =>
    refine Owing.worker [c.acked.length] h rfl rfl rfl rfl ⟨_, rfl⟩ ?_ ?_
      (addTally_counts h.counts) h.sent
    · simp [List.range_succ]
    · rw [List.append_assoc]
      exact (addTally_shares ..).append_left _
  | forwarded =>
    refine Owing.worker [c.acked.length] h rfl rfl rfl rfl ⟨_, rfl⟩ ?_ ?_ h.counts ?_
    · simp [List.range_succ]
    · have hswap : ([c.acked.length] ++ tallied c.tallies).Perm
          (tallied c.tallies ++ [c.acked.length]) := List.perm_append_comm
      simpa [carried] using hswap.append_left (c.up.flatMap carried)
    · intro ts hts
      rcases List.mem_append.mp hts with hts | hts
      · exact h.sent ts hts
      · simp at hts

theorem hear_owing {c : Cluster} (h : c.Owing []) (m : Down) : (c.hear m).Owing [] := by
  have hlearn : ∀ (c : Cluster) s m, c.Owing [] → (c.learn s m).Owing [] :=
    fun c s m h => h.quiet rfl rfl rfl rfl rfl rfl ⟨[], by simp [learn], by simp⟩
  cases m with
  | reply i s result =>
    simp only [hear]
    cases c.pending i with
    | none => exact h
    | some method =>
      have hpending : Owing { c with pending := Function.update c.pending i none } [] :=
        h.quiet rfl rfl rfl rfl rfl rfl ⟨[], by simp, by simp⟩
      cases result with
      | error message => exact hpending
      | ok reply =>
        have hknown := hlearn _ s (lesson reply) hpending
        dsimp only
        split_ifs
        · exact hknown.quiet rfl rfl rfl rfl rfl rfl ⟨[], by simp, by simp⟩
        · exact hknown
  | job s payload =>
    simp only [hear]
    split_ifs
    · exact hlearn c s _ h
    · exact h
  | kill s message => exact h

/-! ### The primary -/

/-- The backend goes on. -/
theorem Owing.advance {c : Cluster} {ids : List ℕ} (h : c.Owing ids) {b : Backend} (hb : b.Sound)
    (hages : Ages c.backend.nextCall c.backend b) : Owing { c with backend := b } ids := by
  refine ⟨hb, h.shares, h.handled, h.exact, h.counts, h.sent, ?_, h.right, h.same, ?_, h.once⟩
  · exact fun n hn => (h.asked n hn).trans_le hages.nextCall
  · intro n id hmem
    obtain ⟨hlt, hcall⟩ := h.awaits n id hmem
    refine ⟨hlt.trans_le hages.nextCall, fun s e report pool stray hc => ?_⟩
    exact hcall s e report pool stray (hages.forwarding n hlt s e report pool stray hc)

/-- The backend has handled shares of the entry `e`: the controller has counted `counted`, the share
sink has been given `reported`, and `waiting` now await the pool's reply. -/
theorem Owing.credit {c : Cluster} {ids rest counted reported : List ℕ}
    {waiting : List (CallId × ℕ)}
    (h : c.Owing ids) {b : Backend} (hb : b.Sound) (hages : Ages c.backend.nextCall c.backend b)
    {s : SessionId} {e : Entry} {d : ℤ}
    (hcounters : b.counters = e.counting d counted.length c.backend.counters)
    (hsunk : sunk (b.outbox.drop c.backend.outbox.length) =
      List.replicate reported.length (s, e, d))
    (hshares : (reported ++ waiting.map Prod.snd ++ rest).Perm (c.waiting.map Prod.snd ++ ids))
    (hhandled : (counted ++ c.waiting.map Prod.snd).Perm (reported ++ waiting.map Prod.snd))
    (hright : ∀ id ∈ counted, c.Credits id e)
    (hsame : ∀ id ∈ reported, id ∈ counted ∨ (id, e, d) ∈ c.counted)
    (hawaits : ∀ p ∈ waiting, p ∈ c.waiting ∨ p.2 ∈ counted ∧ p.1 < b.nextCall ∧
      ∀ s' e' report pool stray, b.calls p.1 = some (.forwarding s' e' report pool stray) →
        e' = e ∧ report.difficulty = d)
    (honce : (waiting.map Prod.fst).Nodup) :
    Owing { c.credit b s (some e) (fun _ => d) counted reported with waiting := waiting } rest := by
  have hgo := h.advance hb hages
  have hcounted : Cluster.counted { c.credit b s (some e) (fun _ => d) counted reported with
      waiting := waiting } = c.counted ++ counted.map fun id => (id, e, d) := by
    simp [Cluster.counted, Cluster.credit]
  have hreported : Cluster.reported { c.credit b s (some e) (fun _ => d) counted reported with
      waiting := waiting } = c.reported ++ reported.map fun id => (id, e, d) := by
    simp [Cluster.reported, Cluster.credit]
  have hids : ∀ l : List ℕ, (l.map fun id => (id, e, d)).map Prod.fst = l := by
    intro l
    simp [Function.comp_def]
  refine ⟨hgo.sound, ?_, ?_, ?_, hgo.counts, hgo.sent, hgo.asked, ?_, ?_, ?_, honce⟩
  · rw [hreported, List.map_append, hids]
    refine List.Perm.trans ?_ h.shares
    refine List.Perm.append_right _ ?_
    have hall := hshares.append_left (c.reported.map Prod.fst)
    simpa only [List.append_assoc] using hall
  · rw [hcounted, hreported, List.map_append, List.map_append, hids, hids]
    refine (h.handled.append_right counted).trans ?_
    have hall := (List.perm_append_comm.trans hhandled).append_left (c.reported.map Prod.fst)
    simpa only [List.append_assoc] using hall
  · intro r hr
    rcases List.mem_append.mp hr with hr | hr
    · exact h.exact r hr
    · obtain rfl := List.mem_singleton.mp hr
      exact ⟨hcounters, hsunk⟩
  · intro id e' d' hmem
    rw [hcounted] at hmem
    rcases List.mem_append.mp hmem with hmem | hmem
    · exact h.right id e' d' hmem
    · obtain ⟨id', hid, heq⟩ := List.mem_map.mp hmem
      obtain ⟨rfl, rfl, rfl⟩ := heq
      exact hright _ hid
  · rw [hreported, hcounted]
    intro x hx
    rcases List.mem_append.mp hx with hx | hx
    · exact List.mem_append_left _ (h.same x hx)
    · obtain ⟨id, hid, rfl⟩ := List.mem_map.mp hx
      rcases hsame id hid with hnew | hold
      · exact List.mem_append_right _ (List.mem_map_of_mem hnew)
      · exact List.mem_append_left _ hold
  · intro n id hmem
    rw [hcounted]
    rcases hawaits (n, id) hmem with hold | ⟨hid, hlt, hcall⟩
    · obtain ⟨hlt, hcall⟩ := hgo.awaits n id hold
      exact ⟨hlt, fun s' e' report pool stray hc =>
        List.mem_append_left _ (hcall s' e' report pool stray hc)⟩
    · refine ⟨hlt, fun s' e' report pool stray hc => ?_⟩
      obtain ⟨rfl, hd⟩ := hcall s' e' report pool stray hc
      rw [hd]
      exact List.mem_append_right _ (List.mem_map_of_mem hid)

/-- A message with a call is handled: the call that answers it is the next one. -/
theorem Owing.ask {c : Cluster} {ids : List ℕ} (h : c.Owing ids) (s : SessionId) (i : ℕ)
    {b : Backend} (hb : b.Sound)
    (hages : Ages c.backend.nextCall { c.backend with nextCall := c.backend.nextCall + 1 } b) :
    Owing { c.ask s i with backend := b } ids := by
  have hfresh : c.asked c.backend.nextCall = none := by
    by_contra hne
    exact absurd (h.asked _ hne) (lt_irrefl _)
  have hasked : ∀ n x, c.asked n = some x → (c.ask s i).asked n = some x := by
    intro n x hx
    refine (Function.update_of_ne ?_ _ _).trans hx
    rintro rfl
    rw [hfresh] at hx
    exact absurd hx (by simp)
  have hcredits : ∀ id e, c.Credits id e → Credits { c.ask s i with backend := b } id e :=
    fun id e hc => hc.mono ⟨[], (List.append_nil _).symm⟩ hasked
  have hall : Ages c.backend.nextCall c.backend b := (Backend.next_ages _).trans hages
  refine ⟨hb, h.shares, h.handled, h.exact, h.counts, h.sent, ?_, ?_, h.same, ?_, h.once⟩
  · intro n hn
    change Function.update c.asked c.backend.nextCall (some (s, i)) n ≠ none at hn
    refine lt_of_lt_of_le ?_ hages.nextCall
    by_cases hnn : n = c.backend.nextCall
    · exact hnn ▸ Nat.lt_succ_self _
    · rw [Function.update_of_ne hnn] at hn
      exact Nat.lt_succ_of_lt (h.asked n hn)
  · exact fun id e d hmem => hcredits id e (h.right id e d hmem)
  · intro n id hmem
    obtain ⟨hlt, hcall⟩ := h.awaits n id hmem
    refine ⟨hlt.trans_le hall.nextCall, fun s e report pool stray hc => ?_⟩
    exact hcall s e report pool stray (hall.forwarding n hlt s e report pool stray hc)

theorem pump_owing {c : Cluster} {ids : List ℕ} (h : c.Owing ids) : c.pump.Owing ids :=
  ⟨h.sound.of_upstream rfl, h.shares, h.handled, h.exact, h.counts,
    h.sent, h.asked, h.right, h.same,
    h.awaits, h.once⟩

/-- The hub knows the session, whose entry was made by the login of these shares. -/
def holds (c : Cluster) (s : SessionId) (ids : List ℕ) : Bool :=
  s ∈ c.hub && match c.backend.entries s with
    | some e => ids.all fun id => match c.acked[id]? with
      | some a => c.asked e.login = some (a.session, a.login)
      | none => false
    | none => false

/-- The condition on a message: the hub knows each session with shares in it, the session's entry
was made by the login under which the shares were submitted, and a share for the pool passes the
checks of `LocalBackend.submit`. -/
def fits (c : Cluster) : Up → Bool
  | .acc tallies => tallies.all fun p => c.holds p.1 p.2.ids
  | .sub s _ nonce result id => c.holds s [id] && match c.backend.entries s with
    | some e => c.backend.passes e nonce result
    | none => false
  | _ => true

theorem holds_spec {c : Cluster} {s : SessionId} {ids : List ℕ} (h : c.holds s ids = true) :
    s ∈ c.hub ∧ ∃ e, c.backend.entries s = some e ∧ ∀ id ∈ ids, c.Credits id e := by
  obtain ⟨hhub, h⟩ := (Bool.and_eq_true _ _).mp h
  refine ⟨of_decide_eq_true hhub, ?_⟩
  cases he : c.backend.entries s with
  | none => simp [he] at h
  | some e =>
    rw [he] at h
    refine ⟨e, rfl, fun id hid => ?_⟩
    have hid := List.all_eq_true.mp h id hid
    cases ha : c.acked[id]? with
    | none => simp [ha] at hid
    | some a =>
      rw [ha] at hid
      exact ⟨a, ha, of_decide_eq_true hid⟩

theorem sunk_replicate (n : ℕ) (s : SessionId) (e : Entry) (r : ShareReport) :
    sunk (List.replicate n (.share s e r)) = List.replicate n (s, e, r.difficulty) := by
  induction n with
  | zero => rfl
  | succ n ih =>
    rw [List.replicate_succ, List.replicate_succ, ← ih]
    rfl

theorem account_owing {c : Cluster} {p : SessionId × Tally} {rest : List ℕ}
    (h : c.Owing (p.2.ids ++ rest)) (hfits : c.holds p.1 p.2.ids = true)
    (hcount : p.2.shares = p.2.ids.length) : (c.account p).Owing rest := by
  obtain ⟨hhub, e, he, hcredits⟩ := holds_spec hfits
  obtain ⟨r, hr, hout⟩ := Backend.account_outbox h.sound he p.2.shares p.2.work p.2.actual
  have hcounters := Backend.account_counters he p.2.shares p.2.work p.2.actual
  unfold account
  rw [if_pos hhub, he]
  refine h.credit (Backend.account_sound h.sound ..) (Backend.account_ages ..) ?_ ?_ ?_ ?_ hcredits
    (fun id hid => Or.inl hid) (fun q hq => Or.inl hq) h.once
  · rw [← hcount]
    exact hcounters
  · rw [hout, List.drop_left, sunk_replicate, hr, hcount]
  · have hswap : (p.2.ids ++ c.waiting.map Prod.snd).Perm (c.waiting.map Prod.snd ++ p.2.ids) :=
      List.perm_append_comm
    simpa only [List.append_assoc] using hswap.append_right rest
  · exact .refl _

/-- Accounting one tally leaves the condition on the others alone. -/
theorem account_holds {c : Cluster} (hc : c.backend.Sound) (p : SessionId × Tally) (s : SessionId)
    (ids : List ℕ) : (c.account p).holds s ids = c.holds s ids := by
  unfold account
  split_ifs
  · have hentries := (Backend.account_quiet hc.drained p.1 p.2.shares p.2.work p.2.actual).entries
    unfold holds credit
    dsimp only
    rw [hentries]
  · rfl

theorem accounts_owing {ts : List (SessionId × Tally)} {c : Cluster} (h : c.Owing (tallied ts))
    (hfits : ∀ p ∈ ts, c.holds p.1 p.2.ids = true)
    (hcounts : ∀ p ∈ ts, p.2.shares = p.2.ids.length) : (ts.foldl account c).Owing [] := by
  induction ts generalizing c with
  | nil => exact h
  | cons p ts ih =>
    have hp := account_owing h (hfits p List.mem_cons_self) (hcounts p List.mem_cons_self)
    refine ih hp ?_ fun q hq => hcounts q (List.mem_cons_of_mem _ hq)
    intro q hq
    rw [account_holds h.sound]
    exact hfits q (List.mem_cons_of_mem _ hq)

/-- The oldest message of the worker is taken off the channel. -/
theorem Owing.receive {c : Cluster} {m : Up} {ms : List Up} (h : c.Owing [])
    (hup : c.up = m :: ms) :
    Owing { c with up := ms } (carried m) := by
  refine ⟨h.sound, ?_, h.handled, h.exact, h.counts, ?_, h.asked, h.right, h.same, h.awaits, h.once⟩
  · have hshares := h.shares
    rw [hup, List.flatMap_cons] at hshares
    change (c.reported.map Prod.fst ++ c.waiting.map Prod.snd ++ carried m ++
      (ms.flatMap carried ++ tallied c.tallies)).Perm (List.range c.acked.length)
    simpa only [List.append_nil, List.append_assoc] using hshares
  · intro ts hts
    refine h.sent ts ?_
    rw [hup]
    exact List.mem_cons_of_mem _ hts

theorem login_owing {c : Cluster} {i : ℕ} {s : SessionId} {address : String} {threads : Option ℚ}
    (h : c.Owing []) : (c.handle (.login i s address threads)).Owing [] := by
  have hdrop := Backend.drop_sound h.sound s
  have hages : Ages c.backend.nextCall c.backend (c.backend.drop s) := Backend.drop_ages ..
  refine h.ask s i (hdrop.of_upstream rfl) ⟨Nat.succ_le_succ hages.nextCall, ?_⟩
  exact (Backend.login_ages (m := c.backend.nextCall) c.backend s address threads).forwarding

/-- A share for the pool is put out at once, or awaits the pool's reply. -/
theorem sub_owing {c : Cluster} {s : SessionId} {job_id nonce result : String} {id : ℕ}
    (h : c.Owing [id]) (hfits : c.fits (.sub s job_id nonce result id) = true) :
    (c.handle (.sub s job_id nonce result id)).Owing [] := by
  obtain ⟨hholds, hpasses⟩ := (Bool.and_eq_true _ _).mp hfits
  obtain ⟨hhub, e, he, hcredits⟩ := holds_spec hholds
  rw [he] at hpasses
  have hcredit : c.Credits id e := hcredits id (List.mem_singleton_self id)
  have hsound := Backend.submit_sound h.sound s job_id nonce result
  have hlater :=
    Backend.submit_ages (m := c.backend.nextCall) c.backend le_rfl s job_id nonce result
  have hages := (Backend.next_ages (m := c.backend.nextCall) c.backend).trans hlater
  obtain ⟨d, hd, hout⟩ :=
    Backend.submit_outbox h.sound he job_id (Backend.accepts_of_passes hpasses)
  have hcounters := Backend.submit_counting he job_id hd
  simp only [handle]
  rw [if_pos hhub, he]
  generalize c.backend.submit s job_id nonce result = b at hsound hlater hages hout hcounters
  have hcase : ∀ reported waiting, Owing { c.credit b s (some e) (fun _ => ((d : ℕ) : ℤ)) [id]
      reported with waiting := waiting } [] → Owing { c.credit b s (some e) (fun e =>
        ((c.backend.decide e nonce result).1.credit.getD 0 : ℕ)) [id] reported with
          waiting := waiting } [] := by
    intro reported waiting hcase
    simpa only [credit, Option.map_some, hd, Option.getD_some] using hcase
  apply hcase
  rcases hout with ⟨⟨r, reply, hr, hout⟩, hcall⟩ | ⟨l, report, pool, stray, hr, hout, hcall⟩
  · have hidle : awaits b c.backend.nextCall = false := by
      unfold awaits
      rw [hcall]
    rw [hidle]
    refine h.credit hsound hages (by simpa using hcounters) ?_ ?_ (.refl _) ?_
      (fun i hi => Or.inl hi) (fun q hq => Or.inl hq) h.once
    · rw [hout, List.drop_left, ← hr]
      rfl
    · simpa using @List.perm_append_comm _ [id] _
    · exact fun i hi => List.mem_singleton.mp hi ▸ hcredit
  · have hwaits : awaits b c.backend.nextCall = true := by
      unfold awaits
      rw [hcall]
    have hnew : c.backend.nextCall ∉ c.waiting.map Prod.fst := by
      intro hmem
      obtain ⟨p, hp, hpn⟩ := List.mem_map.mp hmem
      have hlt := (h.awaits p.1 p.2 hp).1
      exact absurd hlt (hpn ▸ lt_irrefl _)
    rw [hwaits]
    refine h.credit hsound hages (by simpa using hcounters) ?_ ?_ ?_ ?_ ?_ ?_ ?_
    · rw [hout, List.drop_left]
      rfl
    · simp
    · simpa using @List.perm_append_comm _ [id] _
    · exact fun i hi => List.mem_singleton.mp hi ▸ hcredit
    · exact fun i hi => absurd hi List.not_mem_nil
    · intro p hp
      rcases List.mem_append.mp hp with hp | hp
      · exact Or.inl hp
      · obtain rfl := List.mem_singleton.mp hp
        refine Or.inr ⟨List.mem_singleton_self id, hlater.nextCall, fun s' e' r' p' t' hc => ?_⟩
        dsimp only at hc
        rw [hcall, Option.some.injEq, Call.forwarding.injEq] at hc
        exact ⟨hc.2.1.symm, hc.2.2.1 ▸ hr⟩
    · rw [if_pos rfl, List.map_append]
      exact List.Nodup.append h.once (List.nodup_singleton _) (List.disjoint_singleton.mpr hnew)

theorem handle_owing {c : Cluster} {m : Up} (h : c.Owing (carried m)) (hfits : c.fits m = true)
    (hcounts : ∀ ts, m = .acc ts → ∀ p ∈ ts, p.2.shares = p.2.ids.length) :
    (c.handle m).Owing [] := by
  cases m with
  | acc ts => exact accounts_owing h (List.all_eq_true.mp hfits) (hcounts ts rfl)
  | sub s job_id nonce result id => exact sub_owing h hfits
  | login i s address threads => exact login_owing h
  | chunk i s job_id hashrate =>
    exact h.ask s i (Backend.chunk_sound h.sound ..) (Backend.chunk_ages ..)
  | submit i s job_id nonce result =>
    exact h.ask s i (Backend.submit_sound h.sound ..) (Backend.submit_ages _ le_rfl ..)
  | bye s =>
    simp only [handle]
    split_ifs
    · have hsound : (c.backend.close s).Sound := (Backend.drop_sound h.sound s).of_upstream rfl
      have hclose := h.advance hsound (Backend.close_ages c.backend s)
      exact ⟨hclose.sound, hclose.shares, hclose.handled, hclose.exact, hclose.counts, hclose.sent,
        hclose.asked, hclose.right, hclose.same, hclose.awaits, hclose.once⟩
    · exact h

/-- At most one share awaits the reply to a call. -/
theorem Owing.filter_le_one {c : Cluster} {ids : List ℕ} (h : c.Owing ids) (n : CallId) :
    (c.waiting.filter fun p => p.1 = n).length ≤ 1 := by
  have hsub : ((c.waiting.filter fun p => p.1 = n).map Prod.fst).Sublist (c.waiting.map Prod.fst) :=
    List.filter_sublist.map _
  have hsame : (c.waiting.filter fun p => p.1 = n).map Prod.fst =
      List.replicate (c.waiting.filter fun p => p.1 = n).length n := by
    refine List.eq_replicate_iff.mpr ⟨List.length_map _, fun k hk => ?_⟩
    obtain ⟨p, hp, rfl⟩ := List.mem_map.mp hk
    exact of_decide_eq_true (List.mem_filter.mp hp).2
  have hnodup := h.once.sublist hsub
  rw [hsame] at hnodup
  exact List.nodup_replicate.mp hnodup

/-- The pool's reply brings the share to the share sink, and no controller counts it again. -/
theorem reply_owing {c : Cluster} {n : CallId} {outcome : Except String Bool} {s : SessionId}
    {e : Entry} {report : ShareReport} {pool : ℕ} {stray : Bool} (h : c.Owing [])
    (hcall : c.backend.calls n = some (.forwarding s e report pool stray)) :
    (c.go (.poolReply n outcome)
      (c.backend.poolReply n s e report pool stray outcome)).Owing [] := by
  obtain ⟨r, reply, hr, hout⟩ :=
    Backend.poolReply_outbox h.sound n s e report pool stray outcome
  have hsound := Backend.poolReply_sound h.sound n s e report pool stray outcome
  have hages := Backend.poolReply_ages (m := c.backend.nextCall) c.backend n s e report pool stray
    outcome
  have hcounters := Backend.poolReply_counters c.backend n s e report pool stray outcome
  have hone := h.filter_le_one n
  have hsub : (c.waiting.filter fun p => p.1 ≠ n).Sublist c.waiting := List.filter_sublist
  have hsplit : ((c.waiting.filter fun p => p.1 = n).map Prod.snd ++
      (c.waiting.filter fun p => p.1 ≠ n).map Prod.snd).Perm (c.waiting.map Prod.snd) := by
    have hperm := (List.filter_append_perm (fun p : CallId × ℕ => p.1 = n) c.waiting).map Prod.snd
    simpa only [List.map_append, decide_not] using hperm
  simp only [go, hcall]
  generalize c.backend.poolReply n s e report pool stray outcome = b at hout hsound hages hcounters
  by_cases hids : (c.waiting.filter fun p => p.1 = n).map Prod.snd = []
  · -- another caller's share
    have hall : (c.waiting.filter fun p => p.1 ≠ n) = c.waiting := by
      refine List.filter_eq_self.mpr fun p hp => decide_eq_true fun hpn => ?_
      have hmem : p ∈ c.waiting.filter fun p => p.1 = n :=
        List.mem_filter.mpr ⟨hp, decide_eq_true hpn⟩
      rw [List.map_eq_nil_iff.mp hids] at hmem
      exact absurd hmem List.not_mem_nil
    rw [if_pos hids, hids, hall]
    simpa [credit] using h.advance hsound hages
  · have hlen : ((c.waiting.filter fun p => p.1 = n).map Prod.snd).length = 1 := by
      have hpos := List.length_pos_of_ne_nil hids
      rw [List.length_map] at hpos ⊢
      omega
    rw [if_neg hids]
    refine h.credit hsound hages ?_ ?_ ?_ hsplit.symm ?_ ?_ ?_ (h.once.sublist (hsub.map _))
    · rw [hcounters, List.length_nil, Entry.counting_zero]
    · rw [hlen, hout, List.drop_left, ← hr]
      rfl
    · simpa using hsplit
    · exact fun id hid => absurd hid List.not_mem_nil
    · intro id hid
      obtain ⟨⟨k, id'⟩, hp, rfl⟩ := List.mem_map.mp hid
      obtain ⟨hwaiting, hk⟩ := List.mem_filter.mp hp
      obtain rfl : k = n := of_decide_eq_true hk
      exact Or.inr ((h.awaits k id' hwaiting).2 s e report pool stray hcall)
    · exact fun p hp => Or.inl (hsub.subset hp)

theorem go_owing {c : Cluster} {a : Backend.Action} {b : Backend} (h : c.Owing [])
    (hstep : c.backend.step a = some b) : (c.go a b).Owing [] := by
  have hadvance : Owing { c with backend := b } [] :=
    h.advance (Backend.step_sound c.backend a b h.sound hstep) (Backend.step_ages le_rfl hstep)
  cases Backend.step_fires hstep with
  | poolReply hcall outcome => exact reply_owing h hcall
  | _ => exact hadvance

/-! ### Runs -/

/-- The condition on a step. -/
def sees (c : Cluster) : Action → Bool
  | .handle => c.up.head?.all c.fits
  | _ => true

theorem start_owing (own : SessionId → Bool) (maxLinks idleTimeout : ℕ) (expand : Bool) (now : ℕ) :
    (start own maxLinks idleTimeout expand now).Owing [] := by
  have hrun : exec Backend.step (Backend.start maxLinks idleTimeout expand now) [] = some _ := rfl
  have hsound := Backend.exec_sound hrun
  refine ⟨hsound, .refl _, .refl _, ?_, ?_, ?_, ?_, ?_, ?_, ?_, List.nodup_nil⟩ <;>
    simp [start, counted, reported]

theorem step_owing (c : Cluster) (a : Action) (c' : Cluster) (h : c.Owing [])
    (hsees : c.sees a = true) (hstep : c.step a = some c') : c'.Owing [] := by
  cases step_fires hstep with
  | login s address threads _ _ =>
    have hcall := call_owing h .login (fun i => .login i s address threads) ⟨rfl, by simp⟩
    exact hcall.quiet rfl rfl rfl rfl rfl rfl ⟨[], by simp, by simp⟩
  | chunk s job_id hashrate _ _ => exact call_owing h .chunk _ ⟨rfl, by simp⟩
  | submit job_id nonce result _ _ => exact submit_owing h _ _ job_id nonce result
  | flush => exact flush_owing h
  | close s _ => exact close_owing h s
  | @hear m ms _ =>
    have hdown : Owing { c with down := ms } [] :=
      h.quiet rfl rfl rfl rfl rfl rfl ⟨[], by simp, by simp⟩
    exact hear_owing hdown m
  | expire i _ => exact h.quiet rfl rfl rfl rfl rfl rfl ⟨[], by simp, by simp⟩
  | @handle m ms hup =>
    have hfits : c.fits m = true := by
      unfold sees at hsees
      rwa [hup] at hsees
    have hcounts : ∀ ts, m = .acc ts → ∀ p ∈ ts, p.2.shares = p.2.ids.length := by
      intro ts hts
      refine h.sent ts ?_
      rw [hup, hts]
      exact List.mem_cons_self
    exact pump_owing (handle_owing (h.receive hup) hfits hcounts)
  | backend _ hb => exact pump_owing (go_owing h hb)

/-- Everything has been delivered and flushed, and the pool has answered. -/
structure Settled (c : Cluster) : Prop where
  up : c.up = []
  down : c.down = []
  tallies : c.tallies = []
  waiting : c.waiting = []

/-- Whenever the primary has handled shares, the controller of their entry has counted each of them
and nothing else; and each acknowledged share has been counted once and has reached the share sink
once, for the same entry and at the same difficulty, and the entry was made by the login that the
share was submitted under. -/
def AccountedOnce (c : Cluster) : Prop :=
  (∀ r ∈ c.receipts, Receipt.Exact r) ∧
    ∀ id a, c.acked[id]? = some a → ∃ e d,
      (c.counted.filter fun p => p.1 = id) = [(id, e, d)] ∧
        (c.reported.filter fun p => p.1 = id) = [(id, e, d)] ∧
          c.asked e.login = some (a.session, a.login)

/-- A share that occurs once among the first components occurs once. -/
theorem filter_of_perm_range {ps : List (ℕ × Entry × ℤ)} {n id : ℕ} (hlt : id < n)
    (hperm : (ps.map Prod.fst).Perm (List.range n)) :
    ∃ e d, (ps.filter fun p => p.1 = id) = [(id, e, d)] ∧ (id, e, d) ∈ ps := by
  have hone : (ps.filter fun p => p.1 = id).length = 1 := by
    have hcount := hperm.count_eq id
    rw [List.count_eq_one_of_mem List.nodup_range (List.mem_range.mpr hlt), List.count,
      List.countP_map, List.countP_eq_length_filter] at hcount
    exact hcount
  obtain ⟨⟨id', e, d⟩, hp⟩ := List.length_eq_one_iff.mp hone
  have hmem : (id', e, d) ∈ ps.filter fun p => p.1 = id := hp ▸ List.mem_singleton_self _
  obtain ⟨hps, hid⟩ := List.mem_filter.mp hmem
  obtain rfl : id' = id := of_decide_eq_true hid
  exact ⟨e, d, hp, hps⟩

theorem Owing.accounted_once {c : Cluster} (h : c.Owing []) (hsettled : c.Settled) :
    c.AccountedOnce := by
  refine ⟨h.exact, fun id a ha => ?_⟩
  obtain ⟨hlt, -⟩ := List.getElem?_eq_some_iff.mp ha
  have hreported : (c.reported.map Prod.fst).Perm (List.range c.acked.length) := by
    have hshares := h.shares
    rw [hsettled.up, hsettled.tallies, hsettled.waiting] at hshares
    simpa [tallied] using hshares
  have hcounted : (c.counted.map Prod.fst).Perm (List.range c.acked.length) := by
    have hhandled := h.handled
    rw [hsettled.waiting, List.map_nil, List.append_nil] at hhandled
    exact hhandled.trans hreported
  obtain ⟨e, d, hone, hmem⟩ := filter_of_perm_range hlt hcounted
  obtain ⟨e', d', hone', hmem'⟩ := filter_of_perm_range hlt hreported
  -- what has reached the sink has been counted, and only one share with the number has
  have hsame : (id, e', d') ∈ c.counted.filter fun p => p.1 = id :=
    List.mem_filter.mpr ⟨h.same _ hmem', decide_eq_true rfl⟩
  rw [hone, List.mem_singleton] at hsame
  obtain ⟨a', ha', hlogin⟩ := h.right id e d hmem
  rw [ha, Option.some.injEq] at ha'
  exact ⟨e, d, hone, hsame ▸ hone', ha' ▸ hlogin⟩

/-- As long as each message with shares finds the login they were submitted under, and a share for
the pool passes the primary's checks, every acknowledged share is accounted once. -/
theorem acknowledged_accounted (own : SessionId → Bool) (maxLinks idleTimeout : ℕ)
    (expand : Bool) (now : ℕ)
    (actions : List Action) (c : Cluster)
    (hsees : Meets step (fun c a => c.sees a = true)
      (start own maxLinks idleTimeout expand now) actions)
    (hrun : exec step (start own maxLinks idleTimeout expand now) actions = some c)
    (hsettled : c.Settled) : c.AccountedOnce :=
  (exec_invariant step_owing (start_owing own maxLinks idleTimeout expand now)
    hsees hrun).accounted_once hsettled

/-- A miner logs in and finds a share below the pool's target, which the worker tallies. -/
def tallying : List Action :=
  [.login 0 "a" none, .handle, .backend (.resolved 0 (.ok Backend.wallet)),
    .backend (.upstream 0 (.dialed 0 (.ok ()))),
    .backend (.upstream 0 (.loggedIn 0 (.ok Upstream.plainJob))),
    .backend (.upstream 0 (.resume 0)), .backend (.upstream 0 (.resume 0)), .backend (.settle 0),
    .hear, .submit 0 "1" "05000000" (Backend.hashOf "0000000000000100")]

/-- The tally is flushed, and the miner solves a block. -/
def solving : List Action :=
  tallying ++ [.flush, .handle, .submit 0 "1" "06000000" (Backend.hashOf "0100000000000000"),
    .handle, .backend (.poolReply 1 (.ok true))]

/-- The miner logs in again before the flush. -/
def relogging : List Action :=
  tallying ++ [.login 0 "b" none, .handle, .flush, .handle,
    .backend (.resolved 1 (.ok Backend.wallet)), .backend (.upstream 0 (.resume 0)),
    .backend (.settle 1), .hear]

/-- What has become of the shares, and whether anything is under way. -/
def tally (c : Cluster) : List Acked × List ℕ × Bool :=
  (c.acked, c.reported.map Prod.fst,
    c.up.isEmpty && c.down.isEmpty && c.tallies.isEmpty && c.waiting.isEmpty)

theorem settled_of_tally {c : Cluster} {acked : List Acked} {ids : List ℕ}
    (h : c.tally = (acked, ids, true)) : c.acked = acked ∧
      c.reported.map Prod.fst = ids ∧ c.Settled := by
  simp only [tally, Prod.mk.injEq, Bool.and_eq_true, List.isEmpty_iff] at h
  obtain ⟨hacked, hids, ⟨⟨hup, hdown⟩, htallies⟩, hwaiting⟩ := h
  exact ⟨hacked, hids, hup, hdown, htallies, hwaiting⟩

theorem acknowledged_accounted_solving :
    ∃ c, exec step (start (fun _ => true) 64 300000 false 1000) solving = some c ∧ c.Settled ∧
      c.acked.length = 2 ∧ c.AccountedOnce := by
  have hrun : (exec step (start (fun _ => true) 64 300000 false 1000) solving).map tally =
      some ([⟨0, 1⟩, ⟨0, 1⟩], [0, 1], true) := by decide +kernel
  have hsees : Meets step (fun c a => c.sees a = true) (start (fun _ => true) 64 300000 false 1000)
      solving := by decide +kernel
  obtain ⟨c, hc, htally⟩ := Option.map_eq_some_iff.mp hrun
  obtain ⟨hacked, -, hsettled⟩ := settled_of_tally htally
  refine ⟨c, hc, hsettled, ?_, acknowledged_accounted _ 64 300000 false 1000 _ c hsees hc hsettled⟩
  rw [hacked]
  rfl

/-- The login closes the entry before the tally arrives, and the share is dropped. -/
theorem acknowledged_lost : ¬ ∀ actions c,
    exec step (start (fun _ => true) 64 300000 false 1000) actions = some c → c.Settled →
      c.AccountedOnce := by
  intro h
  have hrun : (exec step (start (fun _ => true) 64 300000 false 1000) relogging).map tally =
      some ([⟨0, 1⟩], [], true) := by decide +kernel
  obtain ⟨c, hc, htally⟩ := Option.map_eq_some_iff.mp hrun
  obtain ⟨hacked, hreported, hsettled⟩ := settled_of_tally htally
  have hshare : c.acked[0]? = some ⟨0, 1⟩ := by
    rw [hacked]
    rfl
  obtain ⟨e, d, -, he, -⟩ := (h relogging c hc hsettled).2 0 ⟨0, 1⟩ hshare
  rw [List.map_eq_nil_iff.mp hreported] at he
  exact absurd he (by simp)

end Cluster

end NMiner
