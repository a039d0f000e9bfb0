import NMiner.Proofs.Ownership
import NMiner.Spec.Audit

/-! A submission of a share earns credit at most once, whichever way it goes: what the controllers
have counted is what has been credited, and this and what the worker still holds or has sent is
covered by what was submitted. Nothing remembers a share, so one that is submitted twice is credited
twice. -/

namespace NMiner

open Transition

namespace Audit

open Cluster (addTally)

/-! ### What a controller counts -/

/-- The credit is one of the client's. -/
def held (i : UpstreamId) (k : ClientId) (q : Credit) : Bool :=
  q.entry.upstream = i ∧ q.entry.client = k

theorem counting_accepted (e : Entry) (d : ℚ) (n : ℕ) (t : UpstreamId → ClientId → ℕ × ℚ)
    (i : UpstreamId) (k : ClientId) :
    (e.counting d n t i k).1 = (t i k).1 + if e.upstream = i ∧ e.client = k then n else 0 := by
  unfold Entry.counting
  by_cases hi : e.upstream = i
  · subst hi
    rw [Function.update_self]
    by_cases hk : e.client = k
    · subst hk
      simp
    · rw [Function.update_of_ne (Ne.symm hk)]
      simp [hk]
  · rw [Function.update_of_ne (Ne.symm hi)]
    simp [hi]

/-- `submit` counts what it credits. -/
theorem submit_accepted (b : Backend) (s : SessionId) (share : Share) (i : UpstreamId)
    (k : ClientId) : ((b.submit s share.job_id share.nonce share.result).counters i k).1 =
      (b.counters i k).1 + (taken b s share).countP (held i k) := by
  cases he : b.entries s with
  | none =>
    have hanswer : (b.submit s share.job_id share.nonce share.result).counters = b.counters := by
      unfold Backend.submit
      dsimp only
      rw [he]
      rfl
    simp [hanswer, taken, he]
  | some e =>
    have hcounts : (b.decide e share.nonce share.result).2.accepted = (b.vardiff e).accepted +
        (b.counts e share.nonce share.result).toNat := by
      unfold Backend.counts
      rcases Backend.decide_totals b e share.nonce share.result with h | ⟨d, h⟩
      · have haccepted := congrArg Prod.fst h
        dsimp only [VarDiff.totals] at haccepted
        simp [haccepted]
      · have haccepted := congrArg Prod.fst h
        dsimp only [VarDiff.totals] at haccepted
        simp [haccepted]
    have htaken : (taken b s share).countP (held i k) = if e.upstream = i ∧ e.client = k
        then (b.counts e share.nonce share.result).toNat else 0 := by
      unfold taken
      rw [he]
      cases hcount : b.counts e share.nonce share.result
      · simp [hcount]
      · simp [hcount, held]
    rw [Backend.submit_counters he, htaken]
    by_cases hi : e.upstream = i
    · subst hi
      rw [Function.update_self]
      by_cases hk : e.client = k
      · subst hk
        rw [Function.update_self, if_pos ⟨rfl, rfl⟩]
        exact hcounts
      · rw [Function.update_of_ne (Ne.symm hk)]
        simp [hk]
    · rw [Function.update_of_ne (Ne.symm hi)]
      simp [hi]

/-- `account` counts what it credits. -/
theorem account_accepted (b : Backend) (s : SessionId) {shares : ℕ} (work actual : ℕ)
    {names : List (Option Share)} (hnames : names.length = shares) (i : UpstreamId) (k : ClientId) :
    ((b.account s shares work actual).counters i k).1 =
      (b.counters i k).1 + (drawn b s names).countP (held i k) := by
  unfold drawn
  cases he : b.entries s with
  | none =>
    unfold Backend.account
    rw [he]
    rfl
  | some e =>
    have hall : ((names.map fun share => (⟨s, e, share⟩ : Credit)).countP (held i k)) =
        if e.upstream = i ∧ e.client = k then shares else 0 := by
      rw [List.countP_map, ← hnames]
      have hconst : held i k ∘ (fun share => (⟨s, e, share⟩ : Credit)) =
          fun _ => decide (e.upstream = i ∧ e.client = k) := rfl
      rw [hconst]
      split_ifs with h <;> simp [h]
    rw [Backend.account_counters he, counting_accepted, hall]

/-- An upstream and a client that have not been made have counted nothing. -/
def Fresh (b : Backend) : Prop :=
  ∀ i k, b.nextUpstream ≤ i ∨ b.nextClient ≤ k → (b.counters i k).1 = 0

/-- A login gives a controller that has counted nothing to a client that has counted nothing. -/
theorem resolved_accepted {b : Backend} (hb : Fresh b) (n : CallId) (s : SessionId)
    (address : String) (threads : Option ℚ) (outcome : Except String Credentials) (i : UpstreamId)
    (k : ClientId) :
    ((b.resolved n s address threads outcome).counters i k).1 = (b.counters i k).1 := by
  cases outcome with
  | error message => rfl
  | ok credentials =>
    have hget : (b.get credentials).2.nextClient = b.nextClient ∧
        ∀ j c, ((b.get credentials).2.counters j c).1 = (b.counters j c).1 := by
      unfold Backend.get
      split
      · exact ⟨rfl, fun _ _ => rfl⟩
      · refine ⟨rfl, fun j c => ?_⟩
        by_cases hj : j = b.nextUpstream
        · subst hj
          rw [hb _ c (Or.inl le_rfl)]
          unfold Backend.counters
          dsimp only
          rw [Function.update_self]
          rfl
        · unfold Backend.counters
          dsimp only
          rw [Function.update_of_ne hj]
    obtain ⟨hclient, hsame⟩ := hget
    simp only [Backend.resolved]
    rw [Backend.run_counters, Upstream.attach_counters, Upstream.setClient_counters, hclient]
    by_cases hi : i = (b.get credentials).1
    · rw [hi, Function.update_self]
      by_cases hk : k = b.nextClient
      · rw [hk, Function.update_self, hb _ b.nextClient (Or.inr le_rfl)]
        rfl
      · rw [Function.update_of_ne hk]
        exact hsame _ k
    · rw [Function.update_of_ne hi]
      exact hsame i k

/-- The controllers count what is credited with an event of the primary. -/
theorem step_accepted {c : Cluster} (hfresh : Fresh c.backend) {a : Backend.Action} {b : Backend}
    (h : c.backend.step a = some b) (named : List (SessionId × Share)) (i : UpstreamId)
    (k : ClientId) : (b.counters i k).1 =
      (c.backend.counters i k).1 + (gains named c (.backend a)).countP (held i k) := by
  have hsame : ∀ {b' : Backend}, b'.counters = c.backend.counters →
      (b'.counters i k).1 = (c.backend.counters i k).1 + 0 := fun hb' => by rw [hb', Nat.add_zero]
  cases Backend.step_fires h with
  | login s address threads _ => exact hsame (Backend.login_counters _ s address threads)
  | resolved _ outcome => exact resolved_accepted hfresh _ _ _ _ outcome i k
  | settle _ => exact hsame (Backend.settle_counters _ _ _ _ _)
  | close s => exact hsame (Backend.close_counters _ s)
  | chunk s job_id hashrate _ => exact hsame (Backend.chunk_counters _ s job_id hashrate)
  | chunked _ => exact hsame (Backend.chunked_counters _ _ _ _)
  | submit s job_id nonce result _ =>
    exact submit_accepted c.backend s ⟨job_id, nonce, result⟩ i k
  | poolReply _ outcome => exact hsame (Backend.poolReply_counters _ _ _ _ _ _ _ outcome)
  | account s shares work actual _ =>
    exact account_accepted c.backend s work actual List.length_replicate i k
  | upstream _ hu => exact hsame (Backend.run_counters_same _ (Upstream.step_counters hu))
  | tick ms => exact hsame rfl

/-- The controllers count what the hub credits. -/
theorem handle_accepted (named : List (SessionId × Share)) {c : Cluster}
    (hd : ∀ j, (c.backend.upstream j).outbox = []) {m : Up}
    (hm : ∀ ts, m = .acc ts → ∀ p ∈ ts, p.2.shares = p.2.ids.length) (i : UpstreamId)
    (k : ClientId) : ((c.handle m).backend.counters i k).1 =
      (c.backend.counters i k).1 + (credits named c m).countP (held i k) := by
  have hsame : ∀ {b : Backend}, b.counters = c.backend.counters →
      (b.counters i k).1 = (c.backend.counters i k).1 + 0 := fun hb => by rw [hb, Nat.add_zero]
  cases m with
  | acc ts =>
    have hcounts := hm ts rfl
    clear hm hsame
    simp only [Cluster.handle, credits]
    induction ts generalizing c with
    | nil => rfl
    | cons p ts ih =>
      have hrest := fun q hq => hcounts q (List.mem_cons_of_mem p hq)
      rw [List.foldl_cons]
      by_cases hhub : p.1 ∈ c.hub
      · have hquiet := Backend.account_quiet hd p.1 p.2.shares p.2.work p.2.actual
        have hnames : (p.2.ids.map fun id => named[id]?.map Prod.snd).length = p.2.shares := by
          rw [List.length_map, hcounts p List.mem_cons_self]
        have hone := account_accepted c.backend p.1 p.2.work p.2.actual hnames i k
        have hdrawn : ∀ s names, drawn (c.backend.account p.1 p.2.shares p.2.work p.2.actual) s
            names = drawn c.backend s names := by
          intro s names
          unfold drawn
          rw [hquiet.entries]
        have hp : c.account p = c.credit (c.backend.account p.1 p.2.shares p.2.work p.2.actual) p.1
            (c.backend.entries p.1) (fun _ => jsRound ((p.2.work : ℚ) / p.2.shares)) p.2.ids
              p.2.ids := if_pos hhub
        rw [hp, ih (hquiet.drained hd) hrest, List.filter_cons, if_pos (decide_eq_true hhub),
          List.flatMap_cons, List.countP_append]
        simp only [Cluster.credit, hone, hdrawn]
        exact Nat.add_assoc ..
      · have hp : c.account p = c := if_neg hhub
        rw [hp, ih hd hrest, List.filter_cons, if_neg (by simpa using hhub)]
  | sub s job_id nonce result id =>
    simp only [Cluster.handle, credits]
    by_cases hhub : s ∈ c.hub
    · rw [if_pos hhub, if_pos hhub]
      exact submit_accepted c.backend s ⟨job_id, nonce, result⟩ i k
    · rw [if_neg hhub, if_neg hhub]
      rfl
  | submit n s job_id nonce result => exact submit_accepted c.backend s ⟨job_id, nonce, result⟩ i k
  | login n s address threads => exact hsame (Backend.login_counters _ s address threads)
  | chunk n s job_id hashrate => exact hsame (Backend.chunk_counters _ s job_id hashrate)
  | bye s =>
    simp only [Cluster.handle]
    split_ifs
    · exact hsame (Backend.close_counters _ s)
    · exact hsame rfl

/-! ### What is outstanding -/

/-- The shares that a message brings to the primary. -/
def bears (named : List (SessionId × Share)) : Up → List (SessionId × Share)
  | .acc tallies => tallies.flatMap (shares named)
  | .sub s job_id nonce result _ => [(s, ⟨job_id, nonce, result⟩)]
  | .submit _ s job_id nonce result => [(s, ⟨job_id, nonce, result⟩)]
  | _ => []

/-- The shares that may still be credited. -/
def outstanding (named : List (SessionId × Share)) (c : Cluster) : List (SessionId × Share) :=
  c.up.flatMap (bears named) ++ c.tallies.flatMap (shares named)

/-- The tally holds shares of its session, and counts each. -/
structure Names (named : List (SessionId × Share)) (p : SessionId × Tally) : Prop where
  counts : p.2.shares = p.2.ids.length
  ids : ∀ id ∈ p.2.ids, ∃ share, named[id]? = some (p.1, share)

/-- The shares that have been credited, as far as they are known. -/
def earned (qs : List Credit) : List (SessionId × Share) :=
  qs.filterMap fun q => q.share.map fun share => (q.session, share)

theorem earned_append (qs qs' : List Credit) : earned (qs ++ qs') = earned qs ++ earned qs' :=
  List.filterMap_append ..

/-- What has been credited and what may still be is covered by what was submitted. -/
structure Backed (x : Audit) : Prop where
  named : x.named.length = x.cluster.acked.length
  tallies : ∀ p ∈ x.cluster.tallies, Names x.named p
  sent : ∀ ts, Up.acc ts ∈ x.cluster.up → ∀ p ∈ ts, Names x.named p
  owed : ∀ q, (earned x.credited).count q + (outstanding x.named x.cluster).count q ≤
    x.submitted.count q

theorem Names.append {named : List (SessionId × Share)} {p : SessionId × Tally}
    (h : Names named p) (more : List (SessionId × Share)) : Names (named ++ more) p := by
  refine ⟨h.counts, fun id hid => ?_⟩
  obtain ⟨share, hshare⟩ := h.ids id hid
  obtain ⟨hlt, -⟩ := List.getElem?_eq_some_iff.mp hshare
  exact ⟨share, by rw [List.getElem?_append_left hlt, hshare]⟩

theorem Names.shares_append {named : List (SessionId × Share)} {p : SessionId × Tally}
    (h : Names named p) (more : List (SessionId × Share)) :
    shares (named ++ more) p = shares named p := by
  refine List.filterMap_congr fun id hid => ?_
  obtain ⟨share, hshare⟩ := h.ids id hid
  obtain ⟨hlt, -⟩ := List.getElem?_eq_some_iff.mp hshare
  rw [List.getElem?_append_left hlt]

/-- Shares acknowledged later are none of those outstanding now. -/
theorem Backed.outstanding_append {x : Audit} (h : Backed x) (more : List (SessionId × Share)) :
    outstanding (x.named ++ more) x.cluster = outstanding x.named x.cluster := by
  have htallies : ∀ ts : List (SessionId × Tally), (∀ p ∈ ts, Names x.named p) →
      ts.flatMap (shares (x.named ++ more)) = ts.flatMap (shares x.named) :=
    fun ts hts => List.flatMap_congr fun p hp => (hts p hp).shares_append more
  have hup : ∀ m ∈ x.cluster.up, bears (x.named ++ more) m = bears x.named m := by
    intro m hm
    cases m with
    | acc ts => exact htallies ts (h.sent ts hm)
    | _ => rfl
  unfold outstanding
  rw [htallies _ h.tallies, List.flatMap_congr hup]

theorem earned_taken (b : Backend) (s : SessionId) (share : Share) :
    (earned (taken b s share)).Sublist [(s, share)] := by
  unfold taken
  split
  · exact List.nil_sublist _
  · split_ifs
    · exact List.Sublist.refl _
    · exact List.nil_sublist _

theorem earned_drawn (named : List (SessionId × Share)) (b : Backend) (p : SessionId × Tally) :
    (earned (drawn b p.1 (p.2.ids.map fun id => named[id]?.map Prod.snd))).Sublist
      (shares named p) := by
  unfold drawn
  split
  · exact List.nil_sublist _
  · rename_i e _
    have hsame : ((fun q : Credit => q.share.map fun share => (q.session, share)) ∘
        (fun share => (⟨p.1, e, share⟩ : Credit)) ∘ fun id => named[id]?.map Prod.snd) =
          fun id : ℕ => named[id]?.map fun q => (p.1, q.2) := by
      funext id
      simp only [Function.comp_apply]
      cases named[id]? <;> rfl
    unfold earned shares
    rw [List.map_map, List.filterMap_map, hsame]

/-- The hub credits no more than a message brings. -/
theorem count_credits_le (named : List (SessionId × Share)) (c : Cluster) (m : Up)
    (q : SessionId × Share) : (earned (credits named c m)).count q ≤ (bears named m).count q := by
  apply List.Sublist.count_le
  cases m with
  | acc ts =>
    simp only [credits, bears]
    induction ts with
    | nil => exact List.Sublist.refl _
    | cons p ts ih =>
      rw [List.filter_cons, List.flatMap_cons]
      split_ifs
      · rw [List.flatMap_cons, earned_append]
        exact (earned_drawn named c.backend p).append ih
      · exact ih.trans (List.sublist_append_right _ _)
  | sub s job_id nonce result id =>
    simp only [credits, bears]
    split_ifs
    · exact earned_taken c.backend s _
    · exact List.nil_sublist _
  | submit i s job_id nonce result => exact earned_taken c.backend s _
  | login i s address threads => exact List.Sublist.refl _
  | chunk i s job_id hashrate => exact List.Sublist.refl _
  | bye s => exact List.Sublist.refl _

/-! ### Steps -/

/-- What the worker holds and has sent, after a step. -/
theorem Backed.next {x : Audit} (h : Backed x) {c : Cluster}
    {fresh acked : List (SessionId × Share)} {gained : List Credit}
    (hnamed : c.acked.length = x.cluster.acked.length + acked.length)
    (htallies : ∀ p ∈ c.tallies, Names (x.named ++ acked) p)
    (hsent : ∀ ts, Up.acc ts ∈ c.up → ∀ p ∈ ts, Names (x.named ++ acked) p)
    (howed : ∀ q, (earned gained).count q + (outstanding (x.named ++ acked) c).count q ≤
      fresh.count q + (outstanding x.named x.cluster).count q) :
    Backed { cluster := c, submitted := x.submitted ++ fresh, named := x.named ++ acked,
             credited := x.credited ++ gained } := by
  refine ⟨?_, htallies, hsent, fun q => ?_⟩
  · rw [List.length_append, h.named, hnamed]
  · have hold := h.owed q
    have hnew := howed q
    simp only [earned_append, List.count_append]
    omega

/-- The worker acknowledges nothing and only sends messages without a tally. -/
theorem Backed.send {x : Audit} (h : Backed x) {c : Cluster} {ms : List Up}
    {fresh : List (SessionId × Share)} {gained : List Credit} (hacked : c.acked = x.cluster.acked)
    (htallies : c.tallies = x.cluster.tallies) (hup : c.up = x.cluster.up ++ ms)
    (hfree : ∀ ts, Up.acc ts ∉ ms)
    (howed : ∀ q, (earned gained).count q + (ms.flatMap (bears x.named)).count q ≤ fresh.count q) :
    Backed { cluster := c, submitted := x.submitted ++ fresh, named := x.named ++ [],
             credited := x.credited ++ gained } := by
  refine h.next (by rw [hacked]; rfl) ?_ ?_ fun q => ?_
  · rw [htallies, List.append_nil]
    exact h.tallies
  · intro ts hts
    rw [hup] at hts
    rw [List.append_nil]
    exact h.sent ts ((List.mem_append.mp hts).resolve_right (hfree ts))
  · have hq := howed q
    unfold outstanding
    rw [hup, htallies, List.append_nil]
    simp only [List.flatMap_append, List.count_append]
    omega

/-- Nothing changes at the worker. -/
theorem Backed.same {x : Audit} (h : Backed x) {c : Cluster}
    {fresh : List (SessionId × Share)} {gained : List Credit} (hacked : c.acked = x.cluster.acked)
    (htallies : c.tallies = x.cluster.tallies) (hup : c.up = x.cluster.up)
    (howed : ∀ q, (earned gained).count q ≤ fresh.count q) :
    Backed { cluster := c, submitted := x.submitted ++ fresh, named := x.named ++ [],
             credited := x.credited ++ gained } :=
  h.send hacked htallies (hup.trans (List.append_nil _).symm) (fun _ => List.not_mem_nil)
    fun q => howed q

theorem flush_backed {x : Audit} (h : Backed x) : Backed { x with cluster := x.cluster.flush } := by
  unfold Cluster.flush
  split_ifs
  · exact h
  · refine ⟨h.named, fun _ hp => absurd hp List.not_mem_nil, ?_, fun q => ?_⟩
    · intro ts hts
      rcases List.mem_append.mp hts with hts | hts
      · exact h.sent ts hts
      · rw [List.mem_singleton, Up.acc.injEq] at hts
        exact hts ▸ h.tallies
    · have howed := h.owed q
      simpa [outstanding, bears] using howed

theorem close_backed {x : Audit} (h : Backed x) (s : SessionId) :
    Backed { x with cluster := x.cluster.close s } := by
  have key : ∀ x : Audit, Backed x → Backed { x with cluster := { x.cluster with
      known := Function.update x.cluster.known s {}, heard := Function.update x.cluster.heard s [],
      sessions := x.cluster.sessions.erase s,
      gone := insert s x.cluster.gone, up := x.cluster.up ++ [.bye s] } } := by
    intro x h
    refine ⟨h.named, h.tallies, fun ts hts => ?_, fun q => ?_⟩
    · exact h.sent ts ((List.mem_append.mp hts).resolve_right (by simp))
    · have howed := h.owed q
      simpa [outstanding, bears] using howed
  unfold Cluster.close
  dsimp only
  split_ifs
  · exact key _ (flush_backed h)
  · exact key _ h

theorem addTally_names {named : List (SessionId × Share)} {s : SessionId} {share : Share}
    {difficulty actual id : ℕ} (hid : named[id]? = some (s, share)) {ts : List (SessionId × Tally)}
    (h : ∀ p ∈ ts, Names named p) : ∀ p ∈ addTally s difficulty actual id ts, Names named p := by
  induction ts with
  | nil =>
    intro p hp
    rw [List.mem_singleton.mp hp]
    refine ⟨rfl, fun id' hid' => ?_⟩
    rw [List.mem_singleton.mp hid']
    exact ⟨share, hid⟩
  | cons q ts ih =>
    obtain ⟨s', t⟩ := q
    have ht := h (s', t) List.mem_cons_self
    have hrest := fun p hp => h p (List.mem_cons_of_mem _ hp)
    unfold addTally
    split_ifs with hs
    · intro p hp
      rcases List.mem_cons.mp hp with rfl | hp
      · refine ⟨by simpa using ht.counts, fun id' hid' => ?_⟩
        rcases List.mem_append.mp hid' with hid' | hid'
        · exact ht.ids id' hid'
        · rw [List.mem_singleton.mp hid', hs]
          exact ⟨share, hid⟩
      · exact hrest p hp
    · intro p hp
      rcases List.mem_cons.mp hp with rfl | hp
      · exact ht
      · exact ih hrest p hp

theorem count_addTally {named : List (SessionId × Share)} {s : SessionId} {share : Share}
    {difficulty actual id : ℕ} (hid : named[id]? = some (s, share)) (ts : List (SessionId × Tally))
    (q : SessionId × Share) :
    ((addTally s difficulty actual id ts).flatMap (shares named)).count q =
      (ts.flatMap (shares named)).count q + [(s, share)].count q := by
  induction ts with
  | nil => simp [addTally, shares, hid]
  | cons p ts ih =>
    obtain ⟨s', t⟩ := p
    unfold addTally
    split_ifs with hs
    · subst hs
      simp only [List.flatMap_cons, List.count_append, shares, List.filterMap_append,
        List.filterMap_cons, hid, Option.map_some, List.filterMap_nil]
      omega
    · simp only [List.flatMap_cons, List.count_append, ih]
      omega

theorem submit_backed {x : Audit} (h : Backed x) (s : SessionId) (login : ℕ)
    (job_id nonce result : String) :
    Backed { cluster := x.cluster.submit s login job_id nonce result,
             submitted := x.submitted ++ submits (.submit s job_id nonce result),
             named := x.named ++ acks x.cluster (.submit s job_id nonce result),
             credited := x.credited ++ [] } := by
  have hid : (x.named ++ [(s, (⟨job_id, nonce, result⟩ : Share))])[x.cluster.acked.length]? =
      some (s, ⟨job_id, nonce, result⟩) := by
    rw [← h.named]
    exact List.getElem?_concat_length
  have htallies := fun p hp => (h.tallies p hp).append [(s, (⟨job_id, nonce, result⟩ : Share))]
  have hsent := fun ts hts p hp =>
    (h.sent ts hts p hp).append [(s, (⟨job_id, nonce, result⟩ : Share))]
  have hold := h.outstanding_append [(s, ⟨job_id, nonce, result⟩)]
  simp only [Cluster.submit, acks, submits]
  rcases (x.cluster.known s).submit job_id nonce result with ⟨decision, known⟩
  cases decision with
  | delegated =>
    have hup : ∀ ts, Up.acc ts ∉ [Up.submit x.cluster.seq s job_id nonce result] := by simp
    exact h.send rfl rfl rfl hup fun q => by simp [bears, earned]
  | denied reason => exact h.same rfl rfl rfl fun q => by simp [earned]
  | thrown => exact h.same rfl rfl rfl fun q => by simp [earned]
  | absorbed difficulty =>
    refine h.next (by simp) (addTally_names hid htallies) hsent fun q => ?_
    have hq := congrArg (List.count q) hold
    unfold outstanding at hq ⊢
    simp only [List.count_append, count_addTally hid, earned, List.filterMap_nil,
      List.count_nil] at hq ⊢
    omega
  | forwarded =>
    refine h.next (by simp) htallies (fun ts hts => ?_) fun q => ?_
    · exact hsent ts ((List.mem_append.mp hts).resolve_right (by simp))
    · have hq := congrArg (List.count q) hold
      unfold outstanding at hq ⊢
      simp only [List.flatMap_append, List.flatMap_singleton, List.count_append, bears, earned,
        List.filterMap_nil, List.count_nil] at hq ⊢
      omega

/-- The worker's tallies, its acknowledgements and what it has sent are left alone. -/
structure Aside (c c' : Cluster) : Prop where
  own : c'.own = c.own
  acked : c'.acked = c.acked
  tallies : c'.tallies = c.tallies
  up : c'.up = c.up

theorem handle_aside (c : Cluster) (m : Up) : Aside c (c.handle m) := by
  cases m with
  | acc ts =>
    simp only [Cluster.handle]
    induction ts generalizing c with
    | nil => exact ⟨rfl, rfl, rfl, rfl⟩
    | cons p ts ih =>
      have hp : Aside c (c.account p) := by
        unfold Cluster.account
        split_ifs <;> exact ⟨rfl, rfl, rfl, rfl⟩
      have hrest := ih (c.account p)
      exact ⟨hrest.own.trans hp.own, hrest.acked.trans hp.acked, hrest.tallies.trans hp.tallies,
        hrest.up.trans hp.up⟩
  | sub s job_id nonce result id =>
    simp only [Cluster.handle]
    by_cases hhub : s ∈ c.hub
    · rw [if_pos hhub]
      exact ⟨rfl, rfl, rfl, rfl⟩
    · rw [if_neg hhub]
      exact ⟨rfl, rfl, rfl, rfl⟩
  | bye s =>
    simp only [Cluster.handle]
    split_ifs <;> exact ⟨rfl, rfl, rfl, rfl⟩
  | login i s address threads => exact ⟨rfl, rfl, rfl, rfl⟩
  | chunk i s job_id hashrate => exact ⟨rfl, rfl, rfl, rfl⟩
  | submit i s job_id nonce result => exact ⟨rfl, rfl, rfl, rfl⟩

theorem hear_aside (c : Cluster) (m : Down) : Aside c (c.hear m) := by
  cases m with
  | reply i s result =>
    simp only [Cluster.hear]
    cases c.pending i with
    | none => exact ⟨rfl, rfl, rfl, rfl⟩
    | some method =>
      cases result with
      | error message => exact ⟨rfl, rfl, rfl, rfl⟩
      | ok reply =>
        dsimp only
        split_ifs <;> exact ⟨rfl, rfl, rfl, rfl⟩
  | job s payload =>
    simp only [Cluster.hear]
    split_ifs <;> exact ⟨rfl, rfl, rfl, rfl⟩
  | kill s message => exact ⟨rfl, rfl, rfl, rfl⟩

theorem go_aside (c : Cluster) (a : Backend.Action) (b : Backend) : Aside c (c.go a b) := by
  cases a with
  | poolReply n outcome =>
    simp only [Cluster.go]
    split <;> exact ⟨rfl, rfl, rfl, rfl⟩
  | _ => exact ⟨rfl, rfl, rfl, rfl⟩

/-- The hub takes the oldest message and credits shares of it. -/
theorem handle_backed {x : Audit} (h : Backed x) {m : Up} {ms : List Up}
    (hup : x.cluster.up = m :: ms) :
    Backed { cluster := (Cluster.handle { x.cluster with up := ms } m).pump,
             submitted := x.submitted ++ [], named := x.named ++ [],
             credited := x.credited ++ credits x.named x.cluster m } := by
  obtain ⟨-, hacked, htallies, hms⟩ := handle_aside { x.cluster with up := ms } m
  generalize Cluster.handle { x.cluster with up := ms } m = c at hacked htallies hms
  dsimp only at hacked htallies hms
  refine h.next ?_ ?_ ?_ fun q => ?_
  · exact congrArg List.length hacked
  · intro p hp
    rw [List.append_nil]
    exact h.tallies p (htallies ▸ hp)
  · intro ts hts
    rw [List.append_nil]
    refine h.sent ts ?_
    rw [hup]
    exact List.mem_cons_of_mem _ (hms ▸ hts)
  · have hle := count_credits_le x.named x.cluster m q
    unfold outstanding Cluster.pump
    rw [hms, htallies, hup, List.append_nil]
    simp only [List.flatMap_cons, List.count_append, List.count_nil]
    omega

/-- A share served in the primary's own process is credited at most once. -/
theorem count_gains_le (named : List (SessionId × Share)) (c : Cluster) (a : Backend.Action)
    (q : SessionId × Share) :
    (earned (gains named c (.backend a))).count q ≤ (submits (.backend a)).count q := by
  apply List.Sublist.count_le
  cases a with
  | submit s job_id nonce result => exact earned_taken c.backend s _
  | account s shares work actual =>
    simp only [gains, drawn]
    split
    · exact List.Sublist.refl _
    · simp [earned]
  | _ => exact List.Sublist.refl _

theorem step_backed (x : Audit) (a : Cluster.Action) (x' : Audit) (h : Backed x)
    (hstep : x.step a = some x') : Backed x' := by
  obtain ⟨c, hc, rfl⟩ := Option.map_eq_some_iff.mp hstep
  cases Cluster.step_fires hc with
  | login s address threads _ _ =>
    have hup : ∀ ts, Up.acc ts ∉ [Up.login x.cluster.seq s address threads] := by simp
    exact h.send rfl rfl rfl hup fun q => by simp [bears, gains, earned]
  | chunk s job_id hashrate _ _ =>
    have hup : ∀ ts, Up.acc ts ∉ [Up.chunk x.cluster.seq s job_id hashrate] := by simp
    exact h.send rfl rfl rfl hup fun q => by simp [bears, gains, earned]
  | submit job_id nonce result _ _ => exact submit_backed h _ _ job_id nonce result
  | flush => simpa [submits, acks, gains] using flush_backed h
  | close s _ => simpa [submits, acks, gains] using close_backed h s
  | @hear m ms _ =>
    obtain ⟨-, hacked, htallies, hup⟩ := hear_aside { x.cluster with down := ms } m
    exact h.same hacked htallies hup fun q => le_rfl
  | expire i _ => exact h.same rfl rfl rfl fun q => le_rfl
  | @handle m ms hup =>
    have hgains : gains x.named x.cluster .handle = credits x.named x.cluster m := by
      simp [gains, hup]
    rw [hgains]
    exact handle_backed h hup
  | @backend a b _ _ =>
    obtain ⟨-, hacked, htallies, hup⟩ := go_aside x.cluster a b
    exact h.same hacked htallies hup fun q => count_gains_le x.named x.cluster a q

/-! ### Whom a share is credited to -/

/-- The controllers have counted what has been credited, each the shares of its session; and what is
credited to a session of the worker is one of its shares. -/
structure Tied (x : Audit) : Prop where
  informed : x.cluster.Informed
  law : ∀ i k, (x.cluster.backend.counters i k).1 = x.credited.countP (held i k)
  owned : ∀ q ∈ x.credited, x.cluster.backend.owner q.entry.client = some (q.session, q.entry)
  known : ∀ q ∈ x.credited, x.cluster.own q.session = true → q.share.isSome = true

/-- Nothing has been credited to a client that has not been made. -/
theorem Tied.fresh {x : Audit} (h : Tied x) : Fresh x.cluster.backend := by
  intro i k hnew
  rw [h.law, List.countP_eq_zero]
  intro q hq hheld
  obtain ⟨hi, hk⟩ := of_decide_eq_true hheld
  obtain ⟨-, hclient, hupstream⟩ := h.informed.vouching.owned _ _ _ (h.owned q hq)
  rw [hk] at hclient
  rw [hi] at hupstream
  rcases hnew with hnew | hnew
  · exact absurd hupstream (not_lt_of_ge hnew)
  · exact absurd hclient (not_lt_of_ge hnew)

/-- A credit is for the present entry of its session. -/
theorem mem_taken {b : Backend} {s : SessionId} {share : Share} {q : Credit}
    (h : q ∈ taken b s share) :
    q.session = s ∧ b.entries s = some q.entry ∧ q.share.isSome = true := by
  unfold taken at h
  split at h
  · exact absurd h List.not_mem_nil
  · rename_i e he
    split_ifs at h
    · obtain rfl := List.mem_singleton.mp h
      exact ⟨rfl, he, rfl⟩
    · exact absurd h List.not_mem_nil

theorem mem_drawn {b : Backend} {s : SessionId} {names : List (Option Share)} {q : Credit}
    (h : q ∈ drawn b s names) :
    q.session = s ∧ b.entries s = some q.entry ∧ q.share ∈ names := by
  unfold drawn at h
  split at h
  · exact absurd h List.not_mem_nil
  · rename_i e he
    obtain ⟨share, hshare, rfl⟩ := List.mem_map.mp h
    exact ⟨rfl, he, hshare⟩

/-- What the hub credits goes to the present entries, and the shares are known. -/
theorem mem_credits {x : Audit} (h : Backed x) {m : Up} (hm : m ∈ x.cluster.up) {c : Cluster}
    {q : Credit} (hq : q ∈ credits x.named c m) :
    c.backend.entries q.session = some q.entry ∧ q.share.isSome = true := by
  cases m with
  | acc ts =>
    obtain ⟨p, hp, hq⟩ := List.mem_flatMap.mp hq
    obtain ⟨hs, he, hshare⟩ := mem_drawn hq
    obtain ⟨id, hid, hname⟩ := List.mem_map.mp hshare
    obtain ⟨share, hshare⟩ := (h.sent ts hm p (List.mem_filter.mp hp).1).ids id hid
    rw [hshare] at hname
    exact ⟨hs ▸ he, hname ▸ rfl⟩
  | sub s job_id nonce result id =>
    simp only [credits] at hq
    split_ifs at hq
    · obtain ⟨rfl, he, hshare⟩ := mem_taken hq
      exact ⟨he, hshare⟩
    · exact absurd hq List.not_mem_nil
  | submit i s job_id nonce result =>
    obtain ⟨rfl, he, hshare⟩ := mem_taken hq
    exact ⟨he, hshare⟩
  | login i s address threads => exact absurd hq List.not_mem_nil
  | chunk i s job_id hashrate => exact absurd hq List.not_mem_nil
  | bye s => exact absurd hq List.not_mem_nil

/-- What is credited in the primary's own process goes to the present entries; the tallies of other
workers are for sessions that are not this worker's. -/
theorem mem_gains {named : List (SessionId × Share)} {c : Cluster} {a : Backend.Action}
    (ha : c.foreign a = true) {q : Credit} (hq : q ∈ gains named c (.backend a)) :
    c.backend.entries q.session = some q.entry ∧
      (c.own q.session = true → q.share.isSome = true) := by
  cases a with
  | submit s job_id nonce result =>
    obtain ⟨rfl, he, hshare⟩ := mem_taken hq
    exact ⟨he, fun _ => hshare⟩
  | account s shares work actual =>
    obtain ⟨rfl, he, -⟩ := mem_drawn hq
    refine ⟨he, fun hown => ?_⟩
    simp only [Cluster.foreign, hown] at ha
    exact absurd ha (by simp)
  | _ => exact absurd hq List.not_mem_nil

theorem handle_owner (c : Cluster) (m : Up) : (c.handle m).backend.owner = c.backend.owner := by
  cases m with
  | acc ts =>
    simp only [Cluster.handle]
    induction ts generalizing c with
    | nil => rfl
    | cons p ts ih =>
      refine (ih (c.account p)).trans ?_
      unfold Cluster.account
      split_ifs
      · exact Backend.account_owner _ _ _ _ _
      · rfl
  | sub s job_id nonce result id =>
    simp only [Cluster.handle]
    by_cases hhub : s ∈ c.hub
    · rw [if_pos hhub]
      exact Backend.submit_owner _ _ _ _ _
    · rw [if_neg hhub]
  | bye s =>
    simp only [Cluster.handle]
    split_ifs
    · exact Backend.drop_owner _ s
    · rfl
  | login i s address threads => exact Backend.drop_owner _ s
  | chunk i s job_id hashrate => exact Backend.chunk_owner _ _ _ _
  | submit i s job_id nonce result => exact Backend.submit_owner _ _ _ _ _

theorem step_own {c c' : Cluster} {a : Cluster.Action} (h : c.step a = some c') :
    c'.own = c.own := by
  cases Cluster.step_fires h with
  | submit job_id nonce result _ _ =>
    simp only [Cluster.submit]
    split <;> rfl
  | flush =>
    unfold Cluster.flush
    split_ifs <;> rfl
  | close s _ =>
    unfold Cluster.close Cluster.flush
    dsimp only
    split_ifs <;> rfl
  | hear _ => exact (hear_aside _ _).own
  | handle _ => exact (handle_aside _ _).own
  | @backend a b _ _ => exact (go_aside c a b).own
  | _ => rfl

/-- The primary goes on to `c`, and credits these shares. -/
theorem Tied.next {x : Audit} (h : Tied x) {c : Cluster} {gained : List Credit}
    {submitted named : List (SessionId × Share)} (hinformed : c.Informed)
    (hown : c.own = x.cluster.own)
    (howner : ∀ k p, x.cluster.backend.owner k = some p → c.backend.owner k = some p)
    (hlaw : ∀ i k, (c.backend.counters i k).1 =
      (x.cluster.backend.counters i k).1 + gained.countP (held i k))
    (hgained : ∀ q ∈ gained, x.cluster.backend.entries q.session = some q.entry ∧
      (x.cluster.own q.session = true → q.share.isSome = true)) :
    Tied { cluster := c, submitted := submitted, named := named,
           credited := x.credited ++ gained } := by
  refine ⟨hinformed, fun i k => ?_, fun q hq => ?_, fun q hq => ?_⟩
  · rw [List.countP_append, ← h.law i k]
    exact hlaw i k
  · refine howner _ _ ?_
    rcases List.mem_append.mp hq with hq | hq
    · exact h.owned q hq
    · exact h.informed.vouching.entry _ _ (hgained q hq).1
  · rw [hown]
    rcases List.mem_append.mp hq with hq | hq
    · exact h.known q hq
    · exact (hgained q hq).2

/-- An event of the worker or the edge credits nothing, and leaves the primary as it is. -/
theorem Tied.aside {x : Audit} (h : Tied x) {a : Cluster.Action} {c : Cluster}
    {submitted named : List (SessionId × Share)} (ha : a.primary = false)
    (hfires : x.cluster.Fires a c) (hinformed : c.Informed) (hown : c.own = x.cluster.own) :
    Tied { cluster := c, submitted := submitted, named := named,
           credited := x.credited ++ gains x.named x.cluster a } := by
  have hsame := hfires.backend_eq ha
  have hnone : gains x.named x.cluster a = [] := by
    cases a with
    | handle => cases ha
    | backend ba => cases ha
    | _ => rfl
  refine h.next hinformed hown ?_ ?_ ?_
  · rw [hsame]
    exact fun _ _ ho => ho
  · rw [hsame, hnone]
    exact fun _ _ => rfl
  · rw [hnone]
    exact fun q hq => absurd hq List.not_mem_nil

theorem step_tied (x : Audit) (a : Cluster.Action) (x' : Audit) (hbacked : Backed x) (h : Tied x)
    (hstep : x.step a = some x') : Tied x' := by
  obtain ⟨c, hc, rfl⟩ := Option.map_eq_some_iff.mp hstep
  have hinformed := Cluster.step_informed x.cluster a c h.informed hc
  have hown := step_own hc
  have hfires := Cluster.step_fires hc
  cases Cluster.step_fires hc with
  | @handle m ms hup =>
    have hgains : gains x.named x.cluster .handle = credits x.named x.cluster m := by
      simp [gains, hup]
    have hin : m ∈ x.cluster.up := hup ▸ List.mem_cons_self
    have hcounts : ∀ ts, m = .acc ts → ∀ p ∈ ts, p.2.shares = p.2.ids.length :=
      fun ts hts p hp => (hbacked.sent ts (hts ▸ hin) p hp).counts
    rw [hgains]
    refine h.next hinformed hown (fun k p ho => ?_) (fun i k => ?_) fun q hq => ?_
    · exact (congrFun (handle_owner { x.cluster with up := ms } m) k).trans ho
    · have hd : ∀ j, (({ x.cluster with up := ms } : Cluster).backend.upstream j).outbox = [] :=
        h.informed.vouching.drained
      exact handle_accepted x.named hd hcounts i k
    · exact (mem_credits hbacked hin hq).imp_right fun hshare _ => hshare
  | @backend ba b hforeign hb =>
    have hgo := Cluster.go_backend x.cluster ba b
    refine h.next hinformed hown (fun k p ho => ?_) (fun i k => ?_) fun q hq => ?_
    · have hkept := Backend.step_owner h.informed.vouching hb ho
      rw [← hgo] at hkept
      exact hkept
    · have hlaw := step_accepted h.fresh hb x.named i k
      rw [← hgo] at hlaw
      exact hlaw
    · exact mem_gains hforeign hq
  | _ => exact h.aside rfl hfires hinformed hown

/-! ### Runs -/

theorem start_backed (own : SessionId → Bool) (maxLinks idleTimeout : ℕ) (expand : Bool) (now : ℕ) :
    Backed (start own maxLinks idleTimeout expand now) :=
  ⟨rfl, fun _ hp => absurd hp List.not_mem_nil, fun _ hts => absurd hts List.not_mem_nil,
    fun _ => le_rfl⟩

theorem start_tied (own : SessionId → Bool) (maxLinks idleTimeout : ℕ) (expand : Bool) (now : ℕ) :
    Tied (start own maxLinks idleTimeout expand now) :=
  ⟨Cluster.start_informed own maxLinks idleTimeout expand now, fun _ _ => rfl,
    fun _ hq => absurd hq List.not_mem_nil, fun _ hq => absurd hq List.not_mem_nil⟩

/-- Every run of a cluster has its audit. -/
theorem exists_audit {c : Cluster} {actions : List Cluster.Action} (x : Audit)
    (hrun : exec Cluster.step x.cluster actions = some c) :
    ∃ y, exec step x actions = some y ∧ y.cluster = c := by
  induction actions generalizing x with
  | nil => exact ⟨x, rfl, Option.some.inj hrun⟩
  | cons a as ih =>
    obtain ⟨m, hm, hrest⟩ := exec_cons_eq_some.mp hrun
    have hstep : ∃ y, x.step a = some y ∧ y.cluster = m := by
      unfold step
      rw [hm]
      exact ⟨_, rfl, rfl⟩
    obtain ⟨y, hy, rfl⟩ := hstep
    obtain ⟨z, hz, hc⟩ := ih y hrest
    exact ⟨z, exec_cons_eq_some.mpr ⟨y, hy, hz⟩, hc⟩

/-- The log of credits is what the controllers have counted, client by client; each credit is for
the entry of its session, and names a share unless another worker's tally brought it; and a session
is credited with a share at most as often as it has submitted it. -/
structure Settled (x : Audit) : Prop where
  counted : ∀ i k, ((x.cluster.backend.upstream i).client k).vardiff.accepted =
    (x.credited.filter fun q => q.entry.upstream = i ∧ q.entry.client = k).length
  owned : ∀ q ∈ x.credited, x.cluster.backend.owner q.entry.client = some (q.session, q.entry)
  known : ∀ q ∈ x.credited, x.cluster.own q.session = true → q.share.isSome = true
  once : ∀ s share, (x.credited.filter fun q => q.session = s ∧ q.share = some share).length ≤
    x.submitted.count (s, share)

theorem count_earned (qs : List Credit) (s : SessionId) (share : Share) :
    (earned qs).count (s, share) =
      (qs.filter fun q => q.session = s ∧ q.share = some share).length := by
  induction qs with
  | nil => rfl
  | cons q qs ih =>
    rw [List.filter_cons, show earned (q :: qs) = earned [q] ++ earned qs from earned_append [q] qs,
      List.count_append, ih]
    cases hshare : q.share with
    | none => simp [earned, hshare]
    | some share' =>
      by_cases hs : q.session = s ∧ share' = share
      · simp [earned, hshare, hs.1, hs.2, Nat.add_comm]
      · have hne : (q.session, share') ≠ (s, share) := fun h => hs (Prod.mk.inj h)
        have hnot : ¬ (decide (q.session = s ∧ some share' = some share) = true) := by
          simpa using hs
        rw [if_neg hnot]
        simp [earned, hshare, hne]

theorem Tied.settled {x : Audit} (h : Tied x) (hbacked : Backed x) : Settled x := by
  refine ⟨fun i k => ?_, h.owned, h.known, fun s share => ?_⟩
  · rw [← List.countP_eq_length_filter]
    exact h.law i k
  · have howed := hbacked.owed (s, share)
    rw [count_earned] at howed
    omega

/-- In every run the controllers count what is credited, and a session is credited with a share at
most as often as it has submitted it. -/
theorem credited_once_for_each_submission (own : SessionId → Bool) (maxLinks idleTimeout : ℕ)
    (expand : Bool) (now : ℕ) (actions : List Cluster.Action) (c : Cluster)
    (hrun : exec Cluster.step (Cluster.start own maxLinks idleTimeout expand now)
      actions = some c) :
    ∃ x, exec step (start own maxLinks idleTimeout expand now) actions = some x ∧
      x.cluster = c ∧ Settled x := by
  obtain ⟨x, hx, hc⟩ := exists_audit (start own maxLinks idleTimeout expand now) hrun
  have hstep : ∀ (y : Audit) (a : Cluster.Action) (y' : Audit), Backed y ∧ Tied y →
      y.step a = some y' → Backed y' ∧ Tied y' := fun y a y' h hy =>
    ⟨step_backed y a y' h.1 hy, step_tied y a y' h.1 h.2 hy⟩
  obtain ⟨hbacked, htied⟩ := exec_preserves hstep
    ⟨start_backed own maxLinks idleTimeout expand now,
      start_tied own maxLinks idleTimeout expand now⟩ hx
  exact ⟨x, hx, hc, htied.settled hbacked⟩

/-- The share of `tallying`, once more, and the flush. -/
def repeating : List Cluster.Action :=
  Cluster.tallying ++
    [.submit 0 "1" "05000000" (Backend.hashOf "0000000000000100"), .flush, .handle]

theorem credited_once_for_each_submission_repeating :
    ∃ c x, exec Cluster.step (Cluster.start (fun _ => true) 64 300000 false 1000) repeating =
        some c ∧
      exec step (start (fun _ => true) 64 300000 false 1000) repeating = some x ∧ x.cluster = c ∧
        x.credited.length = 2 ∧ Settled x := by
  have hrun : (exec Cluster.step (Cluster.start (fun _ => true) 64 300000 false 1000)
      repeating).isSome = true := by decide +kernel
  have hcredits : (exec step (start (fun _ => true) 64 300000 false 1000) repeating).map
      (fun x => x.credited.length) = some 2 := by decide +kernel
  obtain ⟨c, hc⟩ := Option.isSome_iff_exists.mp hrun
  obtain ⟨x, hx, hcluster, hsettled⟩ :=
    credited_once_for_each_submission (fun _ => true) 64 300000 false 1000 repeating c hc
  rw [hx, Option.map_some, Option.some.injEq] at hcredits
  exact ⟨c, x, hc, hx, hcluster, hcredits, hsettled⟩

/-- A share that is submitted twice is credited twice, and its controller counts it twice. -/
theorem repeated_share_credited_twice : ¬ ∀ actions x,
    exec step (start (fun _ => true) 64 300000 false 1000) actions = some x →
      ∀ s share, (x.credited.filter fun q => q.session = s ∧ q.share = some share).length ≤ 1 := by
  intro h
  have hrun : (exec step (start (fun _ => true) 64 300000 false 1000) repeating).map (fun x =>
      (x.credited.filter fun q => q.session = 0 ∧ q.share =
        some ⟨"1", "05000000", Backend.hashOf "0000000000000100"⟩).length) = some 2 := by
    decide +kernel
  obtain ⟨x, hx, hcount⟩ := Option.map_eq_some_iff.mp hrun
  have hle := h repeating x hx 0 ⟨"1", "05000000", Backend.hashOf "0000000000000100"⟩
  omega

end Audit

end NMiner
