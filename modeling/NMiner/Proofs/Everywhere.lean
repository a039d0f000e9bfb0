import NMiner.Proofs.Moves
import NMiner.Spec.Cluster

/-! A property that moves keep and that a new upstream has is a property of every upstream of a
backend, in every state of a single process or of a cluster. -/

namespace NMiner

open Upstream (Moves)

/-- Any caller may stand for any miner. -/
theorem Origin.owes_true (o : Origin) (c : ClientId) : o.Owes (fun _ _ => True) c := by
  cases o <;> trivial

theorem Upstream.owed_true (u : Upstream) : u.Owed fun _ _ => True :=
  fun t _ => t.origin.owes_true t.client

theorem Upstream.Action.owes_true (a : Upstream.Action) : a.Owes fun _ _ => True := by
  cases a <;> trivial

namespace Backend

/-- Every upstream has the property, and what it has delivered has been handled. -/
structure Everywhere (P : UpstreamId → Upstream → Prop) (b : Backend) : Prop where
  drained : ∀ i, (b.upstream i).outbox = []
  holds : ∀ i, P i (b.upstream i)

/-- Moves keep the property if jobs only arrive on the links in `places`, and a new upstream has
it. -/
structure Stable (P : UpstreamId → Upstream → Prop) (places : UpstreamId → LinkId → Prop) :
    Prop where
  moves : ∀ i u v, Moves (fun _ _ => True) (places i) u v → P i u → P i v
  start : ∀ i maxLinks idleTimeout expand now client,
    P i (Upstream.start maxLinks idleTimeout expand now client)

variable {P : UpstreamId → Upstream → Prop} {places : UpstreamId → LinkId → Prop}

theorem Everywhere.of_upstream {b b' : Backend} (hb : Everywhere P b)
    (h : b'.upstream = b.upstream) : Everywhere P b' := by
  refine ⟨?_, ?_⟩ <;> rw [h]
  · exact hb.drained
  · exact hb.holds

theorem setUpstream_everywhere (hP : Stable P places) {b : Backend} (hb : Everywhere P b)
    {i : UpstreamId} {u : Upstream} (hu : Moves (fun _ _ => True) (places i) (b.upstream i) u) :
    Everywhere P (b.setUpstream i u) := by
  have hup : ∀ j, (b.setUpstream i u).upstream j =
      if j = i then { u with outbox := [] } else b.upstream j := Function.update_apply _ _ _
  refine ⟨fun j => ?_, fun j => ?_⟩ <;> rw [hup] <;> split_ifs with hj
  · rfl
  · exact hb.drained j
  · subst hj
    exact hP.moves j _ _ (hu.trans (Upstream.handled_moves u)) (hb.holds j)
  · exact hb.holds j

theorem retire_everywhere (hP : Stable P places) {b : Backend} (hb : Everywhere P b)
    (i : UpstreamId) : Everywhere P (b.retire i) := by
  unfold retire
  split_ifs
  · have hup : ∀ j, Function.update b.upstream i (b.upstream i).close j =
        if j = i then (b.upstream i).close else b.upstream j := Function.update_apply _ _ _
    refine ⟨fun j => ?_, fun j => ?_⟩ <;> dsimp only <;> rw [hup] <;> split_ifs with hj
    · exact hb.drained i
    · exact hb.drained j
    · subst hj
      exact hP.moves j _ _ (Upstream.close_moves _) (hb.holds j)
    · exact hb.holds j
  · exact hb

theorem deliver_everywhere (hP : Stable P places) {b : Backend} (hb : Everywhere P b)
    (i : UpstreamId) (d : Delivery) : Everywhere P (b.deliver i d) := by
  cases d with
  | job c payload =>
    simp only [deliver]
    split <;> exact hb.of_upstream rfl
  | drop c message =>
    simp only [deliver]
    split <;> exact hb.of_upstream rfl
  | attached n result =>
    simp only [deliver]
    split <;> exact hb.of_upstream rfl
  | chunked n result =>
    simp only [deliver]
    split <;> exact hb.of_upstream rfl
  | submitted n l job_id nonce result => exact hb.of_upstream rfl
  | retired => exact retire_everywhere hP hb i

theorem deliveries_everywhere (hP : Stable P places) (i : UpstreamId) (ds : List Delivery)
    {b : Backend} (hb : Everywhere P b) : Everywhere P (ds.foldl (fun b d => b.deliver i d) b) := by
  induction ds generalizing b with
  | nil => exact hb
  | cons d ds ih => exact ih (deliver_everywhere hP hb i d)

theorem run_everywhere (hP : Stable P places) {b : Backend} (hb : Everywhere P b) {i : UpstreamId}
    {u : Upstream} (hu : Moves (fun _ _ => True) (places i) (b.upstream i) u) :
    Everywhere P (b.run i u) :=
  deliveries_everywhere hP i u.outbox (setUpstream_everywhere hP hb hu)

theorem drop_everywhere (hP : Stable P places) {b : Backend} (hb : Everywhere P b) (s : SessionId) :
    Everywhere P (b.drop s) := by
  unfold drop
  split
  · exact hb
  · apply run_everywhere hP
    · exact hb.of_upstream rfl
    · exact Upstream.detach_moves _ _

theorem login_everywhere (hP : Stable P places) {b : Backend} (hb : Everywhere P b) (s : SessionId)
    (address : String) (threads : Option ℚ) : Everywhere P (b.login s address threads) :=
  (drop_everywhere hP hb s).of_upstream rfl

theorem close_everywhere (hP : Stable P places) {b : Backend} (hb : Everywhere P b)
    (s : SessionId) :
    Everywhere P (b.close s) := (drop_everywhere hP hb s).of_upstream rfl

theorem get_everywhere (hP : Stable P places) {b : Backend} (hb : Everywhere P b)
    (c : Credentials) :
    Everywhere P (b.get c).2 := by
  unfold get
  split
  · exact hb
  · have hup : ∀ u j, Function.update b.upstream b.nextUpstream u j =
        if j = b.nextUpstream then u else b.upstream j := fun u => Function.update_apply _ _ _
    refine ⟨fun j => ?_, fun j => ?_⟩ <;> dsimp only <;> rw [hup] <;> split_ifs
    · rfl
    · exact hb.drained j
    · exact hP.start ..
    · exact hb.holds j

theorem resolved_everywhere (hP : Stable P places) {b : Backend} (hb : Everywhere P b) (n : CallId)
    (s : SessionId) (address : String) (threads : Option ℚ) (outcome : Except String Credentials) :
    Everywhere P (b.resolved n s address threads outcome) := by
  cases outcome with
  | error message => exact hb.of_upstream rfl
  | ok credentials =>
    have hget := get_everywhere hP hb credentials
    simp only [resolved]
    apply run_everywhere hP
    · exact hget.of_upstream rfl
    · exact (Upstream.setClient_moves _ _ _).trans
        (Upstream.attach_moves _ _ _ (Origin.owes_true _ _))

theorem settle_everywhere (hP : Stable P places) {b : Backend} (hb : Everywhere P b) (n : CallId)
    (s : SessionId) (e : Entry) (result : Except String Payload) :
    Everywhere P (b.settle n s e result) := by
  have hdetach : ∀ es, Everywhere P (run { b with entries := es } e.upstream
      ((b.upstream e.upstream).detach e.client)) := by
    intro es
    apply run_everywhere hP
    · exact hb.of_upstream rfl
    · exact Upstream.detach_moves _ _
  have key : ∀ message, Everywhere P (b.settle n s e (.error message)) := by
    intro message
    unfold settle
    dsimp only
    split_ifs
    · exact (hdetach _).of_upstream rfl
    · exact (hdetach b.entries).of_upstream rfl
  cases result with
  | error message => exact key message
  | ok payload =>
    have hfail := key "Superseded by a newer login."
    unfold settle at hfail ⊢
    dsimp only at hfail ⊢
    split_ifs at hfail ⊢
    · exact hb.of_upstream rfl
    · exact hfail

theorem chunk_everywhere (hP : Stable P places) {b : Backend} (hb : Everywhere P b) (s : SessionId)
    (job_id : String) (hashrate : Option ℚ) : Everywhere P (b.chunk s job_id hashrate) := by
  unfold chunk
  dsimp only
  cases b.entries s with
  | none => exact hb.of_upstream rfl
  | some e =>
    dsimp only
    apply run_everywhere hP
    · exact hb.of_upstream rfl
    · refine Moves.trans ?_ (Upstream.chunk_moves _ trivial job_id)
      cases hashrate with
      | none => exact Moves.refl _
      | some h =>
        dsimp only
        split_ifs
        · exact (Upstream.setClient_moves _ _ _).trans (Upstream.report_moves _ _ _)
        · exact Moves.refl _

theorem chunked_everywhere (hP : Stable P places) {b : Backend} (hb : Everywhere P b) (n : CallId)
    (e : Entry) (result : Except String ChunkReply) : Everywhere P (b.chunked n e result) := by
  unfold chunked
  split
  · exact hb.of_upstream rfl
  · dsimp only
    split
    · exact hb.of_upstream rfl
    · split
      · exact hb.of_upstream rfl
      · exact (setUpstream_everywhere hP hb (Upstream.setClient_moves _ _ _)).of_upstream rfl
  · exact hb.of_upstream rfl

theorem counted_everywhere (hP : Stable P places) {b : Backend} (hb : Everywhere P b) (e : Entry)
    (v : VarDiff) : Everywhere P (b.counted e v) := by
  unfold counted
  dsimp only
  refine run_everywhere hP hb ?_
  split_ifs
  · exact Upstream.setClient_moves _ _ _
  · exact (Upstream.setClient_moves _ _ _).trans (Upstream.report_moves _ _ _)

theorem submit_everywhere (hP : Stable P places) {b : Backend} (hb : Everywhere P b) (s : SessionId)
    (job_id nonce result : String) : Everywhere P (b.submit s job_id nonce result) := by
  unfold submit
  dsimp only
  cases b.entries s with
  | none => exact hb.of_upstream rfl
  | some e =>
    have hb' : Everywhere P { b with nextCall := b.nextCall + 1 } := hb.of_upstream rfl
    generalize ({ b with nextCall := b.nextCall + 1 } : Backend) = b' at hb'
    dsimp only
    rcases hdecide : b'.decide e nonce result with ⟨decision, v⟩
    have hcount := counted_everywhere hP hb' e v
    cases decision with
    | denied reason => exact hb'.of_upstream rfl
    | thrown =>
      dsimp only
      split_ifs
      · exact hb'.of_upstream rfl
      · exact hcount.of_upstream rfl
    | absorbed d => exact hcount.of_upstream rfl
    | forwarded d =>
      dsimp only
      cases hsub : ((b'.counted e v).upstream e.upstream).submit b.nextCall e.client job_id nonce
          result with
      | none => exact hcount.of_upstream rfl
      | some p =>
        apply run_everywhere hP
        · exact hcount.of_upstream rfl
        · exact Upstream.submit_moves hsub

theorem poolReply_everywhere (hP : Stable P places) {b : Backend} (hb : Everywhere P b) (n : CallId)
    (s : SessionId) (e : Entry) (report : ShareReport) (pool : ℕ) (stray : Bool)
    (outcome : Except String Bool) :
    Everywhere P (b.poolReply n s e report pool stray outcome) := by
  unfold poolReply
  cases outcome with
  | error message =>
    exact (run_everywhere hP hb (Upstream.rejected_moves _ stray)).of_upstream rfl
  | ok accepted =>
    dsimp only
    split_ifs
    · exact (setUpstream_everywhere hP hb (Upstream.setClient_moves _ _ _)).of_upstream rfl
    · exact hb.of_upstream rfl

theorem foldl_emit (os : List Output) (b : Backend) :
    os.foldl emit b = { b with outbox := b.outbox ++ os } := by
  induction os generalizing b with
  | nil => simp
  | cons o os ih =>
    rw [List.foldl_cons, ih]
    simp [emit]

theorem account_everywhere (hP : Stable P places) {b : Backend} (hb : Everywhere P b)
    (s : SessionId)
    (shares work actual : ℕ) : Everywhere P (b.account s shares work actual) := by
  unfold account
  split
  · exact hb
  · split_ifs
    · exact hb
    · rw [foldl_emit]
      exact (counted_everywhere hP hb _ _).of_upstream rfl

/-! ### Events -/

/-- The event leads from one backend to the other. -/
inductive Fires (b : Backend) : Action → Backend → Prop
  | login (s : SessionId) (address : String) (threads : Option ℚ) (hs : s ∉ b.closed) :
      Fires b (.login s address threads) (b.login s address threads)
  | resolved {n : CallId} {s : SessionId} {address : String} {threads : Option ℚ}
      (hcall : b.calls n = some (.resolving s address threads))
      (outcome : Except String Credentials) :
      Fires b (.resolved n outcome) (b.resolved n s address threads outcome)
  | settle {n : CallId} {s : SessionId} {e : Entry} {result : Except String Payload}
      (hcall : b.calls n = some (.attached s e result)) :
      Fires b (.settle n) (b.settle n s e result)
  | close (s : SessionId) : Fires b (.close s) (b.close s)
  | chunk (s : SessionId) (job_id : String) (hashrate : Option ℚ) (hs : s ∉ b.closed) :
      Fires b (.chunk s job_id hashrate) (b.chunk s job_id hashrate)
  | chunked {n : CallId} {e : Entry} {result : Except String ChunkReply}
      (hcall : b.calls n = some (.chunked e result)) : Fires b (.chunked n) (b.chunked n e result)
  | submit (s : SessionId) (job_id nonce result : String) (hs : s ∉ b.closed) :
      Fires b (.submit s job_id nonce result) (b.submit s job_id nonce result)
  | poolReply {n : CallId} {s : SessionId} {e : Entry} {report : ShareReport} {pool : ℕ}
      {stray : Bool} (hcall : b.calls n = some (.forwarding s e report pool stray))
      (outcome : Except String Bool) :
      Fires b (.poolReply n outcome) (b.poolReply n s e report pool stray outcome)
  | account (s : SessionId) (shares work actual : ℕ) (hs : s ∉ b.closed) :
      Fires b (.account s shares work actual) (b.account s shares work actual)
  | upstream {i : UpstreamId} {a : Upstream.Action} {u : Upstream} (ha : autonomous a = true)
      (hu : (b.upstream i).step a = some u) : Fires b (.upstream i a) (b.run i u)
  | tick (ms : ℕ) : Fires b (.tick ms) { b with
      now := b.now + ms, upstream := fun i => { b.upstream i with now := b.now + ms } }

theorem step_fires {b b' : Backend} {a : Action} (h : b.step a = some b') : b.Fires a b' := by
  cases a with
  | login s address threads =>
    simp only [step] at h
    split_ifs at h with hs
    exact Option.some.inj h ▸ .login s address threads hs
  | resolved n outcome =>
    simp only [step] at h
    split at h
    · rename_i hcall
      exact Option.some.inj h ▸ .resolved hcall outcome
    · exact absurd h (by simp)
  | settle n =>
    simp only [step] at h
    split at h
    · rename_i hcall
      exact Option.some.inj h ▸ .settle hcall
    · exact absurd h (by simp)
  | close s => exact Option.some.inj h ▸ .close s
  | chunk s job_id hashrate =>
    simp only [step] at h
    split_ifs at h with hs
    exact Option.some.inj h ▸ .chunk s job_id hashrate hs
  | chunked n =>
    simp only [step] at h
    split at h
    · rename_i hcall
      exact Option.some.inj h ▸ .chunked hcall
    · exact absurd h (by simp)
  | submit s job_id nonce result =>
    simp only [step] at h
    split_ifs at h with hs
    exact Option.some.inj h ▸ .submit s job_id nonce result hs
  | poolReply n outcome =>
    simp only [step] at h
    split at h
    · rename_i hcall
      exact Option.some.inj h ▸ .poolReply hcall outcome
    · exact absurd h (by simp)
  | account s shares work actual =>
    simp only [step] at h
    split_ifs at h with hs
    exact Option.some.inj h ▸ .account s shares work actual hs
  | upstream i a =>
    simp only [step] at h
    split_ifs at h with ha
    obtain ⟨u, hu, rfl⟩ := Option.map_eq_some_iff.mp h
    exact .upstream ha hu
  | tick ms => exact Option.some.inj h ▸ .tick ms

/-- A job arrives on the link of the upstream. -/
def arrives (b : Backend) (i : UpstreamId) (l : LinkId) : Action → Bool
  | .upstream j a => j = i && (b.upstream i).arrives l a
  | _ => false

theorem step_everywhere (hP : Stable P places) {b b' : Backend} {a : Action} (hb : Everywhere P b)
    (hp : ∀ i l, b.arrives i l a = true → places i l) (h : step b a = some b') :
    Everywhere P b' := by
  cases step_fires h with
  | login s address threads _ => exact login_everywhere hP hb s address threads
  | resolved _ outcome => exact resolved_everywhere hP hb _ _ _ _ outcome
  | settle _ => exact settle_everywhere hP hb _ _ _ _
  | close s => exact close_everywhere hP hb s
  | chunk s job_id hashrate _ => exact chunk_everywhere hP hb s job_id hashrate
  | chunked _ => exact chunked_everywhere hP hb _ _ _
  | submit s job_id nonce result _ => exact submit_everywhere hP hb s job_id nonce result
  | poolReply _ outcome => exact poolReply_everywhere hP hb _ _ _ _ _ _ outcome
  | account s shares work actual _ => exact account_everywhere hP hb s shares work actual
  | @upstream i a u ha hu =>
    apply run_everywhere hP hb
    refine Upstream.step_moves (Upstream.owed_true _) a.owes_true ?_ hu
    exact fun l hl => hp i l (by simp [arrives, hl])
  | tick ms =>
    refine ⟨hb.drained, fun i => hP.moves i _ _ ?_ (hb.holds i)⟩
    exact Upstream.Keeps.moves (Upstream.Keeps.of_same rfl rfl rfl rfl fun _ => rfl)

end Backend

namespace Cluster

open Backend (Everywhere Stable)

variable {P : UpstreamId → Upstream → Prop} {places : UpstreamId → LinkId → Prop}

theorem handle_everywhere (hP : Stable P places) {c : Cluster} (hc : Everywhere P c.backend)
    (m : Up) : Everywhere P (c.handle m).backend := by
  cases m with
  | acc ts =>
    simp only [handle]
    induction ts generalizing c with
    | nil => exact hc
    | cons p ts ih =>
      refine ih ?_
      unfold account
      split_ifs
      · exact Backend.account_everywhere hP hc _ _ _ _
      · exact hc
  | bye s =>
    simp only [handle]
    split_ifs
    · exact Backend.close_everywhere hP hc s
    · exact hc
  | sub s job_id nonce result id =>
    simp only [handle]
    by_cases hhub : s ∈ c.hub
    · rw [if_pos hhub]
      exact Backend.submit_everywhere hP hc s job_id nonce result
    · rw [if_neg hhub]
      exact hc
  | login i s address threads => exact Backend.login_everywhere hP hc s address threads
  | chunk i s job_id hashrate => exact Backend.chunk_everywhere hP hc s job_id hashrate
  | submit i s job_id nonce result => exact Backend.submit_everywhere hP hc s job_id nonce result

theorem go_backend (c : Cluster) (a : Backend.Action) (b : Backend) : (c.go a b).backend = b := by
  cases a with
  | poolReply n outcome =>
    simp only [go]
    split <;> rfl
  | _ => rfl

/-- The event leads from one cluster to the other. -/
inductive Fires (c : Cluster) : Action → Cluster → Prop
  | login (s : SessionId) (address : String) (threads : Option ℚ) (hs : s ∉ c.gone)
      (hown : c.own s = true) :
      Fires c (.login s address threads) { c.call .login (fun i => .login i s address threads) with
        sessions := insert s c.sessions }
  | chunk (s : SessionId) (job_id : String) (hashrate : Option ℚ) (hs : s ∉ c.gone)
      (hlogged : c.logged s ≠ none) :
      Fires c (.chunk s job_id hashrate) (c.call .chunk fun i => .chunk i s job_id hashrate)
  | submit {s : SessionId} (job_id nonce result : String) {login : ℕ} (hs : s ∉ c.gone)
      (hlogged : c.logged s = some login) :
      Fires c (.submit s job_id nonce result) (c.submit s login job_id nonce result)
  | flush : Fires c .flush c.flush
  | close (s : SessionId) (hown : c.own s = true) : Fires c (.close s) (c.close s)
  | hear {m : Down} {ms : List Down} (hdown : c.down = m :: ms) :
      Fires c .hear (hear { c with down := ms } m)
  | expire (i : ℕ) (hpending : c.pending i ≠ none) :
      Fires c (.expire i) { c with pending := Function.update c.pending i none }
  | handle {m : Up} {ms : List Up} (hup : c.up = m :: ms) :
      Fires c .handle (handle { c with up := ms } m).pump
  | backend {a : Backend.Action} {b : Backend} (ha : c.foreign a = true)
      (hb : c.backend.step a = some b) : Fires c (.backend a) (c.go a b).pump

theorem step_fires {c c' : Cluster} {a : Action} (h : c.step a = some c') : c.Fires a c' := by
  cases a with
  | login s address threads =>
    simp only [step] at h
    split_ifs at h with hs
    rw [not_or, Bool.not_eq_false] at hs
    exact Option.some.inj h ▸ .login s address threads hs.1 hs.2
  | chunk s job_id hashrate =>
    simp only [step] at h
    split_ifs at h with hs
    rw [not_or] at hs
    exact Option.some.inj h ▸ .chunk s job_id hashrate hs.1 hs.2
  | submit s job_id nonce result =>
    simp only [step] at h
    split_ifs at h with hs
    obtain ⟨login, hlogged, rfl⟩ := Option.map_eq_some_iff.mp h
    exact .submit job_id nonce result hs hlogged
  | flush => exact Option.some.inj h ▸ .flush
  | close s =>
    simp only [step] at h
    split_ifs at h with hown
    exact Option.some.inj h ▸ .close s hown
  | hear =>
    simp only [step] at h
    split at h
    · exact absurd h (by simp)
    · rename_i hdown
      exact Option.some.inj h ▸ .hear hdown
  | expire i =>
    simp only [step] at h
    split_ifs at h with hpending
    exact Option.some.inj h ▸ .expire i hpending
  | handle =>
    simp only [step] at h
    split at h
    · exact absurd h (by simp)
    · rename_i hup
      exact Option.some.inj h ▸ .handle hup
  | backend a =>
    simp only [step] at h
    split_ifs at h with ha
    obtain ⟨b, hb, rfl⟩ := Option.map_eq_some_iff.mp h
    exact .backend ha hb

/-- The event is one of the primary. -/
def Action.primary : Action → Bool
  | .handle => true
  | .backend _ => true
  | _ => false

theorem flush_backend (c : Cluster) : c.flush.backend = c.backend := by
  unfold flush
  split_ifs <;> rfl

theorem hear_backend (c : Cluster) (m : Down) : (c.hear m).backend = c.backend := by
  cases m with
  | reply i s result =>
    simp only [hear]
    cases c.pending i with
    | none => rfl
    | some method => cases result with
      | error message => rfl
      | ok reply =>
        dsimp only
        split_ifs <;> rfl
  | job s payload =>
    simp only [hear]
    split_ifs <;> rfl
  | kill s message => rfl

/-- The worker and the edge leave the backend alone. -/
theorem Fires.backend_eq {c c' : Cluster} {a : Action} (h : c.Fires a c')
    (ha : a.primary = false) : c'.backend = c.backend := by
  cases h with
  | submit job_id nonce result _ _ =>
    simp only [Cluster.submit]
    split <;> rfl
  | flush => exact flush_backend c
  | close s _ =>
    unfold Cluster.close
    dsimp only
    split_ifs
    · exact flush_backend c
    · rfl
  | hear _ => exact hear_backend _ _
  | handle _ => cases ha
  | backend _ _ => cases ha
  | _ => rfl

/-- A job arrives on the link of the upstream. -/
def arrives (c : Cluster) (i : UpstreamId) (l : LinkId) : Action → Bool
  | .backend a => c.backend.arrives i l a
  | _ => false

theorem step_everywhere (hP : Stable P places) {c c' : Cluster} {a : Action}
    (hc : Everywhere P c.backend) (hp : ∀ i l, c.arrives i l a = true → places i l)
    (h : c.step a = some c') : Everywhere P c'.backend := by
  have hsame := (step_fires h).backend_eq
  cases step_fires h with
  | @handle m ms _ =>
    have hhandle : Everywhere P (handle { c with up := ms } m).backend := by
      apply handle_everywhere hP
      exact hc
    exact hhandle.of_upstream rfl
  | @backend ba b _ hb =>
    have hstep := Backend.step_everywhere hP hc hp hb
    refine hstep.of_upstream ?_
    change (c.go ba b).backend.upstream = b.upstream
    rw [go_backend]
  | _ =>
    rw [hsame rfl]
    exact hc

end Cluster

end NMiner
