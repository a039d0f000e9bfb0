import NMiner.Proofs.Everywhere

/-! Every range that the backend hands out, pushed to a session or in the answer to a call, has been
recorded for a client of that session. A call that awaits its upstream stands for the client of
its entry, and a suspended call of an upstream is for that client. -/

namespace NMiner

open Upstream (Moves)

/-- The call may settle for this client of the upstream. -/
def Call.At (i : UpstreamId) (c : ClientId) : Call → Prop
  | .resolving _ _ _ => False
  | .attaching _ e => e.client = c ∧ e.upstream = i
  | .chunking e => e.client = c ∧ e.upstream = i
  | _ => True

/-- The range that a reply hands out. -/
def Reply.range : Reply → Option Grant
  | .job p => some p.range
  | .retuned p => some p.range
  | .chunk (.range g) => some g
  | _ => none

/-- No event happens by itself: there are no links and no suspended calls. -/
structure Upstream.Blank (u : Upstream) : Prop where
  links : u.links = []
  tasks : u.tasks = []
  plug : ∀ l, (u.link l).plug = .absent
  opening : ∀ l, (u.link l).opening = .idle

namespace Backend

/-- An upstream has recorded the range for a client of the session. -/
def GrantedTo (b : Backend) (s : SessionId) (g : Grant) : Prop :=
  ∃ i c e, i < b.nextUpstream ∧ b.owner c = some (s, e) ∧ (b.upstream i).Issues c g

/-- The call with this number has been made and may settle for this client of the upstream. -/
structure Stands (b : Backend) (i : UpstreamId) (n : CallId) (c : ClientId) : Prop where
  lt : n < b.nextCall
  call : ∀ call, b.calls n = some call → call.At i c

/-- The call is one of the session that asks, if a session of the worker asks, and what it has
settled to is a range of that session. -/
def Fair (b : Backend) (asks : Option SessionId) : Call → Prop
  | .resolving s _ _ => ∀ s' ∈ asks, s = s'
  | .attaching s e => b.owner e.client = some (s, e) ∧ ∀ s' ∈ asks, s = s'
  | .attached s e r => b.owner e.client = some (s, e) ∧ (∀ s' ∈ asks, s = s') ∧
      ∀ p, r = .ok p → b.GrantedTo s p.range
  | .chunking e => ∃ s, b.owner e.client = some (s, e) ∧ ∀ s' ∈ asks, s = s'
  | .chunked e r => ∃ s, b.owner e.client = some (s, e) ∧ (∀ s' ∈ asks, s = s') ∧
      ∀ g, r = .ok (.range g) → b.GrantedTo s g
  | .forwarding s e _ _ _ => b.owner e.client = some (s, e)

/-- What is put out for a session are ranges of that session. -/
def Honors (whose : CallId → Option SessionId) (b : Backend) : Output → Prop
  | .push s p => b.GrantedTo s p.range
  | .reply n (.ok r) => ∀ s ∈ whose n, ∀ g ∈ r.range, b.GrantedTo s g
  | _ => True

/-- The ranges handed out go to sessions that they were recorded for, as those of the `past` did. -/
structure Vouching (whose : CallId → Option SessionId) (past : SessionId → Grant → Prop)
    (b : Backend) : Prop where
  drained : ∀ i, (b.upstream i).outbox = []
  blank : ∀ i, b.nextUpstream ≤ i → (b.upstream i).Blank
  pools : ∀ p ∈ b.pools, p.2 < b.nextUpstream
  numbered : ∀ n, b.calls n ≠ none → n < b.nextCall
  owned : ∀ c s e, b.owner c = some (s, e) →
    e.client = c ∧ c < b.nextClient ∧ e.upstream < b.nextUpstream
  entry : ∀ s e, b.entries s = some e → b.owner e.client = some (s, e)
  owed : ∀ i, (b.upstream i).Owed (b.Stands i)
  calls : ∀ n call, b.calls n = some call → b.Fair (whose n) call
  out : ∀ o ∈ b.outbox, b.Honors whose o
  kept : ∀ s g, past s g → b.GrantedTo s g

/-! ### Parts of the steps -/

/-- Owners stay, and so do the ranges that have been recorded and the callers of suspended calls. -/
structure Widens (b b' : Backend) : Prop where
  owner : ∀ c x, b.owner c = some x → b'.owner c = some x
  nextUpstream : b.nextUpstream ≤ b'.nextUpstream
  issues : ∀ i c g, i < b.nextUpstream → (b.upstream i).Issues c g → (b'.upstream i).Issues c g
  stands : ∀ i n c, b.Stands i n c → b'.Stands i n c

variable {whose : CallId → Option SessionId} {past : SessionId → Grant → Prop}
  {b b' : Backend}

theorem Widens.refl (b : Backend) : Widens b b :=
  ⟨fun _ _ h => h, le_rfl, fun _ _ _ _ h => h, fun _ _ _ h => h⟩

theorem Widens.trans {b'' : Backend} (h : Widens b b') (h' : Widens b' b'') : Widens b b'' := by
  refine ⟨fun c x hc => h'.owner c x (h.owner c x hc), h.nextUpstream.trans h'.nextUpstream,
    fun i c g hi hg => ?_, fun i n c hs => h'.stands i n c (h.stands i n c hs)⟩
  exact h'.issues i c g (hi.trans_le h.nextUpstream) (h.issues i c g hi hg)

theorem Widens.granted (h : Widens b b') {s : SessionId} {g : Grant} (hg : b.GrantedTo s g) :
    b'.GrantedTo s g := by
  obtain ⟨i, c, e, hi, howner, hissues⟩ := hg
  exact ⟨i, c, e, hi.trans_le h.nextUpstream, h.owner c _ howner, h.issues i c g hi hissues⟩

theorem Widens.fair (h : Widens b b') {asks : Option SessionId} {call : Call}
    (hc : b.Fair asks call) : b'.Fair asks call := by
  cases call with
  | resolving s address threads => exact hc
  | attaching s e => exact ⟨h.owner _ _ hc.1, hc.2⟩
  | attached s e r => exact ⟨h.owner _ _ hc.1, hc.2.1, fun p hp => h.granted (hc.2.2 p hp)⟩
  | chunking e =>
    obtain ⟨s, howner, hs⟩ := hc
    exact ⟨s, h.owner _ _ howner, hs⟩
  | chunked e r =>
    obtain ⟨s, howner, hs, hg⟩ := hc
    exact ⟨s, h.owner _ _ howner, hs, fun g hr => h.granted (hg g hr)⟩
  | forwarding s e report pool stray => exact h.owner _ _ hc

theorem Widens.honors (h : Widens b b') {o : Output} (ho : b.Honors whose o) :
    b'.Honors whose o := by
  unfold Honors at ho ⊢
  split at ho
  · exact h.granted ho
  · exact fun s hs g hg => h.granted (ho s hs g hg)
  · trivial

/-- Registry, clients and upstreams stay as they are. -/
structure Settled (b b' : Backend) : Prop where
  upstream : b'.upstream = b.upstream
  nextUpstream : b'.nextUpstream = b.nextUpstream
  pools : b'.pools ⊆ b.pools
  owner : b'.owner = b.owner
  nextClient : b'.nextClient = b.nextClient

/-- What remains to be shown of a change that leaves registry, clients and upstreams alone. -/
theorem Vouching.of_settled (hb : Vouching whose past b) (h : Settled b b') (hwiden : Widens b b')
    (hnumbered : ∀ n, b'.calls n ≠ none → n < b'.nextCall)
    (hentries : ∀ s e, b'.entries s = some e → b.owner e.client = some (s, e))
    (hcalls : ∀ n call, b'.calls n = some call → b.calls n = some call ∨ b'.Fair (whose n) call)
    (hout : ∀ o ∈ b'.outbox, o ∈ b.outbox ∨ b'.Honors whose o) : Vouching whose past b' := by
  refine ⟨?_, ?_, ?_, hnumbered, ?_, ?_, ?_, ?_, ?_, fun s g hg => hwiden.granted (hb.kept s g hg)⟩
  · rw [h.upstream]
    exact hb.drained
  · rw [h.upstream, h.nextUpstream]
    exact hb.blank
  · intro p hp
    rw [h.nextUpstream]
    exact hb.pools p (h.pools hp)
  · rw [h.owner, h.nextClient, h.nextUpstream]
    exact hb.owned
  · rw [h.owner]
    exact hentries
  · intro i
    rw [h.upstream]
    exact (hb.owed i).mono fun n c => hwiden.stands i n c
  · intro n call hn
    exact (hcalls n call hn).elim (fun hold => hwiden.fair (hb.calls n call hold)) id
  · intro o ho
    exact (hout o ho).elim (fun hold => hwiden.honors (hb.out o hold)) id

theorem Settled.widens (h : Settled b b') (hstands : ∀ i n c, b.Stands i n c → b'.Stands i n c) :
    Widens b b' :=
  ⟨fun _ _ ho => h.owner ▸ ho, h.nextUpstream.ge, fun _ _ _ _ hg => h.upstream ▸ hg, hstands⟩

/-- Nothing changes but what no range depends on, or an entry goes. -/
theorem Vouching.of_same (hb : Vouching whose past b) (h : Settled b b')
    (hcalls : b'.calls = b.calls)
    (hnextCall : b.nextCall ≤ b'.nextCall)
    (hentries : ∀ s e, b'.entries s = some e → b.entries s = some e)
    (hout : ∀ o ∈ b'.outbox, o ∈ b.outbox ∨ b.Honors whose o) : Vouching whose past b' := by
  have hwiden : Widens b b' :=
    h.widens fun i n c hs => ⟨hs.lt.trans_le hnextCall, hcalls ▸ hs.call⟩
  refine hb.of_settled h hwiden ?_ (fun s e he => hb.entry s e (hentries s e he)) ?_ ?_
  · intro n hn
    rw [hcalls] at hn
    exact (hb.numbered n hn).trans_le hnextCall
  · intro n call hn
    exact Or.inl (hcalls ▸ hn)
  · exact fun o ho => (hout o ho).imp_right hwiden.honors

theorem emit_vouching (hb : Vouching whose past b) {o : Output} (ho : b.Honors whose o) :
    Vouching whose past (b.emit o) := by
  refine hb.of_same ⟨rfl, rfl, List.Subset.refl _, rfl, rfl⟩ rfl le_rfl (fun _ _ he => he) ?_
  intro o' ho'
  rcases List.mem_append.mp ho' with ho' | ho'
  · exact Or.inl ho'
  · rw [List.mem_singleton.mp ho']
    exact Or.inr ho

/-- A call goes on or ends, and may still settle for the same clients. -/
theorem setCall_widens {n : CallId} {x : Option Call}
    (hat : ∀ i c, b.Stands i n c → ∀ call ∈ x, call.At i c) : Widens b (b.setCall n x) := by
  refine Settled.widens ⟨rfl, rfl, List.Subset.refl _, rfl, rfl⟩ fun i m c hs => ⟨hs.lt, ?_⟩
  intro call hcall
  change Function.update b.calls n x m = some call at hcall
  by_cases hm : m = n
  · subst hm
    rw [Function.update_self] at hcall
    exact hat i c hs call hcall
  · rw [Function.update_of_ne hm] at hcall
    exact hs.call call hcall

theorem setCall_vouching (hb : Vouching whose past b) {n : CallId} {x : Option Call}
    (hn : n < b.nextCall) (hfair : ∀ call ∈ x, b.Fair (whose n) call)
    (hat : ∀ i c, b.Stands i n c → ∀ call ∈ x, call.At i c) :
    Vouching whose past (b.setCall n x) := by
  have hwiden := setCall_widens hat
  have hcalls : ∀ m, (b.setCall n x).calls m = if m = n then x else b.calls m :=
    Function.update_apply _ _ _
  refine hb.of_settled ⟨rfl, rfl, List.Subset.refl _, rfl, rfl⟩ hwiden (fun m hm => ?_) hb.entry
    (fun m call hm => ?_) fun o ho => Or.inl ho
  · rw [hcalls] at hm
    split_ifs at hm with heq
    · exact heq ▸ hn
    · exact hb.numbered m hm
  · rw [hcalls] at hm
    split_ifs at hm with heq
    · rw [heq]
      exact Or.inr (hwiden.fair (hfair call hm))
    · exact Or.inl hm

/-- A new call is made. -/
theorem begin_vouching (hb : Vouching whose past b) {call : Call}
    (hfair : b.Fair (whose b.nextCall) call) :
    Vouching whose past { b.setCall b.nextCall (some call) with nextCall := b.nextCall + 1 } := by
  have hcalls : ∀ m, Function.update b.calls b.nextCall (some call) m =
      if m = b.nextCall then some call else b.calls m := Function.update_apply _ _ _
  have hsettled : Settled b { b.setCall b.nextCall (some call) with nextCall := b.nextCall + 1 } :=
    ⟨rfl, rfl, List.Subset.refl _, rfl, rfl⟩
  -- the number is new, so that no suspended call has it
  have hwiden := hsettled.widens fun i n c hs => by
    refine ⟨Nat.lt_succ_of_lt hs.lt, fun call' hcall => hs.call call' ?_⟩
    exact (Function.update_of_ne hs.lt.ne _ _).symm.trans hcall
  refine hb.of_settled hsettled hwiden (fun m hm => ?_) hb.entry (fun m call' hm => ?_)
    fun o ho => Or.inl ho
  · refine Nat.lt_succ_of_le ?_
    by_cases heq : m = b.nextCall
    · exact heq.le
    · exact (hb.numbered m fun hnone => hm ((hcalls m).trans (by rw [if_neg heq, hnone]))).le
  · have hm' := (hcalls m).symm.trans hm
    split_ifs at hm' with heq
    · obtain rfl := Option.some.inj hm'
      rw [heq]
      exact Or.inr (hwiden.fair hfair)
    · exact Or.inl hm'

theorem answer_vouching (hb : Vouching whose past b) {n : CallId} (hn : n < b.nextCall)
    {result : Except String Reply} (h : b.Honors whose (.reply n result)) :
    Vouching whose past (b.answer n result) := by
  have hwiden : Widens b (b.setCall n none) := setCall_widens (by simp)
  exact emit_vouching (setCall_vouching hb hn (by simp) (by simp)) (hwiden.honors h)

/-! ### Upstreams -/

theorem setUpstream_apply (b : Backend) (i : UpstreamId) (u : Upstream) (j : UpstreamId) :
    (b.setUpstream i u).upstream j = if j = i then { u with outbox := [] } else b.upstream j :=
  Function.update_apply b.upstream i _ j

theorem setUpstream_vouching (hb : Vouching whose past b) {i : UpstreamId} (hi : i < b.nextUpstream)
    {u : Upstream} (hu : Moves (b.Stands i) (fun _ => True) (b.upstream i) u) :
    Vouching whose past (b.setUpstream i u) ∧ Widens b (b.setUpstream i u) := by
  have hwiden : Widens b (b.setUpstream i u) := by
    refine ⟨fun _ _ h => h, le_rfl, fun j c g _ hg => ?_, fun _ _ _ h => ⟨h.lt, h.call⟩⟩
    rw [setUpstream_apply]
    split_ifs with hj
    · subst hj
      exact hu.issues hg
    · exact hg
  refine ⟨⟨fun j => ?_, fun j hj => ?_, hb.pools, hb.numbered, hb.owned, hb.entry, fun j => ?_,
    fun n call hn => hwiden.fair (hb.calls n call hn), fun o ho => hwiden.honors (hb.out o ho),
    fun s g hg => hwiden.granted (hb.kept s g hg)⟩, hwiden⟩
  · rw [setUpstream_apply]
    split_ifs
    · rfl
    · exact hb.drained j
  · rw [setUpstream_apply, if_neg (hi.trans_le hj).ne']
    exact hb.blank j hj
  · rw [setUpstream_apply]
    split_ifs with hj
    · subst hj
      have hout : ∀ d ∈ (b.upstream j).outbox, (b.upstream j).Vouched (b.Stands j) d := by
        rw [hb.drained]
        exact fun d hd => absurd hd List.not_mem_nil
      exact Upstream.Owed.mono (hu.honest ⟨hb.owed j, hout⟩).owed fun n c => hwiden.stands j n c
    · exact (hb.owed j).mono fun n c => hwiden.stands j n c

theorem retire_vouching (hb : Vouching whose past b) {i : UpstreamId} (hi : i < b.nextUpstream) :
    Vouching whose past (b.retire i) ∧ Widens b (b.retire i) := by
  unfold retire
  split_ifs
  · obtain ⟨hset, hwiden⟩ := setUpstream_vouching hb hi
      (Upstream.close_moves (b.upstream i))
    have hsilent : ({ (b.upstream i).close with outbox := [] } : Upstream) =
      (b.upstream i).close := by
      rw [← hb.drained i]
      rfl
    unfold setUpstream at hset hwiden
    rw [hsilent] at hset hwiden
    refine ⟨hset.of_same ⟨rfl, rfl, List.filter_subset_self _, rfl, rfl⟩ rfl le_rfl
      (fun _ _ he => he) fun o ho => Or.inl ho, ?_⟩
    exact ⟨hwiden.owner, hwiden.nextUpstream, hwiden.issues, fun j n c hs =>
      ⟨(hwiden.stands j n c hs).lt, (hwiden.stands j n c hs).call⟩⟩
  · exact ⟨hb, .refl b⟩

theorem emit_widens (b : Backend) (o : Output) : Widens b (b.emit o) :=
  ⟨fun _ _ h => h, le_rfl, fun _ _ _ _ h => h, fun _ _ _ h => ⟨h.lt, h.call⟩⟩

/-- What the upstream delivers is for the session of the client that it was recorded for. -/
theorem deliver_vouching (hb : Vouching whose past b) {i : UpstreamId} (hi : i < b.nextUpstream)
    {d : Delivery} (hd : (b.upstream i).Vouched (b.Stands i) d) :
    Vouching whose past (b.deliver i d) ∧ Widens b (b.deliver i d) := by
  have hgoes : ∀ n (x : Call), n < b.nextCall → b.Fair (whose n) x → (∀ j c, x.At j c) →
      Vouching whose past (b.setCall n (some x)) ∧ Widens b (b.setCall n (some x)) := by
    intro n x hn hx hat
    have hx' : ∀ j c, b.Stands j n c → ∀ call ∈ some x, call.At j c := by
      rintro j c - call ⟨⟩
      exact hat j c
    refine ⟨setCall_vouching hb hn ?_ hx', setCall_widens hx'⟩
    rintro call ⟨⟩
    exact hx
  cases d with
  | job c payload =>
    simp only [deliver]
    split
    · rename_i s e howner
      have hgranted : b.GrantedTo s payload.range := ⟨i, c, e, hi, howner, hd⟩
      exact ⟨emit_vouching hb hgranted, emit_widens b _⟩
    · exact ⟨hb, .refl b⟩
  | drop c message =>
    simp only [deliver]
    split
    · exact ⟨emit_vouching hb trivial, emit_widens b _⟩
    · exact ⟨hb, .refl b⟩
  | attached n result =>
    simp only [deliver]
    split
    · rename_i s e hcall
      obtain ⟨howner, hs⟩ := hb.calls n _ hcall
      refine hgoes n _ (hb.numbered n (by rw [hcall]; simp)) ⟨howner, hs, ?_⟩ fun _ _ => trivial
      rintro p rfl
      obtain ⟨c, hstands, hissues⟩ := hd
      obtain ⟨hc, -⟩ := hstands.call _ hcall
      exact ⟨i, c, e, hi, hc ▸ howner, hissues⟩
    · exact ⟨hb, .refl b⟩
  | chunked n result =>
    simp only [deliver]
    split
    · rename_i e hcall
      obtain ⟨s, howner, hs⟩ := hb.calls n _ hcall
      refine hgoes n _ (hb.numbered n (by rw [hcall]; simp)) ⟨s, howner, hs, ?_⟩ fun _ _ => trivial
      rintro g rfl
      obtain ⟨c, hstands, hissues⟩ := hd
      obtain ⟨hc, -⟩ := hstands.call _ hcall
      exact ⟨i, c, e, hi, hc ▸ howner, hissues⟩
    · exact ⟨hb, .refl b⟩
  | submitted n l job_id nonce result => exact ⟨emit_vouching hb trivial, emit_widens b _⟩
  | retired => exact retire_vouching hb hi

theorem run_vouching (hb : Vouching whose past b) {i : UpstreamId} (hi : i < b.nextUpstream)
    {u : Upstream} (hu : Moves (b.Stands i) (fun _ => True) (b.upstream i) u) :
    Vouching whose past (b.run i u) ∧ Widens b (b.run i u) := by
  have key : ∀ (ds : List Delivery) (b : Backend), Vouching whose past b → i < b.nextUpstream →
      (∀ d ∈ ds, (b.upstream i).Vouched (b.Stands i) d) →
        Vouching whose past (ds.foldl (fun b d => b.deliver i d) b) ∧
          Widens b (ds.foldl (fun b d => b.deliver i d) b) := by
    intro ds
    induction ds with
    | nil => exact fun b h _ _ => ⟨h, .refl b⟩
    | cons d ds ih =>
      intro b hb hi hds
      obtain ⟨hb', hwiden⟩ := deliver_vouching hb hi (hds d List.mem_cons_self)
      have hrest : ∀ d' ∈ ds, ((b.deliver i d).upstream i).Vouched ((b.deliver i d).Stands i) d' :=
        fun d' hd' => (hds d' (List.mem_cons_of_mem _ hd')).mono
          (fun c g => hwiden.issues i c g hi) fun n c => hwiden.stands i n c
      exact (ih _ hb' (hi.trans_le hwiden.nextUpstream) hrest).imp_right hwiden.trans
  obtain ⟨hset, hwiden⟩ := setUpstream_vouching hb hi hu
  have hout : ∀ d ∈ (b.upstream i).outbox, (b.upstream i).Vouched (b.Stands i) d := by
    rw [hb.drained]
    exact fun d hd => absurd hd List.not_mem_nil
  refine (key _ _ hset hi fun d hd => ?_).imp_right hwiden.trans
  refine ((hu.honest ⟨hb.owed i, hout⟩).vouched d hd).mono (fun c g hg => ?_) fun n c =>
    hwiden.stands i n c
  rw [setUpstream_apply, if_pos rfl]
  exact hg

theorem run_nextCall (b : Backend) (i : UpstreamId) (u : Upstream) :
    (b.run i u).nextCall = b.nextCall := by
  have hdeliver : ∀ (b : Backend) (d : Delivery), (b.deliver i d).nextCall = b.nextCall := by
    intro b d
    cases d with
    | job c payload =>
      simp only [deliver]
      split <;> rfl
    | drop c message =>
      simp only [deliver]
      split <;> rfl
    | attached n result =>
      simp only [deliver]
      split <;> rfl
    | chunked n result =>
      simp only [deliver]
      split <;> rfl
    | submitted n l job_id nonce result => rfl
    | retired =>
      simp only [deliver, retire]
      split_ifs <;> rfl
  refine List.foldlRecOn (motive := fun b' : Backend => b'.nextCall = b.nextCall) _ _ rfl ?_
  exact fun b' hb' d _ => (hdeliver b' d).trans hb'

/-! ### Login and close -/

theorem entry_lt (hb : Vouching whose past b) {c : ClientId} {s : SessionId} {e : Entry}
    (h : b.owner c = some (s, e)) : e.upstream < b.nextUpstream := (hb.owned c s e h).2.2

theorem entries_of_cleared {s s' : SessionId} {e : Entry}
    (h : Function.update b.entries s none s' = some e) : b.entries s' = some e := by
  rw [Function.update_apply] at h
  split_ifs at h
  exact h

theorem clear_vouching (hb : Vouching whose past b) (s : SessionId) :
    Vouching whose past { b with entries := Function.update b.entries s none } :=
  hb.of_same ⟨rfl, rfl, List.Subset.refl _, rfl, rfl⟩ rfl le_rfl
    (fun _ _ he => entries_of_cleared he) fun _ ho => Or.inl ho

theorem drop_vouching (hb : Vouching whose past b) (s : SessionId) :
    Vouching whose past (b.drop s) := by
  unfold drop
  split
  · exact hb
  · rename_i e he
    exact (run_vouching (clear_vouching hb s)
      (entry_lt hb (hb.entry s e he)) (Upstream.detach_moves _ _)).1

theorem drop_nextCall (b : Backend) (s : SessionId) : (b.drop s).nextCall = b.nextCall := by
  unfold drop
  split
  · rfl
  · exact run_nextCall _ _ _

theorem login_vouching (hb : Vouching whose past b) {s : SessionId}
    (hs : ∀ s' ∈ whose b.nextCall, s = s') (address : String) (threads : Option ℚ) :
    Vouching whose past (b.login s address threads) := by
  have hdrop : Vouching whose past { b.drop s with logged := Function.update b.logged s false } :=
    (drop_vouching hb s).of_same ⟨rfl, rfl, List.Subset.refl _, rfl, rfl⟩ rfl le_rfl
      (fun _ _ he => he) fun _ ho => Or.inl ho
  rw [← drop_nextCall b s] at hs
  have hfair : Fair { b.drop s with logged := Function.update b.logged s false }
      (whose (b.drop s).nextCall) (.resolving s address threads) := hs
  exact begin_vouching hdrop hfair

theorem close_vouching (hb : Vouching whose past b) (s : SessionId) :
    Vouching whose past (b.close s) :=
  (drop_vouching hb s).of_same ⟨rfl, rfl, List.Subset.refl _, rfl, rfl⟩ rfl le_rfl
    (fun _ _ he => he) fun _ ho => Or.inl ho

/-- Nothing has been recorded at a new upstream. -/
theorem get_vouching (hb : Vouching whose past b) (c : Credentials) :
    Vouching whose past (b.get c).2 ∧ (b.get c).1 < (b.get c).2.nextUpstream ∧
      (b.get c).2.calls = b.calls ∧ (b.get c).2.nextClient = b.nextClient := by
  unfold get
  cases hfind : b.pools.find? fun p => p.1 = c.key with
  | some p => exact ⟨hb, hb.pools p (List.mem_of_find?_eq_some hfind), rfl, rfl⟩
  | none =>
    dsimp only
    generalize hfresh : Upstream.start b.maxLinks b.idleTimeout b.expand b.now (fun _ =>
      ({ hashrate := 1000, vardiff := VarDiff.new 1000 b.now } : Client)) = fresh
    have hup : ∀ i, Function.update b.upstream b.nextUpstream fresh i =
        if i = b.nextUpstream then fresh else b.upstream i := Function.update_apply _ _ _
    have hwiden : Widens b { b with
        upstream := Function.update b.upstream b.nextUpstream fresh
        pools := b.pools ++ [(c.key, b.nextUpstream)], nextUpstream := b.nextUpstream + 1 } := by
      refine ⟨fun _ _ h => h, Nat.le_succ _, fun i x g hi hg => ?_, fun _ _ _ h => ⟨h.lt, h.call⟩⟩
      dsimp only
      rw [hup, if_neg hi.ne]
      exact hg
    refine ⟨⟨fun i => ?_, fun i hi => ?_, fun p hp => ?_, hb.numbered, fun x s e h => ?_, hb.entry,
      fun i => ?_, fun n call hn => hwiden.fair (hb.calls n call hn),
      fun o ho => hwiden.honors (hb.out o ho),
    fun s g hg => hwiden.granted (hb.kept s g hg)⟩, Nat.lt_succ_self _, rfl, rfl⟩
    · dsimp only
      rw [hup]
      split_ifs
      · rw [← hfresh]
        rfl
      · exact hb.drained i
    · dsimp only at hi ⊢
      rw [hup, if_neg (Nat.lt_of_succ_le hi).ne']
      exact hb.blank i (Nat.le_of_succ_le hi)
    · rcases List.mem_append.mp hp with hp | hp
      · exact Nat.lt_succ_of_lt (hb.pools p hp)
      · rw [List.mem_singleton.mp hp]
        exact Nat.lt_succ_self _
    · obtain ⟨hc, hlt, hi⟩ := hb.owned x s e h
      exact ⟨hc, hlt, Nat.lt_succ_of_lt hi⟩
    · dsimp only
      rw [hup]
      split_ifs
      · rw [← hfresh]
        exact fun t ht => absurd ht List.not_mem_nil
      · exact (hb.owed i).mono fun n x => hwiden.stands i n x

/-- A login makes a client, whose entry becomes the session's. -/
theorem enter_vouching (hb : Vouching whose past b) {n : CallId} {s : SessionId} {address : String}
    {threads : Option ℚ} (hcall : b.calls n = some (.resolving s address threads)) {e : Entry}
    (hclient : e.client = b.nextClient) (hi : e.upstream < b.nextUpstream) :
    Vouching whose past { b.setCall n (some (.attaching s e)) with
      entries := Function.update b.entries s (some e)
      owner := Function.update b.owner b.nextClient (some (s, e))
      nextClient := b.nextClient + 1 } := by
  have hn : n < b.nextCall := hb.numbered n (by rw [hcall]; simp)
  have howner : ∀ c, Function.update b.owner b.nextClient (some (s, e)) c =
      if c = b.nextClient then some (s, e) else b.owner c := Function.update_apply _ _ _
  have hcalls : ∀ m, Function.update b.calls n (some (.attaching s e)) m =
      if m = n then some (.attaching s e) else b.calls m := Function.update_apply _ _ _
  have hold : ∀ c x, b.owner c = some x →
      Function.update b.owner b.nextClient (some (s, e)) c = some x := by
    intro c x hc
    rw [howner, if_neg (hb.owned c x.1 x.2 hc).2.1.ne]
    exact hc
  have hwiden : Widens b { b.setCall n (some (.attaching s e)) with
      entries := Function.update b.entries s (some e)
      owner := Function.update b.owner b.nextClient (some (s, e))
      nextClient := b.nextClient + 1 } := by
    refine ⟨hold, le_rfl, fun _ _ _ _ hg => hg, fun i m c hs => ⟨hs.lt, fun call hm => ?_⟩⟩
    have hm' := (hcalls m).symm.trans hm
    split_ifs at hm' with heq
    · -- the login stood for no client before
      exact absurd (hs.call _ (heq ▸ hcall)) id
    · exact hs.call call hm'
  refine ⟨hb.drained, hb.blank, hb.pools, fun m hm => ?_, fun c s' e' hc => ?_, fun s' e' he => ?_,
    fun i => (hb.owed i).mono fun m c => hwiden.stands i m c, fun m call hm => ?_,
    fun o ho => hwiden.honors (hb.out o ho),
    fun s g hg => hwiden.granted (hb.kept s g hg)⟩
  · by_cases heq : m = n
    · exact heq ▸ hn
    · exact hb.numbered m fun hnone => hm ((hcalls m).trans (by rw [if_neg heq, hnone]))
  · have hc' := (howner c).symm.trans hc
    split_ifs at hc' with heq
    · obtain ⟨rfl, rfl⟩ := Prod.mk.inj (Option.some.inj hc')
      exact ⟨hclient.trans heq.symm, heq ▸ Nat.lt_succ_self _, hi⟩
    · obtain ⟨hx, hlt, hi'⟩ := hb.owned c s' e' hc'
      exact ⟨hx, Nat.lt_succ_of_lt hlt, hi'⟩
  · dsimp only at he ⊢
    rw [Function.update_apply] at he
    split_ifs at he with heq
    · obtain rfl := Option.some.inj he
      rw [howner, if_pos hclient, heq]
    · exact hold _ _ (hb.entry s' e' he)
  · have hm' := (hcalls m).symm.trans hm
    split_ifs at hm' with heq
    · obtain rfl := Option.some.inj hm'
      rw [heq]
      exact ⟨(howner _).trans (if_pos hclient), hb.calls n _ hcall⟩
    · exact hwiden.fair (hb.calls m call hm')

theorem resolved_vouching (hb : Vouching whose past b) {n : CallId}
    {s : SessionId} {address : String}
    {threads : Option ℚ} (hcall : b.calls n = some (.resolving s address threads))
    (outcome : Except String Credentials) :
    Vouching whose past (b.resolved n s address threads outcome) := by
  cases outcome with
  | error message =>
    exact answer_vouching hb (hb.numbered n (by rw [hcall]; simp)) trivial
  | ok credentials =>
    obtain ⟨hget, hi, hcalls, -⟩ := get_vouching hb credentials
    let e : Entry := {
      client := (b.get credentials).2.nextClient, upstream := (b.get credentials).1
      address := address, login := n }
    have hcall' : (b.get credentials).2.calls n = some (.resolving s address threads) := by
      rw [hcalls, hcall]
    have henter := enter_vouching hget hcall' (e := e) rfl hi
    simp only [resolved]
    refine (run_vouching henter hi ?_).1
    refine (Upstream.setClient_moves _ _ _).trans (Upstream.attach_moves _ _ _ ⟨?_, ?_⟩)
    · exact henter.numbered n (by simp [setCall])
    · intro call hn
      have hself : Function.update (b.get credentials).2.calls n (some (.attaching s e)) n =
          some (.attaching s e) := Function.update_self ..
      obtain rfl := Option.some.inj (hself.symm.trans hn)
      exact ⟨rfl, rfl⟩

theorem settle_vouching (hb : Vouching whose past b) {n : CallId} {s : SessionId} {e : Entry}
    {result : Except String Payload} (hcall : b.calls n = some (.attached s e result)) :
    Vouching whose past (b.settle n s e result) := by
  have hn : n < b.nextCall := hb.numbered n (by rw [hcall]; simp)
  obtain ⟨howner, hs, hgranted⟩ := hb.calls n _ hcall
  have hdetach : ∀ b' : Backend, Vouching whose past b' → b'.upstream = b.upstream →
      b'.nextUpstream = b.nextUpstream → b'.nextCall = b.nextCall → ∀ message,
        Vouching whose past ((b'.run e.upstream ((b.upstream e.upstream).detach e.client)).answer n
          (.error message)) := by
    intro b' hb' hup hnextUpstream hnextCall message
    have hi : e.upstream < b'.nextUpstream := hnextUpstream ▸ entry_lt hb howner
    refine answer_vouching (run_vouching hb' hi ?_).1 ?_ trivial
    · rw [hup]
      exact Upstream.detach_moves _ _
    · rw [run_nextCall, hnextCall]
      exact hn
  have hfail : ∀ message, Vouching whose past (b.settle n s e (.error message)) := by
    intro message
    unfold settle
    dsimp only
    split_ifs
    · exact hdetach _ (clear_vouching hb s) rfl rfl rfl message
    · exact hdetach b hb rfl rfl rfl message
  cases result with
  | error message => exact hfail message
  | ok payload =>
    have hfailed := hfail "Superseded by a newer login."
    have hreply : b.Honors whose (.reply n (.ok (.job payload))) := by
      rintro s' hs' g ⟨⟩
      exact hs s' hs' ▸ hgranted payload rfl
    unfold settle at hfailed ⊢
    dsimp only at hfailed ⊢
    split_ifs at hfailed ⊢
    · exact (answer_vouching hb hn hreply).of_same ⟨rfl, rfl, List.Subset.refl _, rfl, rfl⟩ rfl
        le_rfl (fun _ _ he => he) fun _ ho => Or.inl ho
    · exact hfailed

/-! ### Chunks and shares -/

theorem next_vouching (hb : Vouching whose past b) :
    Vouching whose past { b with nextCall := b.nextCall + 1 } :=
  hb.of_same ⟨rfl, rfl, List.Subset.refl _, rfl, rfl⟩ rfl (Nat.le_succ _) (fun _ _ he => he)
    fun _ ho => Or.inl ho

theorem setVardiff_moves {owes : ℕ → ClientId → Prop} (u : Upstream) (c : ClientId) (v : VarDiff) :
    Moves owes (fun _ => True) u (setVardiff u c v) := Upstream.setClient_moves u c _

theorem chunk_vouching (hb : Vouching whose past b) {s : SessionId}
    (hs : ∀ s' ∈ whose b.nextCall, s = s') (job_id : String) (hashrate : Option ℚ) :
    Vouching whose past (b.chunk s job_id hashrate) := by
  unfold chunk
  dsimp only
  cases he : b.entries s with
  | none => exact answer_vouching (next_vouching hb) (Nat.lt_succ_self _) trivial
  | some e =>
    have howner := hb.entry s e he
    have hcall : Vouching whose past
        (setCall { b with nextCall := b.nextCall + 1 } b.nextCall (some (.chunking e))) :=
      begin_vouching hb ⟨s, howner, hs⟩
    dsimp only
    refine (run_vouching hcall (entry_lt hb howner) ?_).1
    refine Moves.trans ?_ (Upstream.chunk_moves _ ⟨Nat.lt_succ_self _, fun call hn => ?_⟩ job_id)
    · cases hashrate with
      | none => exact Moves.refl _
      | some h =>
        dsimp only
        split_ifs
        · exact (setVardiff_moves _ _ _).trans (Upstream.report_moves _ _ _)
        · exact Moves.refl _
    · have hself : Function.update b.calls b.nextCall (some (.chunking e)) b.nextCall =
          some (.chunking e) := Function.update_self ..
      obtain rfl := Option.some.inj (hself.symm.trans hn)
      exact ⟨rfl, rfl⟩

/-- Replies that hand nothing out are for anyone. -/
theorem honors_plain {n : CallId} {reply : Reply} (h : reply.range = none) :
    b.Honors whose (.reply n (.ok reply)) := by
  intro s _ g hg
  rw [h] at hg
  exact absurd hg (by simp)

theorem chunked_vouching (hb : Vouching whose past b) {n : CallId} {e : Entry}
    {result : Except String ChunkReply} (hcall : b.calls n = some (.chunked e result)) :
    Vouching whose past (b.chunked n e result) := by
  have hn : n < b.nextCall := hb.numbered n (by rw [hcall]; simp)
  obtain ⟨s, howner, hs, hgranted⟩ := hb.calls n _ hcall
  have hreply : ∀ g, result = .ok (.range g) → ∀ reply, reply.range = some g →
      b.Honors whose (.reply n (.ok reply)) := by
    intro g hg reply hrange s' hs' g' hg'
    rw [hrange] at hg'
    obtain rfl := Option.some.inj hg'
    exact hs s' hs' ▸ hgranted g hg
  cases result with
  | error message => exact answer_vouching hb hn trivial
  | ok reply => cases reply with
    | range g =>
      simp only [chunked]
      split
      · exact answer_vouching hb hn (hreply g rfl _ rfl)
      · split
        · exact answer_vouching hb hn trivial
        · rename_i v _
          obtain ⟨hset, hwiden⟩ := setUpstream_vouching hb
            (entry_lt hb howner) (setVardiff_moves _ e.client v)
          refine answer_vouching hset hn (hwiden.honors (hreply g rfl _ ?_))
          split_ifs <;> rfl
    | job_expired => exact answer_vouching hb hn (honors_plain rfl)
    | migrated => exact answer_vouching hb hn (honors_plain rfl)
    | retry_after ms => exact answer_vouching hb hn (honors_plain rfl)

theorem counted_vouching (hb : Vouching whose past b) {e : Entry} (hi : e.upstream < b.nextUpstream)
    (v : VarDiff) : Vouching whose past (b.counted e v) ∧ Widens b (b.counted e v) := by
  unfold counted
  dsimp only
  refine run_vouching hb hi ?_
  split_ifs
  · exact setVardiff_moves _ _ _
  · exact (setVardiff_moves _ _ _).trans (Upstream.report_moves _ _ _)

theorem counted_nextCall (b : Backend) (e : Entry) (v : VarDiff) :
    (b.counted e v).nextCall = b.nextCall := run_nextCall _ _ _

theorem share_vouching (hb : Vouching whose past b) (s : SessionId)
    (e : Entry) (report : ShareReport) :
    Vouching whose past (b.emit (.share s e report)) := emit_vouching hb trivial

theorem submit_vouching (hb : Vouching whose past b) (s : SessionId)
    (job_id nonce result : String) :
    Vouching whose past (b.submit s job_id nonce result) := by
  have hnext := next_vouching hb
  unfold submit
  dsimp only
  cases he : b.entries s with
  | none => exact answer_vouching hnext (Nat.lt_succ_self _) trivial
  | some e =>
    have howner := hb.entry s e he
    have hi := entry_lt hb howner
    have hn : b.nextCall < b.nextCall + 1 := Nat.lt_succ_self _
    dsimp only
    rcases hdecide : decide { b with nextCall := b.nextCall + 1 } e nonce result with ⟨decision, v⟩
    obtain ⟨hcount, hwiden⟩ := counted_vouching hnext hi v
    have hcounted : b.nextCall < (counted { b with nextCall := b.nextCall + 1 } e v).nextCall := by
      rw [counted_nextCall]
      exact hn
    cases decision with
    | denied reason => exact answer_vouching hnext hn trivial
    | thrown =>
      dsimp only
      split_ifs
      · exact answer_vouching hnext hn trivial
      · exact answer_vouching hcount hcounted trivial
    | absorbed d => exact answer_vouching (share_vouching hcount _ _ _) hcounted (honors_plain rfl)
    | forwarded d =>
      dsimp only
      cases hsub : ((counted { b with nextCall := b.nextCall + 1 } e v).upstream e.upstream).submit
          b.nextCall e.client job_id nonce result with
      | none => exact answer_vouching (share_vouching hcount _ _ _) hcounted trivial
      | some p =>
        have hforward : ∀ report pool stray, Vouching whose past
            (setCall (counted { b with nextCall := b.nextCall + 1 } e v) b.nextCall
              (some (.forwarding s e report pool stray))) := by
          intro report pool stray
          refine setCall_vouching hcount hcounted ?_ ?_
          · rintro call ⟨⟩
            exact hwiden.owner _ _ howner
          · rintro i c - call ⟨⟩
            trivial
        have hi' : e.upstream < (counted { b with nextCall := b.nextCall + 1 } e v).nextUpstream :=
          hi.trans_le hwiden.nextUpstream
        exact (run_vouching (hforward _ _ _) hi'
          (Upstream.submit_moves hsub)).1

theorem poolReply_vouching (hb : Vouching whose past b) {n : CallId} {s : SessionId} {e : Entry}
    {report : ShareReport} {pool : ℕ} {stray : Bool}
    (hcall : b.calls n = some (.forwarding s e report pool stray)) (outcome : Except String Bool) :
    Vouching whose past (b.poolReply n s e report pool stray outcome) := by
  have hn : n < b.nextCall := hb.numbered n (by rw [hcall]; simp)
  have hi := entry_lt hb (hb.calls n _ hcall)
  unfold poolReply
  cases outcome with
  | error message =>
    have hrun := run_vouching hb hi
      (Upstream.rejected_moves (b.upstream e.upstream) stray)
    refine answer_vouching (share_vouching hrun.1 _ _ _) ?_ trivial
    exact hn.trans_eq (run_nextCall b e.upstream _).symm
  | ok accepted =>
    dsimp only
    split_ifs
    · have hset := setUpstream_vouching hb hi
        (setVardiff_moves (b.upstream e.upstream) e.client ((b.vardiff e).credit pool))
      exact answer_vouching (share_vouching hset.1 _ _ _) hn (honors_plain rfl)
    · exact answer_vouching (share_vouching hb _ _ _) hn (honors_plain rfl)

theorem account_vouching (hb : Vouching whose past b) (s : SessionId) (shares work actual : ℕ) :
    Vouching whose past (b.account s shares work actual) := by
  have key : ∀ (k : ℕ) (e : Entry) (report : ShareReport) (b : Backend), Vouching whose past b →
      Vouching whose past ((List.replicate k (Output.share s e report)).foldl emit b) := by
    intro k e report
    induction k with
    | zero => exact fun _ h => h
    | succ k ih => exact fun b h => ih _ (share_vouching h s e report)
  unfold account
  split
  · exact hb
  · rename_i e he
    split_ifs
    · exact hb
    · exact key _ _ _ _ (counted_vouching hb (entry_lt hb (hb.entry s e he)) _).1

/-! ### Steps -/

/-- An upstream that has not been made does nothing by itself. -/
theorem blank_step {u v : Upstream} (hu : u.Blank) {a : Upstream.Action} (ha : autonomous a = true)
    (h : u.step a = some v) : v = u := by
  cases a with
  | resume i =>
    simp only [Upstream.step, Upstream.resume, hu.tasks, List.getElem?_nil, Option.bind_none] at h
    cases h
  | dialed l outcome => simp [Upstream.step, hu.opening] at h
  | loggedIn l outcome => simp [Upstream.step, hu.opening] at h
  | job l job => simp [Upstream.step, hu.plug] at h
  | lost l => simp [Upstream.step, hu.plug] at h
  | rebalance =>
    simp only [Upstream.step] at h
    split_ifs at h
    rw [Option.some.injEq] at h
    rw [← h]
    simp [Upstream.rebalance, Upstream.consolidate, hu.links]
  | _ => exact absurd ha (by simp [autonomous])

theorem upstream_vouching (hb : Vouching whose past b) {i : UpstreamId} {a : Upstream.Action}
    (ha : autonomous a = true) {u : Upstream} (h : (b.upstream i).step a = some u) :
    Vouching whose past (b.run i u) := by
  by_cases hi : i < b.nextUpstream
  · have howes : a.Owes (b.Stands i) := by
      cases a <;> trivial
    exact (run_vouching hb hi
      (Upstream.step_moves (hb.owed i) howes (fun _ _ => trivial) h)).1
  · obtain rfl := blank_step (hb.blank i (not_lt.mp hi)) ha h
    have hup : ({ b.upstream i with outbox := [] } : Upstream) = b.upstream i := by
      rw [← hb.drained i]
    have hsame : b.run i (b.upstream i) = b := by
      unfold run setUpstream
      rw [hb.drained, hup, Function.update_eq_self]
      rfl
    exact hsame.symm ▸ hb

theorem tick_vouching (hb : Vouching whose past b) (ms : ℕ) :
    Vouching whose past { b with
      now := b.now + ms, upstream := fun i => { b.upstream i with now := b.now + ms } } := by
  have hwiden : Widens b { b with
      now := b.now + ms, upstream := fun i => { b.upstream i with now := b.now + ms } } :=
    ⟨fun _ _ h => h, le_rfl, fun _ _ _ _ hg => hg, fun _ _ _ h => ⟨h.lt, h.call⟩⟩
  refine ⟨hb.drained, fun i hi => ?_, hb.pools, hb.numbered, hb.owned, hb.entry, fun i => ?_,
    fun n call hn => hwiden.fair (hb.calls n call hn), fun o ho => hwiden.honors (hb.out o ho),
    fun s g hg => hwiden.granted (hb.kept s g hg)⟩
  · obtain ⟨hlinks, htasks, hplug, hopening⟩ := hb.blank i hi
    exact ⟨hlinks, htasks, hplug, hopening⟩
  · exact Upstream.Owed.mono (u := b.upstream i) (hb.owed i) fun n c => hwiden.stands i n c

/-- The backend goes on by itself, or serves a caller for whom no session of a worker asks. -/
theorem step_vouching (hb : Vouching whose past b) {a : Action} (hasks : whose b.nextCall = none)
    (h : step b a = some b') : Vouching whose past b' := by
  have hs : ∀ s, ∀ s' ∈ whose b.nextCall, s = s' := by
    rw [hasks]
    rintro s s' ⟨⟩
  cases step_fires h with
  | login s address threads _ => exact login_vouching hb (hs s) address threads
  | resolved hcall outcome => exact resolved_vouching hb hcall outcome
  | settle hcall => exact settle_vouching hb hcall
  | close s => exact close_vouching hb s
  | chunk s job_id hashrate _ => exact chunk_vouching hb (hs s) job_id hashrate
  | chunked hcall => exact chunked_vouching hb hcall
  | submit s job_id nonce result _ => exact submit_vouching hb s job_id nonce result
  | poolReply hcall outcome => exact poolReply_vouching hb hcall outcome
  | account s shares work actual _ => exact account_vouching hb s shares work actual
  | upstream ha hu => exact upstream_vouching hb ha hu
  | tick ms => exact tick_vouching hb ms

/-! ### Owners -/

theorem run_owner (b : Backend) (i : UpstreamId) (u : Upstream) : (b.run i u).owner = b.owner := by
  have hdeliver : ∀ (b : Backend) (d : Delivery), (b.deliver i d).owner = b.owner := by
    intro b d
    cases d with
    | job c payload =>
      simp only [deliver]
      split <;> rfl
    | drop c message =>
      simp only [deliver]
      split <;> rfl
    | attached n result =>
      simp only [deliver]
      split <;> rfl
    | chunked n result =>
      simp only [deliver]
      split <;> rfl
    | submitted n l job_id nonce result => rfl
    | retired =>
      simp only [deliver, retire]
      split_ifs <;> rfl
  have key : ∀ (ds : List Delivery) (b : Backend),
      (ds.foldl (fun b d => b.deliver i d) b).owner = b.owner := by
    intro ds
    induction ds with
    | nil => exact fun _ => rfl
    | cons d ds ih => exact fun b => (ih _).trans (hdeliver b d)
  exact key u.outbox (b.setUpstream i u)

theorem drop_owner (b : Backend) (s : SessionId) : (b.drop s).owner = b.owner := by
  unfold drop
  split
  · rfl
  · exact run_owner _ _ _

theorem settle_owner (b : Backend) (n : CallId) (s : SessionId) (e : Entry)
    (result : Except String Payload) : (b.settle n s e result).owner = b.owner := by
  unfold settle
  cases result with
  | error message =>
    refine (run_owner _ _ _).trans ?_
    split_ifs <;> rfl
  | ok payload =>
    dsimp only
    split_ifs
    · rfl
    · exact run_owner b _ _

theorem chunk_owner (b : Backend) (s : SessionId) (job_id : String) (hashrate : Option ℚ) :
    (b.chunk s job_id hashrate).owner = b.owner := by
  unfold chunk
  dsimp only
  split
  · rfl
  · exact run_owner _ _ _

theorem chunked_owner (b : Backend) (n : CallId) (e : Entry) (result : Except String ChunkReply) :
    (b.chunked n e result).owner = b.owner := by
  unfold chunked
  split
  · rfl
  · dsimp only
    split
    · rfl
    · split <;> rfl
  · rfl

theorem counted_owner (b : Backend) (e : Entry) (v : VarDiff) : (b.counted e v).owner = b.owner :=
  run_owner _ _ _

theorem submit_owner (b : Backend) (s : SessionId) (job_id nonce result : String) :
    (b.submit s job_id nonce result).owner = b.owner := by
  unfold submit
  dsimp only
  split
  · rfl
  · split
    · rfl
    · split_ifs
      · rfl
      · exact counted_owner _ _ _
    · exact counted_owner _ _ _
    · split
      · exact counted_owner _ _ _
      · exact (run_owner _ _ _).trans (counted_owner _ _ _)

theorem poolReply_owner (b : Backend) (n : CallId) (s : SessionId)
    (e : Entry) (report : ShareReport)
    (pool : ℕ) (stray : Bool) (outcome : Except String Bool) :
    (b.poolReply n s e report pool stray outcome).owner = b.owner := by
  unfold poolReply
  cases outcome with
  | error message => exact run_owner b _ _
  | ok accepted =>
    dsimp only
    split_ifs <;> rfl

theorem account_owner (b : Backend) (s : SessionId) (shares work actual : ℕ) :
    (b.account s shares work actual).owner = b.owner := by
  unfold account
  split
  · rfl
  · split_ifs
    · rfl
    · rw [foldl_emit]
      exact counted_owner _ _ _

/-- A new client is one that nobody owned. -/
theorem resolved_owner (hb : Vouching whose past b) (n : CallId) (s : SessionId) (address : String)
    (threads : Option ℚ) (outcome : Except String Credentials) {c : ClientId}
    {x : SessionId × Entry} (ho : b.owner c = some x) :
    (b.resolved n s address threads outcome).owner c = some x := by
  cases outcome with
  | error message => exact ho
  | ok credentials =>
    have hget : (b.get credentials).2.owner = b.owner ∧
        (b.get credentials).2.nextClient = b.nextClient := by
      unfold get
      split <;> exact ⟨rfl, rfl⟩
    have hne : c ≠ b.nextClient := (hb.owned c x.1 x.2 ho).2.1.ne
    simp only [resolved]
    rw [run_owner]
    dsimp only
    rw [hget.2, Function.update_of_ne hne, hget.1, ho]

/-- Who has a client keeps it. -/
theorem step_owner (hb : Vouching whose past b) {a : Action} (h : step b a = some b') {c : ClientId}
    {x : SessionId × Entry} (ho : b.owner c = some x) : b'.owner c = some x := by
  have hsame : ∀ {m : Backend}, m.owner = b.owner → m.owner c = some x := fun hm => hm ▸ ho
  cases step_fires h with
  | login s address threads _ => exact hsame (drop_owner b s)
  | resolved _ outcome => exact resolved_owner hb _ _ _ _ outcome ho
  | settle _ => exact hsame (settle_owner b _ _ _ _)
  | close s => exact hsame (drop_owner b s)
  | chunk s job_id hashrate _ => exact hsame (chunk_owner b s job_id hashrate)
  | chunked _ => exact hsame (chunked_owner b _ _ _)
  | submit s job_id nonce result _ => exact hsame (submit_owner b s job_id nonce result)
  | poolReply _ outcome => exact hsame (poolReply_owner b _ _ _ _ _ _ outcome)
  | account s shares work actual _ => exact hsame (account_owner b s shares work actual)
  | upstream _ _ => exact hsame (run_owner b _ _)
  | tick ms => exact ho

theorem start_vouching (maxLinks idleTimeout : ℕ) (expand : Bool) (now : ℕ) :
    Vouching whose (fun _ _ => False) (start maxLinks idleTimeout expand now) where
  drained _ := rfl
  blank _ _ := ⟨rfl, rfl, fun _ => rfl, fun _ => rfl⟩
  pools _ hp := absurd hp List.not_mem_nil
  numbered _ hn := absurd rfl hn
  owned _ _ _ h := by cases h
  entry _ _ h := by cases h
  owed _ _ ht := absurd ht List.not_mem_nil
  calls _ _ h := by cases h
  out _ ho := absurd ho List.not_mem_nil
  kept _ _ h := h.elim

/-- What has been handed out so far belongs to the past, and other calls may be asked about if they
have not been made. -/
theorem Vouching.pass {whose' : CallId → Option SessionId} (hb : Vouching whose past b)
    (hwhose : ∀ n < b.nextCall, whose' n = whose n) (hout : b.outbox = []) :
    Vouching whose' b.GrantedTo b := by
  refine { hb with calls := fun n call hn => ?_, out := ?_, kept := fun _ _ h => h }
  · rw [hwhose n (hb.numbered n (by rw [hn]; simp))]
    exact hb.calls n call hn
  · rw [hout]
    exact fun o ho => absurd ho List.not_mem_nil

end Backend

end NMiner
