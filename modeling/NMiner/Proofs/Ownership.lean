import NMiner.Proofs.Accounting
import NMiner.Proofs.Stints
import NMiner.Proofs.Vouchers

/-! Whoever has a share accepted was granted a range with its nonce. The primary looks at the ranges
of the miner's current and previous job and not at the job that the share names; a worker looks at
the ranges it was told of for its current and its previous job. Ranges of different miners overlap
only across jobs. -/

namespace NMiner

open Transition

/-! ### What a worker learns -/

theorem learnTarget_same (k : Known) (target : String) :
    (k.learnTarget target).job_id = k.job_id ∧ (k.learnTarget target).ledger = k.ledger := by
  unfold Known.learnTarget
  split_ifs <;> exact ⟨rfl, rfl⟩

theorem filings_append (ms : List Message) (m : Message) : filings (ms ++ [m]) =
    (m.id (filings ms).1, (filings ms).2 ++ if m.id (filings ms).1 = "" then []
      else m.grant.toList.map (Filing.mk (m.id (filings ms).1))) := by
  unfold filings
  rw [List.foldl_append]
  rfl

/-- A range that is told last was in the last message. -/
theorem mem_filings_append {ms : List Message} {m : Message} {f : Filing}
    (h : f ∈ (filings (ms ++ [m])).2) : f ∈ (filings ms).2 ∨ f.range ∈ m.grant := by
  rw [filings_append] at h
  refine (List.mem_append.mp h).imp_right fun h => ?_
  split_ifs at h
  · exact absurd h List.not_mem_nil
  · obtain ⟨g, hg, rfl⟩ := List.mem_map.mp h
    exact Option.mem_toList.mp hg

/-- The mirror has learned these messages: it knows their last job, and its ledger holds the ranges
they tell for the last job with one and the job before that. -/
structure Known.Filed (k : Known) (ms : List Message) : Prop where
  job : k.job_id = (filings ms).1
  booked : k.ledger.Booked Filing.job_id Filing.range (filings ms).2.reverse

theorem Known.filed_empty : Known.Filed {} [] := ⟨rfl, Ledger.booked_empty _⟩

/-- A range is filed under the job of the mirror, if it has one. -/
theorem learnRange_filed {k : Known} {fs : List Filing} (g : Grant)
    (h : k.ledger.Booked Filing.job_id Filing.range fs.reverse) :
    (k.learnRange g).job_id = k.job_id ∧
      (k.learnRange g).ledger.Booked Filing.job_id Filing.range
        (fs ++ if k.job_id = "" then [] else [Filing.mk k.job_id g]).reverse := by
  unfold Known.learnRange
  split_ifs
  · rw [List.append_nil]
    exact ⟨rfl, h⟩
  · rw [List.reverse_append]
    exact ⟨rfl, h.record (Filing.mk k.job_id g)⟩

theorem Known.Filed.learn {k : Known} {ms : List Message} (h : k.Filed ms) (m : Message) :
    (k.learn m).Filed (ms ++ [m]) := by
  cases m with
  | job p =>
    obtain ⟨hjob, hledger⟩ := learnTarget_same
      { k with job_id := p.job.job_id, pool := p.pool_target } p.target
    have hbooked := hledger.symm ▸ h.booked
    obtain ⟨hid, hfiled⟩ := learnRange_filed p.range hbooked
    rw [hjob] at hid hfiled
    refine ⟨?_, ?_⟩ <;> rw [filings_append]
    · exact hid
    · exact hfiled
  | range g =>
    obtain ⟨hid, hfiled⟩ := learnRange_filed g h.booked
    rw [h.job] at hid hfiled
    refine ⟨?_, ?_⟩ <;> rw [filings_append]
    · exact hid
    · exact hfiled
  | other =>
    refine ⟨?_, ?_⟩ <;> rw [filings_append]
    · exact h.job
    · have hnone : (if (filings ms).1 = "" then [] else ([] : List Filing)) = [] := ite_self _
      change k.ledger.Booked Filing.job_id Filing.range
        ((filings ms).2 ++ if (filings ms).1 = "" then [] else []).reverse
      rw [hnone, List.append_nil]
      exact h.booked

theorem submit_same (k : Known) (job_id nonce result : String) :
    (k.submit job_id nonce result).2.job_id = k.job_id ∧
      (k.submit job_id nonce result).2.ledger = k.ledger := by
  unfold Known.submit
  split
  · dsimp only
    split
    · exact ⟨rfl, rfl⟩
    · exact ⟨rfl, rfl⟩
    · split
      · exact ⟨rfl, rfl⟩
      · dsimp only
        split_ifs <;> exact ⟨rfl, rfl⟩
  · exact ⟨rfl, rfl⟩

/-- The worker answers the share with OK by itself. -/
def Known.accepts (k : Known) (job_id nonce result : String) : Bool :=
  match (k.submit job_id nonce result).1 with
  | .absorbed _ => true
  | .forwarded => true
  | _ => false

theorem covers_of_accepts {k : Known} {job_id nonce result : String}
    (h : k.accepts job_id nonce result = true) : k.covers job_id nonce = true := by
  by_contra hc
  simp [Known.accepts, Known.submit, hc] at h

/-! ### Between two jobs -/

open Backend (Everywhere Stable)

/-- If the space of the link was built from different slots, the ranges cut off it since the miners
had `base` ranges on record are apart. -/
def Apart (i : UpstreamId) (l : LinkId) (base : ClientId → ℕ) (j : UpstreamId)
    (u : Upstream) : Prop :=
  j = i → (u.link l).space.segments.Nodup → u.Parted l base

theorem apart_stable (i : UpstreamId) (l : LinkId) (base : ClientId → ℕ) :
    Stable (Apart i l base) fun j m => ¬ (j = i ∧ m = l) := by
  refine ⟨fun j u v h hu hj hnodup => ?_, fun j maxLinks idleTimeout expand now client _ _ => ?_⟩
  · have hl : ¬ ¬ (j = i ∧ l = l) := not_not.mpr ⟨hj, rfl⟩
    have hsegments := h.segments hl
    exact h.parted hl (hu hj (hsegments ▸ hnodup))
  · have hnone : ∀ n c, (Upstream.start maxLinks idleTimeout expand now client).cuts
      l n c = [] := by
      intro n c
      simp [Upstream.cuts, Upstream.start]
    refine ⟨List.Pairwise.nil, le_rfl, fun c r hr => ?_, fun c c' _ r hr => ?_⟩
    · rw [hnone] at hr
      exact absurd hr List.not_mem_nil
    · rw [hnone] at hr
      exact absurd hr List.not_mem_nil

/-- A job arrives: what is cut off the new space is apart from here on. -/
theorem Backend.arrival_apart {b b' : Backend} {a : Action} {i : UpstreamId} {l : LinkId}
    (hb : ∀ j, (b.upstream j).outbox = []) (ha : b.arrives i l a = true) (h : b.step a = some b') :
    Everywhere (Apart i l fun c => ((b.upstream i).issued c).length) b' := by
  cases a with
  | upstream j a =>
    simp only [arrives, Bool.and_eq_true, decide_eq_true_eq] at ha
    obtain ⟨rfl, ha⟩ := ha
    simp only [step] at h
    split_ifs at h
    obtain ⟨u, hu, rfl⟩ := Option.map_eq_some_iff.mp h
    refine deliveries_everywhere (apart_stable j l _) j u.outbox ⟨fun k =>
      ?_, fun k hk hnodup => ?_⟩
    · rw [setUpstream_apply]
      split_ifs
      · rfl
      · exact hb k
    · rw [setUpstream_apply, if_pos hk] at hnodup ⊢
      exact (Upstream.arrives_parted ha hu hnodup).of_same rfl rfl
  | _ => exact absurd ha (by simp [arrives])

namespace Cluster

open Backend (Vouching)

theorem lesson_grant (r : Reply) : (lesson r).grant = r.range := by
  cases r with
  | chunk reply => cases reply <;> rfl
  | _ => rfl

/-! ### Along a run -/

/-- The session whose request a call of the backend answers. -/
def whose (c : Cluster) (n : CallId) : Option SessionId := (c.asked n).map Prod.fst

/-- The range in the message is one of its session. -/
def tells (b : Backend) : Down → Prop
  | .reply _ s (.ok r) => ∀ g ∈ r.range, b.GrantedTo s g
  | .job s p => b.GrantedTo s p.range
  | _ => True

/-- The mirror of a session has learned these messages, and their ranges are the session's. -/
structure Mirrors (b : Backend) (s : SessionId) (k : Known) (ms : List Message) : Prop where
  filed : k.Filed ms
  granted : ∀ f ∈ (filings ms).2, b.GrantedTo s f.range

theorem Mirrors.mono {b b' : Backend} {s : SessionId} {k : Known} {ms : List Message}
    (h : Mirrors b s k ms) (hmono : ∀ g, b.GrantedTo s g → b'.GrantedTo s g) :
    Mirrors b' s k ms :=
  ⟨h.filed, fun f hf => hmono f.range (h.granted f hf)⟩

/-- What the worker knows of or will hear of has been recorded for its session. -/
structure Informed (c : Cluster) : Prop where
  vouching : Vouching c.whose c.backend.GrantedTo c.backend
  silent : c.backend.outbox = []
  asked : ∀ n, c.asked n ≠ none → n < c.backend.nextCall
  told : ∀ m ∈ c.down, tells c.backend m
  mirrors : ∀ s, Mirrors c.backend s (c.known s) (c.heard s)

theorem tells_mono {b b' : Backend} {m : Down} (h : tells b m)
    (hmono : ∀ s g, b.GrantedTo s g → b'.GrantedTo s g) : tells b' m := by
  unfold tells at h ⊢
  split at h
  · exact fun g hg => hmono _ g (h g hg)
  · exact hmono _ _ h
  · trivial

/-- A change at the worker. -/
theorem Informed.worker {c c' : Cluster} (h : c.Informed) (hbackend : c'.backend = c.backend)
    (hasked : c'.asked = c.asked) (hdown : c'.down ⊆ c.down)
    (hmirrors : ∀ s, Mirrors c.backend s (c.known s) (c.heard s) →
      Mirrors c.backend s (c'.known s) (c'.heard s)) : c'.Informed := by
  have hwhose : c'.whose = c.whose := by
    unfold whose
    rw [hasked]
  refine ⟨?_, ?_, ?_, fun m hm => ?_, fun s => ?_⟩
  · rw [hwhose, hbackend]
    exact h.vouching
  · rw [hbackend]
    exact h.silent
  · rw [hasked, hbackend]
    exact h.asked
  · rw [hbackend]
    exact h.told m (hdown hm)
  · rw [hbackend]
    exact hmirrors s (h.mirrors s)

theorem call_informed {c : Cluster} (h : c.Informed) (method : Method) (message : ℕ → Up) :
    (c.call method message).Informed :=
  h.worker rfl rfl (List.Subset.refl _) fun _ hm => hm

theorem flush_informed {c : Cluster} (h : c.Informed) : c.flush.Informed := by
  unfold flush
  split_ifs
  · exact h
  · exact h.worker rfl rfl (List.Subset.refl _) fun _ hm => hm

theorem close_informed {c : Cluster} (h : c.Informed) (s : SessionId) : (c.close s).Informed := by
  have key : ∀ c' : Cluster, c'.Informed → ({ c' with
      known := Function.update c'.known s {}, heard := Function.update c'.heard s [],
      sessions := c'.sessions.erase s
      gone := insert s c'.gone, up := c'.up ++ [.bye s] } : Cluster).Informed := by
    intro c' hc'
    refine hc'.worker rfl rfl (List.Subset.refl _) fun s' hm => ?_
    dsimp only
    rw [Function.update_apply, Function.update_apply]
    split_ifs
    · exact ⟨Known.filed_empty, fun f hf => absurd hf List.not_mem_nil⟩
    · exact hm
  refine key _ ?_
  split_ifs
  · exact flush_informed h
  · exact h

theorem submit_informed {c : Cluster} (h : c.Informed) (s : SessionId) (login : ℕ)
    (job_id nonce result : String) : (c.submit s login job_id nonce result).Informed := by
  obtain ⟨k, hk⟩ : ∃ k, k = ((c.known s).submit job_id nonce result).2 := ⟨_, rfl⟩
  have hknown : ({ c with known := Function.update c.known s k } : Cluster).Informed := by
    refine h.worker rfl rfl (List.Subset.refl _) fun s' hm => ?_
    dsimp only
    rw [Function.update_apply]
    split_ifs with hs
    · obtain ⟨hjob, hledger⟩ := submit_same (c.known s) job_id nonce result
      subst hs
      refine ⟨⟨?_, ?_⟩, hm.granted⟩
      · rw [hk, hjob]
        exact hm.filed.job
      · rw [hk, hledger]
        exact hm.filed.booked
    · exact hm
  rw [hk] at hknown
  unfold submit
  dsimp only
  split
  · exact call_informed hknown _ _
  · exact hknown
  · exact hknown
  · exact hknown.worker rfl rfl (List.Subset.refl _) fun _ hm => hm
  · exact hknown.worker rfl rfl (List.Subset.refl _) fun _ hm => hm

theorem learn_informed {c : Cluster} (h : c.Informed) {s : SessionId} {m : Message}
    (hm : ∀ g ∈ m.grant, c.backend.GrantedTo s g) : (c.learn s m).Informed := by
  refine h.worker rfl rfl (List.Subset.refl _) fun s' hs' => ?_
  simp only [learn]
  rw [Function.update_apply, Function.update_apply]
  split_ifs with hs
  · subst hs
    refine ⟨hs'.filed.learn m, fun f hf => ?_⟩
    rcases mem_filings_append hf with hf | hf
    · exact hs'.granted f hf
    · exact hm f.range hf
  · exact hs'

theorem hear_informed {c : Cluster} (h : c.Informed) {m : Down} (hm : tells c.backend m) :
    (c.hear m).Informed := by
  cases m with
  | reply i s result =>
    simp only [hear]
    cases c.pending i with
    | none => exact h
    | some method =>
      have hpending : ({ c with pending := Function.update c.pending i none } : Cluster).Informed :=
        h.worker rfl rfl (List.Subset.refl _) fun _ hm => hm
      cases result with
      | error message => exact hpending
      | ok reply =>
        have hlearn := learn_informed (s := s) (m := lesson reply) hpending (by
          rw [lesson_grant]
          exact hm)
        dsimp only
        split_ifs
        · exact hlearn.worker rfl rfl (List.Subset.refl _) fun _ hm => hm
        · exact hlearn
  | job s payload =>
    simp only [hear]
    split_ifs
    · refine learn_informed h ?_
      rintro g ⟨⟩
      exact hm
    · exact h
  | kill s message => exact h

/-- What is still to be put out is for the right sessions, and nothing has been taken back. -/
structure Onward (c c' : Cluster) : Prop where
  vouching : Vouching c'.whose c.backend.GrantedTo c'.backend
  asked : ∀ n, c'.asked n ≠ none → n < c'.backend.nextCall
  down : c'.down = c.down
  known : c'.known = c.known
  heard : c'.heard = c.heard

theorem pump_informed {c c' : Cluster} (h : c.Informed) (hc : Onward c c') : c'.pump.Informed := by
  have hpump : Vouching c'.whose c.backend.GrantedTo c'.pump.backend :=
    hc.vouching.of_same ⟨rfl, rfl, List.Subset.refl _, rfl, rfl⟩ rfl le_rfl (fun _ _ he => he)
      fun o ho => absurd ho List.not_mem_nil
  refine ⟨hpump.pass (fun _ _ => rfl) rfl, rfl, hc.asked, fun m hm => ?_, fun s => ?_⟩
  · rcases List.mem_append.mp hm with hm | hm
    · rw [hc.down] at hm
      exact tells_mono (h.told m hm) hpump.kept
    · obtain ⟨o, ho, hto⟩ := List.mem_filterMap.mp hm
      have hhonors := hc.vouching.out o ho
      cases o with
      | push s p =>
        simp only [translate] at hto
        split_ifs at hto
        obtain rfl := Option.some.inj hto
        exact hhonors
      | kill s message =>
        simp only [translate] at hto
        split_ifs at hto
        obtain rfl := Option.some.inj hto
        exact trivial
      | reply n result =>
        obtain ⟨⟨s, i⟩, hasked, rfl⟩ := Option.map_eq_some_iff.mp hto
        cases result with
        | error message => exact trivial
        | ok r =>
          refine fun g hg => hhonors s ?_ g hg
          simp [whose, hasked]
      | share s e report => cases hto
      | submitted i l job_id nonce result => cases hto
  · have hmirrors := (h.mirrors s).mono (hpump.kept s)
    rw [← hc.known, ← hc.heard] at hmirrors
    exact hmirrors

theorem Informed.onward {c : Cluster} (h : c.Informed) : Onward c c :=
  ⟨h.vouching, h.asked, rfl, rfl, rfl⟩

/-- The backend goes on, and nobody asks it anything. -/
theorem Onward.next {c c' c'' : Cluster} (h : Onward c c') (hasked : c''.asked = c'.asked)
    (hdown : c''.down = c'.down) (hknown : c''.known = c'.known) (hheard : c''.heard = c'.heard)
    (hvouching : Vouching c'.whose c.backend.GrantedTo c''.backend)
    (hnextCall : c'.backend.nextCall ≤ c''.backend.nextCall) : Onward c c'' := by
  have hwhose : c''.whose = c'.whose := by
    unfold whose
    rw [hasked]
  refine ⟨hwhose ▸ hvouching, ?_, hdown.trans h.down, hknown.trans h.known,
    hheard.trans h.heard⟩
  rw [hasked]
  exact fun n hn => (h.asked n hn).trans_le hnextCall

/-- A request is handed to the backend, which will answer it with its next call. -/
theorem ask_onward {c : Cluster} (h : c.Informed) (s : SessionId) (i : ℕ) {b : Backend}
    (hb : Vouching (c.ask s i).whose c.backend.GrantedTo c.backend →
      Vouching (c.ask s i).whose c.backend.GrantedTo b)
    (hnextCall : c.backend.nextCall + 1 ≤ b.nextCall) :
    Onward c { c.ask s i with backend := b } := by
  have hasked : ∀ n, (c.ask s i).asked n =
      if n = c.backend.nextCall then some (s, i) else c.asked n := Function.update_apply _ _ _
  refine ⟨hb (h.vouching.pass (fun n hn => ?_) h.silent), fun n hn => ?_, rfl, rfl, rfl⟩
  · simp only [whose, hasked]
    rw [if_neg hn.ne]
  · refine (Nat.lt_succ_of_le ?_).trans_le hnextCall
    by_cases heq : n = c.backend.nextCall
    · exact heq.le
    · exact (h.asked n fun hnone => hn ((hasked n).trans (by rw [if_neg heq, hnone]))).le

theorem ask_whose (c : Cluster) (s : SessionId) (i : ℕ) :
    ∀ s' ∈ (c.ask s i).whose c.backend.nextCall, s = s' := by
  intro s' hs'
  simp only [whose, ask, Function.update_self, Option.map_some, Option.mem_def,
    Option.some.injEq] at hs'
  exact hs'

theorem accounts_onward {c c' : Cluster} (h : Onward c c') (ts : List (SessionId × Tally)) :
    Onward c (ts.foldl account c') := by
  induction ts generalizing c' with
  | nil => exact h
  | cons p ts ih =>
    refine ih ?_
    unfold account
    split_ifs
    · exact h.next rfl rfl rfl rfl (Backend.account_vouching h.vouching _ _ _ _)
        (Backend.account_ages (m := 0) _ _ _ _ _).nextCall
    · exact h

theorem handle_onward {c : Cluster} (h : c.Informed) (m : Up) : Onward c (c.handle m) := by
  cases m with
  | acc ts => exact accounts_onward h.onward ts
  | bye s =>
    simp only [handle]
    split_ifs
    · exact h.onward.next rfl rfl rfl rfl (Backend.close_vouching h.vouching s)
        (Backend.close_ages (m := 0) _ s).nextCall
    · exact h.onward
  | sub s job_id nonce result id =>
    have hnext :=
      (Backend.submit_ages (m := 0) c.backend (Nat.zero_le _) s job_id nonce result).nextCall
    simp only [handle]
    by_cases hhub : s ∈ c.hub
    · rw [if_pos hhub]
      exact h.onward.next rfl rfl rfl rfl (Backend.submit_vouching h.vouching s job_id nonce result)
        ((Nat.le_succ _).trans hnext)
    · rw [if_neg hhub]
      exact h.onward
  | login i s address threads =>
    refine ask_onward h s i (fun hb =>
      Backend.login_vouching hb (ask_whose c s i) address threads) ?_
    exact (congrArg (· + 1) (Backend.drop_nextCall c.backend s)).ge
  | chunk i s job_id hashrate =>
    exact ask_onward h s i (fun hb => Backend.chunk_vouching hb (ask_whose c s i) job_id hashrate)
      (Backend.chunk_ages (m := 0) c.backend s job_id hashrate).nextCall
  | submit i s job_id nonce result =>
    exact ask_onward h s i (fun hb => Backend.submit_vouching hb s job_id nonce result)
      (Backend.submit_ages (m := 0) c.backend (Nat.zero_le _) s job_id nonce result).nextCall

theorem go_onward {c : Cluster} (h : c.Informed) {a : Backend.Action} {b : Backend}
    (hb : c.backend.step a = some b) : Onward c (c.go a b) := by
  have hnobody : c.whose c.backend.nextCall = none := by
    unfold whose
    rw [Option.map_eq_none_iff]
    by_contra hne
    exact absurd (h.asked _ hne) (lt_irrefl _)
  have hstep := Backend.step_vouching h.vouching hnobody hb
  have hnext := (Backend.step_ages (m := 0) (Nat.zero_le _) hb).nextCall
  cases a with
  | poolReply n outcome =>
    simp only [go]
    split <;> exact h.onward.next rfl rfl rfl rfl hstep hnext
  | _ => exact h.onward.next rfl rfl rfl rfl hstep hnext

theorem step_informed (c : Cluster) (a : Action) (c' : Cluster) (h : c.Informed)
    (hstep : c.step a = some c') : c'.Informed := by
  cases step_fires hstep with
  | login s address threads _ _ =>
    have hcall := call_informed h .login fun i => .login i s address threads
    exact hcall.worker rfl rfl (List.Subset.refl _) fun _ hm => hm
  | chunk s job_id hashrate _ _ => exact call_informed h .chunk fun i => .chunk i s job_id hashrate
  | submit job_id nonce result _ _ => exact submit_informed h _ _ job_id nonce result
  | flush => exact flush_informed h
  | close s _ => exact close_informed h s
  | @hear m ms hdown =>
    have hrest : ({ c with down := ms } : Cluster).Informed := by
      refine h.worker rfl rfl (fun m' hm => ?_) fun _ hm => hm
      rw [hdown]
      exact List.mem_cons_of_mem _ hm
    refine hear_informed hrest (h.told m ?_)
    rw [hdown]
    exact List.mem_cons_self
  | expire i _ => exact h.worker rfl rfl (List.Subset.refl _) fun _ hm => hm
  | @handle m ms _ =>
    have hrest : ({ c with up := ms } : Cluster).Informed :=
      h.worker rfl rfl (List.Subset.refl _) fun _ hm => hm
    exact pump_informed hrest (handle_onward hrest m)
  | backend _ hb => exact pump_informed h (go_onward h hb)

theorem start_informed (own : SessionId → Bool) (maxLinks idleTimeout : ℕ)
    (expand : Bool) (now : ℕ) :
    (start own maxLinks idleTimeout expand now).Informed := by
  refine ⟨(Backend.start_vouching maxLinks idleTimeout expand now).pass (fun _ _ => rfl) rfl, rfl,
    fun _ hn => absurd rfl hn, fun _ hm => absurd hm List.not_mem_nil, fun _ => ?_⟩
  exact ⟨Known.filed_empty, fun f hf => absurd hf List.not_mem_nil⟩

/-- A job arrives on the link, and none after it. -/
def Stretch (i : UpstreamId) (l : LinkId) (c c' : Cluster) : Prop :=
  ∃ a m actions, c.arrives i l a = true ∧ c.step a = some m ∧ exec step m actions = some c' ∧
    Meets step (fun c a => c.arrives i l a = false) m actions

/-- The ranges that have been cut off the link for a miner since the state `c`. -/
def since (c c' : Cluster) (i : UpstreamId) (l : LinkId) (x : ClientId) : List Issued :=
  (c'.backend.upstream i).cuts l ((c.backend.upstream i).issued x).length x

theorem stretch_apart {c c' : Cluster} {i : UpstreamId} {l : LinkId}
    (hc : ∀ j, (c.backend.upstream j).outbox = []) (h : Stretch i l c c') :
    Everywhere (Apart i l fun x => ((c.backend.upstream i).issued x).length) c'.backend := by
  obtain ⟨a, m, actions, ha, hm, hrun, hquiet⟩ := h
  have hfirst : Everywhere (Apart i l fun x => ((c.backend.upstream i).issued x).length)
    m.backend := by
    cases a with
    | backend a =>
      simp only [step] at hm
      split_ifs at hm
      obtain ⟨b, hb, rfl⟩ := Option.map_eq_some_iff.mp hm
      refine (Backend.arrival_apart hc ha hb).of_upstream ?_
      change (c.go a b).backend.upstream = b.upstream
      rw [go_backend]
    | _ => exact absurd ha (by simp [arrives])
  have hstep : ∀ (d : Cluster) (x : Action) (d' : Cluster),
      Everywhere (Apart i l fun x => ((c.backend.upstream i).issued x).length) d.backend →
        d.arrives i l x = false → d.step x = some d' →
          Everywhere (Apart i l fun x => ((c.backend.upstream i).issued x).length) d'.backend := by
    intro d x d' hd hx hstep
    refine step_everywhere (apart_stable i l _) hd (fun j n hn hjn => ?_) hstep
    obtain ⟨rfl, rfl⟩ := hjn
    rw [hx] at hn
    exact absurd hn (by simp)
  exact exec_invariant hstep hfirst hquiet hrun

/-! ### Accepted shares -/

/-- An accepted share has a nonce that was granted: by the primary for the miner's current or
previous job; and at a worker to a client of the session, in a range that the worker was told for
its current or its previous job, while it knows of the job that the share names. -/
structure Owned (c : Cluster) : Prop where
  primary : ∀ s e nonce result, c.backend.entries s = some e →
    c.backend.accepts e nonce result = true → ∃ n, claimedNonce nonce = some n ∧
      ∃ r ∈ recent Issued.job_id ((c.backend.upstream e.upstream).issued e.client),
        r.range.has n = true
  worker : ∀ s job_id nonce result, (c.known s).accepts job_id nonce result = true →
    (filings (c.heard s)).1 = job_id ∧ ∃ n, claimedNonce nonce = some n ∧
      ∃ f ∈ recent Filing.job_id (filings (c.heard s)).2,
        f.range.has n = true ∧ c.backend.GrantedTo s f.range

theorem Informed.owned {c : Cluster} (h : c.Informed)
    (hbooked : Everywhere (fun _ u => u.Booked) c.backend) : c.Owned := by
  refine ⟨fun s e nonce result he hacc => ?_, fun s job_id nonce result hacc => ?_⟩
  · obtain ⟨job, n, d, -, hclaim, howns, -⟩ := Backend.decide_of_accepts hacc
    exact ⟨n, hclaim, (hbooked.holds e.upstream e.client).owns howns⟩
  · have hcovers := covers_of_accepts hacc
    simp only [Known.covers, Bool.and_eq_true, decide_eq_true_eq] at hcovers
    obtain ⟨⟨-, hjob⟩, howns⟩ := hcovers
    cases hclaim : claimedNonce nonce with
    | none => simp [hclaim] at howns
    | some n =>
      rw [hclaim] at howns
      obtain ⟨f, hf, hhas⟩ := (h.mirrors s).filed.booked.owns howns
      refine ⟨(h.mirrors s).filed.job ▸ hjob, n, rfl, f, hf, hhas, ?_⟩
      exact (h.mirrors s).granted f (recent_subset _ hf)

/-- In every state of a run an accepted share has a nonce granted to its miner, for the current or
the previous job; and the ranges cut off a link's space from one job to the next for different
miners are disjoint, if the space was built from different slots. -/
theorem accepted_share_granted (own : SessionId → Bool) (maxLinks idleTimeout : ℕ)
    (expand : Bool) (now : ℕ)
    (actions : List Action) (c : Cluster)
    (hrun : exec step (start own maxLinks idleTimeout expand now) actions = some c) :
    c.Owned ∧ ∀ i l c', Stretch i l c c' → ((c'.backend.upstream i).link l).space.segments.Nodup →
      ∀ x y, x ≠ y → ∀ r ∈ since c c' i l x, ∀ r' ∈ since c c' i l y,
        Disjoint r.range.nonces r'.range.nonces := by
  have hinformed :=
    exec_preserves step_informed (start_informed own maxLinks idleTimeout expand now) hrun
  have hstep : ∀ (d : Cluster) (a : Action) (d' : Cluster),
    Everywhere (fun _ u => u.Booked) d.backend →
      d.step a = some d' → Everywhere (fun _ u => u.Booked) d'.backend := fun d a d' hd h =>
    step_everywhere Backend.booked_stable hd (fun _ _ _ => trivial) h
  have hbooked : Everywhere (fun _ u => u.Booked) c.backend :=
    exec_preserves hstep ⟨fun _ => rfl, fun _ _ => Ledger.booked_empty _⟩ hrun
  refine ⟨hinformed.owned hbooked, fun i l c' hstretch hnodup x y hxy => ?_⟩
  exact ((stretch_apart hbooked.drained hstretch).holds i rfl hnodup).apart x y hxy

/-- A second miner logs in after `tallying`. -/
def pairing : List Action :=
  tallying ++ [.login 1 "b" none, .handle, .backend (.resolved 1 (.ok Backend.wallet)),
    .backend (.upstream 0 (.resume 0)), .backend (.settle 1), .hear]

/-- The next job for both. -/
def renewal : Action := .backend (.upstream 0 (.job 0 { Upstream.plainJob with job_id := "2" }))

theorem accepted_share_granted_paired :
    ∃ c c', exec step (start (fun _ => true) 64 300000 false 1000) pairing = some c ∧
      (c.known 1).accepts "1" "214e0000" (Backend.hashOf "0000000000000100") = true ∧ c.Owned ∧
      c.step renewal = some c' ∧ since c c' 0 0 0 ≠ [] ∧ since c c' 0 0 1 ≠ [] ∧
      ∀ x y, x ≠ y → ∀ r ∈ since c c' 0 0 x, ∀ r' ∈ since c c' 0 0 y,
        Disjoint r.range.nonces r'.range.nonces := by
  have hrun : (exec step (start (fun _ => true) 64 300000 false 1000) pairing).any (fun c =>
      (c.known 1).accepts "1" "214e0000" (Backend.hashOf "0000000000000100") = true ∧
        (c.step renewal).any (fun c' => since c c' 0 0 0 ≠ [] ∧ since c c' 0 0 1 ≠ [] ∧
          ((c'.backend.upstream 0).link 0).space.segments.Nodup) = true) = true := by
    decide +kernel
  obtain ⟨c, hc, hstate⟩ := (Option.any_eq_true _ _).mp hrun
  obtain ⟨hacc, hnext⟩ := of_decide_eq_true hstate
  obtain ⟨c', hc', hstate'⟩ := (Option.any_eq_true _ _).mp hnext
  obtain ⟨hfirst, hsecond, hnodup⟩ := of_decide_eq_true hstate'
  obtain ⟨howned, hapart⟩ :=
    accepted_share_granted (fun _ => true) 64 300000 false 1000 pairing c hc
  refine ⟨c, c', hc, hacc, howned, hc', hfirst, hsecond, hapart 0 0 c' ?_ hnodup⟩
  exact ⟨renewal, c', [], rfl, hc', rfl, trivial⟩

end Cluster

namespace Backend

/-- Two miners log in under `easyJob`, then the next job comes. -/
def crossing : List Action :=
  [.login 0 "a" none, .resolved 0 (.ok wallet), .upstream 0 (.dialed 0 (.ok ())),
    .upstream 0 (.loggedIn 0 (.ok easyJob)), .upstream 0 (.resume 0), .upstream 0 (.resume 0),
    .settle 0, .login 1 "b" none, .resolved 1 (.ok wallet), .upstream 0 (.resume 0), .settle 1,
    .upstream 0 (.job 0 Upstream.plainJob)]

/-- A nonce of the first miner's range for the old job and of the second miner's for the new one: a
share with it is accepted from both, and the first was not granted it for the new job. -/
theorem accepted_across_jobs :
    (¬ ∀ actions b s e job_id nonce result, exec step (start 64 300000 false 1000)
      actions = some b →
      b.entries s = some e → b.accepts e nonce result = true → ∃ r, b.Granted e job_id nonce r) ∧
    ¬ ∀ actions b s s' e e' job_id nonce result, exec step
      (start 64 300000 false 1000) actions = some b →
      s ≠ s' → b.entries s = some e → b.entries s' = some e' → b.accepts e nonce result = true →
        (b.submit s job_id nonce result).accepts e' nonce result = false := by
  have hrun : (exec step (start 64 300000 false 1000) crossing).any (fun b =>
      (b.entries 0).any (fun e => b.accepts e "88130000" (hashOf "0000000000100000") = true ∧
        (b.upstream e.upstream).issued e.client =
          [{ link := 0, job := easyJob, range := ⟨0, 20000⟩ },
            { link := 0, job := Upstream.plainJob, range := ⟨0, 4096⟩ }] ∧
        (b.entries 1).any (fun e' =>
          (b.submit 0 "1" "88130000" (hashOf "0000000000100000")).accepts e'
          "88130000" (hashOf "0000000000100000")) = true) = true) = true := by decide +kernel
  obtain ⟨b, hb, hstate⟩ := (Option.any_eq_true _ _).mp hrun
  obtain ⟨e, he, hview⟩ := (Option.any_eq_true _ _).mp (of_decide_eq_true hstate)
  obtain ⟨hacc, hissued, hboth⟩ := of_decide_eq_true hview
  obtain ⟨e', he', hacc'⟩ := (Option.any_eq_true _ _).mp hboth
  refine ⟨fun h => ?_, fun h => ?_⟩
  · obtain ⟨r, hr⟩ := h crossing b 0 e "1" "88130000" _ hb he hacc
    obtain ⟨n, hn, hhas⟩ := hr.range
    have hclaim : claimedNonce "88130000" = some 5000 := by decide +kernel
    obtain rfl := Option.some.inj (hclaim.symm.trans hn)
    have hmem := hr.issued
    have hjob := hr.job
    rw [hissued] at hmem
    -- the range for the old job has another job, and the one for the new job ends before 5000
    rcases List.mem_cons.mp hmem with rfl | hmem
    · exact absurd hjob (by decide)
    · rw [List.mem_singleton.mp hmem] at hhas
      exact absurd hhas (by decide)
  · have hnot := h crossing b 0 1 e e' "1" "88130000" _ hb (by decide) he he' hacc
    rw [hacc'] at hnot
    exact absurd hnot (by decide)

end Backend

end NMiner
