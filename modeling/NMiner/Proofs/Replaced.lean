import NMiner.Proofs.Peers

/-! What a peer that has lost its key can do to its successor. The callbacks of a peer act on its
key, whoever has that now, and a stopped link can be sent on again; only the time-outs of a link
that `greet` has stopped are out of harm's way. -/

namespace NMiner

open Transition

namespace Datagram

theorem resend_idle {now : ℤ} {outbox : List OutboxEntry} (h : ∀ e ∈ outbox, e.due > now) :
    resend now outbox = (outbox, [], false) := by
  induction outbox with
  | nil => rfl
  | cons entry rest ih =>
    rw [resend, if_pos (h entry List.mem_cons_self),
      ih fun e he => h e (List.mem_cons_of_mem _ he)]

/-- An entry that is due is written again, or is the end of the link. -/
theorem resend_due {now : ℤ} {outbox : List OutboxEntry} (h : ∃ e ∈ outbox, e.due ≤ now) :
    (resend now outbox).2.1 ≠ [] ∨ (resend now outbox).2.2 = true := by
  induction outbox with
  | nil => exact absurd h (by simp)
  | cons entry rest ih =>
    obtain ⟨e, he, hdue⟩ := h
    rw [resend]
    split_ifs with hlater hlast
    · rcases List.mem_cons.mp he with rfl | hrest
      · exact absurd hdue (not_le.mpr hlater)
      · exact ih ⟨e, hrest, hdue⟩
    · exact Or.inr rfl
    · exact Or.inl (List.cons_ne_nil _ _)

end Datagram

namespace UdpEdge

open Function (update)

variable {valid : Text → Bool}

/-! ### The events of a peer -/

/-- The peer that an event belongs to. -/
def owner (s : UdpEdge) : Action.Udp → Option PeerId
  | .resolve k _ _ => s.calls[k]?.map Prod.fst
  | .reject k _ _ => s.calls[k]?.map Prod.fst
  | .push p _ _ => some p
  | .kill p _ _ => some p
  | .expire k => s.kills[k]?
  | .resend p _ => some p
  | _ => none

/-- Another peer has been put in the place of this one, or has come to its key since. -/
def replaced (s : UdpEdge) (p : PeerId) : Bool :=
  (s.objects p).supplanted = true ∨
    (s.peers (s.objects p).key).isSome = true ∧ s.peers (s.objects p).key ≠ some p

/-- A step removes no peer, closes no session and writes no `DATA` text of this peer's link. -/
structure Harmless (s s' : UdpEdge) (p : PeerId) : Prop where
  peers : s'.peers = s.peers
  sessions : ∀ q, EdgeOutput.closed q ∉ s'.out
  frames : ∀ key text, EdgeOutput.frame p key text ∉ s'.out

def oversize (text : Text) : Bool := text.length > MAX_PAYLOAD

/-- The condition on an event of a peer that has been replaced. -/
def spared (s : UdpEdge) (p : PeerId) : Action.Udp → Bool
  | .resolve _ text _ => oversize text
  | .reject k text _ => match s.calls[k]? with
    | some (_, request) => (request.id = false ∨ oversize text) ∧
        ((s.objects p).logged = true ∨ s.peers (s.objects p).key = none)
    | none => true
  | .push _ text _ => oversize text
  | .kill _ text _ => oversize text
  | .expire _ => s.peers (s.objects p).key = none
  | .resend _ now => (s.objects p).supplanted = true ∨
      ∀ e ∈ (s.objects p).link.outbox, e.due > now
  | _ => true

/-- The condition on a step. -/
def spares (s : UdpEdge) (a : Action.Udp) : Bool :=
  match s.owner a with
  | some p => s.replaced p = false ∨ s.spared p a
  | none => true

/-! ### Outputs -/

theorem discard_out (s : UdpEdge) (key : Key) (notify : Bool) :
    s.out <+: (s.discard key notify).out := by
  have hfirst : s.out <+: (if notify then s.emit (.dropped key) else s).out := by
    split_ifs
    · exact List.prefix_append _ _
    · exact List.prefix_rfl
  unfold discard
  dsimp only
  split
  · exact hfirst
  · refine hfirst.trans ?_
    exact (List.prefix_append _ _).trans (List.prefix_append _ _)

theorem drop_free {s : UdpEdge} {key : Key} (h : s.peers key = none) :
    s.drop key = s.emit (.dropped key) := by
  have hfree : (s.emit (.dropped key)).peers key = none := h
  unfold drop discard
  simp only [if_true, hfree]

theorem drop_taken {s : UdpEdge} {key : Key} {p : PeerId} (h : s.peers key = some p) :
    (s.drop key).peers key = none := by
  have htaken : (s.emit (.dropped key)).peers key = some p := h
  unfold drop discard
  simp only [if_true, htaken]
  exact Function.update_self _ _ _

/-- A text that is not too long goes out as a `DATA` text. -/
theorem deliver_small (s : UdpEdge) (p : PeerId) {text : Text} (now : ℤ)
    (h : oversize text = false) : ∃ frame,
      (s.deliver p text now).out = s.out ++ [.frame p (s.objects p).key frame] := by
  unfold deliver
  rw [if_neg (of_decide_eq_false h)]
  refine ⟨((s.objects p).link.send text now).2, ?_⟩
  unfold send await
  dsimp only
  split_ifs <;> rfl

theorem deliver_large (s : UdpEdge) (p : PeerId) {text : Text} (now : ℤ)
    (h : oversize text = true) : s.deliver p text now = s := if_pos (of_decide_eq_true h)

/-! ### What a peer that was put out keeps -/

/-- The table names the peers by their keys, and the links that `greet` has stopped stay empty. -/
structure Settled (s : UdpEdge) : Prop where
  table : ∀ k p, s.peers k = some p →
    (s.objects p).key = k ∧ p < s.created ∧ (s.objects p).supplanted = false
  silent : ∀ p, (s.objects p).supplanted = true → (s.objects p).link.outbox = []

theorem Tame.settled {s s' : UdpEdge} (h : Tame s s') (hs : s.Settled) : s'.Settled := by
  refine ⟨fun k p hp => ?_, fun p hp => ?_⟩
  · rcases h.peers k with hsame | hnone
    · rw [h.key, h.created, h.supplanted]
      exact hs.table k p (hsame ▸ hp)
    · rw [hnone] at hp
      exact absurd hp (Option.some_ne_none p).symm
  · exact h.outbox p (hs.silent p (h.supplanted p ▸ hp))

theorem Joins.settled {s s' : UdpEdge} {key : Key} (h : Joins s s' key) (hs : s.Settled) :
    s'.Settled := by
  refine ⟨fun k p hp => ?_, fun p hp => ?_⟩
  · by_cases hk : k = key
    · subst hk
      rw [h.here] at hp
      obtain rfl := Option.some.inj hp
      exact ⟨h.fresh.1, by rw [h.created]; exact Nat.lt_succ_self _, h.fresh.2⟩
    · rw [h.peers k hk] at hp
      obtain ⟨hkey, hlt, hnot⟩ := hs.table k p hp
      have hne : p ≠ s.created := hlt.ne
      refine ⟨(h.key p hne).trans hkey, by rw [h.created]; exact hlt.trans (Nat.lt_succ_self _), ?_⟩
      refine Bool.eq_false_iff.mpr fun hsup => ?_
      rcases h.supplanted p hne hsup with hold | hheld
      · rw [hnot] at hold
        exact Bool.false_ne_true hold
      · exact hk (hkey.symm.trans (hs.table key p hheld).1)
  · have hne : p ≠ s.created := by
      rintro rfl
      rw [h.fresh.2] at hp
      exact Bool.false_ne_true hp
    rcases h.supplanted p hne hp with hold | hheld
    · exact h.outbox p hne (hs.silent p hold)
    · exact h.stopped p hne hheld

theorem send_settled {s : UdpEdge} (hs : s.Settled) {p : PeerId}
    (hp : (s.objects p).supplanted = false) (text : Text) (now : ℤ) :
    (s.send p text now).Settled := by
  have hother : ∀ q, q ≠ p → (s.send p text now).objects q = s.objects q := by
    intro q hq
    unfold send await
    dsimp only
    split_ifs <;> exact Function.update_of_ne hq _ _
  have hself : ((s.send p text now).objects p).key = (s.objects p).key ∧
      ((s.send p text now).objects p).supplanted = (s.objects p).supplanted := by
    unfold send await
    dsimp only
    split_ifs <;> simp [emit, setPeer]
  have htable : (s.send p text now).peers = s.peers ∧ (s.send p text now).created = s.created := by
    unfold send await
    dsimp only
    split_ifs <;> exact ⟨rfl, rfl⟩
  refine ⟨fun k q hq => ?_, fun q hq => ?_⟩
  · rw [htable.2]
    rw [htable.1] at hq
    by_cases h : q = p
    · rw [h, hself.1, hself.2]
      exact hs.table k p (h ▸ hq)
    · rw [hother q h]
      exact hs.table k q hq
  · by_cases h : q = p
    · rw [h, hself.2, hp] at hq
      exact absurd hq Bool.false_ne_true
    · rw [hother q h] at hq ⊢
      exact hs.silent q hq

theorem deliver_settled {s : UdpEdge} (hs : s.Settled) {p : PeerId} {text : Text} (now : ℤ)
    (hp : (s.objects p).supplanted = false ∨ oversize text = true) :
    (s.deliver p text now).Settled := by
  cases htext : oversize text with
  | true =>
    rw [deliver_large s p now htext]
    exact hs
  | false =>
    unfold deliver
    rw [if_neg (of_decide_eq_false htext)]
    exact send_settled hs (hp.resolve_right (by simp [htext])) text now

theorem not_supplanted {s : UdpEdge} {a : Action.Udp} {p : PeerId} (howner : s.owner a = some p)
    (hspares : s.spares a = true) :
    (s.objects p).supplanted = false ∨ s.spared p a = true := by
  unfold spares at hspares
  rw [howner] at hspares
  refine (of_decide_eq_true hspares).imp_left fun hfree => ?_
  have hnot := of_decide_eq_false hfree
  exact Bool.eq_false_iff.mpr fun hsup => hnot (Or.inl hsup)

theorem calling_tame (s : UdpEdge) (calls : List (PeerId × Request)) (p : PeerId)
    (request : Request) : Tame s (if request.login then
      { s with calls := calls }.setPeer p fun peer => { peer with logged := true }
      else { s with calls := calls }) := by
  have hcalls : Tame s { s with calls := calls } := Tame.same rfl rfl rfl
  split_ifs
  · exact hcalls.trans (setPeer_tame _ p rfl rfl id)
  · exact hcalls

theorem step_settled (s : UdpEdge) (a : Action.Udp) (s' : UdpEdge) (hs : s.Settled)
    (hspares : s.spares a = true) (hstep : s.step valid a = some s') : s'.Settled := by
  have hclear : Settled { s with out := [] } := ⟨hs.table, hs.silent⟩
  cases a with
  | receive key text privateHash request now =>
    obtain rfl := Option.some.inj hstep
    rcases receive_cases valid { s with out := [] } key text privateHash request now with
      htame | ⟨-, hjoins⟩
    · exact htame.settled hclear
    · exact hjoins.settled hclear
  | resolve k text now =>
    obtain ⟨⟨p, request⟩, hk, rfl⟩ := Option.map_eq_some_iff.mp hstep
    have howner : s.owner (.resolve k text now) = some p := congrArg (Option.map Prod.fst) hk
    have htame := calling_tame { s with out := [] } (s.calls.eraseIdx k) p request
    refine deliver_settled (htame.settled hclear) now ?_
    rw [htame.supplanted p]
    exact not_supplanted howner hspares
  | reject k text now =>
    obtain ⟨⟨p, request⟩, hk, rfl⟩ := Option.map_eq_some_iff.mp hstep
    have hcalls : s.calls[k]? = some (p, request) := hk
    have howner : s.owner (.reject k text now) = some p := congrArg (Option.map Prod.fst) hk
    have hcalling : Settled { s with out := [], calls := s.calls.eraseIdx k } :=
      ⟨hs.table, hs.silent⟩
    have hdelivered : Settled (if request.id then
        ({ s with out := [], calls := s.calls.eraseIdx k } : UdpEdge).deliver p text now
        else { s with out := [], calls := s.calls.eraseIdx k }) := by
      split_ifs with hid
      · refine deliver_settled hcalling now ((not_supplanted howner hspares).imp_right ?_)
        intro hspared
        simp only [spared, hcalls, decide_eq_true_eq] at hspared
        exact hspared.1.resolve_left (by simp [hid])
      · exact hcalling
    unfold rejected
    dsimp only
    split_ifs at hdelivered ⊢
    all_goals first
      | exact hdelivered
      | exact (drop_tame _ _).settled hdelivered
  | push p text now =>
    simp only [step] at hstep
    split_ifs at hstep
    obtain rfl := Option.some.inj hstep
    exact deliver_settled hclear now (not_supplanted rfl hspares)
  | kill p text now =>
    simp only [step] at hstep
    split_ifs at hstep
    obtain rfl := Option.some.inj hstep
    have hdelivered := deliver_settled hclear now (not_supplanted rfl hspares)
    exact ⟨hdelivered.table, hdelivered.silent⟩
  | expire k =>
    obtain ⟨p, hk, rfl⟩ := Option.map_eq_some_iff.mp hstep
    exact (drop_tame _ _).settled ⟨hs.table, hs.silent⟩
  | resend p now =>
    simp only [step] at hstep
    split_ifs at hstep
    obtain rfl := Option.some.inj hstep
    exact (resend_tame _ p now).settled hclear
  | sweep now =>
    obtain rfl := Option.some.inj hstep
    exact (sweep_tame _ now).settled hclear
  | close =>
    obtain rfl := Option.some.inj hstep
    exact (drops_tame _ _).settled hclear

theorem run_settled {actions : List Action.Udp} {s : UdpEdge}
    (hspares : Meets (step valid) (fun s a => s.spares a = true) {} actions)
    (hrun : exec (step valid) {} actions = some s) : s.Settled := by
  refine exec_invariant step_settled ⟨fun k p hp => ?_, fun p hp => ?_⟩ hspares hrun
  · exact absurd hp (Option.some_ne_none p).symm
  · exact absurd hp Bool.false_ne_true

/-! ### Which events are harmless -/

theorem deliver_harmless (s s₁ : UdpEdge) (hpeers : s₁.peers = s.peers) (hout : s₁.out = [])
    (p : PeerId) (text : Text) (now : ℤ) :
    Harmless s (s₁.deliver p text now) p ↔ oversize text = true := by
  cases htext : oversize text with
  | true =>
    refine iff_of_true ?_ rfl
    rw [deliver_large s₁ p now htext]
    exact ⟨hpeers, by simp [hout], by simp [hout]⟩
  | false =>
    refine iff_of_false (fun hharmless => ?_) Bool.false_ne_true
    obtain ⟨frame, hframe⟩ := deliver_small s₁ p now htext
    exact hharmless.frames (s₁.objects p).key frame (by simp [hframe])

theorem drop_harmless (s s₁ : UdpEdge) (hpeers : s₁.peers = s.peers) (hout : s₁.out = [])
    (p : PeerId) (key : Key) : Harmless s (s₁.drop key) p ↔ s.peers key = none := by
  cases hheld : s.peers key with
  | none =>
    refine iff_of_true ?_ rfl
    rw [drop_free (hpeers ▸ hheld)]
    exact ⟨hpeers, by simp [emit, hout], by simp [emit, hout]⟩
  | some q =>
    refine iff_of_false (fun hharmless => ?_) (Option.some_ne_none q)
    have hgone := drop_taken (hpeers ▸ hheld : s₁.peers key = some q)
    rw [hharmless.peers, hheld] at hgone
    exact Option.some_ne_none q hgone

theorem rejected_harmless (s s₁ : UdpEdge) (hpeers : s₁.peers = s.peers)
    (hobjects : s₁.objects = s.objects) (hout : s₁.out = []) (p : PeerId) (request : Request)
    (text : Text) (now : ℤ) : Harmless s (s₁.rejected p request text now) p ↔
      (request.id = false ∨ oversize text = true) ∧
        ((s.objects p).logged = true ∨ s.peers (s.objects p).key = none) := by
  by_cases hquiet : request.id = false ∨ oversize text = true
  · have hsame : (if request.id then s₁.deliver p text now else s₁) = s₁ := by
      split_ifs with hid
      · exact deliver_large s₁ p now (hquiet.resolve_left (by simp [hid]))
      · rfl
    unfold rejected
    rw [hsame, and_iff_right hquiet]
    dsimp only
    rw [hobjects]
    split_ifs with hlogged
    · exact iff_of_true ⟨hpeers, by simp [hout], by simp [hout]⟩ (Or.inl hlogged)
    · rw [or_iff_right hlogged]
      exact drop_harmless s s₁ hpeers hout p _
  · refine iff_of_false (fun hharmless => ?_) fun h => hquiet h.1
    rw [not_or, Bool.not_eq_false, Bool.not_eq_true] at hquiet
    obtain ⟨frame, hframe⟩ := deliver_small s₁ p now hquiet.2
    have hmem : EdgeOutput.frame p (s₁.objects p).key frame ∈
        (s₁.rejected p request text now).out := by
      unfold rejected
      rw [if_pos hquiet.1]
      dsimp only
      split_ifs
      · rw [hframe]
        simp
      · refine (discard_out _ _ true).subset ?_
        rw [hframe]
        simp
    exact hharmless.frames _ _ hmem

/-- A time-out of a link with nothing due is harmless, and one with something due is not, as long
as another peer has the key. -/
theorem resend_harmless (s s₁ : UdpEdge) (hpeers : s₁.peers = s.peers)
    (hobjects : s₁.objects = s.objects) (hout : s₁.out = []) {p : PeerId} {now : ℤ}
    (htaken : (s.objects p).link.outbox = [] ∨ s.peers (s.objects p).key ≠ none) :
    Harmless s (s₁.resend p now) p ↔ ∀ e ∈ (s.objects p).link.outbox, e.due > now := by
  by_cases hidle : ∀ e ∈ (s.objects p).link.outbox, e.due > now
  · refine iff_of_true ?_ hidle
    unfold resend
    rw [hobjects, Datagram.resend_idle hidle]
    simp only [Bool.false_eq_true, if_false, List.map_nil, List.append_nil]
    split_ifs <;> exact ⟨hpeers, by simp [release, hout], by simp [release, hout]⟩
  · refine iff_of_false (fun hharmless => ?_) hidle
    have hdue : ∃ e ∈ (s.objects p).link.outbox, e.due ≤ now := by
      simpa [not_lt] using hidle
    have hheld : s.peers (s.objects p).key ≠ none := by
      refine htaken.resolve_left fun hempty => ?_
      obtain ⟨e, he, -⟩ := hdue
      rw [hempty] at he
      exact absurd he List.not_mem_nil
    rcases hresend : Datagram.resend now (s.objects p).link.outbox with ⟨outbox, written, dead⟩
    have hends := Datagram.resend_due hdue
    rw [hresend] at hends
    unfold resend at hharmless
    rw [hobjects, hresend] at hharmless
    dsimp only at hharmless hends
    cases hdead : dead with
    | true =>
      rw [hdead, if_pos rfl] at hharmless
      obtain ⟨q, hq⟩ := Option.ne_none_iff_exists'.mp hheld
      have hgone := hharmless.peers
      have hdropped : ((({ s₁.setOutbox p outbox with
          out := s₁.out ++ written.map (.frame p (s.objects p).key) } : UdpEdge).release p).drop
          (s.objects p).key).peers (s.objects p).key = none := drop_taken (hpeers ▸ hq)
      rw [hgone, hq] at hdropped
      exact Option.some_ne_none q hdropped
    | false =>
      obtain ⟨text, rest, rfl⟩ := List.exists_cons_of_ne_nil (hends.resolve_right (by simp [hdead]))
      rw [hdead, if_neg Bool.false_ne_true] at hharmless
      refine hharmless.frames (s.objects p).key text ?_
      split_ifs <;> simp [release]

theorem resend_spared {s : UdpEdge} (hs : s.Settled) {p : PeerId} (now : ℤ) :
    (∀ e ∈ (s.objects p).link.outbox, e.due > now) ↔ s.spared p (.resend p now) = true := by
  simp only [spared, decide_eq_true_eq]
  refine ⟨Or.inr, fun h => h.elim (fun hsup => ?_) id⟩
  rw [hs.silent p hsup]
  exact fun e he => absurd he List.not_mem_nil

/-- After a run whose steps meet the condition, an event of a peer that has been replaced is
harmless to its successor exactly if it meets the condition as well. -/
theorem replaced_peer_harmless (actions : List Action.Udp) (s s' : UdpEdge) (a : Action.Udp)
    (p : PeerId) (hspares : Meets (step valid) (fun s a => s.spares a = true) {} actions)
    (hrun : exec (step valid) {} actions = some s) (howner : s.owner a = some p)
    (hreplaced : s.replaced p = true) (hstep : s.step valid a = some s') :
    Harmless s s' p ↔ s.spares a = true := by
  have hs := run_settled hspares hrun
  have hspared : s.spares a = true ↔ s.spared p a = true := by
    unfold spares
    rw [howner, decide_eq_true_eq, hreplaced]
    simp
  rw [hspared]
  cases a with
  | receive key text privateHash request now => exact absurd howner (Option.some_ne_none p).symm
  | resolve k text now =>
    obtain ⟨⟨q, request⟩, hk, rfl⟩ := Option.map_eq_some_iff.mp hstep
    obtain rfl : q = p := by
      have howner' : (s.calls[k]?).map Prod.fst = some p := howner
      rw [show s.calls[k]? = some (q, request) from hk] at howner'
      exact Option.some.inj howner'
    refine deliver_harmless s _ ?_ ?_ q text now
    all_goals split_ifs <;> rfl
  | reject k text now =>
    obtain ⟨⟨q, request⟩, hk, rfl⟩ := Option.map_eq_some_iff.mp hstep
    have hcalls : s.calls[k]? = some (q, request) := hk
    obtain rfl : q = p := by
      have howner' : (s.calls[k]?).map Prod.fst = some p := howner
      rw [hcalls] at howner'
      exact Option.some.inj howner'
    simp only [spared, hcalls, decide_eq_true_eq]
    exact rejected_harmless s { s with out := [], calls := s.calls.eraseIdx k } rfl rfl rfl q
      request text now
  | push q text now =>
    obtain rfl := Option.some.inj howner
    simp only [step] at hstep
    split_ifs at hstep
    obtain rfl := Option.some.inj hstep
    exact deliver_harmless s { s with out := [] } rfl rfl q text now
  | kill q text now =>
    obtain rfl := Option.some.inj howner
    simp only [step] at hstep
    split_ifs at hstep
    obtain rfl := Option.some.inj hstep
    refine Iff.trans ⟨fun h => ?_, fun h => ?_⟩
      (deliver_harmless s { s with out := [] } rfl rfl q text now)
    · exact ⟨h.peers, h.sessions, h.frames⟩
    · exact ⟨h.peers, h.sessions, h.frames⟩
  | expire k =>
    obtain ⟨q, hk, rfl⟩ := Option.map_eq_some_iff.mp hstep
    obtain rfl : q = p := Option.some.inj (hk.symm.trans howner)
    simp only [spared, decide_eq_true_eq]
    exact drop_harmless s { s with out := [], kills := s.kills.eraseIdx k } rfl rfl q _
  | resend q now =>
    obtain rfl := Option.some.inj howner
    simp only [step] at hstep
    split_ifs at hstep
    obtain rfl := Option.some.inj hstep
    refine (resend_harmless s { s with out := [] } rfl rfl rfl ?_).trans (resend_spared hs now)
    rcases of_decide_eq_true hreplaced with hsup | ⟨hheld, -⟩
    · exact Or.inl (hs.silent q hsup)
    · exact Or.inr (Option.isSome_iff_ne_none.mp hheld)
  | sweep now => exact absurd howner (Option.some_ne_none p).symm
  | close => exact absurd howner (Option.some_ne_none p).symm

/-- Salts of two clients behind one address and port. -/
def firstSalt : Text := List.replicate 64 'a'

def secondSalt : Text := List.replicate 64 'b'

def hello (salt : Text) : Action.Udp := .receive "10.0.0.1:4000" (HELLO :: salt) [] none 0

/-- The first client is killed and the second one takes its place. -/
def killed : List Action.Udp := [hello firstSalt, .kill 0 [] 0, hello secondSalt]

def ran (actions : List Action.Udp) : Option UdpEdge := exec (step fun _ => true) {} actions

/-- The second client says goodbye before the timer of the first one fires. -/
theorem replaced_peer_harmless_gone : ∃ s s', ran (killed ++
    [.receive "10.0.0.1:4000" [RESET] [] none 0]) = some s ∧
    s.step (fun _ => true) (.expire 0) = some s' ∧ Harmless s s' 0 := by
  have hspares : Meets (step fun _ => true) (fun s a => s.spares a = true) {}
      (killed ++ [.receive "10.0.0.1:4000" [RESET] [] none 0]) := by decide +kernel
  have hany : (ran (killed ++ [.receive "10.0.0.1:4000" [RESET] [] none 0])).any (fun s =>
      s.owner (.expire 0) = some 0 ∧ s.replaced 0 = true ∧ s.spares (.expire 0) = true ∧
        (s.step (fun _ => true) (.expire 0)).isSome = true) = true := by decide +kernel
  obtain ⟨s, hrun, hs⟩ := (Option.any_eq_true _ _).mp hany
  obtain ⟨howner, hreplaced, hspare, hsome⟩ := of_decide_eq_true hs
  obtain ⟨s', hstep⟩ := Option.isSome_iff_exists.mp hsome
  exact ⟨s, s', hrun, hstep,
    (replaced_peer_harmless _ s s' _ 0 hspares hrun howner hreplaced hstep).mpr hspare⟩

/-- The timer of the first client drops the second one. -/
theorem replaced_peer_drops_successor : ¬ ∀ actions s s' a p, ran actions = some s →
    s.owner a = some p → s.replaced p = true → s.step (fun _ => true) a = some s' →
      Harmless s s' p := by
  intro h
  have hany : (ran killed).any (fun s => s.owner (.expire 0) = some 0 ∧ s.replaced 0 = true ∧
      s.peers "10.0.0.1:4000" = some 1 ∧ (s.step (fun _ => true) (.expire 0)).any (fun s' =>
        s'.peers "10.0.0.1:4000" = none) = true) = true := by decide +kernel
  obtain ⟨s, hrun, hs⟩ := (Option.any_eq_true _ _).mp hany
  obtain ⟨howner, hreplaced, hheld, hnext⟩ := of_decide_eq_true hs
  obtain ⟨s', hstep, hgone⟩ := (Option.any_eq_true _ _).mp hnext
  have hpeers := (h killed s s' _ 0 hrun howner hreplaced hstep).peers
  have hnone := of_decide_eq_true hgone
  rw [hpeers, hheld] at hnone
  exact Option.some_ne_none 1 hnone

end UdpEdge

end NMiner
