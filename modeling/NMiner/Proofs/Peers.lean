import NMiner.Lib.Transition
import NMiner.Spec.Edge

/-! What the events of a `UdpEdge` do to its peers. Nearly all of them leave the table alone or
take peers out of it; only a greeting puts one in, and only `send` fills an outbox. -/

namespace NMiner

namespace UdpEdge

open Transition
open Function (update)

variable {valid : Text → Bool}

/-- No peer comes in and no empty outbox fills. -/
structure Tame (s s' : UdpEdge) : Prop where
  created : s'.created = s.created
  peers : ∀ k, s'.peers k = s.peers k ∨ s'.peers k = none
  key : ∀ p, (s'.objects p).key = (s.objects p).key
  supplanted : ∀ p, (s'.objects p).supplanted = (s.objects p).supplanted
  outbox : ∀ p, (s.objects p).link.outbox = [] → (s'.objects p).link.outbox = []

theorem Tame.refl (s : UdpEdge) : Tame s s :=
  ⟨rfl, fun _ => Or.inl rfl, fun _ => rfl, fun _ => rfl, fun _ => id⟩

theorem Tame.same {s s' : UdpEdge} (hcreated : s'.created = s.created) (hpeers : s'.peers = s.peers)
    (hobjects : s'.objects = s.objects) : Tame s s' := by
  refine ⟨hcreated, fun k => Or.inl (by rw [hpeers]), ?_, ?_, ?_⟩ <;> intro p <;> rw [hobjects]
  exact id

theorem Tame.trans {s s' s'' : UdpEdge} (h : Tame s s') (h' : Tame s' s'') : Tame s s'' := by
  refine ⟨h'.created.trans h.created, fun k => ?_, fun p => (h'.key p).trans (h.key p),
    fun p => (h'.supplanted p).trans (h.supplanted p), fun p hp => h'.outbox p (h.outbox p hp)⟩
  rcases h'.peers k with hk | hk
  · rw [hk]
    exact h.peers k
  · exact Or.inr hk

theorem emit_tame (s : UdpEdge) (o : EdgeOutput) : Tame s (s.emit o) := Tame.same rfl rfl rfl

theorem release_tame (s : UdpEdge) (p : PeerId) : Tame s (s.release p) := Tame.same rfl rfl rfl

theorem setPeer_tame (s : UdpEdge) (p : PeerId) {f : Peer → Peer}
    (hkey : (f (s.objects p)).key = (s.objects p).key)
    (hsupplanted : (f (s.objects p)).supplanted = (s.objects p).supplanted)
    (houtbox : (s.objects p).link.outbox = [] → (f (s.objects p)).link.outbox = []) :
    Tame s (s.setPeer p f) := by
  have hobject : ∀ q, (s.setPeer p f).objects q = if q = p then f (s.objects p) else s.objects q :=
    fun q => Function.update_apply ..
  refine ⟨rfl, fun _ => Or.inl rfl, fun q => ?_, fun q => ?_, fun q hq => ?_⟩ <;> rw [hobject]
  · split_ifs with h
    · exact h ▸ hkey
    · rfl
  · split_ifs with h
    · exact h ▸ hsupplanted
    · rfl
  · split_ifs with h
    · exact houtbox (h ▸ hq)
    · exact hq

theorem setOutbox_tame (s : UdpEdge) (p : PeerId) {outbox : List OutboxEntry}
    (h : (s.objects p).link.outbox = [] → outbox = []) : Tame s (s.setOutbox p outbox) :=
  setPeer_tame s p rfl rfl h

theorem stop_tame (s : UdpEdge) (p : PeerId) : Tame s (s.stop p) :=
  (release_tame s p).trans (setOutbox_tame _ p fun _ => rfl)

theorem discard_tame (s : UdpEdge) (key : Key) (notify : Bool) : Tame s (s.discard key notify) := by
  unfold discard
  have hfirst : Tame s (if notify then s.emit (.dropped key) else s) := by
    split_ifs
    · exact emit_tame s _
    · exact Tame.refl s
  dsimp only
  split
  · exact hfirst
  · rename_i p hp
    refine hfirst.trans (Tame.trans ?_ (emit_tame _ _))
    refine Tame.trans ?_ (stop_tame _ p)
    refine ⟨rfl, fun k => ?_, fun _ => rfl, fun _ => rfl, fun _ => id⟩
    by_cases hk : k = key
    · exact Or.inr (by rw [hk]; exact Function.update_self _ _ _)
    · exact Or.inl (Function.update_of_ne hk _ _)

theorem drop_tame (s : UdpEdge) (key : Key) : Tame s (s.drop key) := discard_tame s key true

theorem drops_tame (keys : List Key) (s : UdpEdge) : Tame s (keys.foldl drop s) := by
  induction keys generalizing s with
  | nil => exact Tame.refl s
  | cons key rest ih => exact (drop_tame s key).trans (ih _)

theorem handle_tame (s : UdpEdge) (p : PeerId) (request : Option Request) :
    Tame s (s.handle p request) := by
  cases request with
  | none =>
    unfold handle
    split_ifs
    · exact Tame.refl s
    · exact drop_tame s _
  | some request => exact Tame.same rfl rfl rfl

theorem heard_tame (s : UdpEdge) (p : PeerId) (text : Text) (request : Option Request) :
    Tame s (s.heard p text request) := by
  unfold heard
  split_ifs with hack
  · cases parseInt36 (text.drop 1) with
    | none => exact Tame.refl s
    | some seq =>
      have hrest : Tame s (s.setOutbox p ((s.objects p).link.outbox.filter (·.seq ≠ seq))) :=
        setOutbox_tame s p fun hempty => by rw [hempty]; rfl
      dsimp only
      split_ifs
      · exact hrest.trans (release_tame _ p)
      · exact hrest
  · cases dataOf text with
    | none => exact Tame.refl s
    | some data =>
      have hacked := emit_tame s (.write (s.objects p).key (ackText data.1))
      dsimp only
      split_ifs
      · exact hacked
      · exact (hacked.trans (setPeer_tame _ p rfl rfl id)).trans (handle_tame _ p request)

/-- A text that is no greeting puts no peer in. -/
theorem receive_tame (s : UdpEdge) (key : Key) {text : Text} (privateHash : Text)
    (request : Option Request) (now : ℤ) (hhello : text.head? ≠ some HELLO) :
    Tame s (s.receive valid key text privateHash request now) := by
  unfold receive
  rw [if_neg hhello]
  split_ifs
  · exact drop_tame s key
  · cases s.peers key with
    | none => exact (emit_tame s _).trans (drop_tame _ key)
    | some p => exact (setPeer_tame s p rfl rfl id).trans (heard_tame _ p text request)

theorem resend_tame (s : UdpEdge) (p : PeerId) (now : ℤ) : Tame s (s.resend p now) := by
  unfold resend
  rcases hresend : Datagram.resend now (s.objects p).link.outbox with ⟨outbox, written, dead⟩
  have hresent : Tame s { s.setOutbox p outbox with
      out := s.out ++ written.map (.frame p (s.objects p).key) } := by
    refine (setOutbox_tame s p fun hempty => ?_).trans (Tame.same rfl rfl rfl)
    rw [hempty] at hresend
    exact (Prod.mk.inj hresend).1.symm
  dsimp only
  split_ifs
  · exact (hresent.trans (release_tame _ p)).trans (drop_tame _ _)
  · exact hresent.trans (release_tame _ p)
  · exact hresent

theorem sweep_tame (s : UdpEdge) (now : ℤ) : Tame s (s.sweep now) := drops_tame _ s

/-! ### Greetings -/

/-- A new peer takes the key; the one that had it is stopped. -/
structure Joins (s s' : UdpEdge) (k : Key) : Prop where
  created : s'.created = s.created + 1
  here : s'.peers k = some s.created
  peers : ∀ k', k' ≠ k → s'.peers k' = s.peers k'
  fresh : (s'.objects s.created).key = k ∧ (s'.objects s.created).supplanted = false
  key : ∀ p, p ≠ s.created → (s'.objects p).key = (s.objects p).key
  supplanted : ∀ p, p ≠ s.created → (s'.objects p).supplanted = true →
    (s.objects p).supplanted = true ∨ s.peers k = some p
  stopped : ∀ p, p ≠ s.created → s.peers k = some p → (s'.objects p).link.outbox = []
  outbox : ∀ p, p ≠ s.created → (s.objects p).link.outbox = [] → (s'.objects p).link.outbox = []

theorem join_peers (s : UdpEdge) (k : Key) (salt privateHash : Text) (now : ℤ) :
    (s.join k salt privateHash now).peers = update s.peers k (some s.created) := rfl

/-- The object of another peer. -/
theorem join_objects (s : UdpEdge) (k : Key) (salt privateHash : Text) (now : ℤ) {p : PeerId}
    (hp : p ≠ s.created) : (s.join k salt privateHash now).objects p = s.objects p :=
  Function.update_of_ne hp _ _

theorem join_fresh (s : UdpEdge) (k : Key) (salt privateHash : Text) (now : ℤ) :
    ((s.join k salt privateHash now).objects s.created).key = k ∧
      ((s.join k salt privateHash now).objects s.created).supplanted = false := by
  simp [join, emit]

/-- The one in the table leaves it marked and stopped. -/
theorem supplant_discard {s : UdpEdge} {k : Key} {p : PeerId} (hp : s.peers k = some p) :
    ((s.supplant k).discard k false).created = s.created ∧
      ((s.supplant k).discard k false).peers = update s.peers k none ∧
      ((s.supplant k).discard k false).objects = update s.objects p
        { s.objects p with
          supplanted := true, link := { (s.objects p).link with outbox := [] } } := by
  have hmark : s.supplant k = s.setPeer p fun peer => { peer with supplanted := true } := by
    unfold supplant
    rw [hp]
  have hstill : (s.setPeer p fun peer => { peer with supplanted := true }).peers k = some p := hp
  rw [hmark]
  unfold discard
  simp only [Bool.false_eq_true, if_false, hstill]
  refine ⟨rfl, rfl, ?_⟩
  simp [emit, stop, release, setOutbox, setPeer]

theorem replace_joins (s : UdpEdge) (k : Key) (salt privateHash : Text) (now : ℤ) :
    Joins s (((s.supplant k).discard k false).join k salt privateHash now) k := by
  cases hp : s.peers k with
  | none =>
    have hsame : (s.supplant k).discard k false = s := by
      unfold supplant discard
      simp [hp]
    rw [hsame]
    refine ⟨rfl, ?_, fun k' hk' => ?_, join_fresh s k salt privateHash now, fun p hq => ?_,
      fun p hq hsup => ?_, fun p hq hheld => ?_, fun p hq hout => ?_⟩
    · rw [join_peers, Function.update_self]
    · rw [join_peers, Function.update_of_ne hk']
    · rw [join_objects s k salt privateHash now hq]
    · rw [join_objects s k salt privateHash now hq] at hsup
      exact Or.inl hsup
    · rw [hp] at hheld
      exact absurd hheld (Option.some_ne_none p).symm
    · rw [join_objects s k salt privateHash now hq]
      exact hout
  | some p =>
    obtain ⟨hcreated, hpeers, hobjects⟩ := supplant_discard hp
    have hfresh := join_fresh ((s.supplant k).discard k false) k salt privateHash now
    have hother : ∀ q, q ≠ s.created →
        (((s.supplant k).discard k false).join k salt privateHash now).objects q =
          update s.objects p { s.objects p with
            supplanted := true, link := { (s.objects p).link with outbox := [] } } q := by
      intro q hq
      rw [join_objects _ k salt privateHash now (hcreated ▸ hq), hobjects]
    rw [hcreated] at hfresh
    refine ⟨congrArg (· + 1) hcreated, ?_, fun k' hk' => ?_, hfresh, fun q hq => ?_,
      fun q hq hsup => ?_, fun q hq hheld => ?_, fun q hq hout => ?_⟩
    · rw [join_peers, Function.update_self, hcreated]
    · rw [join_peers, Function.update_of_ne hk', hpeers, Function.update_of_ne hk']
    · rw [hother q hq, Function.update_apply]
      split_ifs with h
      · rw [h]
      · rfl
    · rw [hother q hq, Function.update_apply] at hsup
      split_ifs at hsup with h
      · exact Or.inr (by rw [h, hp])
      · exact Or.inl hsup
    · rw [hp] at hheld
      rw [hother q hq, ← Option.some.inj hheld, Function.update_self]
    · rw [hother q hq, Function.update_apply]
      split_ifs
      · rfl
      · exact hout

/-- A greeting that makes a peer carries a salt long enough, which the key exchange accepts. -/
def opens (valid : Text → Bool) (text : Text) : Bool :=
  text.head? = some HELLO ∧ 64 ≤ (text.drop 1).length ∧ valid (text.drop 1)

theorem greet_cases (valid : Text → Bool) (s : UdpEdge) (key : Key) (salt privateHash : Text)
    (now : ℤ) :
    Tame s (s.greet valid key salt privateHash now) ∨
      64 ≤ salt.length ∧ valid salt = true ∧
        Joins s (s.greet valid key salt privateHash now) key := by
  unfold greet
  by_cases hshort : salt.length < 64
  · rw [if_pos hshort]
    exact Or.inl (Tame.refl s)
  · rw [if_neg hshort]
    cases s.known key salt with
    | some p => exact Or.inl ((setPeer_tame s p rfl rfl id).trans (emit_tame _ _))
    | none =>
      dsimp only
      split_ifs with hvalid
      · exact Or.inr ⟨not_lt.mp hshort, hvalid, replace_joins s key salt privateHash now⟩
      · exact Or.inl (Tame.refl s)

theorem receive_cases (valid : Text → Bool) (s : UdpEdge) (key : Key) (text privateHash : Text)
    (request : Option Request) (now : ℤ) :
    Tame s (s.receive valid key text privateHash request now) ∨
      opens valid text = true ∧ Joins s (s.receive valid key text privateHash request now) key := by
  by_cases hhello : text.head? = some HELLO
  · have hreceive : s.receive valid key text privateHash request now =
        if ((s.greet valid key (text.drop 1) privateHash now).peers key).isNone then
          (s.greet valid key (text.drop 1) privateHash now).emit (.dropped key)
        else s.greet valid key (text.drop 1) privateHash now := if_pos hhello
    rw [hreceive]
    rcases greet_cases valid s key (text.drop 1) privateHash now with
      htame | ⟨hlong, hvalid, hjoins⟩
    · refine Or.inl ?_
      split_ifs
      · exact htame.trans (emit_tame _ _)
      · exact htame
    · rw [hjoins.here, if_neg (by simp)]
      exact Or.inr ⟨decide_eq_true ⟨hhello, hlong, hvalid⟩, hjoins⟩
  · exact Or.inl (receive_tame s key privateHash request now hhello)

/-! ### Other events -/

theorem deliver_peers (s : UdpEdge) (p : PeerId) (text : Text) (now : ℤ) :
    (s.deliver p text now).peers = s.peers := by
  unfold deliver send await
  dsimp only
  split_ifs <;> rfl

/-- Only a text that arrives can put a peer in the table. -/
theorem step_peers {s s' : UdpEdge} {a : Action.Udp} (hstep : s.step valid a = some s')
    (ha : ∀ key text privateHash request now, a ≠ .receive key text privateHash request now)
    (k : Key) : s'.peers k = s.peers k ∨ s'.peers k = none := by
  cases a with
  | receive key text privateHash request now => exact absurd rfl (ha _ _ _ _ _)
  | resolve i text now =>
    obtain ⟨⟨p, request⟩, -, rfl⟩ := Option.map_eq_some_iff.mp hstep
    refine Or.inl ?_
    simp only [resolved, deliver_peers]
    split_ifs <;> rfl
  | reject i text now =>
    obtain ⟨⟨p, request⟩, -, rfl⟩ := Option.map_eq_some_iff.mp hstep
    simp only [rejected]
    split_ifs
    · exact Or.inl (by rw [deliver_peers])
    · refine ((drop_tame _ _).peers k).imp_left fun hsame => ?_
      rw [hsame, deliver_peers]
    · exact Or.inl rfl
    · exact (drop_tame _ _).peers k
  | push p text now =>
    simp only [step] at hstep
    split_ifs at hstep
    obtain rfl := Option.some.inj hstep
    exact Or.inl (by rw [deliver_peers])
  | kill p text now =>
    simp only [step] at hstep
    split_ifs at hstep
    obtain rfl := Option.some.inj hstep
    exact Or.inl (by rw [deliver_peers])
  | expire i =>
    obtain ⟨p, -, rfl⟩ := Option.map_eq_some_iff.mp hstep
    exact (drop_tame _ _).peers k
  | resend p now =>
    simp only [step] at hstep
    split_ifs at hstep
    obtain rfl := Option.some.inj hstep
    exact (resend_tame _ p now).peers k
  | sweep now =>
    obtain rfl := Option.some.inj hstep
    exact (sweep_tame _ now).peers k
  | close =>
    obtain rfl := Option.some.inj hstep
    exact (drops_tame _ _).peers k

end UdpEdge

end NMiner
