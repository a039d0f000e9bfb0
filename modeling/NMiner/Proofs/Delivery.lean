import NMiner.Proofs.Datagrams

/-! Every payload handed to `send` is delivered at most once, and is acknowledged, or in an outbox
that the sweeper serves, or given up with its link. Nothing keeps the payloads in the order in which
they were sent: they are delivered in the order in which first copies arrive. -/

namespace NMiner

open Transition

/-! ### What each call leaves alone -/

/-- The receiving half of a side is as before. -/
structure Side.Quiet (d d' : Side) : Prop where
  ring : d'.link.ring = d.link.ring
  at_ : d'.link.at_ = d.link.at_
  seen : d'.link.seen = d.link.seen
  arrived : d'.arrived = d.arrived
  delivered : d'.delivered = d.delivered

theorem Side.Quiet.refl (d : Side) : d.Quiet d := ⟨rfl, rfl, rfl, rfl, rfl⟩

theorem Side.Quiet.trans {d d' d'' : Side} (h : d.Quiet d') (h' : d'.Quiet d'') : d.Quiet d'' :=
  ⟨h'.ring.trans h.ring, h'.at_.trans h.at_, h'.seen.trans h.seen, h'.arrived.trans h.arrived,
    h'.delivered.trans h.delivered⟩

theorem Side.Quiet.numbers {d d' : Side} (h : d.Quiet d') : d'.numbers = d.numbers :=
  congrArg (List.map Prod.fst) h.delivered

theorem Side.Quiet.ordered {d d' : Side} (h : d.Quiet d') (hd : d.Ordered) : d'.Ordered := by
  refine ⟨?_, ?_⟩
  · rw [h.arrived, h.numbers]
    exact hd.arrived
  · rw [h.arrived, h.numbers]
    exact hd.order

theorem Side.Quiet.window {d d' : Side} (h : d.Quiet d') (hd : d.Window) : d'.Window := by
  refine ⟨?_, ?_, ?_, ?_⟩
  · rw [h.ring, h.numbers]
    exact hd.ring
  · rw [h.at_, h.numbers]
    exact hd.at_
  · rw [h.seen, h.numbers]
    exact hd.seen
  · rw [h.numbers]
    exact hd.nodup

theorem Side.resend_quiet (d : Side) (now : ℤ) : d.Quiet (d.resend now) := by
  unfold Side.resend
  rcases Datagram.resend now d.link.outbox with ⟨outbox, written, dead⟩
  cases dead <;> exact ⟨rfl, rfl, rfl, rfl, rfl⟩

/-- Entries that `resend` keeps were in the outbox before. -/
theorem Side.resend_outbox {d : Side} {now : ℤ}
    (hne : (d.resend now).link.outbox ≠ []) : d.link.outbox ≠ [] := by
  intro hnil
  refine hne ?_
  unfold Side.resend
  rw [hnil]
  rfl

theorem Side.receiveAck_quiet (d : Side) (seq : ℤ) : d.Quiet (d.receiveAck seq) := by
  unfold Side.receiveAck
  split_ifs <;> exact ⟨rfl, rfl, rfl, rfl, rfl⟩

theorem Side.receiveData_outbox (d : Side) (seq : ℤ) (payload : Text) :
    (d.receiveData seq payload).link.outbox = d.link.outbox := by
  rw [Side.receiveData_link]
  split_ifs <;> rfl

@[simp] theorem Endpoint.peer_peer {S : Type} (e : Endpoint S) : e.peer.peer = e := by
  rw [Endpoint.peer, Endpoint.peer, Bool.not_not]

theorem Endpoint.peer_ne {S : Type} (e : Endpoint S) : e.peer ≠ e := by
  intro h
  have := congrArg Endpoint.client h
  exact Bool.not_ne_self e.client this

namespace World

variable {S P : Type} {proc : Endpoint S → P}

/-- What holds of the links of all processes. -/
structure Sound (proc : Endpoint S → P) (w : World S P) : Prop where
  honest : ∀ e, (w.sides e).Honest (w.sides e.peer)
  waits : ∀ e, (w.sides e).link.outbox ≠ [] → e ∈ w.waiting (proc e)
  armed : ∀ p, w.waiting p ≠ [] → w.sweeper p = true

theorem start_sound : Sound proc ({} : World S P) :=
  ⟨fun _ => ⟨rfl, fun _ hmem => (by cases hmem), fun _ hmem => (by cases hmem), List.nodup_nil,
    fun _ hmem => (by cases hmem), fun _ hlt => absurd hlt (Nat.not_lt_zero _),
    fun _ hmem => (by cases hmem), fun _ _ hmem => (by cases hmem), fun _ hmem => (by cases hmem)⟩,
    fun _ hne => absurd rfl hne, fun _ hne => absurd rfl hne⟩

/-- The receiving halves of all sides are as before. -/
def Quiet (w w' : World S P) : Prop := ∀ e, (w.sides e).Quiet (w'.sides e)

variable [DecidableEq S]

theorem sides_setSide (w : World S P) (e e' : Endpoint S) (d : Side) :
    (w.setSide e d).sides e' = if e' = e then d else w.sides e' :=
  Function.update_apply ..

theorem setSide_setSide (w : World S P) (e : Endpoint S) (d d' : Side) :
    (w.setSide e d).setSide e d' = w.setSide e d' := by
  simp only [World.setSide, Function.update_idem]

theorem sides_setSide_self (w : World S P) (e : Endpoint S) (d : Side) :
    (w.setSide e d).sides e = d := Function.update_self ..

theorem setSide_sides (w : World S P) (e : Endpoint S) : w.setSide e (w.sides e) = w := by
  simp only [World.setSide, Function.update_eq_self]

/-- One side goes on, and its peer sees it grow. -/
theorem setSide_honest {w : World S P} (h : ∀ e, (w.sides e).Honest (w.sides e.peer))
    {e : Endpoint S} {d : Side} (hd : d.Honest (w.sides e.peer) ∧ (w.sides e).Grows d) :
    ∀ e', ((w.setSide e d).sides e').Honest ((w.setSide e d).sides e'.peer) := by
  intro e'
  rw [sides_setSide, sides_setSide]
  by_cases he : e' = e
  · rw [if_pos he, he, if_neg e.peer_ne]
    exact hd.1
  · rw [if_neg he]
    by_cases hp : e'.peer = e
    · rw [if_pos hp]
      have := h e'
      rw [hp] at this
      exact this.mono hd.2
    · rw [if_neg hp]
      exact h e'

theorem setSide_waits {w : World S P} {waiting : P → List (Endpoint S)} {e : Endpoint S} {d : Side}
    (hother : ∀ e', e' ≠ e → (w.sides e').link.outbox ≠ [] → e' ∈ waiting (proc e'))
    (he : d.link.outbox ≠ [] → e ∈ waiting (proc e)) :
    ∀ e', ((w.setSide e d).sides e').link.outbox ≠ [] → e' ∈ waiting (proc e') := by
  intro e'
  rw [sides_setSide]
  split_ifs with heq
  · exact heq.symm ▸ he
  · exact hother e' heq

theorem quiet_setSide {w w' : World S P} {e : Endpoint S} {d : Side}
    (hd : (w.sides e).Quiet d) (hw : w'.sides = (w.setSide e d).sides) : w.Quiet w' := by
  intro e'
  rw [hw, sides_setSide]
  split_ifs with he
  · exact he ▸ hd
  · exact Side.Quiet.refl _

/-- A side goes on and keeps its place in the waiting set. -/
theorem Sound.setSide {w : World S P} (h : w.Sound proc) {e : Endpoint S} {d : Side}
    (hd : d.Honest (w.sides e.peer) ∧ (w.sides e).Grows d)
    (hw : d.link.outbox ≠ [] → (w.sides e).link.outbox ≠ []) : (w.setSide e d).Sound proc :=
  ⟨setSide_honest h.honest hd, setSide_waits (fun e' _ => h.waits e') fun hne => h.waits e (hw hne),
    h.armed⟩

variable [DecidableEq P]

theorem mem_release {w : World S P} {e e' : Endpoint S} (hne : e' ≠ e)
    (h : e' ∈ w.waiting (proc e')) : e' ∈ (w.release proc e).waiting (proc e') := by
  change e' ∈ Function.update w.waiting (proc e) _ (proc e')
  rw [Function.update_apply]
  split_ifs with hp
  · exact List.mem_filter.mpr ⟨hp ▸ h, decide_eq_true hne⟩
  · exact h

theorem release_armed {w : World S P} (h : ∀ p, w.waiting p ≠ [] → w.sweeper p = true)
    (e : Endpoint S) : ∀ p, (w.release proc e).waiting p ≠ [] → w.sweeper p = true := by
  intro p hp
  change Function.update w.waiting (proc e) _ p ≠ [] at hp
  rw [Function.update_apply] at hp
  split_ifs at hp with heq
  · refine h p fun hnil => hp ?_
    rw [← heq, hnil]
    rfl
  · exact h p hp

/-- A side goes on with an empty outbox and leaves the waiting set. -/
theorem Sound.setSide_release {w : World S P} (h : w.Sound proc) {e : Endpoint S} {d : Side}
    (hd : d.Honest (w.sides e.peer) ∧ (w.sides e).Grows d) (hw : d.link.outbox = []) :
    ((w.setSide e d).release proc e).Sound proc :=
  ⟨setSide_honest h.honest hd,
    setSide_waits (fun _ hne hout => mem_release hne (h.waits _ hout)) fun hne => absurd hw hne,
    release_armed h.armed e⟩

variable (proc) in
theorem send_sides (w : World S P) (e : Endpoint S) (payload : Text) (now : ℤ) :
    ((w.setSide e ((w.sides e).handed payload)).send proc e payload now).sides =
      (w.setSide e (((w.sides e).handed payload).send payload now)).sides := by
  unfold World.send await arm
  split_ifs
  all_goals
    rw [sides_setSide_self, setSide_setSide]

theorem Sound.send {w : World S P} (h : w.Sound proc) (e : Endpoint S) (payload : Text)
    (now : ℤ) :
    ((w.setSide e ((w.sides e).handed payload)).send proc e payload now).Sound proc := by
  have hd := (h.honest e).send payload now
  have hmem : ∀ e', e' ∈ w.waiting (proc e') ∨ e' = e →
      e' ∈ ((w.setSide e ((w.sides e).handed payload)).send proc e payload now).waiting
        (proc e') := by
    intro e' he'
    unfold World.send await arm
    split_ifs with hin
    · rcases he' with he' | rfl
      · exact he'
      · exact hin
    · change e' ∈ Function.update w.waiting (proc e) _ (proc e')
      rw [Function.update_apply]
      split_ifs with hp
      · rcases he' with he' | rfl
        · exact List.mem_append_left _ (hp ▸ he')
        · exact List.mem_append_right _ (List.mem_singleton_self _)
      · rcases he' with he' | rfl
        · exact he'
        · exact absurd rfl hp
  have hsides := send_sides proc w e payload now
  refine ⟨?_, ?_, ?_⟩
  · rw [hsides]
    exact setSide_honest h.honest hd
  · rw [hsides]
    exact setSide_waits (fun e' _ hout => hmem e' (Or.inl (h.waits e' hout)))
      fun _ => hmem e (Or.inr rfl)
  · intro p hp
    have hsweeper : ((w.setSide e ((w.sides e).handed payload)).send proc e payload now).sweeper p =
        if p = proc e then true else w.sweeper p := by
      unfold World.send await arm
      split_ifs <;> simp_all [World.setSide]
    rw [hsweeper]
    split_ifs with heq
    · rfl
    · refine h.armed p fun hnil => hp ?_
      unfold World.send await arm
      split_ifs
      · exact hnil
      · change Function.update w.waiting (proc e) _ p = []
        rw [Function.update_of_ne heq]
        exact hnil

theorem Sound.stop {w : World S P} (h : w.Sound proc) (e : Endpoint S) :
    (w.stop proc e).Sound proc :=
  h.setSide_release (h.honest e).stop rfl

theorem Sound.resend {w : World S P} (h : w.Sound proc) (e : Endpoint S) (now : ℤ) :
    (w.resend proc e now).Sound proc := by
  have hd := (h.honest e).resend now
  simp only [World.resend]
  split_ifs with hempty
  · exact h.setSide_release hd hempty
  · exact h.setSide hd Side.resend_outbox

theorem resend_quiet (w : World S P) (e : Endpoint S) (now : ℤ) :
    w.Quiet (w.resend proc e now) := by
  refine quiet_setSide ((w.sides e).resend_quiet now) ?_
  simp only [World.resend]
  split_ifs <;> rfl

theorem foldl_resend {w : World S P} (h : w.Sound proc) (es : List (Endpoint S)) (now : ℤ) :
    (es.foldl (fun w e => w.resend proc e now) w).Sound proc ∧
      w.Quiet (es.foldl (fun w e => w.resend proc e now) w) := by
  induction es generalizing w with
  | nil => exact ⟨h, fun e => Side.Quiet.refl _⟩
  | cons e es ih =>
    obtain ⟨hsound, hquiet⟩ := ih (h.resend e now)
    exact ⟨hsound, fun e' => (w.resend_quiet e now e').trans (hquiet e')⟩

theorem retransmit_spec {w : World S P} (h : w.Sound proc) (p : P) (now : ℤ) :
    (w.retransmit proc p now).Sound proc ∧ w.Quiet (w.retransmit proc p now) := by
  obtain ⟨hsound, hquiet⟩ := foldl_resend h (w.waiting p) now
  unfold World.retransmit
  simp only
  split_ifs with hnil
  · -- the sweeper goes off with nothing left to serve
    refine ⟨⟨hsound.honest, hsound.waits, fun q hq => ?_⟩, hquiet⟩
    refine (Function.update_apply ..).trans ?_
    split_ifs with heq
    · rw [heq] at hq
      exact absurd hnil hq
    · exact hsound.armed q hq
  · exact ⟨hsound, hquiet⟩

/-- A text that arrives is a payload that the peer has sent, or acknowledges one that it has got. -/
theorem receive_cases {w : World S P} (h : w.Sound proc) {e : Endpoint S} {text : Text}
    (htext : text ∈ (w.sides e.peer).wire) :
    (∃ seq payload, text = dataText seq payload ∧ (w.sides e.peer).Sends seq payload ∧
      (w.setSide e ((w.sides e).heard text)).receive proc e text =
        w.setSide e (((w.sides e).heard text).receiveData seq payload)) ∨
    (((w.setSide e ((w.sides e).heard text)).receive proc e text).Sound proc ∧
      w.Quiet ((w.setSide e ((w.sides e).heard text)).receive proc e text)) := by
  rcases (h.honest e.peer).wire text htext with ⟨seq, payload, hs, rfl⟩ | ⟨seq, hmem, rfl⟩
  · refine Or.inl ⟨seq, payload, rfl, hs, ?_⟩
    rw [World.receive, sides_setSide_self, receive_dataText _ hs.pos.le]
    exact setSide_setSide ..
  · refine Or.inr ?_
    have hnothing : (w.sides e).heard (ackText seq) = w.sides e := by
      rw [Side.heard, dataOf_ackText]
      exact congrArg (fun arrived => { w.sides e with arrived }) (List.append_nil _)
    rw [hnothing, setSide_sides]
    obtain ⟨hfst, hemptied, hkept⟩ :=
      receive_ackText (w.sides e) ((h.honest e.peer).nonneg hmem)
    have hd := (h.honest e).receiveAck hmem
    unfold World.receive
    rcases hr : (w.sides e).receive (ackText seq) with ⟨d, emptied⟩
    rw [hr] at hfst hemptied hkept
    subst hfst
    cases emptied with
    | true =>
      exact ⟨h.setSide_release hd (hemptied rfl),
        quiet_setSide ((w.sides e).receiveAck_quiet seq) rfl⟩
    | false =>
      refine ⟨h.setSide hd fun hne => ?_, quiet_setSide ((w.sides e).receiveAck_quiet seq) rfl⟩
      intro hnil
      refine hne ?_
      unfold Side.receiveAck
      rw [hnil]
      simp [hnil]

/-- A step accepts a `DATA` text that the peer has sent, or leaves the receiving halves alone. -/
theorem step_cases {w w' : World S P} {a : Action.Datagram S P} (h : w.Sound proc)
    (hs : w.step proc a = some w') :
    w'.Sound proc ∧ (w.Quiet w' ∨ ∃ e seq payload, a = .arrive e (dataText seq payload) ∧
      (w.sides e.peer).Sends seq payload ∧
      w'.sides = (w.setSide e
        (((w.sides e).heard (dataText seq payload)).receiveData seq payload)).sides) := by
  cases a with
  | send e payload now =>
    rw [← Option.some.inj hs]
    refine ⟨h.send e payload now, Or.inl (quiet_setSide (e := e)
      (d := ((w.sides e).handed payload).send payload now) ⟨rfl, rfl, rfl, rfl, rfl⟩
      (send_sides proc w e payload now))⟩
  | sweep p now =>
    obtain ⟨-, hs⟩ := Option.ite_none_right_eq_some.mp hs
    rw [← Option.some.inj hs]
    obtain ⟨hsound, hquiet⟩ := retransmit_spec h p now
    exact ⟨hsound, Or.inl hquiet⟩
  | arrive e text =>
    obtain ⟨htext, hs⟩ := Option.ite_none_right_eq_some.mp hs
    rw [← Option.some.inj hs]
    rcases receive_cases h htext with ⟨seq, payload, rfl, hsends, hw⟩ | ⟨hsound, hquiet⟩
    · rw [hw]
      have hd := ((h.honest e).heard (dataText seq payload)).1.receiveData hsends
      refine ⟨h.setSide ⟨hd.1, ⟨hd.2.sent, hd.2.delivered⟩⟩ fun hne => ?_,
        Or.inr ⟨e, seq, payload, rfl, hsends, rfl⟩⟩
      rwa [Side.receiveData_outbox] at hne
    · exact ⟨hsound, Or.inl hquiet⟩
  | stop e =>
    rw [← Option.some.inj hs]
    exact ⟨h.stop e, Or.inl (quiet_setSide (e := e) (d := (w.sides e).stop)
      ⟨rfl, rfl, rfl, rfl, rfl⟩ rfl)⟩

/-! ### The order of delivery -/

theorem step_ordered {w w' : World S P} {a : Action.Datagram S P}
    (h : w.Sound proc ∧ ∀ e, (w.sides e).Ordered) (hs : w.step proc a = some w') :
    w'.Sound proc ∧ ∀ e, (w'.sides e).Ordered := by
  obtain ⟨hsound, hquiet | ⟨e, seq, payload, -, hsends, hw⟩⟩ := step_cases h.1 hs
  · exact ⟨hsound, fun e => (hquiet e).ordered (h.2 e)⟩
  · refine ⟨hsound, fun e' => ?_⟩
    rw [hw, sides_setSide]
    split_ifs
    · exact (h.2 e).receiveData (h.1.honest e) hsends.pos.le payload
    · exact h.2 e'

theorem start_ordered : Side.Ordered {} :=
  ⟨fun _ => Iff.rfl, fun _ hmem => (by cases hmem)⟩

/-- What the handler gets are payloads that the peer has sent, those of which a copy has arrived;
and it first gets them in the order in which their first copies arrive, which may be any. -/
theorem delivered_in_order_of_arrival {as : List (Action.Datagram S P)} {w : World S P}
    (hrun : exec (step proc) {} as = some w) (e : Endpoint S) :
    (∀ seq payload, (seq, payload) ∈ (w.sides e).delivered →
      (w.sides e.peer).Sends seq payload) ∧
    (∀ seq, seq ∈ (w.sides e).numbers ↔ seq ∈ (w.sides e).arrived) ∧
    ∀ m ∈ (w.sides e).numbers, ∀ n ∈ (w.sides e).numbers,
      (w.sides e).numbers.idxOf m < (w.sides e).numbers.idxOf n ↔
        (w.sides e).arrived.idxOf m < (w.sides e).arrived.idxOf n := by
  obtain ⟨hsound, hordered⟩ := exec_preserves
    (fun _ _ _ h hs => step_ordered h hs) ⟨start_sound, fun _ => start_ordered⟩ hrun
  exact ⟨(hsound.honest e).delivered, fun seq => ((hordered e).arrived seq).symm,
    (hordered e).order⟩

/-- The handler of `e` gets the payloads in the order in which the peer has sent them. -/
def InOrder (w : World S P) (e : Endpoint S) : Prop :=
  ∀ m n p q, (w.sides e.peer).Sends m p → (w.sides e.peer).Sends n q → m < n →
    m ∈ (w.sides e).numbers → n ∈ (w.sides e).numbers →
      (w.sides e).numbers.idxOf m < (w.sides e).numbers.idxOf n

def proxy : Endpoint Unit := ⟨(), false⟩

def miner : Endpoint Unit := ⟨(), true⟩

def old : Text := "old".toList

def new : Text := "new".toList

/-- The first copy of the first push is lost, and its second copy arrives after the second push. -/
def overtaken : List (Action.Datagram Unit Bool) :=
  [.send proxy old 0, .send proxy new 100, .arrive miner (dataText 2 new), .sweep false 750,
    .arrive miner (dataText 1 old)]

theorem older_payload_delivered_last :
    ∃ w, exec (step Endpoint.client) {} overtaken = some w ∧
      (w.sides miner).delivered = [(2, new), (1, old)] ∧ ¬ w.InOrder miner := by
  have hrun : (exec (step Endpoint.client) {} overtaken).map
      (fun w => ((w.sides proxy).sent, (w.sides miner).delivered)) =
        some ([old, new], [(2, new), (1, old)]) := by decide +kernel
  obtain ⟨w, hw, hsides⟩ := Option.map_eq_some_iff.mp hrun
  obtain ⟨hsent, hdelivered⟩ := Prod.mk.inj hsides
  have hnumbers : (w.sides miner).numbers = [2, 1] := by
    rw [Side.numbers, hdelivered]
    rfl
  refine ⟨w, hw, hdelivered, fun horder => ?_⟩
  have hold : (w.sides miner.peer).Sends 1 old := ⟨0, rfl, (congrArg (·[0]?) hsent :)⟩
  have hnew : (w.sides miner.peer).Sends 2 new := ⟨1, rfl, (congrArg (·[1]?) hsent :)⟩
  have := horder 1 2 old new hold hnew (by decide) (by rw [hnumbers]; decide)
    (by rw [hnumbers]; decide)
  rw [hnumbers] at this
  revert this
  decide

theorem delivered_in_order_of_arrival_overtaken :
    ∃ w, exec (step Endpoint.client) {} overtaken = some w ∧
      ((∀ seq payload, (seq, payload) ∈ (w.sides miner).delivered →
        (w.sides proxy).Sends seq payload) ∧
      (∀ seq, seq ∈ (w.sides miner).numbers ↔ seq ∈ (w.sides miner).arrived) ∧
      ∀ m ∈ (w.sides miner).numbers, ∀ n ∈ (w.sides miner).numbers,
        (w.sides miner).numbers.idxOf m < (w.sides miner).numbers.idxOf n ↔
          (w.sides miner).arrived.idxOf m < (w.sides miner).arrived.idxOf n) :=
  exists_exec (by decide +kernel) fun _ hrun => delivered_in_order_of_arrival hrun miner

/-! ### Acknowledged delivery -/

/-- The network brings no copy of a text once `SEEN_WINDOW` other numbers have been accepted since
the first copy. -/
def timely (w : World S P) : Action.Datagram S P → Bool
  | .arrive e text => match dataOf text with
    | some (seq, _) => (w.sides e).fresh seq
    | none => true
  | _ => true

theorem step_windowed {w w' : World S P} {a : Action.Datagram S P}
    (h : w.Sound proc ∧ ∀ e, (w.sides e).Window) (hok : w.timely a = true)
    (hs : w.step proc a = some w') : w'.Sound proc ∧ ∀ e, (w'.sides e).Window := by
  obtain ⟨hsound, hquiet | ⟨e, seq, payload, rfl, hsends, hw⟩⟩ := step_cases h.1 hs
  · exact ⟨hsound, fun e => (hquiet e).window (h.2 e)⟩
  · refine ⟨hsound, fun e' => ?_⟩
    rw [timely, dataOf_dataText hsends.pos.le] at hok
    have hwindow : ((w.sides e).heard (dataText seq payload)).Window := { h.2 e with }
    rw [hw, sides_setSide]
    split_ifs
    · exact hwindow.receiveData ((h.1.honest e).heard _).1 hok payload
    · exact h.2 e'

theorem start_window : Side.Window {} := by
  refine ⟨Ring.Holds.nil _ _, rfl, fun n => ⟨fun hmem => (by cases hmem), ?_⟩, List.nodup_nil⟩
  rintro ⟨i, hi, -⟩
  exact absurd hi (Nat.not_lt_zero _)

/-- Every payload handed to `send` is delivered at most once, and it is acknowledged and delivered,
or in the outbox of a link that waits for an armed sweeper and has been written at most `RETRIES`
times, or its link has been declared dead or stopped. -/
theorem acknowledged_delivery {as : List (Action.Datagram S P)} {w : World S P}
    (hok : Meets (step proc) (fun w a => w.timely a) {} as)
    (hrun : exec (step proc) {} as = some w) (e : Endpoint S) :
    (∀ seq payload, (seq, payload) ∈ (w.sides e.peer).delivered →
      (w.sides e).Sends seq payload) ∧
    ∀ seq payload, (w.sides e).Sends seq payload →
      (w.sides e.peer).delivered.count (seq, payload) ≤ 1 ∧
      ((seq ∈ (w.sides e).acked ∧ (w.sides e.peer).delivered.count (seq, payload) = 1) ∨
        (∃ entry ∈ (w.sides e).link.outbox, entry.seq = seq ∧ entry.text = dataText seq payload ∧
          (w.sides e).wire.count entry.text ≤ RETRIES ∧ e ∈ w.waiting (proc e) ∧
          w.sweeper (proc e) = true) ∨
        (w.sides e).dead = true ∨ (w.sides e).stopped = true) := by
  obtain ⟨hsound, hwindow⟩ := exec_invariant
    (fun _ _ _ h hok hs => step_windowed h hok hs) ⟨start_sound, fun _ => start_window⟩ hok hrun
  have hdelivered : ∀ seq payload, (seq, payload) ∈ (w.sides e.peer).delivered →
      (w.sides e).Sends seq payload := by
    have := (hsound.honest e.peer).delivered
    rwa [e.peer_peer] at this
  have hnodup : (w.sides e.peer).delivered.Nodup := (hwindow e.peer).nodup.of_map
  refine ⟨hdelivered, fun seq payload hsends => ?_⟩
  refine ⟨List.nodup_iff_count_le_one.mp hnodup _, ?_⟩
  obtain ⟨i, rfl, hget⟩ := id hsends
  have hlt := (List.getElem?_eq_some_iff.mp hget).1
  rcases (hsound.honest e).kept i hlt with hacked | ⟨entry, hentry, hseq⟩ | hgone
  · refine Or.inl ⟨hacked, ?_⟩
    obtain ⟨payload', hmem⟩ := Side.mem_numbers.mp ((hsound.honest e).acked _ hacked)
    have hp := hsends.inj (hdelivered _ _ hmem)
    exact List.count_eq_one_of_mem hnodup (hp ▸ hmem)
  · obtain ⟨payload', hs, htext⟩ := (hsound.honest e).outbox entry hentry
    rw [hseq] at hs htext
    obtain ⟨hcount, hle⟩ := (hsound.honest e).tries entry hentry
    have hwaits := hsound.waits e (List.ne_nil_of_mem hentry)
    refine Or.inr (Or.inl ⟨entry, hentry, hseq, ?_, hcount ▸ hle, hwaits, ?_⟩)
    · rw [htext, hsends.inj hs]
    · exact hsound.armed _ (List.ne_nil_of_mem hwaits)
  · exact Or.inr (Or.inr hgone)

/-- Both pushes arrive, the first one twice, and only the second one is acknowledged yet. -/
def recovered : List (Action.Datagram Unit Bool) :=
  overtaken ++ [.arrive miner (dataText 1 old), .arrive proxy (ackText 2), .sweep false 1500]

theorem acknowledged_delivery_recovered :
    ∃ w, exec (step Endpoint.client) {} recovered = some w ∧
      ((∀ seq payload, (seq, payload) ∈ (w.sides miner).delivered →
        (w.sides proxy).Sends seq payload) ∧
      ∀ seq payload, (w.sides proxy).Sends seq payload →
        (w.sides miner).delivered.count (seq, payload) ≤ 1 ∧
        ((seq ∈ (w.sides proxy).acked ∧
            (w.sides miner).delivered.count (seq, payload) = 1) ∨
          (∃ entry ∈ (w.sides proxy).link.outbox, entry.seq = seq ∧
            entry.text = dataText seq payload ∧
            (w.sides proxy).wire.count entry.text ≤ RETRIES ∧ proxy ∈ w.waiting false ∧
            w.sweeper false = true) ∨
          (w.sides proxy).dead = true ∨ (w.sides proxy).stopped = true)) :=
  exists_exec (by decide +kernel) fun _ hrun =>
    acknowledged_delivery (by decide +kernel) hrun proxy

end World

end NMiner
