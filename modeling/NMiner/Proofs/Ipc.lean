import NMiner.Lib.Transition
import NMiner.Spec.Ipc

/-! The channel between the primary and a worker that stays connected delivers what is sent, each
message once and in order, whatever the envelopes it travels in. -/

namespace NMiner

open Transition

/-! ### What becomes of a message -/

/-- What `Fleet.deliver` is to do with a message of a worker. -/
def upcallOf {β : Type} (message : UpKind × Option β) : Upcall β :=
  match message.1 with
  | .on => .on
  | .off => .off
  | .log => .emit message.2
  | kind => .onMessage kind.tag message.2

/-- What the handlers of a worker are to be called with for a message of the primary. -/
def downcallOf {β : Type} (message : DownKind × Option β) : Downcall β :=
  ⟨message.1.tag, message.2, none⟩

/-- The other side reads each message as itself, alone or in a batch, and takes no socket for
one. -/
structure Direction.Faithful {κ β ρ : Type} (dir : Direction κ β ρ) (reads : κ × Option β → ρ)
    (own : ρ → Bool) : Prop where
  single : ∀ message, dir.deliver (Pipe.raw dir message) none = [reads message]
  batch : ∀ messages : List (κ × Option β),
    dir.deliver (.batch (messages.map (Pipe.raw dir))) none = messages.map reads
  conn : dir.hands = true → ∀ handle, (dir.deliver (.tagged "conn" none) handle).filter own = []
  own : ∀ message, own (reads message) = true

theorem Direction.Faithful.filter_map {κ β ρ : Type} {dir : Direction κ β ρ}
    {reads : κ × Option β → ρ} {own : ρ → Bool} (hdir : dir.Faithful reads own)
    (messages : List (κ × Option β)) : (messages.map reads).filter own = messages.map reads := by
  refine List.filter_eq_self.mpr fun r hr => ?_
  obtain ⟨message, -, rfl⟩ := List.mem_map.mp hr
  exact hdir.own message

theorem toPrimary_raw {β : Type} (message : UpKind × Option β) :
    (Pipe.raw (up β) message).toPrimary = [upcallOf message] := by
  obtain ⟨kind, fields⟩ := message
  cases kind <;> simp [Pipe.raw, up, UpKind.tag, Packet.toPrimary, upcallOf]

theorem up_faithful (β : Type) : (up β).Faithful upcallOf fun _ => true where
  single := toPrimary_raw
  batch messages := by
    change Packet.toPrimary _ = _
    rw [Packet.toPrimary]
    induction messages with
    | nil => simp [Packet.allToPrimary]
    | cons message rest ih =>
      rw [List.map_cons, Packet.allToPrimary, ih, toPrimary_raw]
      rfl
  conn h := absurd h Bool.false_ne_true
  own _ := rfl

theorem down_faithful (β : Type) : (down β).Faithful downcallOf fun call => call.t ≠ "conn" where
  single message := by
    change Packet.toWorker none _ = _
    rw [Pipe.raw, Packet.toWorker]
    rfl
  batch messages := by
    change Packet.toWorker none _ = _
    rw [Packet.toWorker]
    induction messages with
    | nil => simp [Packet.allToWorker]
    | cons message rest ih =>
      rw [List.map_cons, Packet.allToWorker, ih, Pipe.raw, Packet.toWorker]
      rfl
  conn _ handle := by
    change (Packet.toWorker handle _).filter _ = _
    rw [Packet.toWorker]
    rfl
  own message := by
    obtain ⟨kind, fields⟩ := message
    cases kind <;> simp [downcallOf, DownKind.tag]

namespace Pipe

variable {κ β ρ : Type} {dir : Direction κ β ρ} {reads : κ × Option β → ρ} {own : ρ → Bool}
  {sent : List (κ × Option β)} {p q : Pipe κ β ρ}

/-! ### The order of the messages -/

/-- What the other side will make of the packets on their way, apart from the sockets. -/
def transit (dir : Direction κ β ρ) (own : ρ → Bool) (p : Pipe κ β ρ) : List ρ :=
  p.channel.flatMap fun packet => (dir.deliver packet.1 none).filter own

/-- Every message sent has been received, is on its way, or waits for a pump that is to run, in this
order. -/
structure Ordered (dir : Direction κ β ρ) (reads : κ × Option β → ρ) (own : ρ → Bool)
    (sent : List (κ × Option β)) (p : Pipe κ β ρ) : Prop where
  connected : p.connected = true
  order : p.received.filter own ++ p.transit dir own ++ p.queue.map reads = sent.map reads
  pumped : p.queue ≠ [] → p.flushing = true
  immediates : p.immediates = if p.flushing then 1 else 0
  handles : ∀ packet ∈ p.channel, packet.2 = none ∨
    dir.hands = true ∧ packet.1 = .tagged "conn" none

theorem deliver_envelope (hdir : dir.Faithful reads own) (messages : List (κ × Option β)) :
    (dir.deliver (envelope dir messages) none).filter own = messages.map reads := by
  unfold envelope
  split
  · rw [hdir.single, List.filter_singleton, hdir.own]
    rfl
  · rw [hdir.batch, hdir.filter_map]

/-- A flush passes the queue on as it is. -/
theorem Ordered.flush (hdir : dir.Faithful reads own) (hconnected : p.connected = true)
    (horder : p.received.filter own ++ p.transit dir own ++ p.queue.map reads = sent.map reads)
    (himmediates : p.immediates = if p.flushing then 1 else 0)
    (hhandles : ∀ packet ∈ p.channel, packet.2 = none ∨
      dir.hands = true ∧ packet.1 = .tagged "conn" none) :
    (p.flush dir).Ordered dir reads own sent := by
  unfold Pipe.flush
  split_ifs with hempty
  · exact ⟨hconnected, horder, fun hne => absurd (List.length_eq_zero_iff.mp hempty) hne,
      himmediates, hhandles⟩
  · refine ⟨hconnected, ?_, fun hne => absurd rfl hne, himmediates, fun packet hmem => ?_⟩
    · have htransit : transit dir own { p with
          queue := [], channel := p.channel ++ [(envelope dir p.queue, none)] } =
          p.transit dir own ++ p.queue.map reads := by
        rw [transit, List.flatMap_append, List.flatMap_singleton, deliver_envelope hdir]
        rfl
      rw [htransit, List.map_nil, List.append_nil, ← List.append_assoc]
      exact horder
    · rcases List.mem_append.mp hmem with hmem | hmem
      · exact hhandles packet hmem
      · exact Or.inl (List.mem_singleton.mp hmem ▸ rfl)

theorem Ordered.send (hdir : dir.Faithful reads own) (hp : p.Ordered dir reads own sent)
    (message : κ × Option β) : (p.send dir message).Ordered dir reads own (sent ++ [message]) := by
  have horder : p.received.filter own ++ p.transit dir own ++
      (p.queue ++ [message]).map reads = (sent ++ [message]).map reads := by
    rw [List.map_append, List.map_append, ← List.append_assoc, hp.order]
  unfold Pipe.send
  dsimp only
  rw [if_neg (by rw [hp.connected]; decide)]
  split_ifs with hfull hflushing
  · exact Ordered.flush hdir hp.connected horder hp.immediates hp.handles
  · exact ⟨hp.connected, horder, fun _ => hflushing, hp.immediates, hp.handles⟩
  · refine ⟨hp.connected, horder, fun _ => rfl, ?_, hp.handles⟩
    change p.immediates + 1 = 1
    rw [hp.immediates, if_neg hflushing]

theorem Ordered.step (hdir : dir.Faithful reads own) (hp : p.Ordered dir reads own sent)
    {a : Action.Pipe κ β} (ha : a ≠ .disconnect) (h : p.step dir a = some q) :
    q.Ordered dir reads own (sent ++ a.messages) := by
  cases a with
  | send message =>
    obtain rfl := Option.some.inj h
    exact hp.send hdir message
  | pump =>
    rw [Pipe.step] at h
    rw [show sent ++ Action.Pipe.pump.messages = sent from List.append_nil sent]
    split_ifs at h with hnone
    obtain rfl := Option.some.inj h
    refine Ordered.flush hdir hp.connected hp.order ?_ hp.handles
    have himmediates := hp.immediates
    split_ifs at himmediates with hflushing
    · change p.immediates - 1 = 0
      rw [himmediates]
    · exact absurd himmediates hnone
  | hand socket =>
    rw [Pipe.step] at h
    rw [show sent ++ (Action.Pipe.hand socket).messages = sent from List.append_nil sent]
    split_ifs at h with hhands
    obtain rfl := Option.some.inj h
    unfold Pipe.hand
    rw [if_neg (by rw [hp.connected]; decide)]
    refine ⟨hp.connected, ?_, hp.pumped, hp.immediates, fun packet hmem => ?_⟩
    · have htransit : transit dir own { p with
          channel := p.channel ++ [(.tagged "conn" none, some socket)] } = p.transit dir own := by
        rw [transit, List.flatMap_append, List.flatMap_singleton, hdir.conn hhands,
          List.append_nil]
        rfl
      rw [htransit]
      exact hp.order
    · rcases List.mem_append.mp hmem with hmem | hmem
      · exact hp.handles packet hmem
      · exact Or.inr (List.mem_singleton.mp hmem ▸ ⟨hhands, rfl⟩)
  | deliver handle =>
    rw [Pipe.step] at h
    rw [show sent ++ (Action.Pipe.deliver handle).messages = sent from List.append_nil sent]
    rcases hchannel : p.channel with _ | ⟨⟨raw, socket⟩, channel⟩
    · rw [hchannel] at h
      cases h
    · rw [hchannel] at h
      obtain rfl := Option.some.inj h
      have hhandles := hp.handles
      rw [hchannel] at hhandles
      have hsame : (dir.deliver raw (if handle then socket else none)).filter own =
          (dir.deliver raw none).filter own := by
        rcases hhandles _ List.mem_cons_self with hnone | ⟨hhands, hconn⟩
        · rw [show socket = none from hnone, ite_self]
        · rw [show raw = _ from hconn, hdir.conn hhands, hdir.conn hhands]
      have htransit : p.transit dir own = (dir.deliver raw none).filter own ++
          channel.flatMap fun packet => (dir.deliver packet.1 none).filter own := by
        rw [transit, hchannel, List.flatMap_cons]
      refine ⟨hp.connected, ?_, hp.pumped, hp.immediates, fun packet hmem =>
        hhandles packet (List.mem_cons_of_mem _ hmem)⟩
      have horder := hp.order
      rw [htransit, ← List.append_assoc] at horder
      rw [List.filter_append, hsame]
      exact horder
  | disconnect => exact absurd rfl ha

theorem Ordered.run (hdir : dir.Faithful reads own) (hp : p.Ordered dir reads own sent)
    {actions : List (Action.Pipe κ β)} (hactions : ∀ a ∈ actions, a ≠ .disconnect)
    (hrun : exec (Pipe.step dir) p actions = some q) :
    q.Ordered dir reads own (sent ++ actions.flatMap Action.Pipe.messages) := by
  have hstep :
    ∀ (log : List (κ × Option β)) (s : Pipe κ β ρ) (a : Action.Pipe κ β) (s' : Pipe κ β ρ),
      s.Ordered dir reads own log → a ≠ .disconnect → s.step dir a = some s' →
        s'.Ordered dir reads own (log ++ a.messages) :=
    fun _ _ _ _ hs ha h => hs.step hdir ha h
  exact exec_history hstep hp (meets_of_forall _ _ hactions) hrun

theorem new_ordered (dir : Direction κ β ρ) (reads : κ × Option β → ρ) (own : ρ → Bool) :
    Ordered dir reads own [] {} :=
  ⟨rfl, rfl, fun h => absurd rfl h, rfl, fun _ hmem => (by cases hmem)⟩

/-! ### That all is delivered -/

/-- What is on its way can be delivered. -/
theorem exists_delivered (dir : Direction κ β ρ) (p : Pipe κ β ρ) :
    ∃ q, exec (Pipe.step dir) p (List.replicate p.channel.length (.deliver true)) = some q ∧
      q.channel = [] ∧ q.queue = p.queue := by
  generalize hchannel : p.channel = channel
  induction channel generalizing p with
  | nil => exact ⟨p, rfl, hchannel, rfl⟩
  | cons packet channel ih =>
    obtain ⟨q, hrun, hq⟩ := ih { p with
      channel := channel
      received := p.received ++ dir.deliver packet.1 (if true then packet.2 else none) } rfl
    refine ⟨q, exec_cons_eq_some.mpr ⟨_, ?_, hrun⟩, hq⟩
    rw [Pipe.step, hchannel]

/-- What waits is passed on by the pump, if there is something. -/
theorem Ordered.exists_pumped (hp : p.Ordered dir reads own sent) :
    ∃ q, exec (Pipe.step dir) p (List.replicate p.immediates .pump) = some q ∧ q.queue = [] := by
  have himmediates := hp.immediates
  split_ifs at himmediates with hflushing
  · rw [himmediates]
    have hempty : ∀ r : Pipe κ β ρ, (r.flush dir).queue = [] := by
      intro r
      unfold Pipe.flush
      split_ifs with hempty
      · exact List.length_eq_zero_iff.mp hempty
      · rfl
      · rfl
    refine ⟨{ p with immediates := 0 }.pump dir, exec_cons_eq_some.mpr ⟨_, ?_, rfl⟩,
      hempty { p with immediates := 0, flushing := false }⟩
    rw [Pipe.step, if_neg (by rw [himmediates]; decide), himmediates]
  · rw [himmediates]
    refine ⟨p, rfl, ?_⟩
    by_contra hne
    exact hflushing (hp.pumped hne)

/-- Pumps and deliveries, no more calls of `send`. -/
def Drains : Action.Pipe κ β → Prop
  | .pump => True
  | .deliver _ => True
  | _ => False

/-- Received is what was sent, in order, so far; it is all of it once no pump is to run and nothing
is on its way, and that is where pumps and deliveries lead. -/
structure Complete (dir : Direction κ β ρ) (reads : κ × Option β → ρ) (own : ρ → Bool)
    (sent : List (κ × Option β)) (p : Pipe κ β ρ) : Prop where
  received : p.received.filter own <+: sent.map reads
  idle : p.immediates = 0 → p.channel = [] → p.received.filter own = sent.map reads
  drained : ∃ rest q, (∀ a ∈ rest, Drains a) ∧ exec (Pipe.step dir) p rest = some q ∧
    q.received.filter own = sent.map reads

theorem Drains.messages {a : Action.Pipe κ β} (ha : Drains a) : a.messages = [] := by
  cases a with
  | send message => exact ha.elim
  | _ => rfl

theorem Ordered.idle (hp : p.Ordered dir reads own sent) (hqueue : p.queue = [])
    (hchannel : p.channel = []) : p.received.filter own = sent.map reads := by
  have horder := hp.order
  rw [transit, hchannel, hqueue, List.flatMap_nil, List.map_nil, List.append_nil,
    List.append_nil] at horder
  exact horder

theorem Ordered.complete (hdir : dir.Faithful reads own) (hp : p.Ordered dir reads own sent) :
    p.Complete dir reads own sent := by
  refine ⟨?_, fun himmediates hchannel => hp.idle ?_ hchannel, ?_⟩
  · rw [← hp.order, List.append_assoc]
    exact List.prefix_append _ _
  · by_contra hne
    have hpumped := hp.immediates
    rw [hp.pumped hne, if_pos rfl, himmediates] at hpumped
    cases hpumped
  · obtain ⟨r, hpump, hqueue⟩ := hp.exists_pumped
    obtain ⟨q, hdeliver, hchannel, hqueue'⟩ := exists_delivered dir r
    have hdrains : ∀ a ∈ List.replicate p.immediates .pump ++
        List.replicate r.channel.length (.deliver true : Action.Pipe κ β), Drains a := by
      intro a ha
      rcases List.mem_append.mp ha with ha | ha
      · exact (List.eq_of_mem_replicate ha).symm ▸ trivial
      · exact (List.eq_of_mem_replicate ha).symm ▸ trivial
    have hrun : exec (Pipe.step dir) p (List.replicate p.immediates .pump ++
        List.replicate r.channel.length (.deliver true)) = some q := by
      rw [exec_append, hpump]
      exact hdeliver
    have hq := hp.run hdir (fun a ha => ?_) hrun
    · rw [List.flatMap_eq_nil_iff.mpr fun a ha => (hdrains a ha).messages, List.append_nil] at hq
      exact ⟨_, q, hdrains, hrun, hq.idle (hqueue'.trans hqueue) hchannel⟩
    · rintro rfl
      exact hdrains _ ha

end Pipe

/-- Whatever a primary and a worker send each other, and however pumps, forced flushes and
deliveries take turns, each side gets what the other has sent, each message once and in order. -/
theorem ipc_lossless {β : Type} (downs : List (Action.Pipe DownKind β))
    (ups : List (Action.Pipe UpKind β)) (child : Pipe DownKind β (Downcall β))
    (link : Pipe UpKind β (Upcall β)) (hdowns : ∀ a ∈ downs, a ≠ .disconnect)
    (hups : ∀ a ∈ ups, a ≠ .disconnect) (hchild : exec (Pipe.step (down β)) {} downs = some child)
    (hlink : exec (Pipe.step (up β)) {} ups = some link) :
    child.Complete (down β) downcallOf (fun call => call.t ≠ "conn")
        (downs.flatMap Action.Pipe.messages) ∧
      link.Complete (up β) upcallOf (fun _ => true) (ups.flatMap Action.Pipe.messages) := by
  have hdown := Pipe.Ordered.run (down_faithful β) (Pipe.new_ordered _ _ _) hdowns hchild
  have hup := Pipe.Ordered.run (up_faithful β) (Pipe.new_ordered _ _ _) hups hlink
  exact ⟨hdown.complete (down_faithful β), hup.complete (up_faithful β)⟩

/-- A full batch is flushed while its pump is outstanding, and the pump flushes what has come since;
a socket goes ahead of what waits. -/
def forcedActions : List (Action.Pipe DownKind ℕ) :=
  (List.range BATCH_LIMIT).map (fun n => .send (.j, some n)) ++
    [.send (.r, some 0), .hand 7, .deliver true, .pump, .deliver true, .deliver true]

theorem ipc_lossless_forced : ∃ child link,
    exec (Pipe.step (down ℕ)) {} forcedActions = some child ∧
    exec (Pipe.step (up ℕ)) {}
      [.send (.acc, some 1), .send (.bye, some 2), .pump, .send (.on, none),
      .deliver true, .pump] = some link ∧
    child.Complete (down ℕ) downcallOf (fun call => call.t ≠ "conn")
        ((List.range BATCH_LIMIT).map (fun n => (.j, some n)) ++ [(.r, some 0)]) ∧
      link.Complete (up ℕ) upcallOf (fun _ => true)
        [(.acc, some 1), (.bye, some 2), (.on, none)] := by
  obtain ⟨child, hchild⟩ := Option.isSome_iff_exists.mp
    (show (exec (Pipe.step (down ℕ)) {} forcedActions).isSome = true by decide +kernel)
  obtain ⟨link, hlink⟩ := Option.isSome_iff_exists.mp (show (exec (Pipe.step (up ℕ)) {}
    [.send (.acc, some 1), .send (.bye, some 2), .pump, .send (.on, none), .deliver true,
      .pump]).isSome = true by decide +kernel)
  have hdowns : ∀ a ∈ forcedActions, a ≠ .disconnect := by
    intro a ha
    rcases List.mem_append.mp ha with ha | ha
    · obtain ⟨n, -, rfl⟩ := List.mem_map.mp ha
      simp
    · simp only [List.mem_cons, List.not_mem_nil, or_false] at ha
      rcases ha with rfl | rfl | rfl | rfl | rfl | rfl <;> simp
  have hmessages : forcedActions.flatMap Action.Pipe.messages =
      (List.range BATCH_LIMIT).map (fun n => (.j, some n)) ++ [(.r, some 0)] := by decide +kernel
  have hcomplete := ipc_lossless _ _ child link hdowns (fun a ha => ?_) hchild hlink
  · rw [hmessages] at hcomplete
    exact ⟨child, link, hchild, hlink, hcomplete⟩
  · simp only [List.mem_cons, List.not_mem_nil, or_false] at ha
    rcases ha with rfl | rfl | rfl | rfl | rfl | rfl <;> simp

end NMiner
