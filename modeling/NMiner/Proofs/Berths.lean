import NMiner.Proofs.Answered

/-! The load of a worker against its connections. The primary's number, with what the notes on their
way will add, is the number of sockets handed on and not closed, of peers of the worker's own edge,
and of routes to it. Without a late `ux` the routes are the peers of its relay edge, and a `conn`
message that has lost its socket is counted for good. -/

namespace NMiner

namespace Fleet

open Transition
open Function (update)

variable {valid : Text → Bool}

/-! ### One worker -/

/-- The load of a worker is even with its dock and the keys that are routed to it. -/
structure Even (n : ℕ) (dock : Dock) (keys : Set Key) : Prop where
  routed : keys.Finite
  held : dock.edge.held.Finite
  load : (n : ℤ) + Note.net dock.notes = dock.transit.length + dock.sockets.length + dock.lost +
    dock.edge.held.ncard + keys.ncard
  /-- No end of the notes counts more peers than there are. -/
  late : ∀ rest, rest <:+ dock.notes → Note.net rest ≤ dock.edge.held.ncard

variable {n : ℕ} {dock : Dock} {routed : Set Key}

theorem Even.fresh : Even 0 {} ∅ := by
  have hnone : ({} : Dock).edge.held = ∅ := by
    ext key
    simp [UdpEdge.held]
  refine ⟨Set.finite_empty, hnone ▸ Set.finite_empty, ?_, fun rest hrest => ?_⟩
  · rw [hnone]
    simp
  · rw [List.suffix_nil.mp hrest, Note.net_nil]
    exact Int.natCast_nonneg _

/-- What is counted at all is counted in the load. -/
theorem Even.le_load (h : Even n dock routed) :
    dock.transit.length + dock.sockets.length + dock.lost + routed.ncard ≤ n := by
  have hload := h.load
  have hlate := h.late dock.notes List.suffix_rfl
  omega

theorem Even.hand (h : Even n dock routed) (socket : SocketId) :
    Even (n + 1) { dock with transit := dock.transit ++ [socket] } routed := by
  refine ⟨h.routed, h.held, ?_, h.late⟩
  have hload := h.load
  simp only [List.length_append, List.length_singleton]
  omega

theorem Even.failed (h : Even n dock routed) {socket : SocketId} (hs : socket ∈ dock.transit) :
    Even (n - 1) { dock with transit := dock.transit.erase socket } routed := by
  refine ⟨h.routed, h.held, ?_, h.late⟩
  have hload := h.load
  have hle := h.le_load
  have hpos := List.length_pos_of_mem hs
  simp only [List.length_erase_of_mem hs]
  omega

theorem Even.conn (h : Even n dock routed) {socket : SocketId} {transit : List SocketId}
    (ht : dock.transit = socket :: transit) (handle : Bool) :
    Even n (if handle then { dock with transit := transit, sockets := dock.sockets ++ [socket] }
      else { dock with transit := transit, lost := dock.lost + 1 }) routed := by
  have hload := h.load
  rw [ht, List.length_cons] at hload
  cases handle with
  | true =>
    refine ⟨h.routed, h.held, ?_, h.late⟩
    simp only [if_true, List.length_append, List.length_singleton]
    omega
  | false =>
    refine ⟨h.routed, h.held, ?_, h.late⟩
    simp only [Bool.false_eq_true, if_false]
    omega

theorem Even.closed (h : Even n dock routed) {socket : SocketId} (hs : socket ∈ dock.sockets) :
    Even n { dock with sockets := dock.sockets.erase socket, notes := dock.notes ++ [.off] }
      routed := by
  refine ⟨h.routed, h.held, ?_, fun rest hrest => ?_⟩
  · have hload := h.load
    have hpos := List.length_pos_of_mem hs
    simp only [List.length_erase_of_mem hs, Note.net_append, Note.net_cons, Note.net_nil,
      Note.weight]
    omega
  · rcases UdpEdge.suffix_append_cases hrest with hlast | ⟨early, rfl, hearly⟩
    · rcases List.suffix_cons_iff.mp hlast with rfl | hnil
      · simp [Note.weight]
      · rw [List.suffix_nil.mp hnil, Note.net_nil]
        exact Int.natCast_nonneg _
    · have hle := h.late early hearly
      rw [Note.net_append]
      simp only [Note.net_cons, Note.net_nil, Note.weight]
      omega

theorem Even.own (h : Even n dock routed) {edge : UdpEdge}
    (hcounts : UdpEdge.Counts { dock.edge with out := [] } edge edge.out) :
    Even n { dock with edge := edge, notes := dock.notes ++ edge.out.filterMap EdgeOutput.note }
      routed := by
  have hcount := hcounts.count h.held
  have hheld : UdpEdge.held { dock.edge with out := [] } = dock.edge.held := rfl
  rw [hheld] at hcount
  refine ⟨h.routed, hcounts.finite h.held, ?_, fun rest hrest => ?_⟩
  · have hload := h.load
    simp only [Note.net_append]
    unfold UdpEdge.net at hcount
    omega
  · rcases UdpEdge.suffix_append_cases hrest with ⟨early, hlast⟩ | ⟨early, rfl, hearly⟩
    · obtain ⟨os, os', hout, -, hrest'⟩ := List.filterMap_eq_append_iff.mp hlast.symm
      have hle := hcounts.late h.held os' ⟨os, hout.symm⟩
      unfold UdpEdge.net at hle
      rwa [hrest'] at hle
    · have hle := h.late early hearly
      rw [Note.net_append]
      unfold UdpEdge.net at hcount
      dsimp only
      omega

theorem Even.deliver (h : Even n dock routed) {note : Note} {notes : List Note}
    (hn : dock.notes = note :: notes) :
    Even (match note with | .on => n + 1 | .off => n - 1) { dock with notes := notes } routed := by
  have hload := h.load
  have hlate := h.late notes (hn ▸ List.suffix_cons note notes)
  rw [hn, Note.net_cons] at hload
  refine ⟨h.routed, h.held, ?_, fun rest hrest => h.late rest ?_⟩
  · cases note with
    | on =>
      simp only [Note.weight] at hload ⊢
      omega
    | off =>
      simp only [Note.weight] at hload ⊢
      omega
  · exact hrest.trans (hn ▸ List.suffix_cons note notes)

theorem Even.route (h : Even n dock routed) {key : Key} (hkey : key ∉ routed) :
    Even (n + 1) dock (insert key routed) := by
  refine ⟨h.routed.insert key, h.held, ?_, h.late⟩
  have hload := h.load
  rw [Set.ncard_insert_of_notMem hkey h.routed]
  omega

theorem Even.unroute (h : Even n dock routed) {key : Key} (hkey : key ∈ routed) :
    Even (n - 1) dock (routed \ {key}) := by
  refine ⟨h.routed.sdiff, h.held, ?_, h.late⟩
  have hload := h.load
  have hle := h.le_load
  have hpos := (Set.ncard_pos h.routed).mpr ⟨key, hkey⟩
  rw [Set.ncard_sdiff_singleton_of_mem hkey]
  omega

end Fleet

namespace UdpRouter

open Fleet (Even)

variable {valid : Text → Bool}

/-- The keys whose route is the worker. -/
def routed (s : UdpRouter) (w : WorkerId) : Set Key := {key | s.routes key = some w}

theorem routed_setRoute {s : UdpRouter} {key : Key} {w : Option WorkerId} {v : WorkerId}
    (hold : s.routes key ≠ some v) (hnew : w ≠ some v) :
    (s.setRoute key w).routed v = s.routed v := by
  ext k
  change (s.setRoute key w).routes k = some v ↔ s.routes k = some v
  by_cases hk : k = key
  · rw [hk, setRoute_self]
    exact ⟨fun h => absurd h hnew, fun h => absurd h hold⟩
  · rw [setRoute_routes s hk]

theorem routed_insert (s : UdpRouter) (key : Key) (w : WorkerId) :
    (s.setRoute key (some w)).routed w = insert key (s.routed w) := by
  ext k
  change (s.setRoute key (some w)).routes k = some w ↔ k = key ∨ s.routes k = some w
  by_cases hk : k = key
  · simp [hk, setRoute_self]
  · simp [hk, setRoute_routes s hk]

theorem routed_remove (s : UdpRouter) (key : Key) (w : WorkerId) :
    (s.setRoute key none).routed w = s.routed w \ {key} := by
  ext k
  change (s.setRoute key none).routes k = some w ↔ s.routes k = some w ∧ k ≠ key
  by_cases hk : k = key
  · simp [hk, setRoute_self]
  · simp [hk, setRoute_routes s hk]

theorem load_setWorker (s : UdpRouter) {w v : WorkerId} {f : Worker → Worker}
    (hload : (f (s.workers w)).load = (s.workers w).load) :
    ((s.setWorker w f).workers v).load = (s.workers v).load := by
  by_cases hv : v = w
  · rw [hv, setWorker_self, hload]
  · rw [setWorker_of_ne s f hv]

theorem live_roster {s : UdpRouter} {w : WorkerId} (h : s.live w = true) : w ∈ s.roster :=
  (of_decide_eq_true h).1

theorem forget_even {s : UdpRouter} {v : WorkerId} {dock : Dock} (key : Key)
    (hlive : s.live v = true)
    (h : Even (s.workers v).load dock (s.routed v)) :
    Even ((s.forget key).workers v).load dock ((s.forget key).routed v) := by
  rcases forget_cases s key with ⟨-, heq⟩ | ⟨w, hroute, ⟨-, heq⟩ | ⟨hmem, heq⟩⟩
  · rwa [heq]
  · rw [heq]
    by_cases hv : v = w
    · subst hv
      rw [setWorker_self]
      change Even ((s.workers v).load - 1) dock ((s.setRoute key none).routed v)
      rw [routed_remove]
      exact h.unroute hroute
    · rw [setWorker_of_ne _ _ hv]
      change Even (s.workers v).load dock ((s.setRoute key none).routed v)
      rwa [routed_setRoute (fun h => hv (Option.some.inj (h.symm.trans hroute)))
        (Option.some_ne_none v).symm]
  · rw [heq]
    have hne : w ≠ v := fun h => hmem (h ▸ live_roster hlive)
    change Even (s.workers v).load dock ((s.setRoute key none).routed v)
    rwa [routed_setRoute (fun h => hne (Option.some.inj (hroute.symm.trans h)))
      (Option.some_ne_none v).symm]

theorem inbound_even {s : UdpRouter} {v : WorkerId} {dock : Dock} (key : Key) (text : Text)
    (hlive : s.live v = true) (h : Even (s.workers v).load dock (s.routed v)) :
    Even ((s.inbound key text).workers v).load dock ((s.inbound key text).routed v) := by
  rcases inbound_cases s key text with ⟨w, -, -, heq⟩ | ⟨hfree, heq | ⟨w, -, heq⟩⟩
  · rw [heq, load_setWorker]
    · exact h
    · rfl
  all_goals
    have hnot : s.routes key ≠ some v := by
      intro hroute
      rw [hfree v hroute] at hlive
      exact absurd hlive Bool.false_ne_true
  · rw [heq]
    change Even (s.workers v).load dock ((s.setRoute key none).routed v)
    rwa [routed_setRoute hnot (Option.some_ne_none v).symm]
  · rw [heq]
    by_cases hv : v = w
    · subst hv
      rw [setWorker_self]
      change Even ((s.workers v).load + 1) dock ((s.setRoute key (some v)).routed v)
      rw [routed_insert]
      exact h.route hnot
    · rw [setWorker_of_ne _ _ hv]
      change Even (s.workers v).load dock ((s.setRoute key (some w)).routed v)
      rwa [routed_setRoute hnot fun h => hv (Option.some.inj h).symm]

/-- The relay keeps the load of a live worker even. -/
theorem relay_even {s s' : UdpRouter} {a : Action.Router} (hstep : s.step valid a = some s')
    (hload : ∀ w n, a ≠ .load w n) (hspawn : a ≠ .spawn) {v : WorkerId} {dock : Dock}
    (hlive : s'.live v = true)
    (h : s.live v = true → Even (s.workers v).load dock (s.routed v)) :
    Even (s'.workers v).load dock (s'.routed v) := by
  cases a with
  | inbound key text =>
    obtain rfl := Option.some.inj hstep
    have hlive' : s.live v = true := by
      rcases inbound_cases s key text with ⟨w, -, -, heq⟩ | ⟨-, heq | ⟨w, -, heq⟩⟩
      · exact live_setWorker id v (heq ▸ hlive)
      · exact (heq ▸ hlive : (s.setRoute key none).live v = true)
      · exact live_setWorker (s := s.setRoute key (some w)) id v (heq ▸ hlive)
    exact inbound_even key text hlive' (h hlive')
  | receive w privateHash request now =>
    simp only [step] at hstep
    split at hstep
    · cases hstep
    · split_ifs at hstep
      obtain ⟨edge, -, rfl⟩ := Option.map_eq_some_iff.mp hstep
      have hold := h (live_setWorker id v (live_setWorker id v hlive))
      unfold relay
      rw [load_setWorker _ rfl, load_setWorker s rfl]
      exact hold
  | edge w a =>
    have hrelay : ∃ edge, s' = s.relay w edge := by
      cases a with
      | receive key text privateHash request now =>
        exact absurd hstep.symm (Option.some_ne_none s')
      | _ =>
        simp only [step] at hstep
        split_ifs at hstep
        obtain ⟨edge, -, heq⟩ := Option.map_eq_some_iff.mp hstep
        exact ⟨edge, heq.symm⟩
    obtain ⟨edge, rfl⟩ := hrelay
    have hold := h (live_setWorker id v hlive)
    unfold relay
    rw [load_setWorker s rfl]
    exact hold
  | message w =>
    simp only [step] at hstep
    split at hstep
    · cases hstep
    · rename_i m up hup
      have htaken : s.live v = true → Even
          ((s.setWorker w fun worker => { worker with up := up }).workers v).load dock
          ((s.setWorker w fun worker => { worker with up := up }).routed v) := by
        intro hlive'
        rw [load_setWorker s rfl]
        exact h hlive'
      cases m with
      | u key text =>
        obtain rfl := Option.some.inj hstep
        exact htaken (live_setWorker id v hlive)
      | ux key =>
        obtain rfl := Option.some.inj hstep
        have hlive' : (s.setWorker w fun worker => { worker with up := up }).live v = true := by
          rcases forget_cases (s.setWorker w fun worker => { worker with up := up }) key with
            ⟨-, heq⟩ | ⟨t, -, ⟨-, heq⟩ | ⟨-, heq⟩⟩
          · exact heq ▸ hlive
          · exact live_setWorker (s := (s.setWorker w fun worker =>
              { worker with up := up }).setRoute
              key none) id v (heq ▸ hlive)
          · exact (heq ▸ hlive : ((s.setWorker w fun worker => { worker with up := up }).setRoute
              key none).live v = true)
        exact forget_even key hlive' (htaken (live_setWorker id v hlive'))
  | load w n => exact absurd rfl (hload w n)
  | lose w =>
    obtain rfl := Option.some.inj hstep
    have hold := h (live_setWorker (fun h => absurd h Bool.false_ne_true) v hlive)
    rw [load_setWorker s rfl]
    exact hold
  | exit w =>
    simp only [step] at hstep
    split_ifs at hstep
    obtain rfl := Option.some.inj hstep
    obtain ⟨hmem, hrun⟩ := of_decide_eq_true hlive
    have hlost : (s.setWorker w fun worker => { worker with alive := false }).live v = true :=
      decide_eq_true ⟨List.mem_of_mem_erase hmem, hrun⟩
    have hne : v ≠ w := by
      rintro rfl
      have hrun' : ((s.setWorker v fun worker => { worker with alive := false }).workers v).alive =
          true := hrun
      rw [setWorker_self] at hrun'
      exact absurd hrun' Bool.false_ne_true
    have hold := h (live_setWorker (fun h => absurd h Bool.false_ne_true) v hlost)
    have hrouted : ((s.setWorker w fun worker => { worker with alive := false }).evict w).routed v =
        s.routed v := by
      ext key
      change (if s.routes key = some w then none else s.routes key) = some v ↔ s.routes key = some v
      split_ifs with hroute
      · rw [hroute]
        exact iff_of_false not_false fun h => hne (Option.some.inj h).symm
      · exact Iff.rfl
    change Even ((s.setWorker w fun worker => { worker with alive := false }).workers v).load dock
      (((s.setWorker w fun worker => { worker with alive := false }).evict w).routed v)
    rw [load_setWorker s rfl, hrouted]
    exact hold
  | spawn => exact absurd rfl hspawn

end UdpRouter

namespace Fleet

open Transition
open Function (update)

variable {valid : Text → Bool}

/-! ### All of them -/

/-- The events of the router that `Fleet` itself stands for. -/
def Mild (b : Action.Router) : Prop := (∃ w n, b = .load w n) ∨ b = .spawn

theorem Mild.timely {b : Action.Router} (h : Mild b) (s : UdpRouter) : s.timely valid b = true := by
  rcases h with ⟨w, n, rfl⟩ | rfl <;> rfl

/-- The router goes on by mild events. -/
def Mends (valid : Text → Bool) (s s' : UdpRouter) : Prop :=
  ∃ bs, (∀ b ∈ bs, Mild b) ∧ exec (UdpRouter.step valid) s bs = some s'

theorem Mends.refl (s : UdpRouter) : Mends valid s s :=
  ⟨[], List.forall_mem_nil _, rfl⟩

theorem Mends.load (s : UdpRouter) (w : WorkerId) (n : ℕ) :
    Mends valid s (s.setWorker w fun worker => { worker with load := n }) := by
  refine ⟨[.load w n], fun b hb => ?_, rfl⟩
  rw [List.mem_singleton.mp hb]
  exact Or.inl ⟨w, n, rfl⟩

theorem Mends.trans {s s' s'' : UdpRouter} (h : Mends valid s s') (h' : Mends valid s' s'') :
    Mends valid s s'' := by
  obtain ⟨bs, hmild, hrun⟩ := h
  obtain ⟨bs', hmild', hrun'⟩ := h'
  refine ⟨bs ++ bs', fun b hb => (List.mem_append.mp hb).elim (hmild b) (hmild' b), ?_⟩
  rw [exec_append, hrun]
  exact hrun'

theorem Mends.answered {s s' : UdpRouter} (h : Mends valid s s') (hs : s.Answered) :
    s'.Answered := by
  obtain ⟨bs, -, hrun⟩ := h
  exact exec_preserves UdpRouter.step_answered hs hrun

theorem Mends.pinned {s s' : UdpRouter} (h : Mends valid s s') (hs : s.Pinned valid) :
    s'.Pinned valid := by
  obtain ⟨bs, hmild, hrun⟩ := h
  refine exec_invariant UdpRouter.step_pinned hs ?_ hrun
  clear hs hrun
  induction bs generalizing s with
  | nil => trivial
  | cons b bs ih =>
    refine (meets_cons ..).mpr ⟨(hmild b List.mem_cons_self).timely s, fun m _ => ?_⟩
    exact ih fun b hb => hmild b (List.mem_cons_of_mem _ hb)

theorem hands_mend (w : WorkerId) (sockets : List SocketId) (s : Fleet) :
    Mends valid s.router (sockets.foldl (fun s socket => s.hand w socket) s).router := by
  induction sockets generalizing s with
  | nil => exact Mends.refl _
  | cons socket rest ih =>
    have hhand : Mends valid s.router (s.hand w socket).router := Mends.load s.router w _
    exact hhand.trans (ih _)

theorem spawn_mends (s : Fleet) : Mends valid s.router s.spawn.router := by
  refine Mends.trans ?_ (hands_mend _ _ _)
  exact ⟨[.spawn], fun b hb => Or.inr (List.mem_singleton.mp hb), rfl⟩

theorem relay_step {s s' : Fleet} {b : Action.Router} (hstep : s.step valid (.relay b) = some s') :
    (∀ w n, b ≠ .load w n) ∧ b ≠ .spawn ∧
      ∃ router, s.router.step valid b = some router ∧ { s with router := router } = s' := by
  cases b with
  | load w n => exact absurd hstep.symm (Option.some_ne_none s')
  | spawn => exact absurd hstep.symm (Option.some_ne_none s')
  | _ =>
    refine ⟨fun w n h => ?_, fun h => ?_, Option.map_eq_some_iff.mp hstep⟩
    all_goals cases h

/-- An event that is not one of the relay. -/
theorem step_mends {s s' : Fleet} {a : Action.Fleet} (hstep : s.step valid a = some s')
    (ha : ∀ b, a ≠ .relay b) : Mends valid s.router s'.router := by
  cases a with
  | dispatch =>
    obtain rfl := Option.some.inj hstep
    unfold dispatch
    split
    · exact Mends.load s.router _ _
    · split_ifs <;> exact Mends.refl _
  | abandon socket =>
    obtain ⟨-, hs'⟩ := Option.ite_none_right_eq_some.mp hstep
    exact Option.some.inj hs' ▸ Mends.refl _
  | failed w socket =>
    obtain ⟨-, hs'⟩ := Option.ite_none_right_eq_some.mp hstep
    exact Option.some.inj hs' ▸ Mends.load s.router w _
  | conn w handle =>
    simp only [step] at hstep
    split at hstep
    · cases hstep
    · obtain ⟨-, hs'⟩ := Option.ite_none_right_eq_some.mp hstep
      exact Option.some.inj hs' ▸ Mends.refl _
  | closed w socket =>
    obtain ⟨-, hs'⟩ := Option.ite_none_right_eq_some.mp hstep
    exact Option.some.inj hs' ▸ Mends.refl _
  | own w a =>
    simp only [step] at hstep
    split_ifs at hstep
    obtain ⟨edge, -, rfl⟩ := Option.map_eq_some_iff.mp hstep
    exact Mends.refl _
  | deliver w =>
    simp only [step] at hstep
    split at hstep
    · cases hstep
    · rename_i note notes hnotes
      obtain rfl := Option.some.inj hstep
      cases note with
      | on => exact Mends.load s.router w _
      | off => exact Mends.load s.router w _
  | relay b => exact absurd rfl (ha b)
  | spawn => exact Option.some.inj hstep ▸ spawn_mends s

/-- What every run keeps. -/
structure Balanced (s : Fleet) : Prop where
  answered : s.router.Answered
  even : ∀ w, s.router.live w = true → Even (s.load w) (s.docks w) (s.router.routed w)

/-- A change of one worker's load and dock. -/
theorem Balanced.of_one {s s' : Fleet} (h : s.Balanced) (w : WorkerId) (n : ℕ) (dock : Dock)
    (hrouter : s'.router = s.router.setWorker w fun worker => { worker with load := n })
    (hdocks : s'.docks = update s.docks w dock)
    (heven : Even (s.load w) (s.docks w) (s.router.routed w) → Even n dock (s.router.routed w)) :
    s'.Balanced := by
  refine ⟨hrouter ▸ UdpRouter.load_answered h.answered w n, fun v hlive => ?_⟩
  rw [hrouter] at hlive
  have hold := h.even v (UdpRouter.live_setWorker id v hlive)
  unfold load
  rw [hrouter, hdocks]
  by_cases hv : v = w
  · subst hv
    rw [UdpRouter.setWorker_self, Function.update_self]
    exact heven hold
  · rw [UdpRouter.setWorker_of_ne _ _ hv, Function.update_of_ne hv]
    exact hold

theorem setWorker_same (s : UdpRouter) (w : WorkerId) :
    s.setWorker w (fun worker => { worker with load := (s.workers w).load }) = s := by
  unfold UdpRouter.setWorker
  rw [Function.update_eq_self]

/-- A change of one worker's dock alone. -/
theorem Balanced.of_dock {s s' : Fleet} (h : s.Balanced) (w : WorkerId) (dock : Dock)
    (hrouter : s'.router = s.router) (hdocks : s'.docks = update s.docks w dock)
    (heven : Even (s.load w) (s.docks w) (s.router.routed w) →
      Even (s.load w) dock (s.router.routed w)) : s'.Balanced :=
  h.of_one w (s.load w) dock (hrouter.trans (setWorker_same s.router w).symm) hdocks heven

theorem Balanced.hand {s : Fleet} (h : s.Balanced) (w : WorkerId) (socket : SocketId) :
    (s.hand w socket).Balanced :=
  h.of_one w _ _ rfl rfl fun heven => heven.hand socket

theorem Balanced.hands {s : Fleet} (h : s.Balanced) (w : WorkerId) (sockets : List SocketId) :
    (sockets.foldl (fun s socket => s.hand w socket) s).Balanced := by
  induction sockets generalizing s with
  | nil => exact h
  | cons socket rest ih => exact ih (h.hand w socket)

theorem spawn_balanced {s : Fleet} (h : s.Balanced) : s.spawn.Balanced := by
  refine Balanced.hands ⟨?_, fun w hlive => ?_⟩ _ _
  · have hspawn : s.router.step (fun _ => true) .spawn = some { s.router with
        workers := update s.router.workers s.router.spawned {}, spawned := s.router.spawned + 1
        roster := s.router.roster ++ [s.router.spawned] } := rfl
    exact UdpRouter.step_answered s.router .spawn _ h.answered hspawn
  · by_cases hw : w = s.router.spawned
    · subst hw
      have hnone : s.router.routed s.router.spawned = ∅ := by
        ext key
        exact ⟨fun hroute => absurd (h.answered.routes key _ hroute) (lt_irrefl _), False.elim⟩
      change Even (update s.router.workers s.router.spawned {} s.router.spawned).load
        (update s.docks s.router.spawned {} s.router.spawned) (s.router.routed s.router.spawned)
      rw [Function.update_self, Function.update_self, hnone]
      exact Even.fresh
    · have hsame : update s.router.workers s.router.spawned {} w = s.router.workers w :=
        Function.update_of_ne hw _ _
      have hlive' : s.router.live w = true := by
        obtain ⟨hmem, hrun⟩ := of_decide_eq_true hlive
        refine decide_eq_true ⟨?_, hsame ▸ hrun⟩
        exact (List.mem_append.mp hmem).resolve_right fun hnew => hw (List.mem_singleton.mp hnew)
      change Even (update s.router.workers s.router.spawned {} w).load
        (update s.docks s.router.spawned {} w) (s.router.routed w)
      rw [Function.update_of_ne hw, Function.update_of_ne hw]
      exact h.even w hlive'

theorem step_balanced (s : Fleet) (a : Action.Fleet) (s' : Fleet) (h : s.Balanced)
    (hstep : s.step valid a = some s') : s'.Balanced := by
  cases a with
  | dispatch =>
    obtain rfl := Option.some.inj hstep
    have harrived : ({ s with arrived := s.arrived + 1 } : Fleet).Balanced := ⟨h.answered, h.even⟩
    unfold dispatch
    split
    · exact harrived.hand _ _
    · split_ifs
      · exact harrived
      · exact ⟨h.answered, h.even⟩
  | abandon socket =>
    obtain ⟨-, hs'⟩ := Option.ite_none_right_eq_some.mp hstep
    exact Option.some.inj hs' ▸ ⟨h.answered, h.even⟩
  | failed w socket =>
    obtain ⟨hsocket, hs'⟩ := Option.ite_none_right_eq_some.mp hstep
    exact Option.some.inj hs' ▸ h.of_one w _ _ rfl rfl fun heven => heven.failed hsocket
  | conn w handle =>
    simp only [step] at hstep
    split at hstep
    · cases hstep
    · rename_i socket transit htransit
      obtain ⟨-, hs'⟩ := Option.ite_none_right_eq_some.mp hstep
      exact Option.some.inj hs' ▸ h.of_dock w _ rfl rfl fun heven => heven.conn htransit handle
  | closed w socket =>
    obtain ⟨⟨-, hsocket⟩, hs'⟩ := Option.ite_none_right_eq_some.mp hstep
    exact Option.some.inj hs' ▸ h.of_dock w _ rfl rfl fun heven => heven.closed hsocket
  | own w a =>
    simp only [step] at hstep
    split_ifs at hstep
    obtain ⟨edge, hedge, rfl⟩ := Option.map_eq_some_iff.mp hstep
    exact h.of_dock w _ rfl rfl fun heven => heven.own (UdpEdge.step_reported hedge).1
  | deliver w =>
    simp only [step] at hstep
    split at hstep
    · cases hstep
    · rename_i note notes hnotes
      obtain rfl := Option.some.inj hstep
      cases note with
      | on => exact h.of_one w _ _ rfl rfl fun heven => heven.deliver hnotes
      | off => exact h.of_one w _ _ rfl rfl fun heven => heven.deliver hnotes
  | relay b =>
    obtain ⟨hload, hspawn, router, hrouter, rfl⟩ := relay_step hstep
    refine ⟨UdpRouter.step_answered s.router b router h.answered hrouter, fun w hlive => ?_⟩
    exact UdpRouter.relay_even hrouter hload hspawn hlive (h.even w)
  | spawn => exact Option.some.inj hstep ▸ spawn_balanced h

/-! ### Runs -/

/-- The condition on a step: a `conn` message has its socket, and a `ux` is timely. -/
def timely (valid : Text → Bool) (s : Fleet) : Action.Fleet → Bool
  | .conn _ handle => handle
  | .relay b => s.router.timely valid b
  | _ => true

/-- What timely steps keep besides. -/
structure Kept (valid : Text → Bool) (s : Fleet) : Prop extends Balanced s where
  pinned : s.router.Pinned valid
  found : ∀ w, (s.docks w).lost = 0

theorem setDock_found {s : Fleet} (h : ∀ v, (s.docks v).lost = 0) {w : WorkerId} {f : Dock → Dock}
    (hf : (f (s.docks w)).lost = 0) (v : WorkerId) : ((s.setDock w f).docks v).lost = 0 := by
  change (update s.docks w (f (s.docks w)) v).lost = 0
  by_cases hv : v = w
  · rw [hv, Function.update_self, hf]
  · rw [Function.update_of_ne hv]
    exact h v

theorem hand_found {s : Fleet} (h : ∀ v, (s.docks v).lost = 0) (w : WorkerId) (socket : SocketId) :
    ∀ v, ((s.hand w socket).docks v).lost = 0 :=
  setDock_found (s := s.setLoad w (s.load w + 1)) h (h w)

theorem hands_found {s : Fleet} (h : ∀ v, (s.docks v).lost = 0) (w : WorkerId)
    (sockets : List SocketId) (v : WorkerId) :
    ((sockets.foldl (fun s socket => s.hand w socket) s).docks v).lost = 0 := by
  induction sockets generalizing s with
  | nil => exact h v
  | cons socket rest ih => exact ih (hand_found h w socket)

theorem step_found {s s' : Fleet} {a : Action.Fleet} (h : ∀ v, (s.docks v).lost = 0)
    (htimely : s.timely valid a = true) (hstep : s.step valid a = some s') (v : WorkerId) :
    (s'.docks v).lost = 0 := by
  cases a with
  | dispatch =>
    obtain rfl := Option.some.inj hstep
    unfold dispatch
    split
    · exact hand_found (s := { s with arrived := s.arrived + 1 }) h _ _ v
    · split_ifs <;> exact h v
  | abandon socket =>
    obtain ⟨-, hs'⟩ := Option.ite_none_right_eq_some.mp hstep
    exact Option.some.inj hs' ▸ h v
  | failed w socket =>
    obtain ⟨-, hs'⟩ := Option.ite_none_right_eq_some.mp hstep
    obtain rfl := Option.some.inj hs'
    exact setDock_found (s := s.setLoad w (s.load w - 1)) h (h w) v
  | conn w handle =>
    obtain rfl : handle = true := htimely
    simp only [step] at hstep
    split at hstep
    · cases hstep
    · obtain ⟨-, hs'⟩ := Option.ite_none_right_eq_some.mp hstep
      obtain rfl := Option.some.inj hs'
      exact setDock_found h (h w) v
  | closed w socket =>
    obtain ⟨-, hs'⟩ := Option.ite_none_right_eq_some.mp hstep
    obtain rfl := Option.some.inj hs'
    exact setDock_found h (h w) v
  | own w a =>
    simp only [step] at hstep
    split_ifs at hstep
    obtain ⟨edge, -, rfl⟩ := Option.map_eq_some_iff.mp hstep
    exact setDock_found h (h w) v
  | deliver w =>
    simp only [step] at hstep
    split at hstep
    · cases hstep
    · rename_i note notes hnotes
      obtain rfl := Option.some.inj hstep
      have htaken :=
        setDock_found h (w := w) (f := fun dock => { dock with notes := notes }) (h w) v
      cases note <;> exact htaken
  | relay b =>
    obtain ⟨-, -, router, -, rfl⟩ := relay_step hstep
    exact h v
  | spawn =>
    obtain rfl := Option.some.inj hstep
    refine hands_found (fun u => ?_) _ _ v
    change (update s.docks s.router.spawned {} u).lost = 0
    by_cases hu : u = s.router.spawned
    · rw [hu, Function.update_self]
    · rw [Function.update_of_ne hu]
      exact h u

theorem step_kept (s : Fleet) (a : Action.Fleet) (s' : Fleet) (h : Kept valid s)
    (htimely : s.timely valid a = true) (hstep : s.step valid a = some s') : Kept valid s' := by
  refine ⟨step_balanced s a s' h.toBalanced hstep, ?_, fun w => ?_⟩
  · by_cases hrelay : ∃ b, a = .relay b
    · obtain ⟨b, rfl⟩ := hrelay
      obtain ⟨-, -, router, hrouter, rfl⟩ := relay_step hstep
      exact UdpRouter.step_pinned s.router b router h.pinned htimely hrouter
    · exact (step_mends hstep fun b hb => hrelay ⟨b, hb⟩).pinned h.pinned
  · exact step_found h.found htimely hstep w

theorem start_kept : Kept valid {} := by
  have hnone : ∀ w, ({} : Fleet).router.live w ≠ true :=
    fun w hlive => absurd (UdpRouter.live_roster hlive) List.not_mem_nil
  refine ⟨⟨⟨fun _ hw => absurd hw List.not_mem_nil,
    fun _ w hw => absurd hw (Option.some_ne_none w).symm, fun _ w hw => absurd hw (hnone w)⟩,
    fun w hw => absurd hw (hnone w)⟩, fun w _ hw => absurd hw (hnone w), fun _ => rfl⟩

/-- The messages to the worker and from it are delivered. -/
def quiet (s : Fleet) (w : WorkerId) : Bool :=
  (s.docks w).transit.isEmpty && (s.docks w).notes.isEmpty &&
    (s.router.workers w).down.isEmpty && (s.router.workers w).up.isEmpty

theorem quiet_spec {s : Fleet} {w : WorkerId} (h : s.quiet w = true) :
    (s.docks w).transit = [] ∧ (s.docks w).notes = [] ∧ (s.router.workers w).down = [] ∧
      (s.router.workers w).up = [] := by
  simp only [quiet, Bool.and_eq_true, List.isEmpty_iff] at h
  exact ⟨h.1.1.1, h.1.1.2, h.1.2, h.2⟩

/-- In every run, what a load counts when all is delivered: also the routes that have no peer, and
the sockets that were lost on the way. -/
theorem load_quiet (actions : List Action.Fleet) (s : Fleet) (w : WorkerId)
    (hrun : exec (step valid) {} actions = some s) (hlive : s.router.live w = true)
    (hquiet : s.quiet w = true) : s.load w = (s.docks w).sockets.length +
      (s.docks w).edge.held.ncard + (s.router.routed w).ncard + (s.docks w).lost := by
  have hstart : Kept valid {} := start_kept
  have hbalanced : s.Balanced := exec_preserves step_balanced hstart.toBalanced hrun
  obtain ⟨htransit, hnotes, -, -⟩ := quiet_spec hquiet
  have hload := (hbalanced.even w hlive).load
  rw [htransit, hnotes, Note.net_nil, List.length_nil] at hload
  omega

/-- With nothing on its way, the keys routed to a worker are those that it holds. -/
theorem routed_held {s : Fleet} {w : WorkerId} (h : Kept valid s) (hlive : s.router.live w = true)
    (hquiet : s.quiet w = true) : s.router.routed w = (s.router.workers w).edge.held := by
  obtain ⟨-, -, hdown, hup⟩ := quiet_spec hquiet
  ext key
  refine ⟨fun hroute => ?_, fun hheld => ?_⟩
  · rcases h.answered.owed key w hlive hroute with hholds | ⟨m, hm, -⟩ | hux
    · exact Option.isSome_iff_ne_none.mp hholds
    · rw [hdown] at hm
      exact absurd hm List.not_mem_nil
    · rw [hup] at hux
      exact absurd hux List.not_mem_nil
  · exact h.pinned w key hlive (Or.inl (Option.isSome_iff_ne_none.mpr hheld))

/-- Once all is delivered, the load of a live worker is the number of its open sockets and of the
peers that its edges hold. -/
theorem load_counts (actions : List Action.Fleet) (s : Fleet) (w : WorkerId)
    (htimely : Meets (step valid) (fun s a => s.timely valid a = true) {} actions)
    (hrun : exec (step valid) {} actions = some s) (hlive : s.router.live w = true)
    (hquiet : s.quiet w = true) :
    (s.docks w).edge.held.Finite ∧ (s.router.workers w).edge.held.Finite ∧
      s.load w = (s.docks w).sockets.length + (s.docks w).edge.held.ncard +
        (s.router.workers w).edge.held.ncard := by
  have hkept : Kept valid s := exec_invariant step_kept start_kept htimely hrun
  have heven := hkept.even w hlive
  have hrouted := routed_held hkept hlive hquiet
  refine ⟨heven.held, hrouted ▸ heven.routed, ?_⟩
  rw [load_quiet actions s w hrun hlive hquiet, hrouted, hkept.found w, add_zero]

/-- A socket, a peer of the worker's own edge and one of its relay edge. -/
def mixed : List Action.Fleet :=
  [.spawn, .dispatch, .conn 0 true,
    .own 0 (.receive "10.0.0.1:4000" (HELLO :: List.replicate 64 'a') ['b'] none 0), .deliver 0,
    .relay (.inbound "10.0.0.2:4000" (HELLO :: List.replicate 64 'a')),
    .relay (.receive 0 ['b'] none 0), .relay (.message 0)]

def ran (actions : List Action.Fleet) : Option Fleet := exec (step fun _ => true) {} actions

theorem load_counts_mixed : ∃ s, ran mixed = some s ∧ s.load 0 = 3 ∧
    s.load 0 = (s.docks 0).sockets.length + (s.docks 0).edge.held.ncard +
      (s.router.workers 0).edge.held.ncard := by
  have htimely : Meets (step fun _ => true) (fun s a => s.timely (fun _ => true) a = true) {}
      mixed := by decide +kernel
  have hany : (ran mixed).any (fun s => s.router.live 0 = true ∧ s.quiet 0 = true ∧
      s.load 0 = 3) = true := by decide +kernel
  obtain ⟨s, hrun, hs⟩ := (Option.any_eq_true _ _).mp hany
  obtain ⟨hlive, hquiet, hload⟩ := of_decide_eq_true hs
  exact ⟨s, hrun, hload, (load_counts mixed s 0 htimely hrun hlive hquiet).2.2⟩

/-- A socket that closed on its way is counted although nothing is open. -/
theorem load_counts_lost : ¬ ∀ actions s w, ran actions = some s → s.router.live w = true →
    s.quiet w = true → s.load w = (s.docks w).sockets.length + (s.docks w).edge.held.ncard +
      (s.router.workers w).edge.held.ncard := by
  intro h
  let lost : List Action.Fleet := [.spawn, .dispatch, .conn 0 false]
  have hedges : (ran lost).map (fun s => ((s.docks 0).edge, (s.router.workers 0).edge)) =
      some ({}, {}) := rfl
  have hany : (ran lost).any (fun s => s.router.live 0 = true ∧ s.quiet 0 = true ∧ s.load 0 = 1 ∧
      (s.docks 0).sockets = []) = true := by decide +kernel
  obtain ⟨s, hrun, hs⟩ := (Option.any_eq_true _ _).mp hany
  obtain ⟨hlive, hquiet, hload, hsockets⟩ := of_decide_eq_true hs
  have hcount := h lost s 0 hrun hlive hquiet
  rw [hrun] at hedges
  obtain ⟨hown, hrelay⟩ := Prod.mk.inj (Option.some.inj hedges)
  have hnone : ({} : UdpEdge).held = ∅ := by
    ext key
    simp [UdpEdge.held]
  rw [hload, hsockets, hown, hrelay, hnone, Set.ncard_empty] at hcount
  exact absurd hcount (by decide)

end Fleet

end NMiner
