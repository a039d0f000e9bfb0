import NMiner.Proofs.Peers
import NMiner.Spec.Router

/-! Sticky routes: while a live worker holds a peer for a key, the route of the key is that worker.
What a worker holds can only come from a greeting that was routed to it, so it is enough that the
route outlives the greeting; a late `ux` takes it away. -/

namespace NMiner

namespace UdpRouter

open Transition
open Function (update)

variable {valid : Text → Bool}

/-- The worker has a peer for the key. -/
def holds (s : UdpRouter) (w : WorkerId) (key : Key) : Bool :=
  ((s.workers w).edge.peers key).isSome

/-- A greeting that makes a peer for the key is on its way to the worker. -/
def greeted (valid : Text → Bool) (s : UdpRouter) (w : WorkerId) (key : Key) : Bool :=
  (s.workers w).down.any fun m => m.1 = key ∧ UdpEdge.opens valid m.2

/-- The condition on a step: a `ux` is handled when the owner of the key's route, if it lives, holds
no peer for the key and is about to make none. -/
def timely (valid : Text → Bool) (s : UdpRouter) : Action.Router → Bool
  | .message w => match (s.workers w).up with
    | .ux key :: _ => match s.routes key with
      | some owner => s.live owner = false ∨
          s.holds owner key = false ∧ s.greeted valid owner key = false
      | none => true
    | _ => true
  | _ => true

/-- What a live worker holds, or is about to make, is routed to it. -/
def Pinned (valid : Text → Bool) (s : UdpRouter) : Prop :=
  ∀ w key, s.live w = true → s.holds w key = true ∨ s.greeted valid w key = true →
    s.routes key = some w

@[simp] theorem setWorker_self (s : UdpRouter) (w : WorkerId) (f : Worker → Worker) :
    (s.setWorker w f).workers w = f (s.workers w) := Function.update_self _ _ _

theorem setWorker_of_ne (s : UdpRouter) {w w' : WorkerId} (f : Worker → Worker) (h : w' ≠ w) :
    (s.setWorker w f).workers w' = s.workers w' := Function.update_of_ne h _ _

/-- The worker lives no longer than before and has nothing new for the key. -/
structure Loses (valid : Text → Bool) (s s' : UdpRouter) (w : WorkerId) (key : Key) : Prop where
  live : s'.live w = true → s.live w = true
  holds : s'.holds w key = true → s.holds w key = true ∨ s.greeted valid w key = true
  greeted : s'.greeted valid w key = true → s.greeted valid w key = true

theorem Loses.pinned {s s' : UdpRouter} {w : WorkerId} {key : Key} (h : Loses valid s s' w key)
    (hs : s.Pinned valid) (hlive : s'.live w = true)
    (hheld : s'.holds w key = true ∨ s'.greeted valid w key = true) : s.routes key = some w :=
  hs w key (h.live hlive) (hheld.elim h.holds fun hgreeted => Or.inr (h.greeted hgreeted))

/-- A change of one worker that leaves it no more alive and with nothing new. -/
theorem setWorker_loses (s : UdpRouter) (w : WorkerId) {f : Worker → Worker}
    (halive : (f (s.workers w)).alive = true → (s.workers w).alive = true)
    (hedge : ∀ key, ((f (s.workers w)).edge.peers key).isSome = true →
      s.holds w key = true ∨ s.greeted valid w key = true)
    (hdown : ∀ m ∈ (f (s.workers w)).down, m ∈ (s.workers w).down) (w' : WorkerId) (key : Key) :
    Loses valid s (s.setWorker w f) w' key := by
  by_cases h : w' = w
  · subst h
    refine ⟨fun hlive => ?_, fun hheld => ?_, fun hgreeted => ?_⟩
    · obtain ⟨hmem, hrun⟩ := of_decide_eq_true hlive
      rw [setWorker_self] at hrun
      exact decide_eq_true ⟨hmem, halive hrun⟩
    · unfold holds at hheld
      rw [setWorker_self] at hheld
      exact hedge key hheld
    · unfold greeted at hgreeted ⊢
      rw [setWorker_self] at hgreeted
      obtain ⟨m, hm, hopens⟩ := List.any_eq_true.mp hgreeted
      exact List.any_eq_true.mpr ⟨m, hdown m hm, hopens⟩
  · have hsame := setWorker_of_ne s f h
    refine ⟨fun hlive => ?_, fun hheld => ?_, fun hgreeted => ?_⟩
    · obtain ⟨hmem, hrun⟩ := of_decide_eq_true hlive
      rw [hsame] at hrun
      exact decide_eq_true ⟨hmem, hrun⟩
    · unfold holds at hheld ⊢
      rw [hsame] at hheld
      exact Or.inl hheld
    · unfold greeted at hgreeted ⊢
      rwa [hsame] at hgreeted

/-! ### The router -/

theorem least_live {s : UdpRouter} {w : WorkerId} (h : s.least = some w) : s.live w = true := by
  have hfold : ∀ (targets : List WorkerId) (pick : Option WorkerId),
      (∀ t ∈ targets, t ∈ s.roster) → (∀ p, pick = some p → s.live p = true) →
      targets.foldl (fun pick target =>
        if (s.workers target).alive ∧ (pick.map fun w => (s.workers w).load).all
          (fun load => (s.workers target).load < load) then some target else pick) pick = some w →
      s.live w = true := by
    intro targets
    induction targets with
    | nil => exact fun pick _ hpick hw => hpick w hw
    | cons target rest ih =>
      intro pick hmem hpick hw
      refine ih _ (fun t ht => hmem t (List.mem_cons_of_mem _ ht)) ?_ hw
      intro p hp
      dsimp only at hp
      split_ifs at hp with hbetter
      · rw [← Option.some.inj hp]
        exact decide_eq_true ⟨hmem target List.mem_cons_self, hbetter.1⟩
      · exact hpick p hp
  exact hfold s.roster none (fun _ ht => ht) (fun p hp => absurd hp (Option.some_ne_none p).symm) h

/-- A key of a live owner keeps it. -/
theorem pick_owner {s : UdpRouter} {key : Key} {w : WorkerId} (hroute : s.routes key = some w)
    (hlive : s.live w = true) : s.pick key = (some w, s) := by
  unfold pick
  rw [hroute]
  exact if_pos hlive

/-- Otherwise the key goes to a live worker, or to none; the other keys and all edges stay. -/
structure Balanced (s s' : UdpRouter) (key : Key) (w : Option WorkerId) : Prop where
  routes : ∀ k, k ≠ key → s'.routes k = s.routes k
  route : ∀ v, w = some v → s'.routes key = some v
  roster : s'.roster = s.roster
  alive : ∀ v, (s'.workers v).alive = (s.workers v).alive
  edge : ∀ v, (s'.workers v).edge = (s.workers v).edge
  down : ∀ v, (s'.workers v).down = (s.workers v).down

theorem balance_balanced (s : UdpRouter) (key : Key) :
    Balanced s (s.balance key).2 key (s.balance key).1 := by
  unfold balance
  cases hleast : s.least with
  | none =>
    refine ⟨fun _ _ => rfl, fun v hv => absurd hv (Option.some_ne_none v).symm, rfl, ?_, ?_, ?_⟩ <;>
      exact fun _ => rfl
  | some w =>
    refine ⟨fun k hk => Function.update_of_ne hk _ _, fun v hv => ?_, rfl, fun v => ?_, fun v => ?_,
      fun v => ?_⟩
    · rw [← hv]
      exact Function.update_self _ _ _
    all_goals
      by_cases h : v = w
      · rw [h, setWorker_self]
        rfl
      · rw [setWorker_of_ne _ _ h]
        rfl

theorem pick_balanced (s : UdpRouter) (key : Key) :
    Balanced s (s.pick key).2 key (s.pick key).1 := by
  unfold pick
  cases hroute : s.routes key with
  | none => exact balance_balanced s key
  | some owner =>
    dsimp only
    split_ifs
    · exact ⟨fun _ _ => rfl, fun v hv => hv ▸ hroute, rfl, fun _ => rfl, fun _ => rfl, fun _ => rfl⟩
    · have hbalance := balance_balanced (s.setRoute key none) key
      refine ⟨fun k hk => ?_, hbalance.route, hbalance.roster, hbalance.alive, hbalance.edge,
        hbalance.down⟩
      exact (hbalance.routes k hk).trans (Function.update_of_ne hk _ _)

theorem Balanced.loses {s s' : UdpRouter} {key : Key} {w : Option WorkerId}
    (h : Balanced s s' key w) (v : WorkerId) (k : Key) : Loses valid s s' v k := by
  refine ⟨fun hlive => ?_, fun hheld => ?_, fun hgreeted => ?_⟩
  · unfold live at hlive ⊢
    rwa [h.roster, h.alive] at hlive
  · unfold holds at hheld ⊢
    rw [h.edge] at hheld
    exact Or.inl hheld
  · unfold greeted at hgreeted ⊢
    rwa [h.down] at hgreeted

/-- The router keeps what is pinned, whoever gets the datagram. -/
theorem inbound_pinned {s : UdpRouter} (hs : s.Pinned valid) (key : Key) (text : Text) :
    (s.inbound key text).Pinned valid := by
  have hbalanced := pick_balanced s key
  unfold inbound
  rcases hpick : s.pick key with ⟨target, s'⟩
  rw [hpick] at hbalanced
  -- a live worker that has the key already is the one that is picked
  have hkept : ∀ w k, s'.live w = true → s'.holds w k = true ∨ s'.greeted valid w k = true →
      s'.routes k = some w := by
    intro w k hlive hheld
    have hloses : Loses valid s s' w k := hbalanced.loses w k
    have hroute := hloses.pinned hs hlive hheld
    by_cases hk : k = key
    · subst hk
      rw [pick_owner hroute (hloses.live hlive)] at hpick
      rw [← (Prod.mk.inj hpick).2]
      exact hroute
    · rw [hbalanced.routes k hk]
      exact hroute
  cases target with
  | none => exact hkept
  | some t =>
    intro w k hlive hheld
    have hlive' : s'.live w = true := by
      obtain ⟨hmem, hrun⟩ := of_decide_eq_true hlive
      refine decide_eq_true ⟨hmem, ?_⟩
      by_cases h : w = t
      · rw [h, setWorker_self] at hrun
        exact h ▸ hrun
      · rwa [setWorker_of_ne _ _ h] at hrun
    by_cases h : w = t
    · subst h
      by_cases hk : k = key
      · exact hk ▸ hbalanced.route w rfl
      · refine hkept w k hlive' (hheld.imp (fun hheld => ?_) fun hgreeted => ?_)
        · unfold holds at hheld ⊢
          rwa [setWorker_self] at hheld
        · unfold greeted at hgreeted ⊢
          rw [setWorker_self, List.any_append] at hgreeted
          simpa [Ne.symm hk] using hgreeted
    · refine hkept w k hlive' (hheld.imp (fun hheld => ?_) fun hgreeted => ?_)
      · unfold holds at hheld ⊢
        rwa [setWorker_of_ne _ _ h] at hheld
      · unfold greeted at hgreeted ⊢
        rwa [setWorker_of_ne _ _ h] at hgreeted

/-- A change that leaves the routes alone, or those of workers that do not live. -/
theorem Pinned.of_loses {s s' : UdpRouter} (hs : s.Pinned valid)
    (hloses : ∀ w key, Loses valid s s' w key)
    (hroutes : ∀ w key, s'.live w = true → s.routes key = some w → s'.routes key = some w) :
    s'.Pinned valid := by
  intro w key hlive hheld
  exact hroutes w key hlive ((hloses w key).pinned hs hlive hheld)

/-- A `ux` in time takes away the route of nobody. -/
theorem forget_pinned {s : UdpRouter} (hs : s.Pinned valid) {key : Key}
    (htimely : ∀ owner, s.routes key = some owner → s.live owner = false ∨
      s.holds owner key = false ∧ s.greeted valid owner key = false) :
    (s.forget key).Pinned valid := by
  unfold forget
  cases hroute : s.routes key with
  | none => exact hs
  | some owner =>
    have hfree : (s.setRoute key none).Pinned valid := by
      intro w k hlive hheld
      have hold : s.routes k = some w := hs w k hlive hheld
      by_cases hk : k = key
      · subst hk
        obtain rfl : owner = w := Option.some.inj (hroute.symm.trans hold)
        rcases htimely owner hroute with hdead | ⟨hnot, hnone⟩
        · have hlive' : s.live owner = true := hlive
          rw [hdead] at hlive'
          exact absurd hlive' Bool.false_ne_true
        · rcases hheld with hheld | hgreeted
          · exact absurd (hnot.symm.trans hheld) Bool.false_ne_true
          · exact absurd (hnone.symm.trans hgreeted) Bool.false_ne_true
      · exact (Function.update_of_ne hk _ _).trans hold
    dsimp only
    split_ifs
    · refine hfree.of_loses (setWorker_loses _ owner id (fun _ => Or.inl) fun _ hm => hm) ?_
      exact fun _ _ _ h => h
    · exact hfree

/-! ### The workers -/

/-- A worker takes the next datagram: it only makes a peer that a greeting to it asked for. -/
theorem receive_pinned {s s' : UdpRouter} (hs : s.Pinned valid) {w : WorkerId} {privateHash : Text}
    {request : Option Request} {now : ℤ}
    (hstep : s.step valid (.receive w privateHash request now) = some s') : s'.Pinned valid := by
  simp only [step] at hstep
  cases hdown : (s.workers w).down with
  | nil =>
    rw [hdown] at hstep
    cases hstep
  | cons m down =>
    obtain ⟨key, text⟩ := m
    rw [hdown] at hstep
    dsimp only at hstep
    split_ifs at hstep with hlive
    obtain ⟨edge, hedge, rfl⟩ := Option.map_eq_some_iff.mp hstep
    rw [setWorker_self] at hedge
    have hpeers := UdpEdge.receive_cases valid { (s.workers w).edge with out := [] } key
      text privateHash request now
    rw [Option.some.inj hedge] at hpeers
    have hrelay : (s.setWorker w fun worker => { worker with down := down }).relay w edge =
        s.setWorker w fun worker => { worker with
          down := down, edge := edge
          up := worker.up ++ edge.out.filterMap EdgeOutput.relayed } := by
      simp [relay, setWorker]
    rw [hrelay]
    refine hs.of_loses (setWorker_loses s w id (fun k hheld => ?_) fun m hm => ?_) fun _ _ _ h => h
    · dsimp only at hheld
      rcases hpeers with htame | ⟨hopens, hjoins⟩
      · rcases htame.peers k with hsame | hnone
        · rw [hsame] at hheld
          exact Or.inl hheld
        · rw [hnone] at hheld
          exact absurd hheld Bool.false_ne_true
      · by_cases hk : k = key
        · unfold greeted
          rw [hdown]
          exact Or.inr (by simp [hk, hopens])
        · rw [hjoins.peers k hk] at hheld
          exact Or.inl hheld
    · rw [hdown]
      exact List.mem_cons_of_mem _ hm

/-- Any other event at an edge makes no peer. -/
theorem edge_pinned {s s' : UdpRouter} (hs : s.Pinned valid) {w : WorkerId} {a : Action.Udp}
    (hstep : s.step valid (.edge w a) = some s') : s'.Pinned valid := by
  have hother : ∀ key text privateHash request now,
      a ≠ .receive key text privateHash request now := by
    rintro key text privateHash request now rfl
    cases hstep
  have hrelay : ∃ edge, (s.workers w).edge.step valid a = some edge ∧ s.relay w edge = s' := by
    cases a with
    | receive key text privateHash request now => exact absurd rfl (hother _ _ _ _ _)
    | _ =>
      simp only [step] at hstep
      split_ifs at hstep
      exact Option.map_eq_some_iff.mp hstep
  obtain ⟨edge, hedge, rfl⟩ := hrelay
  refine hs.of_loses (setWorker_loses s w id (fun k hheld => ?_) fun m hm => hm) fun _ _ _ h => h
  have hheld' : (edge.peers k).isSome = true := hheld
  rcases UdpEdge.step_peers hedge hother k with hsame | hnone
  · rw [hsame] at hheld'
    exact Or.inl hheld'
  · rw [hnone] at hheld'
    exact absurd hheld' Bool.false_ne_true

theorem message_pinned {s s' : UdpRouter} (hs : s.Pinned valid) {w : WorkerId}
    (htimely : s.timely valid (.message w) = true) (hstep : s.step valid (.message w) = some s') :
    s'.Pinned valid := by
  simp only [step] at hstep
  cases hup : (s.workers w).up with
  | nil =>
    rw [hup] at hstep
    cases hstep
  | cons m up =>
    rw [hup] at hstep
    have htaken : ∀ v k, Loses valid s (s.setWorker w fun worker => { worker with up := up }) v k :=
      setWorker_loses s w id (fun _ => Or.inl) fun _ hm => hm
    have hpinned := hs.of_loses htaken fun _ _ _ h => h
    cases m with
    | u key text => exact Option.some.inj hstep ▸ hpinned
    | ux key =>
      obtain rfl := Option.some.inj hstep
      refine forget_pinned hpinned fun owner hroute => ?_
      simp only [timely, hup] at htimely
      rw [show s.routes key = some owner from hroute] at htimely
      have hloses := htaken owner key
      rcases of_decide_eq_true htimely with hdead | ⟨hnot, hnone⟩
      · exact Or.inl (Bool.eq_false_iff.mpr fun h => absurd (hloses.live h) (by simp [hdead]))
      · refine Or.inr ⟨Bool.eq_false_iff.mpr fun h => ?_, Bool.eq_false_iff.mpr fun h => ?_⟩
        · exact absurd (hloses.holds h) (by simp [hnot, hnone])
        · exact absurd (hloses.greeted h) (by simp [hnone])

theorem exit_pinned {s s' : UdpRouter} (hs : s.Pinned valid) {w : WorkerId}
    (hstep : s.step valid (.exit w) = some s') : s'.Pinned valid := by
  simp only [step] at hstep
  split_ifs at hstep
  obtain rfl := Option.some.inj hstep
  have hdead : ∀ v k,
      Loses valid s (s.setWorker w fun worker => { worker with alive := false }) v k :=
    setWorker_loses s w (fun h => absurd h Bool.false_ne_true) (fun _ => Or.inl) fun _ hm => hm
  refine hs.of_loses (fun v k => ⟨fun hlive => ?_, (hdead v k).holds, (hdead v k).greeted⟩) ?_
  · obtain ⟨hmem, hrun⟩ := of_decide_eq_true hlive
    exact (hdead v k).live (decide_eq_true ⟨List.mem_of_mem_erase hmem, hrun⟩)
  · intro v k hlive hroute
    obtain ⟨-, hrun⟩ := of_decide_eq_true hlive
    have hne : v ≠ w := by
      rintro rfl
      have hrun' : ((s.setWorker v fun worker => { worker with alive := false }).workers v).alive =
          true := hrun
      rw [setWorker_self] at hrun'
      exact absurd hrun' Bool.false_ne_true
    change (if s.routes k = some w then none else s.routes k) = some v
    rw [hroute, if_neg (by simpa using hne)]

theorem spawn_pinned {s s' : UdpRouter} (hs : s.Pinned valid)
    (hstep : s.step valid .spawn = some s') : s'.Pinned valid := by
  obtain rfl := Option.some.inj hstep
  intro w k hlive hheld
  by_cases h : w = s.spawned
  · subst h
    unfold holds greeted at hheld
    dsimp only at hheld
    rw [Function.update_self] at hheld
    exact absurd hheld (by simp)
  · have hsame : update s.workers s.spawned {} w = s.workers w := Function.update_of_ne h _ _
    refine hs w k ?_ (hheld.imp (fun hheld => ?_) fun hgreeted => ?_)
    · obtain ⟨hmem, hrun⟩ := of_decide_eq_true hlive
      refine decide_eq_true ⟨?_, hsame ▸ hrun⟩
      exact (List.mem_append.mp hmem).resolve_right fun hnew => h (List.mem_singleton.mp hnew)
    · unfold holds at hheld ⊢
      exact hsame ▸ hheld
    · unfold greeted at hgreeted ⊢
      exact hsame ▸ hgreeted

theorem step_pinned (s : UdpRouter) (a : Action.Router) (s' : UdpRouter) (hs : s.Pinned valid)
    (htimely : s.timely valid a = true) (hstep : s.step valid a = some s') : s'.Pinned valid := by
  cases a with
  | inbound key text => exact Option.some.inj hstep ▸ inbound_pinned hs key text
  | receive w privateHash request now => exact receive_pinned hs hstep
  | edge w a => exact edge_pinned hs hstep
  | message w => exact message_pinned hs htimely hstep
  | load w n =>
    obtain rfl := Option.some.inj hstep
    exact hs.of_loses (setWorker_loses s w id (fun _ => Or.inl) fun _ hm => hm) fun _ _ _ h => h
  | lose w =>
    obtain rfl := Option.some.inj hstep
    refine hs.of_loses (setWorker_loses s w ?_ (fun _ => Or.inl) fun _ hm => hm) fun _ _ _ h => h
    exact fun h => absurd h Bool.false_ne_true
  | exit w => exact exit_pinned hs hstep
  | spawn => exact spawn_pinned hs hstep

theorem run_pinned {actions : List Action.Router} {s : UdpRouter}
    (htimely : Meets (step valid) (fun s a => s.timely valid a = true) {} actions)
    (hrun : exec (step valid) {} actions = some s) : s.Pinned valid := by
  refine exec_invariant step_pinned (fun w key hlive => ?_) htimely hrun
  exact absurd (of_decide_eq_true hlive).1 List.not_mem_nil

/-- As long as a live worker holds a peer for a key, every datagram of that key goes to that worker
and to no other. -/
theorem routes_sticky (actions : List Action.Router) (s : UdpRouter) (w : WorkerId) (key : Key)
    (htimely : Meets (step valid) (fun s a => s.timely valid a = true) {} actions)
    (hrun : exec (step valid) {} actions = some s) (hlive : s.live w = true)
    (hheld : s.holds w key = true) (text : Text) :
    (s.pick key).1 = some w ∧
      ((s.inbound key text).workers w).down = (s.workers w).down ++ [(key, text)] ∧
      ∀ v, v ≠ w → (s.inbound key text).workers v = s.workers v := by
  have hpick := pick_owner (run_pinned htimely hrun w key hlive (Or.inl hheld)) hlive
  have hinbound : s.inbound key text =
      s.setWorker w fun worker => { worker with down := worker.down ++ [(key, text)] } := by
    unfold inbound
    rw [hpick]
  rw [hpick, hinbound]
  refine ⟨rfl, by rw [setWorker_self], fun v hv => setWorker_of_ne s _ hv⟩

/-- A `ux` that is late takes the route from a live worker that holds a peer for the key, or is
about to make one; the next datagram of the key goes by the loads. -/
theorem late_unpins {s s' : UdpRouter} {w : WorkerId} (hlate : s.timely valid (.message w) = false)
    (hstep : s.step valid (.message w) = some s') : ∃ owner key, s'.live owner = true ∧
      (s'.holds owner key = true ∨ s'.greeted valid owner key = true) ∧
      (s'.pick key).1 = s'.least := by
  simp only [step] at hstep
  unfold timely at hlate
  split at hstep
  · cases hstep
  · rename_i m up hup
    cases m with
    | u key text => simp [hup] at hlate
    | ux key =>
      simp only [hup] at hlate
      cases hroute : s.routes key with
      | none => simp [hroute] at hlate
      | some owner =>
        rw [hroute] at hlate
        have hnot := of_decide_eq_false hlate
        rw [not_or, Bool.not_eq_false, not_and_or, Bool.not_eq_false, Bool.not_eq_false] at hnot
        obtain ⟨hlive, hheld⟩ := hnot
        have hmem := (of_decide_eq_true hlive).1
        have hforget : s' = ((s.setWorker w fun worker => { worker with up := up }).setRoute key
            none).setWorker owner fun worker => { worker with load := worker.load - 1 } := by
          rw [← Option.some.inj hstep]
          unfold forget
          rw [show (s.setWorker w fun worker => { worker with up := up }).routes key = some owner
            from hroute]
          exact if_pos hmem
        have hfields : (s'.workers owner).alive = (s.workers owner).alive ∧
            (s'.workers owner).edge = (s.workers owner).edge ∧
            (s'.workers owner).down = (s.workers owner).down := by
          rw [hforget, setWorker_self]
          dsimp only [setRoute]
          by_cases h : owner = w
          · rw [h, setWorker_self]
            exact ⟨rfl, rfl, rfl⟩
          · rw [setWorker_of_ne _ _ h]
            exact ⟨rfl, rfl, rfl⟩
        refine ⟨owner, key, decide_eq_true ⟨?_, ?_⟩, ?_, ?_⟩
        · rw [hforget]
          exact hmem
        · rw [hfields.1]
          exact (of_decide_eq_true hlive).2
        · unfold holds greeted at hheld ⊢
          rwa [hfields.2.1, hfields.2.2]
        · have hnone : s'.routes key = none := by
            rw [hforget]
            exact Function.update_self _ _ _
          unfold pick
          rw [hnone]
          unfold balance
          cases s'.least <;> rfl

/-- A greeting of a client, up to the peer that it makes at the first worker. -/
def greeting : List Action.Router :=
  [.inbound "10.0.0.1:4000" (HELLO :: List.replicate 64 'a'), .receive 0 [] none 0]

/-- The client leaves and comes back before the primary has heard that it left. -/
def returned : List Action.Router :=
  [.spawn, .spawn] ++ greeting ++
    [.inbound "10.0.0.1:4000" [RESET], .receive 0 [] none 0] ++ greeting

def ran (actions : List Action.Router) : Option UdpRouter := exec (step fun _ => true) {} actions

/-- Before the late `ux` the client is where it was, and the datagrams go there. -/
theorem routes_sticky_returned : ∃ s, ran returned = some s ∧
    s.holds 0 "10.0.0.1:4000" = true ∧ (s.pick "10.0.0.1:4000").1 = some 0 := by
  have htimely : Meets (step fun _ => true) (fun s a => s.timely (fun _ => true) a = true) {}
      returned := by decide +kernel
  have hany : (ran returned).any (fun s => s.live 0 = true ∧
      s.holds 0 "10.0.0.1:4000" = true) = true := by decide +kernel
  obtain ⟨s, hrun, hs⟩ := (Option.any_eq_true _ _).mp hany
  obtain ⟨hlive, hheld⟩ := of_decide_eq_true hs
  exact ⟨s, hrun, hheld, (routes_sticky _ s 0 _ htimely hrun hlive hheld []).1⟩

/-- After it, with some connections at the first worker, they go to the other one. -/
theorem late_forget_strays : ¬ ∀ actions s w key, ran actions = some s → s.live w = true →
    s.holds w key = true → (s.pick key).1 = some w := by
  intro h
  have hany : (ran (returned ++ [.load 0 5, .message 0, .message 0])).any (fun s =>
      s.live 0 = true ∧ s.holds 0 "10.0.0.1:4000" = true ∧
        (s.pick "10.0.0.1:4000").1 = some 1) = true := by decide +kernel
  obtain ⟨s, hrun, hs⟩ := (Option.any_eq_true _ _).mp hany
  obtain ⟨hlive, hheld, hpick⟩ := of_decide_eq_true hs
  have hstays := h _ s 0 _ hrun hlive hheld
  rw [hpick] at hstays
  exact absurd hstays (by decide)

end UdpRouter

end NMiner
