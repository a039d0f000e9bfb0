import NMiner.Proofs.Headcount
import NMiner.Proofs.Sticky

/-! Every route of a live worker has its reason: a peer that the worker holds for the key, a
datagram of the key on its way to it, or the report that the key has been dropped. -/

namespace NMiner

namespace UdpRouter

open Function (update)

variable {valid : Text → Bool}

/-- The worker has a peer for the key, or is about to hear of the key, or has reported it. -/
def Owed (s : UdpRouter) (w : WorkerId) (key : Key) : Prop :=
  s.holds w key = true ∨ (∃ m ∈ (s.workers w).down, m.1 = key) ∨ .ux key ∈ (s.workers w).up

/-- Workers are routed to after they have been spawned, and each route of a live one has its
reason. -/
structure Answered (s : UdpRouter) : Prop where
  roster : ∀ w ∈ s.roster, w < s.spawned
  routes : ∀ key w, s.routes key = some w → w < s.spawned
  owed : ∀ key w, s.live w = true → s.routes key = some w → s.Owed w key

/-- With as many workers as before and no new route. -/
theorem Answered.of_le {s s' : UdpRouter} (h : s.Answered) (hspawned : s'.spawned = s.spawned)
    (hroster : ∀ w ∈ s'.roster, w ∈ s.roster) (hlive : ∀ w, s'.live w = true → s.live w = true)
    (hroutes : ∀ key w, s'.routes key = some w → s.routes key = some w)
    (howed : ∀ key w, s'.routes key = some w → s.Owed w key → s'.Owed w key) : s'.Answered := by
  refine ⟨fun w hw => hspawned ▸ h.roster w (hroster w hw),
    fun key w hroute => hspawned ▸ h.routes key w (hroutes key w hroute), fun key w hw hroute => ?_⟩
  exact howed key w hroute (h.owed key w (hlive w hw) (hroutes key w hroute))

theorem live_setWorker {s : UdpRouter} {w : WorkerId} {f : Worker → Worker}
    (halive : (f (s.workers w)).alive = true → (s.workers w).alive = true) (v : WorkerId)
    (h : (s.setWorker w f).live v = true) : s.live v = true := by
  obtain ⟨hmem, hrun⟩ := of_decide_eq_true h
  refine decide_eq_true ⟨hmem, ?_⟩
  by_cases hv : v = w
  · rw [hv, setWorker_self] at hrun
    exact hv ▸ halive hrun
  · rwa [setWorker_of_ne s f hv] at hrun

/-- A change of one worker that takes away none of its reasons. -/
theorem owed_setWorker {s : UdpRouter} {w : WorkerId} {f : Worker → Worker} {key : Key}
    (hheld : s.holds w key = true →
      ((f (s.workers w)).edge.peers key).isSome = true ∨ .ux key ∈ (f (s.workers w)).up)
    (hdown : ∀ m ∈ (s.workers w).down, m.1 = key → m ∈ (f (s.workers w)).down ∨
      ((f (s.workers w)).edge.peers key).isSome = true ∨ .ux key ∈ (f (s.workers w)).up)
    (hup : .ux key ∈ (s.workers w).up → .ux key ∈ (f (s.workers w)).up) (v : WorkerId)
    (h : s.Owed v key) : (s.setWorker w f).Owed v key := by
  unfold Owed holds at h ⊢
  by_cases hv : v = w
  · subst hv
    rw [setWorker_self]
    rcases h with h | ⟨m, hm, hkey⟩ | h
    · exact (hheld h).imp id Or.inr
    · rcases hdown m hm hkey with hm | hheld | hup
      · exact Or.inr (Or.inl ⟨m, hm, hkey⟩)
      · exact Or.inl hheld
      · exact Or.inr (Or.inr hup)
    · exact Or.inr (Or.inr (hup h))
  · rwa [setWorker_of_ne s f hv]

/-- A change of the load alone. -/
theorem load_answered {s : UdpRouter} (h : s.Answered) (w : WorkerId) (n : ℕ) :
    (s.setWorker w fun worker => { worker with load := n }).Answered :=
  h.of_le rfl (fun _ hw => hw) (live_setWorker id) (fun _ _ hroute => hroute) fun _ v _ howed =>
    owed_setWorker Or.inl (fun _ hm _ => Or.inl hm) id v howed

theorem lose_answered {s : UdpRouter} (h : s.Answered) (w : WorkerId) :
    (s.setWorker w fun worker => { worker with alive := false }).Answered :=
  h.of_le rfl (fun _ hw => hw) (live_setWorker fun h => absurd h Bool.false_ne_true)
    (fun _ _ hroute => hroute) fun _ v _ howed =>
      owed_setWorker Or.inl (fun _ hm _ => Or.inl hm) id v howed

/-- What `pick` does to the routes: the key goes to the worker it names, a live one, unless that
has it already. -/
theorem pick_routes (s : UdpRouter) (key : Key) :
    (∃ w, s.routes key = some w ∧ s.live w = true ∧ s.pick key = (some w, s)) ∨
      (∀ w, s.routes key = some w → s.live w = false) ∧
        (s.least = none ∧ s.pick key = (none, s.setRoute key none) ∨
          ∃ w, s.least = some w ∧ s.pick key = (some w, (s.setRoute key (some w)).setWorker w
            fun worker => { worker with load := worker.load + 1 })) := by
  have hbalance : ∀ t : UdpRouter, t.workers = s.workers → t.roster = s.roster →
      t.spawned = s.spawned → update t.routes key none = update s.routes key none →
      (t.routes key = none) →
      s.least = none ∧ t.balance key = (none, s.setRoute key none) ∨
        ∃ w, s.least = some w ∧ t.balance key = (some w, (s.setRoute key (some w)).setWorker w
          fun worker => { worker with load := worker.load + 1 }) := by
    rintro ⟨workers, spawned, roster, routes⟩ rfl rfl rfl hroutes hnone
    have hleast : UdpRouter.least ⟨s.workers, s.spawned, s.roster, routes⟩ = s.least := rfl
    unfold balance
    rw [hleast]
    cases hs : s.least with
    | none =>
      refine Or.inl ⟨rfl, ?_⟩
      have hsame : routes = update s.routes key none :=
        (Function.update_eq_self_iff.mpr hnone.symm).symm.trans hroutes
      rw [hsame]
      rfl
    | some w =>
      refine Or.inr ⟨w, rfl, ?_⟩
      have hsame : update routes key (some w) = update s.routes key (some w) := by
        have hgoes : ∀ r : Key → Option WorkerId,
            update r key (some w) = update (update r key none) key (some w) := by
          intro r
          rw [Function.update_idem]
        rw [hgoes routes, hroutes, ← hgoes]
      unfold setRoute setWorker
      dsimp only
      rw [hsame]
  unfold pick
  cases hroute : s.routes key with
  | none =>
    refine Or.inr ⟨fun w hw => absurd hw (Option.some_ne_none w).symm, ?_⟩
    exact hbalance s rfl rfl rfl rfl hroute
  | some owner =>
    dsimp only
    by_cases hlive : s.live owner = true
    · rw [if_pos hlive]
      exact Or.inl ⟨owner, rfl, hlive, rfl⟩
    · rw [if_neg hlive]
      refine Or.inr ⟨fun w hw => ?_, ?_⟩
      · rw [← Option.some.inj hw]
        exact Bool.eq_false_iff.mpr hlive
      · exact hbalance _ rfl rfl rfl (Function.update_idem _ _ _) (Function.update_self _ _ _)

/-- The datagram goes to the owner of the key, to nobody, or with a new route. -/
theorem inbound_cases (s : UdpRouter) (key : Key) (text : Text) :
    (∃ w, s.routes key = some w ∧ s.live w = true ∧ s.inbound key text =
      s.setWorker w fun worker => { worker with down := worker.down ++ [(key, text)] }) ∨
      (∀ w, s.routes key = some w → s.live w = false) ∧
        (s.inbound key text = s.setRoute key none ∨
          ∃ w, s.least = some w ∧ s.inbound key text = (s.setRoute key (some w)).setWorker w
            fun worker => { worker with
              load := worker.load + 1, down := worker.down ++ [(key, text)] }) := by
  unfold inbound
  rcases pick_routes s key with ⟨w, hroute, hlive, hpick⟩ | ⟨hfree, ⟨-, hpick⟩ | ⟨w, hleast, hpick⟩⟩
  · rw [hpick]
    exact Or.inl ⟨w, hroute, hlive, rfl⟩
  · rw [hpick]
    exact Or.inr ⟨hfree, Or.inl rfl⟩
  · rw [hpick]
    exact Or.inr ⟨hfree, Or.inr ⟨w, hleast, by simp [setWorker]⟩⟩

theorem setRoute_routes (s : UdpRouter) {key k : Key} {w : Option WorkerId} (hk : k ≠ key) :
    (s.setRoute key w).routes k = s.routes k := Function.update_of_ne hk _ _

theorem setRoute_self (s : UdpRouter) (key : Key) (w : Option WorkerId) :
    (s.setRoute key w).routes key = w := Function.update_self _ _ _

theorem unroute_answered {s : UdpRouter} (h : s.Answered) (key : Key) :
    (s.setRoute key none).Answered := by
  refine h.of_le rfl (fun _ hw => hw) (fun _ hw => hw) (fun k w hk => ?_) fun _ _ _ howed => howed
  by_cases heq : k = key
  · rw [heq, setRoute_self] at hk
    exact absurd hk (Option.some_ne_none w).symm
  · rwa [setRoute_routes s heq] at hk

theorem inbound_answered {s : UdpRouter} (h : s.Answered) (key : Key) (text : Text) :
    (s.inbound key text).Answered := by
  rcases inbound_cases s key text with ⟨w, -, -, heq⟩ | ⟨-, heq | ⟨w, hleast, heq⟩⟩
  · rw [heq]
    exact h.of_le rfl (fun _ hw => hw) (live_setWorker id) (fun _ _ hroute => hroute)
      fun _ v _ howed => owed_setWorker Or.inl
        (fun m hm _ => Or.inl (List.mem_append_left _ hm)) id v howed
  · rw [heq]
    exact unroute_answered h key
  · rw [heq]
    -- the route is new, and so is the datagram that goes with it
    have hborn : w < s.spawned := h.roster w (of_decide_eq_true (least_live hleast)).1
    refine ⟨h.roster, fun k v hk => ?_, fun k v hv hk => ?_⟩
    · change (s.setRoute key (some w)).routes k = some v at hk
      by_cases hkey : k = key
      · rw [hkey, setRoute_self] at hk
        exact Option.some.inj hk ▸ hborn
      · rw [setRoute_routes s hkey] at hk
        exact h.routes k v hk
    · change (s.setRoute key (some w)).routes k = some v at hk
      by_cases hkey : k = key
      · rw [hkey, setRoute_self] at hk
        obtain rfl := Option.some.inj hk
        refine Or.inr (Or.inl ⟨(key, text), ?_, hkey.symm⟩)
        rw [setWorker_self]
        exact List.mem_append_right _ (List.mem_singleton_self _)
      · rw [setRoute_routes s hkey] at hk
        have hlive : s.live v = true := live_setWorker (s := s.setRoute key (some w)) id v hv
        exact owed_setWorker (s := s.setRoute key (some w)) Or.inl
          (fun m hm _ => Or.inl (List.mem_append_left _ hm)) id v (h.owed k v hlive hk)

/-- An edge keeps a reason for each key that it had one for, and for the one it has just heard
of. -/
theorem relay_answered {s : UdpRouter} (h : s.Answered) {w : WorkerId} {edge : UdpEdge}
    {down : List (Key × Text)}
    (htells : UdpEdge.Tells (s.workers w).edge edge edge.out)
    (hdown : ∀ m ∈ (s.workers w).down, m ∈ down ∨
      (edge.peers m.1 = none → .dropped m.1 ∈ edge.out)) :
    (s.setWorker w fun worker => { worker with
      down := down, edge := edge
      up := worker.up ++ edge.out.filterMap EdgeOutput.relayed }).Answered := by
  have hux : ∀ key, .dropped key ∈ edge.out → Relayed.ux key ∈ (s.workers w).up ++
      edge.out.filterMap EdgeOutput.relayed := fun key hkey =>
    List.mem_append_right _ (List.mem_filterMap.mpr ⟨.dropped key, hkey, rfl⟩)
  refine h.of_le rfl (fun _ hw => hw) (live_setWorker id) (fun _ _ hroute => hroute)
    fun key v _ howed => owed_setWorker (fun hheld => ?_) (fun m hm hkey => ?_)
      (fun hup => List.mem_append_left _ hup) v howed
  · by_cases hgone : edge.peers key = none
    · exact Or.inr (hux key (htells key (Option.isSome_iff_ne_none.mp hheld) hgone))
    · exact Or.inl (Option.isSome_iff_ne_none.mpr hgone)
  · rcases hdown m hm with hm | hdropped
    · exact Or.inl hm
    · rw [hkey] at hdropped
      by_cases hgone : edge.peers key = none
      · exact Or.inr (Or.inr (hux key (hdropped hgone)))
      · exact Or.inr (Or.inl (Option.isSome_iff_ne_none.mpr hgone))

theorem forget_cases (s : UdpRouter) (key : Key) :
    s.routes key = none ∧ s.forget key = s ∨ ∃ w, s.routes key = some w ∧
      (w ∈ s.roster ∧ s.forget key = (s.setRoute key none).setWorker w
          (fun worker => { worker with load := worker.load - 1 }) ∨
        w ∉ s.roster ∧ s.forget key = s.setRoute key none) := by
  unfold forget
  cases hroute : s.routes key with
  | none => exact Or.inl ⟨rfl, rfl⟩
  | some w =>
    refine Or.inr ⟨w, rfl, ?_⟩
    by_cases hmem : w ∈ s.roster
    · exact Or.inl ⟨hmem, if_pos hmem⟩
    · exact Or.inr ⟨hmem, if_neg hmem⟩

/-- When the `ux` of a key has been handled, the key has no route. -/
theorem message_answered {s : UdpRouter} (h : s.Answered) {w : WorkerId} {m : Relayed}
    {up : List Relayed} (hup : (s.workers w).up = m :: up) :
    (∀ key, m = .ux key → s.routes key = none) →
      (s.setWorker w fun worker => { worker with up := up }).Answered := by
  intro hux
  refine h.of_le rfl (fun _ hw => hw) (live_setWorker id) (fun _ _ hroute => hroute)
    fun k v hroute howed => owed_setWorker Or.inl (fun _ hm _ => Or.inl hm) (fun hmem => ?_) v howed
  rw [hup] at hmem
  rcases List.mem_cons.mp hmem with hm | hmem
  · exact absurd ((hux k hm.symm).symm.trans hroute) (Option.some_ne_none v).symm
  · exact hmem

theorem step_answered (s : UdpRouter) (a : Action.Router) (s' : UdpRouter) (h : s.Answered)
    (hstep : s.step valid a = some s') : s'.Answered := by
  cases a with
  | inbound key text => exact Option.some.inj hstep ▸ inbound_answered h key text
  | receive w privateHash request now =>
    simp only [step] at hstep
    cases hdown : (s.workers w).down with
    | nil =>
      rw [hdown] at hstep
      cases hstep
    | cons m down =>
      obtain ⟨key, text⟩ := m
      rw [hdown] at hstep
      dsimp only at hstep
      split_ifs at hstep
      obtain ⟨edge, hedge, rfl⟩ := Option.map_eq_some_iff.mp hstep
      rw [setWorker_self] at hedge
      have hrelay : (s.setWorker w fun worker => { worker with down := down }).relay w edge =
          s.setWorker w fun worker => { worker with
            down := down, edge := edge
            up := worker.up ++ edge.out.filterMap EdgeOutput.relayed } := by
        simp [relay, setWorker]
      obtain ⟨os, hcounts, -, hdropped⟩ := UdpEdge.receive_reported valid
        { (s.workers w).edge with out := [] } key text privateHash request now
      rw [Option.some.inj hedge] at hcounts hdropped
      have hout : edge.out = os := hcounts.out.trans (List.nil_append os)
      rw [hrelay]
      refine relay_answered h (UdpEdge.step_reported hedge).2 fun m hm => ?_
      rw [hdown] at hm
      rcases List.mem_cons.mp hm with rfl | hm
      · exact Or.inr (hout ▸ hdropped)
      · exact Or.inl hm
  | edge w a =>
    have hrelay : ∃ edge, (s.workers w).edge.step valid a = some edge ∧ s.relay w edge = s' := by
      cases a with
      | receive key text privateHash request now =>
        exact absurd hstep.symm (Option.some_ne_none s')
      | _ =>
        simp only [step] at hstep
        split_ifs at hstep
        exact Option.map_eq_some_iff.mp hstep
    obtain ⟨edge, hedge, rfl⟩ := hrelay
    exact relay_answered h (UdpEdge.step_reported hedge).2 fun _ hm => Or.inl hm
  | message w =>
    simp only [step] at hstep
    cases hup : (s.workers w).up with
    | nil =>
      rw [hup] at hstep
      cases hstep
    | cons m up =>
      rw [hup] at hstep
      cases m with
      | u key text =>
        exact Option.some.inj hstep ▸ message_answered h hup (by simp)
      | ux key =>
        obtain rfl := Option.some.inj hstep
        have hforgotten := message_answered (unroute_answered h key) (w := w) hup fun k hk => by
          rw [← Relayed.ux.inj hk]
          exact setRoute_self s key none
        rcases forget_cases (s.setWorker w fun worker => { worker with up := up }) key with
          ⟨hnone, heq⟩ | ⟨v, -, ⟨-, heq⟩ | ⟨-, heq⟩⟩
        · have hsame : s.setRoute key none = s := by
            unfold setRoute
            rw [← show s.routes key = none from hnone, Function.update_eq_self]
          rw [heq]
          rwa [hsame] at hforgotten
        · exact heq ▸ load_answered hforgotten v _
        · exact heq ▸ hforgotten
  | load w n => exact Option.some.inj hstep ▸ load_answered h w n
  | lose w => exact Option.some.inj hstep ▸ lose_answered h w
  | exit w =>
    simp only [step] at hstep
    split_ifs at hstep
    obtain rfl := Option.some.inj hstep
    have hlost := lose_answered h w
    refine hlost.of_le rfl (fun _ hv => List.mem_of_mem_erase hv) (fun v hv => ?_)
      (fun k v hk => ?_) fun _ _ _ howed => howed
    · obtain ⟨hmem, hrun⟩ := of_decide_eq_true hv
      exact decide_eq_true ⟨List.mem_of_mem_erase hmem, hrun⟩
    · change (if s.routes k = some w then none else s.routes k) = some v at hk
      split_ifs at hk
      exact hk
  | spawn =>
    obtain rfl := Option.some.inj hstep
    refine ⟨fun w hw => ?_, fun k w hk => (h.routes k w hk).trans (Nat.lt_succ_self _),
      fun k w hw hk => ?_⟩
    · rcases List.mem_append.mp hw with hw | hw
      · exact (h.roster w hw).trans (Nat.lt_succ_self _)
      · exact List.mem_singleton.mp hw ▸ Nat.lt_succ_self _
    · have hne : w ≠ s.spawned := (h.routes k w hk).ne
      have hsame : update s.workers s.spawned {} w = s.workers w := Function.update_of_ne hne _ _
      have hlive : s.live w = true := by
        obtain ⟨hmem, hrun⟩ := of_decide_eq_true hw
        refine decide_eq_true ⟨?_, hsame ▸ hrun⟩
        exact (List.mem_append.mp hmem).resolve_right fun hnew => hne (List.mem_singleton.mp hnew)
      have howed := h.owed k w hlive hk
      unfold Owed holds at howed ⊢
      dsimp only
      rwa [hsame]

end UdpRouter

end NMiner
