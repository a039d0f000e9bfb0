import NMiner.Lib.Transition
import NMiner.Spec.Handover

/-! Every socket that a fleet accepts is with a child, waits or has been destroyed, as long as no
child is dead at its fork while sockets wait: `spawn` takes them out of the queue whether it can
hand them on or not. -/

namespace NMiner

open Transition

namespace Handover

/-- Where an accepted socket is. -/
inductive Place
  | handed
  | pending
  | destroyed

namespace Fleet

variable {f f' : Fleet}

def At (f : Fleet) (socket : SocketId) : Place → Prop
  | .handed => ∃ h ∈ f.handed, h.socket = socket ∧ h.alive = true
  | .pending => socket ∈ f.pending
  | .destroyed => socket ∈ f.destroyed

/-- Each accepted socket that has not closed is in one place, and few enough wait. -/
structure Accounted (f : Fleet) : Prop where
  place : ∀ socket < f.arrived, socket ∉ f.closed → ∃! place, f.At socket place
  bound : f.pending.length ≤ NMiner.Fleet.PENDING_LIMIT

/-- The condition on a step: a child that is spawned while sockets wait is alive. -/
def keeps (f : Fleet) : Action → Bool
  | .respawn _ alive => f.stopping || alive || f.pending.isEmpty
  | _ => true

/-- The sockets of all places. -/
def whereabouts (f : Fleet) : List SocketId :=
  f.handed.map Handing.socket ++ f.pending ++ f.destroyed

theorem mem_whereabouts {socket : SocketId} : socket ∈ f.whereabouts ↔
    (socket ∈ f.handed.map Handing.socket ∨ socket ∈ f.pending) ∨ socket ∈ f.destroyed := by
  rw [whereabouts, List.mem_append, List.mem_append]

/-- What holds in any run: no socket is in two places, and what waits is open. -/
structure Sound (f : Fleet) : Prop where
  nodup : f.whereabouts.Nodup
  known : ∀ socket ∈ f.whereabouts, socket < f.arrived
  alive : ∀ h ∈ f.handed, h.alive = true
  open_ : ∀ socket ∈ f.pending, socket ∉ f.closed
  closed : ∀ socket ∈ f.closed, socket < f.arrived
  bound : f.pending.length ≤ NMiner.Fleet.PENDING_LIMIT

theorem Sound.mem_handed (h : f.Sound) {socket : SocketId} :
    f.At socket .handed ↔ socket ∈ f.handed.map Handing.socket := by
  rw [List.mem_map]
  constructor
  · rintro ⟨handing, hmem, hsocket, -⟩
    exact ⟨handing, hmem, hsocket⟩
  · rintro ⟨handing, hmem, hsocket⟩
    exact ⟨handing, hmem, hsocket, h.alive handing hmem⟩

/-- No socket is in two places. -/
theorem Sound.place_unique (h : f.Sound) {socket : SocketId} {p q : Place} (hp : f.At socket p)
    (hq : f.At socket q) : p = q := by
  obtain ⟨hfront, -, hback⟩ := List.nodup_append.mp h.nodup
  obtain ⟨-, -, hmiddle⟩ := List.nodup_append.mp hfront
  have hhanded : f.At socket .handed → socket ∉ f.pending ∧ socket ∉ f.destroyed := fun hmem =>
    ⟨fun hpending => hmiddle _ (h.mem_handed.mp hmem) _ hpending rfl,
      fun hdestroyed => hback _ (List.mem_append_left _ (h.mem_handed.mp hmem)) _ hdestroyed rfl⟩
  have hpending : socket ∈ f.pending → socket ∉ f.destroyed := fun hmem hdestroyed =>
    hback _ (List.mem_append_right _ hmem) _ hdestroyed rfl
  cases p <;> cases q
  case handed.handed | pending.pending | destroyed.destroyed => rfl
  case handed.pending => exact absurd hq (hhanded hp).1
  case handed.destroyed => exact absurd hq (hhanded hp).2
  case pending.handed => exact absurd hp (hhanded hq).1
  case pending.destroyed => exact absurd hq (hpending hp)
  case destroyed.handed => exact absurd hp (hhanded hq).2
  case destroyed.pending => exact absurd hp (hpending hq)

theorem Sound.accounted_iff (h : f.Sound) : f.Accounted ↔
    ∀ socket < f.arrived, socket ∉ f.closed → socket ∈ f.whereabouts := by
  constructor
  · intro hf socket hlt hclosed
    obtain ⟨place, hplace, -⟩ := hf.place socket hlt hclosed
    rw [mem_whereabouts]
    cases place with
    | handed => exact Or.inl (Or.inl (h.mem_handed.mp hplace))
    | pending => exact Or.inl (Or.inr hplace)
    | destroyed => exact Or.inr hplace
  · refine fun hall => ⟨fun socket hlt hclosed => ?_, h.bound⟩
    rcases mem_whereabouts.mp (hall socket hlt hclosed) with (hhanded | hpending) | hdestroyed
    · exact ⟨.handed, h.mem_handed.mpr hhanded,
        fun q hq => h.place_unique hq (h.mem_handed.mpr hhanded)⟩
    · exact ⟨.pending, hpending, fun q hq => h.place_unique (p := q) (q := .pending) hq hpending⟩
    · exact ⟨.destroyed, hdestroyed,
        fun q hq => h.place_unique (p := q) (q := .destroyed) hq hdestroyed⟩

/-! ### Steps that lose no socket -/

/-- Sockets change their places, and none is accepted or closes. -/
structure Moves (f f' : Fleet) : Prop where
  arrived : f'.arrived = f.arrived
  closed : f'.closed = f.closed
  pending : f'.pending.Sublist f.pending
  alive : (∀ h ∈ f.handed, h.alive = true) → ∀ h ∈ f'.handed, h.alive = true
  whereabouts : f'.whereabouts.Perm f.whereabouts

theorem Moves.sound (h : Moves f f') (hf : f.Sound) : f'.Sound := by
  refine ⟨h.whereabouts.nodup_iff.mpr hf.nodup, fun socket hmem => ?_, h.alive hf.alive,
    fun socket hmem => ?_, fun socket hmem => ?_, h.pending.length_le.trans hf.bound⟩
  · rw [h.arrived]
    exact hf.known socket (h.whereabouts.mem_iff.mp hmem)
  · rw [h.closed]
    exact hf.open_ socket (h.pending.subset hmem)
  · rw [h.arrived]
    exact hf.closed socket (h.closed ▸ hmem)

theorem Moves.accounted (h : Moves f f') (hf : f.Sound) (hp : f.Accounted) : f'.Accounted := by
  rw [(h.sound hf).accounted_iff, h.arrived, h.closed]
  exact fun socket hlt hclosed =>
    h.whereabouts.mem_iff.mpr (hf.accounted_iff.mp hp socket hlt hclosed)

theorem setChild_moves (f : Fleet) (child : ℕ) (g : FleetChild → FleetChild) :
    Moves f (f.setChild child g) := ⟨rfl, rfl, .refl _, id, .refl _⟩

theorem exit_moves (f : Fleet) (child : FleetChild) : Moves f (f.exit child) := by
  unfold exit
  dsimp only
  split_ifs <;> exact ⟨rfl, rfl, .refl _, id, .refl _⟩

theorem stop_moves (f : Fleet) : Moves f f.stop := by
  refine ⟨rfl, rfl, List.nil_sublist _, id, ?_⟩
  change (f.handed.map Handing.socket ++ [] ++ (f.destroyed ++ f.pending)).Perm
    (f.handed.map Handing.socket ++ f.pending ++ f.destroyed)
  rw [List.append_nil, List.append_assoc]
  exact List.Perm.append_left _ List.perm_append_comm

theorem sent_moves (hf : f.Sound) {handing : Handing} (hmem : handing ∈ f.handed) (failed : Bool) :
    Moves f (f.sent handing failed) := by
  unfold sent
  split_ifs
  · refine ⟨rfl, rfl, .refl _, fun halive h hh => halive h (List.mem_of_mem_filter hh), ?_⟩
    have hsockets : (f.handed.map Handing.socket).Nodup :=
      (List.nodup_append.mp (List.nodup_append.mp hf.nodup).1).1
    have herase : (f.handed.filter (·.socket ≠ handing.socket)).map Handing.socket =
        (f.handed.map Handing.socket).erase handing.socket := by
      rw [hsockets.erase_eq_filter, List.filter_map]
      congr 2
      funext h
      exact decide_not
    have hperm := List.perm_cons_erase (List.mem_map_of_mem (f := Handing.socket) hmem)
    change ((f.handed.filter (·.socket ≠ handing.socket)).map Handing.socket ++ f.pending ++
      (f.destroyed ++ [handing.socket])).Perm _
    rw [herase, ← List.append_assoc]
    refine List.perm_append_comm.trans ?_
    exact (hperm.symm.append_right f.pending).append_right f.destroyed
  · refine ⟨rfl, rfl, .refl _, fun halive h hh => ?_, ?_⟩
    · obtain ⟨h', hh', rfl⟩ := List.mem_map.mp hh
      have := halive h' hh'
      split_ifs <;> exact this
    · have hsockets : (f.handed.map fun h =>
          if h.socket = handing.socket then { h with called := true } else h).map Handing.socket =
          f.handed.map Handing.socket := by
        rw [List.map_map]
        refine List.map_congr_left fun h _ => ?_
        dsimp only [Function.comp]
        split_ifs <;> rfl
      change (List.map Handing.socket _ ++ f.pending ++ f.destroyed).Perm _
      rw [hsockets]
      exact .refl _

/-! ### Handing sockets on -/

theorem hand_eq_none {child : FleetChild} (hdead : child.alive = false) (socket : SocketId) :
    f.hand child socket = none := by
  rw [hand, hdead]
  rfl

theorem hand_eq_some {child : FleetChild} (halive : child.alive = true) (socket : SocketId) :
    ∃ roster, f.hand child socket = some { f with
      roster := roster, handed := f.handed ++ [⟨socket, child.id, true, false⟩] } := by
  refine ⟨(f.setChild child.id fun child => { child with load := child.load + 1 }).roster, ?_⟩
  rw [hand, halive]
  rfl

theorem handAll_dead {child : FleetChild} (hdead : child.alive = false) (sockets : List SocketId) :
    f.handAll child sockets = f := by
  unfold handAll
  induction sockets with
  | nil => rfl
  | cons socket rest ih =>
    rw [List.foldl_cons, hand_eq_none hdead]
    exact ih

theorem handAll_alive {child : FleetChild} (halive : child.alive = true)
    (sockets : List SocketId) (f : Fleet) :
    ∃ roster, f.handAll child sockets = { f with
      roster := roster
      handed := f.handed ++ sockets.map fun socket => ⟨socket, child.id, true, false⟩ } := by
  unfold handAll
  induction sockets generalizing f with
  | nil => exact ⟨f.roster, by rw [List.map_nil, List.append_nil]; rfl⟩
  | cons socket rest ih =>
    obtain ⟨roster, hhand⟩ := hand_eq_some (f := f) halive socket
    obtain ⟨roster', hrest⟩ := ih { f with
      roster := roster, handed := f.handed ++ [⟨socket, child.id, true, false⟩] }
    refine ⟨roster', ?_⟩
    rw [List.foldl_cons, hhand, Option.getD_some, hrest, List.map_cons, List.append_assoc]
    rfl

/-- A child that is alive takes all that waits. -/
theorem spawn_alive (f : Fleet) : Moves f (f.spawn true) := by
  obtain ⟨roster, hspawn⟩ := @handAll_alive ⟨f.sequence + 1, true, 0, f.now⟩ rfl f.pending
    { f with
      sequence := f.sequence + 1
      roster := f.roster ++ [⟨f.sequence + 1, true, 0, f.now⟩]
      pending := [] }
  rw [show f.spawn true = _ from hspawn]
  refine ⟨rfl, rfl, List.nil_sublist _, fun halive h hh => ?_, ?_⟩
  · rcases List.mem_append.mp hh with hh | hh
    · exact halive h hh
    · obtain ⟨socket, -, rfl⟩ := List.mem_map.mp hh
      rfl
  · rw [whereabouts, whereabouts, List.map_append, List.map_map, List.append_nil]
    rw [show (Handing.socket ∘ fun socket => (⟨socket, f.sequence + 1, true, false⟩ : Handing)) = id
      from rfl, List.map_id]

/-- A dead one takes none, and nothing waits any more. -/
theorem spawn_dead (f : Fleet) : f.spawn false = { f with
    sequence := f.sequence + 1
    roster := f.roster ++ [⟨f.sequence + 1, false, 0, f.now⟩]
    pending := [] } :=
  handAll_dead rfl f.pending

theorem spawn_dead_sound (hf : f.Sound) : (f.spawn false).Sound := by
  have hsublist : (f.handed.map Handing.socket ++ [] ++ f.destroyed).Sublist f.whereabouts :=
    (List.nil_sublist f.pending).append_left _ |>.append_right _
  rw [spawn_dead]
  exact ⟨hf.nodup.sublist hsublist, fun socket hmem => hf.known socket (hsublist.subset hmem),
    hf.alive, fun _ hmem => (by cases hmem), hf.closed, Nat.zero_le _⟩

/-- The sockets that waited are nowhere. -/
theorem spawn_dead_accounted_iff (hf : f.Sound) (hp : f.Accounted) :
    (f.spawn false).Accounted ↔ f.pending = [] := by
  rw [(spawn_dead_sound hf).accounted_iff, spawn_dead]
  constructor
  · intro hall
    refine List.eq_nil_iff_forall_not_mem.mpr fun socket hmem => ?_
    have hin : socket ∈ f.whereabouts := mem_whereabouts.mpr (Or.inl (Or.inr hmem))
    have hplace := hall socket (hf.known socket hin) (hf.open_ socket hmem)
    have hpending : f.At socket .pending := hmem
    rcases mem_whereabouts.mp hplace with (hhanded | hnil) | hdestroyed
    · cases hf.place_unique (hf.mem_handed.mpr hhanded) hpending
    · cases hnil
    · cases hf.place_unique (p := .destroyed) hdestroyed hpending
  · intro hnil socket hlt hclosed
    have hin := hf.accounted_iff.mp hp socket hlt hclosed
    rw [whereabouts, hnil] at hin
    exact hin

/-! ### A socket that is accepted or closes -/

/-- The new socket gets a place. -/
structure Takes (f f' : Fleet) : Prop where
  arrived : f'.arrived = f.arrived + 1
  closed : f'.closed = f.closed
  pending : f'.pending = f.pending ∨
    f.pending.length < NMiner.Fleet.PENDING_LIMIT ∧ f'.pending = f.pending ++ [f.arrived]
  alive : (∀ h ∈ f.handed, h.alive = true) → ∀ h ∈ f'.handed, h.alive = true
  whereabouts : f'.whereabouts.Perm (f.arrived :: f.whereabouts)

theorem wait_takes (f : Fleet) : Takes f ({ f with arrived := f.arrived + 1 }.wait f.arrived) := by
  unfold wait
  split_ifs with hfull
  · refine ⟨rfl, rfl, Or.inl rfl, id, ?_⟩
    change (f.handed.map Handing.socket ++ f.pending ++ (f.destroyed ++ [f.arrived])).Perm _
    rw [← List.append_assoc]
    exact List.perm_append_comm
  · refine ⟨rfl, rfl, Or.inr ⟨not_le.mp hfull, rfl⟩, id, ?_⟩
    change (f.handed.map Handing.socket ++ (f.pending ++ [f.arrived]) ++ f.destroyed).Perm _
    rw [← List.append_assoc]
    exact (List.perm_append_comm.append_right f.destroyed)

theorem dispatch_takes (f : Fleet) :
    Takes f ({ f with arrived := f.arrived + 1 }.dispatch f.arrived) := by
  unfold dispatch
  split
  next child _ =>
    cases halive : child.alive with
    | false =>
      rw [hand_eq_none halive]
      exact wait_takes f
    | true =>
      obtain ⟨roster, hhand⟩ :=
        hand_eq_some (f := { f with arrived := f.arrived + 1 }) halive f.arrived
      rw [hhand, Option.getD_some]
      refine ⟨rfl, rfl, Or.inl rfl, fun hall h hh => ?_, ?_⟩
      · rcases List.mem_append.mp hh with hh | hh
        · exact hall h hh
        · exact List.mem_singleton.mp hh ▸ rfl
      · rw [whereabouts, List.map_append, List.map_singleton]
        exact (List.perm_append_comm.append_right f.pending).append_right f.destroyed
  next => exact wait_takes f

theorem Takes.sound (h : Takes f f') (hf : f.Sound) : f'.Sound := by
  have hnew : f.arrived ∉ f.whereabouts := fun hmem => lt_irrefl _ (hf.known _ hmem)
  refine ⟨h.whereabouts.nodup_iff.mpr (List.nodup_cons.mpr ⟨hnew, hf.nodup⟩), fun socket hmem => ?_,
    h.alive hf.alive, fun socket hmem => ?_, fun socket hmem => ?_, ?_⟩
  · rw [h.arrived]
    rcases List.mem_cons.mp (h.whereabouts.mem_iff.mp hmem) with rfl | hold
    · exact Nat.lt_succ_self _
    · exact Nat.lt_succ_of_lt (hf.known socket hold)
  · rw [h.closed]
    rcases h.pending with heq | ⟨-, heq⟩
    · exact hf.open_ socket (heq ▸ hmem)
    · rw [heq] at hmem
      rcases List.mem_append.mp hmem with hold | hself
      · exact hf.open_ socket hold
      · rw [List.mem_singleton.mp hself]
        exact fun hclosed => lt_irrefl _ (hf.closed _ hclosed)
  · rw [h.arrived]
    exact Nat.lt_succ_of_lt (hf.closed socket (h.closed ▸ hmem))
  · rcases h.pending with heq | ⟨hlt, heq⟩
    · rw [heq]
      exact hf.bound
    · rw [heq, List.length_append, List.length_singleton]
      exact hlt

theorem Takes.accounted (h : Takes f f') (hf : f.Sound) (hp : f.Accounted) : f'.Accounted := by
  rw [(h.sound hf).accounted_iff, h.arrived, h.closed]
  intro socket hlt hclosed
  rw [h.whereabouts.mem_iff, List.mem_cons]
  rcases Nat.lt_succ_iff_lt_or_eq.mp hlt with hlt | rfl
  · exact Or.inr (hf.accounted_iff.mp hp socket hlt hclosed)
  · exact Or.inl rfl

theorem close_sound (hf : f.Sound) {socket : SocketId} (hlt : socket < f.arrived) :
    ({ f with closed := f.closed ++ [socket], pending := f.pending.erase socket } :
      Fleet).Sound := by
  have hsublist : (f.handed.map Handing.socket ++ f.pending.erase socket ++ f.destroyed).Sublist
      f.whereabouts := List.erase_sublist.append_left _ |>.append_right _
  have hpending : f.pending.Nodup :=
    (List.nodup_append.mp (List.nodup_append.mp hf.nodup).1).2.1
  refine ⟨hf.nodup.sublist hsublist, fun s hmem => hf.known s (hsublist.subset hmem), hf.alive,
    fun s hmem => ?_, fun s hmem => ?_, List.erase_sublist.length_le.trans hf.bound⟩
  · have hs := hpending.mem_erase_iff.mp hmem
    rw [List.mem_append, List.mem_singleton]
    exact not_or.mpr ⟨hf.open_ s hs.2, hs.1⟩
  · rcases List.mem_append.mp hmem with hold | hself
    · exact hf.closed s hold
    · exact List.mem_singleton.mp hself ▸ hlt

theorem close_accounted (hf : f.Sound) (hp : f.Accounted) {socket : SocketId}
    (hlt : socket < f.arrived) :
    ({ f with closed := f.closed ++ [socket], pending := f.pending.erase socket } :
      Fleet).Accounted := by
  rw [(close_sound hf hlt).accounted_iff]
  intro s hs hclosed
  rw [List.mem_append, List.mem_singleton, not_or] at hclosed
  rw [mem_whereabouts]
  refine (mem_whereabouts.mp (hf.accounted_iff.mp hp s hs hclosed.1)).imp_left fun hfront => ?_
  exact hfront.imp_right (List.mem_erase_of_ne hclosed.2).mpr

/-! ### Steps and runs -/

/-- A step keeps what is sound, and loses no socket exactly if it meets the condition. -/
theorem step_kept (a : Action) (hf : f.Sound) (hp : f.Accounted) (h : f.step a = some f') :
    f'.Sound ∧ (f'.Accounted ↔ f.keeps a = true) := by
  have hmoves : ∀ {g : Fleet} {b : Action}, Moves f g → f.keeps b = true →
      g.Sound ∧ (g.Accounted ↔ f.keeps b = true) := fun hg hb =>
    ⟨hg.sound hf, iff_of_true (hg.accounted hf hp) hb⟩
  cases a with
  | dispatch =>
    obtain rfl := Option.some.inj h
    have htakes := dispatch_takes f
    exact ⟨htakes.sound hf, iff_of_true (htakes.accounted hf hp) rfl⟩
  | close socket =>
    obtain ⟨⟨hlt, -⟩, h⟩ := Option.ite_none_right_eq_some.mp h
    obtain rfl := Option.some.inj h
    exact ⟨close_sound hf hlt, iff_of_true (close_accounted hf hp hlt) rfl⟩
  | sent socket failed =>
    obtain ⟨handing, hfind, rfl⟩ := Option.map_eq_some_iff.mp h
    exact hmoves (sent_moves hf (List.mem_of_find?_eq_some hfind) failed) rfl
  | die child =>
    obtain rfl := Option.some.inj h
    exact hmoves (setChild_moves f child _) rfl
  | exit child =>
    obtain ⟨c, -, rfl⟩ := Option.map_eq_some_iff.mp h
    exact hmoves (exit_moves f c) rfl
  | respawn i alive =>
    obtain ⟨due, -, h⟩ := Option.bind_eq_some_iff.mp h
    obtain ⟨-, h⟩ := Option.ite_none_left_eq_some.mp h
    obtain rfl := Option.some.inj h
    have htimer : Moves f { f with respawns := f.respawns.eraseIdx i } :=
      ⟨rfl, rfl, .refl _, id, .refl _⟩
    have hsound := htimer.sound hf
    have haccounted := htimer.accounted hf hp
    by_cases hstopping : f.stopping = true
    · rw [if_pos hstopping]
      exact ⟨hsound, iff_of_true haccounted (by rw [keeps, hstopping]; rfl)⟩
    · have hkeeps : f.keeps (.respawn i alive) = (alive || f.pending.isEmpty) := by
        rw [keeps, eq_false_of_ne_true hstopping, Bool.false_or]
      rw [if_neg hstopping, hkeeps]
      cases alive with
      | true =>
        have hspawn := spawn_alive { f with respawns := f.respawns.eraseIdx i }
        exact ⟨hspawn.sound hsound, iff_of_true (hspawn.accounted hsound haccounted) rfl⟩
      | false =>
        rw [Bool.false_or, List.isEmpty_iff]
        exact ⟨spawn_dead_sound hsound, spawn_dead_accounted_iff hsound haccounted⟩
  | count child joined =>
    obtain rfl := Option.some.inj h
    exact hmoves (setChild_moves f child _) rfl
  | stop =>
    obtain rfl := Option.some.inj h
    exact hmoves (stop_moves f) rfl
  | tick ms =>
    obtain rfl := Option.some.inj h
    exact hmoves ⟨rfl, rfl, .refl _, id, .refl _⟩ rfl

/-- Nothing has been accepted when the constructor spawns its children. -/
theorem start_new (alive : List Bool) : (start alive).Sound ∧ (start alive).arrived = 0 := by
  have hspawn : ∀ (f : Fleet) (b : Bool), f.Sound ∧ f.arrived = 0 →
      (f.spawn b).Sound ∧ (f.spawn b).arrived = 0 := by
    rintro f b ⟨hf, hzero⟩
    cases b with
    | true => exact ⟨(spawn_alive f).sound hf, (spawn_alive f).arrived.trans hzero⟩
    | false => exact ⟨spawn_dead_sound hf, (congrArg Fleet.arrived (spawn_dead f)).trans hzero⟩
  have hnew : Sound {} := ⟨List.nodup_nil, fun _ hmem => (by cases hmem),
    fun _ hmem => (by cases hmem), fun _ hmem => (by cases hmem), fun _ hmem => (by cases hmem),
    Nat.zero_le _⟩
  unfold start
  generalize hg : ({} : Fleet) = g
  have hstart : g.Sound ∧ g.arrived = 0 := hg ▸ ⟨hnew, rfl⟩
  clear hg
  induction alive generalizing g with
  | nil => exact hstart
  | cons b rest ih => exact ih _ (hspawn g b hstart)

/-- In every state of a run each accepted socket that has not closed is with a child that was alive
when it got it, or waits, or has been destroyed, and at most `PENDING_LIMIT` wait, if and only if no
child is spawned dead while sockets wait. -/
theorem sockets_accounted_iff (alive : List Bool) (actions : List Action) (f : Fleet)
    (hrun : exec step (start alive) actions = some f) :
    Meets step (fun f a => f.keeps a = true) (start alive) actions ↔
      ∀ n f', exec step (start alive) (actions.take n) = some f' → f'.Accounted := by
  obtain ⟨hsound, hzero⟩ := start_new alive
  refine meets_iff_forall (I := Sound) (P := Accounted)
    (fun _ a _ hf hp h => (step_kept a hf hp h).2) (fun _ a _ hf hp h _ => (step_kept a hf hp h).1)
    hsound (hsound.accounted_iff.mpr fun socket hlt => ?_) hrun
  rw [hzero] at hlt
  exact absurd hlt (Nat.not_lt_zero socket)

/-- The only child dies, two sockets wait, one closes, and the next child takes the other but cannot
send it on. -/
theorem sockets_accounted_iff_respawned : ∃ f, exec step (start [true])
    [.die 1, .dispatch, .dispatch, .close 0, .exit 1, .tick 500, .respawn 0 true, .sent 1 true] =
      some f ∧ f.Accounted ∧ f.destroyed = [1] := by
  have hrun : (exec step (start [true]) [.die 1, .dispatch, .dispatch, .close 0, .exit 1, .tick 500,
      .respawn 0 true, .sent 1 true]).any (fun f => f.destroyed = [1]) = true := by decide +kernel
  obtain ⟨f, hf, hdestroyed⟩ := (Option.any_eq_true _ _).mp hrun
  have hall := (sockets_accounted_iff [true] _ f hf).mp (by decide +kernel)
  exact ⟨f, hf, hall 8 f hf, of_decide_eq_true hdestroyed⟩

/-- The next child is dead from its fork on: the socket that waited is neither with it nor in the
queue nor destroyed. -/
theorem dropped_at_spawn : ¬ ∀ f, exec step (start [true])
    [.die 1, .dispatch, .exit 1, .tick 500, .respawn 0 false] = some f → f.Accounted := by
  intro h
  have hrun : (exec step (start [true]) [.die 1, .dispatch, .exit 1, .tick 500,
      .respawn 0 false]).any (fun f => f.arrived = 1 ∧ f.closed = [] ∧ f.handed = [] ∧
        f.pending = [] ∧ f.destroyed = []) = true := by decide +kernel
  obtain ⟨f, hf, hstate⟩ := (Option.any_eq_true _ _).mp hrun
  obtain ⟨harrived, hclosed, hhanded, hpending, hdestroyed⟩ := of_decide_eq_true hstate
  obtain ⟨place, hplace, -⟩ := (h f hf).place 0 (by rw [harrived]; exact Nat.one_pos)
    (by rw [hclosed]; exact List.not_mem_nil)
  cases place with
  | handed =>
    obtain ⟨handing, hmem, -⟩ := hplace
    rw [hhanded] at hmem
    cases hmem
  | pending =>
    have hmem : 0 ∈ f.pending := hplace
    rw [hpending] at hmem
    cases hmem
  | destroyed =>
    have hmem : 0 ∈ f.destroyed := hplace
    rw [hdestroyed] at hmem
    cases hmem

end Fleet

end Handover

end NMiner
