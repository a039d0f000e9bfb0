import NMiner.Proofs.Herd

/-! A pass of `consolidate`. It decides by what its links can carry together, and `pick` then places
the miners of the victim one by one. The pass has done its work when the victim is empty, no link
has been opened and one link fewer houses miners; this is so exactly if each miner of the victim
finds a place among the peers. -/

namespace NMiner

open Transition

namespace Upstream

variable {u v w : Upstream} {victim : LinkId}

/-! ### What a pass starts -/

theorem leastLoaded_mem {ls : List LinkId} {l : LinkId}
    (h : u.leastLoaded ls = some l) : l ∈ ls := by
  cases ls with
  | nil => cases h
  | cons m ls =>
    have key : ∀ (ls : List LinkId) (m : LinkId), ls.foldl
        (fun m l => if (u.link l).load < (u.link m).load then l else m) m ∈ m :: ls := by
      intro ls
      induction ls with
      | nil => exact fun m => List.mem_singleton_self m
      | cons l ls ih =>
        intro m
        rw [List.foldl_cons]
        split_ifs
        · exact List.mem_cons_of_mem _ (ih l)
        · rcases List.mem_cons.mp (ih m) with h | h
          · exact List.mem_cons.mpr (Or.inl h)
          · exact List.mem_cons_of_mem _ (List.mem_cons_of_mem _ h)
    exact Option.some.inj h ▸ key ls m

/-- The victim is a link with miners. -/
theorem drains_mem (h : u.drains = some victim) :
    victim ∈ u.links ∧ (u.link victim).clients ≠ [] := by
  unfold drains at h
  split_ifs at h
  dsimp only at h
  split_ifs at h
  split at h
  · cases h
  · rename_i m hleast
    split_ifs at h
    obtain ⟨hl, hstaffed⟩ := List.mem_filter.mp (leastLoaded_mem hleast)
    simp only [Bool.and_eq_true, decide_eq_true_eq] at hstaffed
    exact Option.some.inj h ▸ ⟨hl, hstaffed.2⟩

/-- Where a miner of the victim can go without a new link: where it fits best, or to the roomiest
link when the list is full. -/
def place (u : Upstream) (victim : LinkId) (c : ClientId) : Option LinkId :=
  match u.best (u.rate c) (u.usable (some victim)) with
  | some l => some l
  | none => if u.maxLinks ≤ u.links.length then u.roomiest (u.usable (some victim)) else none

theorem place_mem {c : ClientId} {l : LinkId} (h : u.place victim c = some l) :
    l ∈ u.links ∧ l ≠ victim := by
  have husable : l ∈ u.usable (some victim) := by
    unfold place at h
    cases hbest : u.best (u.rate c) (u.usable (some victim)) with
    | some m =>
      rw [hbest] at h
      exact Option.some.inj h ▸ best_mem hbest
    | none =>
      rw [hbest] at h
      dsimp only at h
      split_ifs at h
      exact roomiest_mem h
  obtain ⟨hl, hfit⟩ := List.mem_filter.mp husable
  simp only [Bool.and_eq_true, decide_eq_true_eq] at hfit
  exact ⟨hl, fun heq => hfit.1 (by rw [heq])⟩

/-- The call that moves a miner off the victim when no link is opened for it. -/
def errand (u : Upstream) (victim : LinkId) (c : ClientId) : Task :=
  { client := c, goal := .migrate victim, origin := .sweep
    phase := match u.place victim c with
      | some l => .picked l
      | none => .failed ("Upstream link limit (" ++ toString u.maxLinks ++ ") reached.") }

/-- A miner that has a place, or for which no link is opened, settles at once. -/
theorem pick_settled (hclosed : u.closed = false)
    (hsettled : ∀ l ∈ u.links, (u.link l).opening.connecting = false) {c : ClientId}
    (h : (u.pick c (some victim)).1.opens = none ∨ u.place victim c ≠ none) :
    (u.pick c (some victim)).1 = (u.errand victim c).phase := by
  have hnone : u.links.find? (fun l => (u.link l).opening.connecting) = none :=
    List.find?_eq_none.mpr fun l hl => by rw [hsettled l hl]; exact Bool.false_ne_true
  unfold pick at h ⊢
  unfold errand
  unfold place at h ⊢
  rw [hclosed, if_neg Bool.false_ne_true, hnone] at h ⊢
  dsimp only at h ⊢
  cases hbest : u.best (u.rate c) (u.usable (some victim)) with
  | some l => rfl
  | none =>
    rw [hbest] at h
    dsimp only at h ⊢
    split_ifs at h ⊢
    · cases u.roomiest (u.usable (some victim)) <;> rfl
    · rcases h with h | h
      · cases h
      · exact absurd rfl h

theorem migrate_settled (hclosed : u.closed = false)
    (hsettled : ∀ l ∈ u.links, (u.link l).opening.connecting = false) (c : ClientId) :
    (u.nextLink < (u.migrate victim c .sweep).nextLink ∧ u.place victim c = none) ∨
      u.migrate victim c .sweep = { u with tasks := u.tasks ++ [u.errand victim c] } := by
  have hmigrate : u.migrate victim c .sweep = { (u.pick c (some victim)).2 with
      tasks := (u.pick c (some victim)).2.tasks ++ [{
        client := c, goal := .migrate victim, origin := .sweep
        phase := (u.pick c (some victim)).1 }] } := rfl
  rcases pick_adds u c (some victim) with ⟨h, hopens⟩ | ⟨h, hopens, -⟩
  · right
    rw [hmigrate, h, pick_settled hclosed hsettled (Or.inl hopens)]
    rfl
  · left
    refine ⟨?_, ?_⟩
    · rw [hmigrate, h]
      exact Nat.lt_succ_self _
    · by_contra hplace
      rw [pick_settled hclosed hsettled (Or.inr hplace)] at hopens
      unfold errand at hopens
      cases hp : u.place victim c <;> rw [hp] at hopens <;> cases hopens

/-- Either some miner has no place and a link is opened for it, or all of them settle at once. -/
theorem drain_settled (hclosed : u.closed = false)
    (hsettled : ∀ l ∈ u.links, (u.link l).opening.connecting = false) (cs : List ClientId)
    (ts : List Task) :
    (u.nextLink < (drain { u with tasks := ts } victim cs).nextLink ∧
        ∃ c ∈ cs, u.place victim c = none) ∨
      drain { u with tasks := ts } victim cs =
        { u with tasks := ts ++ cs.map (u.errand victim) } := by
  induction cs generalizing ts with
  | nil =>
    right
    rw [List.map_nil, List.append_nil]
    rfl
  | cons c cs ih =>
    have hcons : drain { u with tasks := ts } victim (c :: cs) =
        drain (migrate { u with tasks := ts } victim c .sweep) victim cs := List.foldl_cons ..
    have herrand : errand { u with tasks := ts } victim c = u.errand victim c := rfl
    rw [hcons]
    rcases migrate_settled (u := { u with tasks := ts }) hclosed hsettled c with ⟨hnext, hp⟩ | hstep
    · left
      have hlater := (drain_walks (migrate { u with tasks := ts } victim c .sweep) victim cs).thins
      exact ⟨hnext.trans_le hlater.next, c, List.mem_cons_self, hp⟩
    · have hrest := ih (ts ++ [u.errand victim c])
      rw [List.append_assoc, List.singleton_append] at hrest
      rw [hstep, herrand, List.map_cons]
      rcases hrest with ⟨hnext, x, hx, hp⟩ | hrest
      · exact Or.inl ⟨hnext, x, List.mem_cons_of_mem c hx, hp⟩
      · exact Or.inr hrest

/-! ### What a call does -/

/-- A link that gives a miner a range is not dry. -/
theorem not_dry_of_grant {l : LinkId} {c : ClientId} {g : Grant} (h : u.grant l c = (some g, v)) :
    (u.link l).dry = false := by
  unfold grant at h
  by_cases hleft : spaceLeft (u.link l).space ≤ 0
  · rw [if_pos hleft] at h
    cases h
  · rw [if_neg hleft] at h
    dsimp only at h
    generalize chunkSize (u.rate c) _ _ = size at h
    have hsome : (take (u.link l).space size).1 ≠ none := by
      intro hnone
      rw [hnone] at h
      cases h
    rw [Ne, take_eq_none_iff, ← take_eq_none_iff _ 1] at hsome
    simp [Link.dry, hleft, hsome]

/-- Nothing changes in the lists of links, of attached miners and of calls, and no socket opens or
closes. -/
structure Abides (u v : Upstream) : Prop where
  nextLink : v.nextLink = u.nextLink
  links : v.links = u.links
  live : v.live = u.live
  tasks : v.tasks = u.tasks
  socket : ∀ l, (v.link l).socket = (u.link l).socket

theorem Abides.refl (u : Upstream) : Abides u u := ⟨rfl, rfl, rfl, rfl, fun _ => rfl⟩

theorem Abides.trans (h : Abides u v) (h' : Abides v w) : Abides u w :=
  ⟨h'.nextLink.trans h.nextLink, h'.links.trans h.links, h'.live.trans h.live,
    h'.tasks.trans h.tasks, fun l => (h'.socket l).trans (h.socket l)⟩

theorem Abides.of_core (hcore : v.core = u.core) (hnext : v.nextLink = u.nextLink) :
    Abides u v := by
  obtain ⟨-, hlinks, hlive, htasks, -, -, hsocket, -⟩ := core_eq hcore
  exact ⟨hnext, hlinks, hlive, htasks, fun l => (congrFun hsocket l)⟩

theorem move_abides (u : Upstream) (l : LinkId) (c : ClientId) :
    Abides u ((u.evict c).house l c) := by
  obtain ⟨hlinks, hlive, htasks⟩ := evict_frame u c
  exact ⟨((evict_rests u c).turns l).nextLink, hlinks, hlive, htasks,
    fun m => congrFun (move_socket u l c) m⟩

theorem grant_abides {l : LinkId} {c : ClientId} {r : Option Grant} (h : u.grant l c = (r, v)) :
    Abides u v := by
  have hcore := core_grant u l c
  rw [h] at hcore
  exact .of_core hcore ((grant_rests h).turns l).nextLink

theorem payload_abides {l : LinkId} {c : ClientId} {g : Grant} {p : Payload}
    (h : u.payload l c g = some (p, v)) : Abides u v :=
  .of_core (core_payload h) ((payload_rests h).turns l).nextLink

theorem emit_abides (u : Upstream) (d : Delivery) : Abides u (u.emit d) :=
  ⟨rfl, rfl, rfl, rfl, fun _ => rfl⟩

theorem housing_move (u : Upstream) (l : LinkId) (c : ClientId) :
    ((u.evict c).house l c).housing = (u.housing.evict c).house l c := by
  rw [housing_house, housing_evict]

/-- A migration moves its miner, which comes back when the link has no nonce for it. -/
theorem finishMigrate_lands {c : ClientId} (hc : c ∈ u.live) (source l : LinkId) :
    Abides u (u.finishMigrate source c (.ok l)).2 ∧
      (u.finishMigrate source c (.ok l)).2.housing =
        if (u.link l).dry = true ∧ (u.link source).socket = true
          then (((u.housing.evict c).house l c).evict c).house source c
          else (u.housing.evict c).house l c := by
  have hmove := move_abides u l c
  have hdry : (((u.evict c).house l c).link l).dry = (u.link l).dry := congrFun (move_dry u l c) l
  unfold finishMigrate
  dsimp only
  rw [if_pos hc]
  rcases hg : ((u.evict c).house l c).grant l c with ⟨_ | g, v⟩
  · have hv : v.housing = (u.housing.evict c).house l c :=
      (grant_housing hg).trans (housing_move u l c)
    have habides := hmove.trans (grant_abides hg)
    rw [dry_of_grant hg] at hdry
    dsimp only
    rw [habides.socket source]
    by_cases hsocket : (u.link source).socket = true
    · rw [if_pos hsocket, if_pos ⟨hdry.symm, hsocket⟩, housing_move, hv]
      exact ⟨habides.trans (move_abides v source c), rfl⟩
    · rw [if_neg hsocket, if_neg fun h => hsocket h.2]
      exact ⟨habides, hv⟩
  · have hv : v.housing = (u.housing.evict c).house l c :=
      (grant_housing hg).trans (housing_move u l c)
    have habides := hmove.trans (grant_abides hg)
    rw [not_dry_of_grant hg] at hdry
    rw [← hdry, if_neg fun h => Bool.false_ne_true h.1]
    dsimp only
    cases hp : v.payload l c g with
    | none => exact ⟨habides, hv⟩
    | some pw =>
      refine ⟨(habides.trans (payload_abides (p := pw.1) hp)).trans (emit_abides _ _), ?_⟩
      exact (core_eq (core_payload (p := pw.1) hp)).1.trans hv

/-- The call that moves a miner off the victim goes on. -/
theorem resume_errand {i : ℕ} {c : ClientId} (ht : w.tasks[i]? = some (u.errand victim c))
    (h : w.resume i = some v) :
    Abides { w with tasks := w.tasks.eraseIdx i } v ∧
      v.housing = match u.place victim c with
        | none => w.housing
        | some l => if c ∈ w.live then
            if (w.link l).dry = true ∧ (w.link victim).socket = true
              then (((w.housing.evict c).house l c).evict c).house victim c
              else (w.housing.evict c).house l c
          else w.housing := by
  have hdone : ∀ (x : Upstream) (r : Except String Bool), x.migrateDone victim c .sweep r = x :=
    fun x r => by cases r <;> rfl
  unfold resume at h
  rw [ht, Option.bind_some] at h
  unfold errand at h
  cases hplace : u.place victim c with
  | none =>
    rw [hplace, Option.some.injEq] at h
    subst h
    exact ⟨.refl _, rfl⟩
  | some l =>
    rw [hplace, Option.some.injEq] at h
    have hv : v = (finishMigrate { w with tasks := w.tasks.eraseIdx i } victim c (.ok l)).2 := by
      rw [← h]
      exact hdone _ (finishMigrate { w with tasks := w.tasks.eraseIdx i } victim c (.ok l)).1
    dsimp only
    rw [hv]
    split_ifs with hlive hback
    · obtain ⟨habides, hhousing⟩ := finishMigrate_lands
        (u := { w with tasks := w.tasks.eraseIdx i }) hlive victim l
      refine ⟨habides, hhousing.trans (if_pos hback)⟩
    · obtain ⟨habides, hhousing⟩ := finishMigrate_lands
        (u := { w with tasks := w.tasks.eraseIdx i }) hlive victim l
      refine ⟨habides, hhousing.trans (if_neg hback)⟩
    · unfold finishMigrate
      dsimp only
      rw [if_neg hlive]
      exact ⟨.refl _, rfl⟩

/-! ### Settling -/

/-- What holds in every state of every run. -/
structure Tended (u : Upstream) : Prop where
  wired : ∃ N, u.Wired N fun _ => False
  nodup : ∀ l, (u.link l).clients.Nodup

/-- Every link has its socket. -/
def Online (u : Upstream) : Prop := ∀ l ∈ u.links, (u.link l).socket = true

theorem Tended.closed (hu : u.Tended) (hl : victim ∈ u.links) : u.closed = false := by
  obtain ⟨⟨N, hwired⟩, -⟩ := hu
  rw [← Bool.not_eq_true]
  intro hclosed
  rw [(hwired.closed hclosed).1] at hl
  cases hl

/-- A link with a socket is not being connected. -/
theorem Online.settled (hu : u.Tended) (honline : u.Online) {l : LinkId} (hl : l ∈ u.links) :
    (u.link l).opening.connecting = false := by
  obtain ⟨⟨N, hwired⟩, -⟩ := hu
  rw [(hwired.sound l).socket (honline l hl)]
  rfl

theorem consolidate_settled (hu : u.Tended) (honline : u.Online)
    (hdrains : u.drains = some victim) :
    (u.nextLink < u.consolidate.nextLink ∧
        ∃ c ∈ (u.link victim).clients, u.place victim c = none) ∨
      u.consolidate = { u with
        tasks := u.tasks ++ (u.link victim).clients.map (u.errand victim) } := by
  rw [consolidate_eq, hdrains]
  exact drain_settled (hu.closed (drains_mem hdrains).1) (fun _ => honline.settled hu)
    (u.link victim).clients u.tasks

theorem step_tended {a : Action} (hu : u.Tended) (h : u.step a = some v) : v.Tended := by
  obtain ⟨⟨N, hwired⟩, hnodup⟩ := hu
  exact ⟨⟨N, step_wired u a v hwired h⟩, Housing.nodup_changes hnodup (step_rehouses h)⟩

theorem consolidate_tended (hu : u.Tended) : u.consolidate.Tended := by
  obtain ⟨⟨N, hwired⟩, hnodup⟩ := hu
  refine ⟨⟨N, hwired.shifts (consolidate_shifts u)⟩, ?_⟩
  exact Housing.nodup_changes hnodup (consolidate_stays u).grows.rehouses

/-- The events while the migrations of a pass from this state settle: its calls go on, the links it
opens come up, and time passes. -/
def settles (u : Upstream) : Action → Bool
  | .resume i => u.tasks.length ≤ i
  | .dialed l (.ok _) => u.nextLink ≤ l
  | .loggedIn l (.ok _) => u.nextLink ≤ l
  | .tick _ => true
  | _ => false

/-- The link that a migration has settled on has a nonce left when the miner comes. -/
def stocked (u : Upstream) : Action → Bool
  | .resume i => match u.tasks[i]? with
    | some t => match t.phase with
      | .picked l => !(u.link l).dry
      | _ => true
    | none => true
  | _ => true

/-- The pass finds a link for the miner, which is on the books of the victim. -/
structure Placed (u : Upstream) (victim : LinkId) (c : ClientId) : Prop where
  home : u.homes c = some victim
  live : c ∈ u.live
  place : (u.place victim c).isSome = true

/-- A pass has opened no link and is still to move these miners off its victim. -/
structure Draining (u : Upstream) (victim : LinkId) (cs : List ClientId) (w : Upstream) :
    Prop where
  tended : w.Tended
  nextLink : w.nextLink = u.nextLink
  links : w.links = u.links
  live : w.live = u.live
  socket : (w.link victim).socket = true
  tasks : w.tasks = u.tasks ++ cs.map (u.errand victim)
  nodup : cs.Nodup
  subset : cs ⊆ (u.link victim).clients
  held : ∀ c ∈ cs, c ∈ (w.link victim).clients
  homes : ∀ c ∈ cs, w.homes c = u.homes c

/-- The other miners of the victim are where they have been placed. -/
def Moved (u : Upstream) (victim : LinkId) (cs : List ClientId) (w : Upstream) : Prop :=
  ∀ m x, x ∈ (w.link m).clients ↔ if m = victim then x ∈ cs
    else x ∈ (u.link m).clients ∨
      (x ∈ (u.link victim).clients ∧ x ∉ cs ∧ u.place victim x = some m)

/-- One of the other miners is still on the victim. -/
def Remains (u : Upstream) (victim : LinkId) (cs : List ClientId) (w : Upstream) : Prop :=
  ∃ x ∈ (u.link victim).clients, x ∉ cs ∧ x ∈ (w.link victim).clients

theorem moving_others {s : Housing LinkId ClientId ℚ} {l : LinkId} {c x : ClientId} (hx : x ≠ c) :
    (∀ m, x ∈ ((s.evict c).house l c).guests m ↔ x ∈ s.guests m) ∧
      ((s.evict c).house l c).home x = s.home x := by
  refine ⟨fun m => ?_, ?_⟩
  · rw [Housing.mem_house, Housing.mem_evict_of_ne hx]
    exact or_iff_left fun h => hx h.2
  · rw [Housing.home_house, if_neg hx, Housing.home_evict_of_ne hx]

/-- The miner whose call goes on leaves its home for the place it has been given, or it is still on
the victim at the end; nobody else moves. -/
theorem resume_outcome {cs : List ClientId} (hw : Draining u victim cs w) {i : ℕ}
    (hi : u.tasks.length ≤ i) (h : w.resume i = some v) :
    ∃ c, cs[i - u.tasks.length]? = some c ∧
      Abides { w with tasks := w.tasks.eraseIdx i } v ∧
      (∀ x ≠ c, (∀ m, x ∈ (v.link m).clients ↔ x ∈ (w.link m).clients) ∧ v.homes x = w.homes x) ∧
      ((∃ l, u.place victim c = some l ∧ c ∈ u.live ∧ (w.link l).dry = false ∧
          ∀ m, c ∈ (v.link m).clients ↔ c ∈ (w.link m).clients ∧ u.homes c ≠ some m ∨ m = l) ∨
        (c ∈ (v.link victim).clients ∧
          ∀ l, u.place victim c = some l → c ∈ u.live → (w.link l).dry = true)) := by
  obtain ⟨t, ht, -⟩ := Option.bind_eq_some_iff.mp h
  have hget : (u.tasks ++ cs.map (u.errand victim))[i]? = some t := hw.tasks ▸ ht
  rw [List.getElem?_append_right hi, List.getElem?_map] at hget
  obtain ⟨c, hc, rfl⟩ := Option.map_eq_some_iff.mp hget
  have hmem := List.mem_of_getElem? hc
  have hheld := hw.held c hmem
  have hsocket := hw.socket
  obtain ⟨habides, hhousing⟩ := resume_errand ht h
  refine ⟨c, hc, habides, ?_⟩
  have hclients : ∀ m, (v.link m).clients = v.housing.guests m := fun _ => rfl
  have hhomes : ∀ x, v.homes x = v.housing.home x := fun _ => rfl
  simp only [hclients, hhomes, hhousing]
  have hstay : (∀ x ≠ c, (∀ m, x ∈ w.housing.guests m ↔ x ∈ (w.link m).clients) ∧
      w.housing.home x = w.homes x) := fun x _ => ⟨fun _ => Iff.rfl, rfl⟩
  cases hplace : u.place victim c with
  | none => exact ⟨hstay, Or.inr ⟨hheld, fun l hl => by cases hl⟩⟩
  | some l =>
    dsimp only
    rw [hw.live]
    split_ifs with hlive hback
    · refine ⟨fun x hx => ?_, Or.inr ⟨?_, fun m hm _ => Option.some.inj hm ▸ hback.1⟩⟩
      · obtain ⟨hout, hhome⟩ := moving_others (s := w.housing) (l := l) hx
        obtain ⟨hout', hhome'⟩ :=
          moving_others (s := (w.housing.evict c).house l c) (l := victim) hx
        exact ⟨fun m => (hout' m).trans (hout m), hhome'.trans hhome⟩
      · exact (Housing.mem_house _).mpr (Or.inr ⟨rfl, rfl⟩)
    · have hdry : (w.link l).dry = false := by
        rw [← Bool.not_eq_true]
        exact fun hdry => hback ⟨hdry, hsocket⟩
      refine ⟨fun x hx => moving_others hx, Or.inl ⟨l, rfl, hlive, hdry, fun m => ?_⟩⟩
      rw [Housing.mem_house, Housing.mem_evict (hw.tended.nodup m), ← hw.homes c hmem]
      simp [housing]
    · exact ⟨hstay, Or.inr ⟨hheld, fun _ _ hc => absurd hc hlive⟩⟩

/-- The miner's call ends: it has moved to its place, or it is still on the victim. -/
theorem resume_draining {cs : List ClientId} (hw : Draining u victim cs w) {i : ℕ}
    (hi : u.tasks.length ≤ i) (h : w.resume i = some v) :
    ∃ c ∈ cs, Draining u victim (cs.erase c) v ∧
      (Remains u victim cs w → Remains u victim (cs.erase c) v) ∧
      (u.Placed victim c ∧ w.stocked (.resume i) = true → Moved u victim cs w →
        Moved u victim (cs.erase c) v) ∧
      (¬ (u.Placed victim c ∧ w.stocked (.resume i) = true) → Remains u victim (cs.erase c) v) := by
  obtain ⟨c, hc, habides, hothers, hself⟩ := resume_outcome hw hi h
  have hmem := List.mem_of_getElem? hc
  have herase : ∀ x, x ∈ cs.erase c ↔ x ≠ c ∧ x ∈ cs := fun x => hw.nodup.mem_erase_iff
  have htask : w.tasks[i]? = some (u.errand victim c) := by
    rw [hw.tasks, List.getElem?_append_right hi, List.getElem?_map, hc, Option.map_some]
  have hstocked : ∀ l, u.place victim c = some l → w.stocked (.resume i) = !(w.link l).dry := by
    intro l hl
    simp only [stocked, htask, errand, hl]
  refine ⟨c, hmem, ?_, ?_, ?_, ?_⟩
  · refine ⟨step_tended (a := .resume i) hw.tended h, habides.nextLink.trans hw.nextLink,
      habides.links.trans hw.links, habides.live.trans hw.live,
      (habides.socket victim).trans hw.socket, ?_, hw.nodup.erase c,
      fun x hx => hw.subset ((herase x).mp hx).2, fun x hx => ?_, fun x hx => ?_⟩
    · obtain ⟨hlt, rfl⟩ := List.getElem?_eq_some_iff.mp hc
      rw [habides.tasks, hw.tasks, hw.nodup.erase_getElem _ hlt,
        List.eraseIdx_append_of_length_le hi, List.eraseIdx_map]
    · obtain ⟨hne, hx⟩ := (herase x).mp hx
      exact ((hothers x hne).1 victim).mpr (hw.held x hx)
    · obtain ⟨hne, hx⟩ := (herase x).mp hx
      exact (hothers x hne).2.trans (hw.homes x hx)
  · rintro ⟨x, hx, hout, hremains⟩
    have hne : x ≠ c := fun heq => hout (heq ▸ hmem)
    exact ⟨x, hx, fun hin => hout ((herase x).mp hin).2, ((hothers x hne).1 victim).mpr hremains⟩
  · rintro ⟨hplaced, hs⟩ hmoved m x
    obtain ⟨l, hl⟩ := Option.isSome_iff_exists.mp hplaced.place
    rw [hstocked l hl, Bool.not_eq_true'] at hs
    rcases hself with ⟨l', hl', -, -, hc'⟩ | ⟨-, hdry⟩
    · obtain rfl := Option.some.inj (hl.symm.trans hl')
      have hne := (place_mem hl).2
      have hold := hmoved m x
      by_cases hx : x = c
      · subst hx
        have hvictim : u.homes x ≠ some m ↔ m ≠ victim := by
          rw [hplaced.home, Ne, Option.some.injEq, eq_comm]
        rw [hc' m, hvictim, hold]
        split_ifs with hm
        · subst hm
          simp [hw.nodup.mem_erase_iff, hne.symm]
        · simp [hm, hmem, hw.nodup.mem_erase_iff, hw.subset hmem, hl, eq_comm]
      · rw [(hothers x hx).1 m, hold, herase]
        simp [hx]
    · rw [hdry l hl hplaced.live] at hs
      cases hs
  · intro hnot
    refine ⟨c, hw.subset hmem, fun hin => ((herase c).mp hin).1 rfl, ?_⟩
    rcases hself with ⟨l, hl, hlive, hdry, hc'⟩ | ⟨hstays, -⟩
    · refine (hc' victim).mpr (Or.inl ⟨hw.held c hmem, fun hhome => hnot ⟨⟨hhome, hlive, ?_⟩, ?_⟩⟩)
      · rw [hl]
        rfl
      · rw [hstocked l hl, hdry]
        rfl
    · exact hstays

/-- No link is waited for that the events could bring up. -/
theorem settles_cases {cs : List ClientId} (hw : Draining u victim cs w) {a : Action}
    (ha : u.settles a = true) (h : w.step a = some v) :
    (∃ ms, a = .tick ms ∧ v = { w with now := w.now + ms }) ∨
      ∃ i, a = .resume i ∧ u.tasks.length ≤ i := by
  obtain ⟨N, hwired⟩ := hw.tended.wired
  have hidle : ∀ l, u.nextLink ≤ l → (w.link l).opening = .idle := fun l hl =>
    (hwired.unborn l (hw.nextLink.le.trans hl)).1
  cases a with
  | tick ms =>
    rw [step, Option.some.injEq] at h
    exact Or.inl ⟨ms, rfl, h.symm⟩
  | resume i => exact Or.inr ⟨i, rfl, of_decide_eq_true ha⟩
  | dialed l outcome =>
    cases outcome with
    | error message => cases ha
    | ok _ =>
      have hl := hidle l (of_decide_eq_true ha)
      simp [step, hl] at h
  | loggedIn l outcome =>
    cases outcome with
    | error message => cases ha
    | ok job =>
      have hl := hidle l (of_decide_eq_true ha)
      simp [step, hl] at h
  | _ => cases ha

/-- A pass that has opened no link settles: all miners have moved exactly if each of them has been
placed and found a nonce there, and otherwise one of them is left. -/
theorem run_draining {after : List Action} {cs : List ClientId} (hw : Draining u victim cs w)
    (hsettles : ∀ a ∈ after, u.settles a = true)
    (hrun : exec step w after = some v) (hv : v.tasks = u.tasks) :
    Draining u victim [] v ∧ (Remains u victim cs w → Remains u victim [] v) ∧
      (Moved u victim cs w →
        ((∀ c ∈ cs, u.Placed victim c) ∧ Meets step (fun u a => u.stocked a = true) w after →
          Moved u victim [] v) ∧
        (¬ ((∀ c ∈ cs, u.Placed victim c) ∧ Meets step (fun u a => u.stocked a = true) w after) →
          Remains u victim [] v)) := by
  induction after generalizing w cs with
  | nil =>
    rw [exec_nil, Option.some.injEq] at hrun
    subst hrun
    have hnone := List.append_right_eq_self.mp (hw.tasks.symm.trans hv)
    obtain rfl := List.map_eq_nil_iff.mp hnone
    refine ⟨hw, id, fun hmoved => ⟨fun _ => hmoved, fun hnot => ?_⟩⟩
    exact absurd ⟨by simp, trivial⟩ hnot
  | cons a after ih =>
    obtain ⟨m, hm, hrest⟩ := exec_cons_eq_some.mp hrun
    have hlater : ∀ b ∈ after, u.settles b = true :=
      fun b hb => hsettles b (List.mem_cons_of_mem _ hb)
    have hmeets : Meets step (fun u a => u.stocked a = true) w (a :: after) ↔
        w.stocked a = true ∧ Meets step (fun u a => u.stocked a = true) m after := by
      rw [meets_cons, hm]
      simp
    rcases settles_cases hw (hsettles a List.mem_cons_self) hm with ⟨ms, rfl, rfl⟩ | ⟨i, rfl, hi⟩
    · have hm : Draining u victim cs { w with now := w.now + ms } :=
        ⟨step_tended (a := .tick ms) hw.tended rfl, hw.nextLink, hw.links, hw.live, hw.socket,
          hw.tasks, hw.nodup, hw.subset, hw.held, hw.homes⟩
      rw [hmeets, and_iff_right (show w.stocked (.tick ms) = true from rfl)]
      exact ih hm hlater hrest
    · obtain ⟨c, hc, hnext, hremains, hmoved, hstays⟩ := resume_draining hw hi hm
      obtain ⟨hend, hremains', hmoved'⟩ := ih hnext hlater hrest
      have hall : (∀ x ∈ cs, u.Placed victim x) ↔
          u.Placed victim c ∧ ∀ x ∈ cs.erase c, u.Placed victim x := by
        refine ⟨fun h => ⟨h c hc, fun x hx => h x (List.mem_of_mem_erase hx)⟩, fun h x hx => ?_⟩
        by_cases hxc : x = c
        · exact hxc ▸ h.1
        · exact h.2 x ((List.mem_erase_of_ne hxc).mpr hx)
      rw [hmeets, hall]
      refine ⟨hend, fun h => hremains' (hremains h), fun h => ⟨fun hgood => ?_, fun hbad => ?_⟩⟩
      · exact (hmoved' (hmoved ⟨hgood.1.1, hgood.2.1⟩ h)).1 ⟨hgood.1.2, hgood.2.2⟩
      · by_cases hnow : u.Placed victim c ∧ w.stocked (.resume i) = true
        · refine (hmoved' (hmoved hnow h)).2 fun hgood => hbad ?_
          exact ⟨⟨hnow.1, hgood.1⟩, hnow.2, hgood.2⟩
        · exact hremains' (hstays hnow)

/-! ### A pass -/

/-- A pass that drains the victim, and the events until its migrations have settled. The links that
it opens come up. -/
structure Pass (u : Upstream) (victim : LinkId) (after : List Action) (w : Upstream) : Prop where
  online : u.Online
  drains : u.drains = some victim
  settles : ∀ a ∈ after, u.settles a = true
  run : exec step u.consolidate after = some w
  settled : w.tasks = u.tasks

/-- The links that house miners. -/
def peopled (u : Upstream) : Finset LinkId :=
  u.links.toFinset.filter fun l => (u.link l).clients ≠ []

/-- What a pass is for: the victim houses nobody, no link has been opened, and one link fewer houses
miners. -/
structure Drained (u : Upstream) (victim : LinkId) (w : Upstream) : Prop where
  empty : (w.link victim).clients = []
  opened : w.nextLink = u.nextLink
  fewer : w.peopled.card + 1 = u.peopled.card

/-- The miners of the victim fit onto its peers: each finds a place there one by one, on a link with
miners, and a nonce when it comes. -/
structure Packs (u : Upstream) (victim : LinkId) (after : List Action) : Prop where
  placed : ∀ c ∈ (u.link victim).clients, u.Placed victim c
  staffed : ∀ c ∈ (u.link victim).clients, ∀ l ∈ u.place victim c, (u.link l).clients ≠ []
  stocked : Meets step (fun u a => u.stocked a = true) u.consolidate after

theorem mem_peopled {l : LinkId} : l ∈ u.peopled ↔ l ∈ u.links ∧ ∃ x, x ∈ (u.link l).clients := by
  rw [peopled, Finset.mem_filter, List.mem_toFinset]
  exact and_congr_right fun _ => ⟨List.exists_mem_of_ne_nil _, fun h => h.elim fun _ hx =>
    List.ne_nil_of_mem hx⟩

theorem run_nextLink {as : List Action} (h : exec step u as = some v) :
    u.nextLink ≤ v.nextLink := by
  have hstep : ∀ (s : Upstream) (a : Action) (s' : Upstream), u.nextLink ≤ s.nextLink →
      s.step a = some s' → u.nextLink ≤ s'.nextLink := by
    intro s a s' hs h
    rcases step_cases h with hthins | ⟨l, job, -, harrives⟩
    · exact hs.trans hthins.next
    · exact hs.trans harrives.next
  exact exec_preserves hstep le_rfl h

/-- When all miners of the victim have moved, one link fewer houses miners exactly if none of them
has gone to an empty one. -/
theorem Moved.fewer_iff (h : Moved u victim [] w) (hlinks : w.links = u.links)
    (hvictim : victim ∈ u.peopled) : w.peopled.card + 1 = u.peopled.card ↔
      ∀ c ∈ (u.link victim).clients, ∀ l ∈ u.place victim c, (u.link l).clients ≠ [] := by
  have hmem : ∀ l, l ∈ w.peopled ↔ l ∈ u.peopled.erase victim ∨
      ∃ c ∈ (u.link victim).clients, u.place victim c = some l := by
    intro l
    rw [Finset.mem_erase, mem_peopled, mem_peopled, hlinks]
    constructor
    · rintro ⟨hl, x, hx⟩
      rw [h l x] at hx
      split_ifs at hx with hvl
      · cases hx
      · rcases hx with hx | ⟨hx, -, hp⟩
        · exact Or.inl ⟨hvl, hl, x, hx⟩
        · exact Or.inr ⟨x, hx, hp⟩
    · rintro (⟨hvl, hl, x, hx⟩ | ⟨x, hx, hp⟩)
      · refine ⟨hl, x, (h l x).mpr ?_⟩
        rw [if_neg hvl]
        exact Or.inl hx
      · obtain ⟨hl, hvl⟩ := place_mem hp
        refine ⟨hl, x, (h l x).mpr ?_⟩
        rw [if_neg hvl]
        exact Or.inr ⟨hx, List.not_mem_nil, hp⟩
  have hsub : u.peopled.erase victim ⊆ w.peopled := fun l hl => (hmem l).mpr (Or.inl hl)
  have hcard := Finset.card_erase_add_one hvictim
  constructor
  · intro hfewer c hc l hl
    have heq : u.peopled.erase victim = w.peopled :=
      Finset.eq_of_subset_of_card_le hsub (by omega)
    have hin : l ∈ u.peopled.erase victim := heq ▸ (hmem l).mpr (Or.inr ⟨c, hc, hl⟩)
    obtain ⟨-, x, hx⟩ := mem_peopled.mp (Finset.mem_of_mem_erase hin)
    exact List.ne_nil_of_mem hx
  · intro hstaffed
    have heq : w.peopled = u.peopled.erase victim := by
      ext l
      rw [hmem l]
      refine or_iff_left_of_imp ?_
      rintro ⟨c, hc, hp⟩
      obtain ⟨hl, hvl⟩ := place_mem hp
      exact Finset.mem_erase.mpr
        ⟨hvl, mem_peopled.mpr ⟨hl, List.exists_mem_of_ne_nil _ (hstaffed c hc l hp)⟩⟩
    rw [heq, hcard]

theorem Online.draining (hu : u.Tended) (honline : u.Online) (hl : victim ∈ u.links)
    (hstart : u.consolidate = { u with
      tasks := u.tasks ++ (u.link victim).clients.map (u.errand victim) }) :
    Draining u victim (u.link victim).clients u.consolidate := by
  have htended := consolidate_tended hu
  rw [hstart] at htended ⊢
  exact ⟨htended, rfl, rfl, rfl, honline victim hl, rfl, hu.nodup victim,
    List.Subset.refl _, fun _ hc => hc, fun _ _ => rfl⟩

/-- A pass does what it is for exactly if the miners of its victim fit onto the peers. -/
theorem pass_iff (hu : u.Tended) {after : List Action} (h : Pass u victim after w) :
    Drained u victim w ↔ Packs u victim after := by
  obtain ⟨hl, hpeople⟩ := drains_mem h.drains
  have hvictim : victim ∈ u.peopled :=
    mem_peopled.mpr ⟨hl, List.exists_mem_of_ne_nil _ hpeople⟩
  rcases consolidate_settled hu h.online h.drains with ⟨hnext, c, hc, hplace⟩ | hstart
  · have hopened := hnext.trans_le (run_nextLink h.run)
    refine ⟨fun hdrained => absurd hdrained.opened hopened.ne', fun hpacks => ?_⟩
    have hplaced := (hpacks.placed c hc).place
    rw [hplace] at hplaced
    cases hplaced
  · have hbegin := h.online.draining hu hl hstart
    have hfirst : Moved u victim (u.link victim).clients u.consolidate := by
      intro m x
      rw [hstart]
      dsimp only
      split_ifs with hm
      · rw [hm]
      · exact (or_iff_left fun h => h.2.1 h.1).symm
    obtain ⟨hend, -, hmoved⟩ := run_draining hbegin h.settles h.run h.settled
    obtain ⟨hgood, hbad⟩ := hmoved hfirst
    by_cases hall : (∀ c ∈ (u.link victim).clients, u.Placed victim c) ∧
        Meets step (fun u a => u.stocked a = true) u.consolidate after
    · have hdone := hgood hall
      have hfewer := hdone.fewer_iff hend.links hvictim
      have hempty : (w.link victim).clients = [] := by
        refine List.eq_nil_iff_forall_not_mem.mpr fun x hx => ?_
        rw [hdone victim x, if_pos rfl] at hx
        cases hx
      exact ⟨fun hdrained => ⟨hall.1, hfewer.mp hdrained.fewer, hall.2⟩,
        fun hpacks => ⟨hempty, hend.nextLink, hfewer.mpr hpacks.staffed⟩⟩
    · obtain ⟨x, -, -, hx⟩ := hbad hall
      refine ⟨fun hdrained => ?_, fun hpacks => absurd ⟨hpacks.placed, hpacks.stocked⟩ hall⟩
      rw [hdrained.empty] at hx
      cases hx

theorem Draining.settle {cs : List ClientId} (hw : Draining u victim cs w) :
    ∃ v, exec step w (List.replicate cs.length (.resume u.tasks.length)) = some v ∧
      v.tasks = u.tasks := by
  induction hn : cs.length generalizing w cs with
  | zero =>
    obtain rfl := List.length_eq_zero_iff.mp hn
    exact ⟨w, rfl, hw.tasks.trans (List.append_nil _)⟩
  | succ n ih =>
    obtain ⟨c, rest, rfl⟩ := List.exists_cons_of_length_eq_add_one hn
    have hfirst : w.tasks[u.tasks.length]? = some (u.errand victim c) := by
      rw [hw.tasks, List.getElem?_append_right le_rfl, Nat.sub_self]
      rfl
    have hresume : ∃ m, w.resume u.tasks.length = some m := by
      unfold resume
      rw [hfirst, Option.bind_some]
      unfold errand
      cases u.place victim c with
      | none => exact ⟨_, rfl⟩
      | some l => exact ⟨_, rfl⟩
    obtain ⟨m, hm⟩ := hresume
    obtain ⟨x, hx, hnext, -⟩ := resume_draining hw le_rfl hm
    obtain ⟨v, hv, hempty⟩ := ih hnext (by rw [List.length_erase_of_mem hx, hn]; rfl)
    exact ⟨v, exec_cons_eq_some.mpr ⟨m, hm, hv⟩, hempty⟩

/-- A pass that has a place for every miner settles when its calls go on. -/
theorem pass_settles (hu : u.Tended) (honline : u.Online) (hdrains : u.drains = some victim)
    (hplaced : ∀ c ∈ (u.link victim).clients, u.place victim c ≠ none) :
    ∃ w, Pass u victim
      (List.replicate (u.link victim).clients.length (.resume u.tasks.length)) w := by
  obtain ⟨hl, -⟩ := drains_mem hdrains
  rcases consolidate_settled hu honline hdrains with ⟨-, c, hc, hplace⟩ | hstart
  · exact absurd hplace (hplaced c hc)
  · obtain ⟨w, hw, hsettled⟩ := (honline.draining hu hl hstart).settle
    refine ⟨w, honline, hdrains, fun a ha => ?_, hw, hsettled⟩
    rw [List.eq_of_mem_replicate ha]
    exact decide_eq_true le_rfl

/-- There are no more passes whose miners fit than links that house miners. -/
theorem passes_end (hu : u.Tended) {us : ℕ → Upstream} (h0 : us 0 = u)
    (hpass : ∀ k victim, (us k).drains = some victim →
      ∃ after, Pass (us k) victim after (us (k + 1)) ∧ Packs (us k) victim after) :
    ∃ k ≤ u.peopled.card, (us k).consolidate = us k := by
  by_contra hnever
  have hdrains : ∀ k ≤ u.peopled.card, ∃ victim, (us k).drains = some victim := by
    intro k hk
    by_contra hnone
    refine hnever ⟨k, hk, ?_⟩
    rw [consolidate_eq, Option.eq_none_iff_forall_ne_some.mpr fun victim h => hnone ⟨victim, h⟩]
  have hcount : ∀ k ≤ u.peopled.card + 1, (us k).Tended ∧
    (us k).peopled.card + k = u.peopled.card := by
    intro k
    induction k with
    | zero => exact fun _ => ⟨h0 ▸ hu, by rw [h0, add_zero]⟩
    | succ k ih =>
      intro hk
      obtain ⟨htended, hcard⟩ := ih (by omega)
      obtain ⟨victim, hvictim⟩ := hdrains k (by omega)
      obtain ⟨after, hp, hpacks⟩ := hpass k victim hvictim
      have hfewer := ((pass_iff htended hp).mpr hpacks).fewer
      have hstep : ∀ (s : Upstream) (a : Action) (s' : Upstream), s.Tended → s.step a = some s' →
          s'.Tended := fun _ _ _ hs h => step_tended hs h
      exact ⟨exec_preserves hstep (consolidate_tended htended) hp.run, by omega⟩
  have hlast := (hcount (u.peopled.card + 1) le_rfl).2
  omega

/-- In every state that is reached, a pass empties its victim, opens no link and leaves one link
fewer with miners exactly if the victim's miners fit onto its peers; and repeated passes whose
miners fit reach a state in which `consolidate` does nothing. -/
theorem consolidate_drains_iff (maxLinks idleTimeout : ℕ) (expand : Bool) (now : ℕ)
    (client : ClientId → Client) (actions : List Action) (u : Upstream)
    (hrun : exec step (start maxLinks idleTimeout expand now client) actions = some u) :
    (∀ victim after w, Pass u victim after w → (Drained u victim w ↔ Packs u victim after)) ∧
      ∀ us : ℕ → Upstream, us 0 = u → (∀ k victim, (us k).drains = some victim →
          ∃ after, Pass (us k) victim after (us (k + 1)) ∧ Packs (us k) victim after) →
        ∃ k ≤ u.peopled.card, (us k).consolidate = us k := by
  have hu : u.Tended := ⟨⟨maxLinks, run_wired hrun⟩, run_nodup hrun⟩
  exact ⟨fun victim after w h => pass_iff hu h, fun us h0 hpass => passes_end hu h0 hpass⟩

instance (u : Upstream) : Decidable u.Online :=
  inferInstanceAs (Decidable (∀ l ∈ u.links, (u.link l).socket = true))

instance (u : Upstream) (victim : LinkId) (after : List Action) :
    Decidable (Packs u victim after) :=
  decidable_of_iff ((∀ c ∈ (u.link victim).clients,
        u.homes c = some victim ∧ c ∈ u.live ∧ (u.place victim c).isSome = true) ∧
      (∀ c ∈ (u.link victim).clients, ∀ l ∈ u.place victim c, (u.link l).clients ≠ []) ∧
      Meets step (fun u a => u.stocked a = true) u.consolidate after)
    ⟨fun ⟨hp, hs, hm⟩ => ⟨fun c hc => ⟨(hp c hc).1, (hp c hc).2.1, (hp c hc).2.2⟩, hs, hm⟩,
      fun h => ⟨fun c hc => ⟨(h.placed c hc).home, (h.placed c hc).live, (h.placed c hc).place⟩,
        h.staffed, h.stocked⟩⟩

/-- Two miners on two links; one of them becomes slow. -/
def waning : List Action :=
  [.attach 0 0, .dialed 0 (.ok ()), .loggedIn 0 (.ok plainJob), .resume 0, .resume 0,
    .attach 1 1, .dialed 1 (.ok ()), .loggedIn 1 (.ok plainJob), .resume 0, .resume 0,
    .report 1 1000000]

def duo : Upstream := start 64 300000 false 1000 fun _ =>
  { hashrate := 15000000, vardiff := VarDiff.new 1000 1000 }

theorem consolidate_drains_iff_duo : ∃ u w, exec step duo waning = some u ∧
    Pass u 1 [.resume 0] w ∧ Drained u 1 w := by
  have hrun : (exec step duo waning).any (fun u => decide (u.Online ∧ u.drains = some 1 ∧
      u.tasks = [] ∧ Packs u 1 [.resume 0] ∧ (exec step u.consolidate [.resume 0]).any
        (fun w => decide (w.tasks = [])) = true)) = true := by decide +kernel
  obtain ⟨u, hu, hfacts⟩ := (Option.any_eq_true _ _).mp hrun
  obtain ⟨honline, hdrains, htasks, hpacks, hafter⟩ := of_decide_eq_true hfacts
  obtain ⟨w, hw, hsettled⟩ := (Option.any_eq_true _ _).mp hafter
  have hsettles : ∀ a ∈ [Action.resume 0], u.settles a = true := by
    simp [settles, htasks]
  have hpass : Pass u 1 [.resume 0] w :=
    ⟨honline, hdrains, hsettles, hw, (of_decide_eq_true hsettled).trans htasks.symm⟩
  have hiff := (consolidate_drains_iff 64 300000 false 1000 _ waning u hu).1 1 _ w hpass
  exact ⟨u, w, hu, hpass, hiff.mpr hpacks⟩

/-- Three miners, each on a link of its own. -/
def trio : Upstream := start 64 300000 false 1000 fun c =>
  { hashrate := if c = 2 then 12900000 else 17200000, vardiff := VarDiff.new 1000 1000 }

def tripling : List Action :=
  [.attach 0 0, .dialed 0 (.ok ()), .loggedIn 0 (.ok plainJob), .resume 0, .resume 0,
    .attach 1 1, .dialed 1 (.ok ()), .loggedIn 1 (.ok plainJob), .resume 0, .resume 0,
    .attach 2 2, .dialed 2 (.ok ()), .loggedIn 2 (.ok plainJob), .resume 0, .resume 0]

def reopening : List Action :=
  [.dialed 3 (.ok ()), .loggedIn 3 (.ok plainJob), .resume 0, .resume 0]

/-- The peers have room for the third miner together and not by themselves: a pass opens a new link
for it, the next one takes it back to the old link, and the one after that starts again. -/
theorem consolidate_shuffles : ∃ u w z, exec step trio tripling = some u ∧
    Pass u 2 reopening w ∧ ¬ Drained u 2 w ∧ Pass w 3 [.resume 0] z ∧ ¬ Drained w 3 z ∧
      z.drains = some 2 ∧ (z.link 2).clients = (u.link 2).clients := by
  have hrun : (exec step trio tripling).any (fun u => decide (u.Online ∧ u.drains = some 2 ∧
      u.tasks = [] ∧ u.nextLink = 3 ∧ (exec step u.consolidate reopening).any (fun w => decide (
        w.tasks = [] ∧ w.nextLink ≠ 3 ∧ w.Online ∧ w.drains = some 3 ∧
          (exec step w.consolidate [.resume 0]).any (fun z => decide (z.tasks = [] ∧
            z.peopled.card + 1 ≠ w.peopled.card ∧ z.drains = some 2 ∧
              (z.link 2).clients = (u.link 2).clients)) = true)) = true)) = true := by
    decide +kernel
  obtain ⟨u, hu, hfacts⟩ := (Option.any_eq_true _ _).mp hrun
  obtain ⟨honline, hdrains, htasks, hnext, hafter⟩ := of_decide_eq_true hfacts
  obtain ⟨w, hw, hfacts⟩ := (Option.any_eq_true _ _).mp hafter
  obtain ⟨htasks', hopened, honline', hdrains', hafter⟩ := of_decide_eq_true hfacts
  obtain ⟨z, hz, hfacts⟩ := (Option.any_eq_true _ _).mp hafter
  obtain ⟨htasks'', hfewer, hagain, hback⟩ := of_decide_eq_true hfacts
  have hsettles : ∀ a ∈ reopening, u.settles a = true := by
    simp [reopening, settles, htasks, hnext]
  have hsettles' : ∀ a ∈ [Action.resume 0], w.settles a = true := by
    simp [settles, htasks']
  exact ⟨u, w, z, hu, ⟨honline, hdrains, hsettles, hw, htasks'.trans htasks.symm⟩,
    fun h => hopened (h.opened.trans hnext),
    ⟨honline', hdrains', hsettles', hz, htasks''.trans htasks'.symm⟩, fun h => hfewer h.fewer,
    hagain, hback⟩

end Upstream

end NMiner
