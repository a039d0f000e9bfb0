import NMiner.Proofs.Shifts

/-! How many pool sockets an upstream has. While it is open, every socket that is open or being
opened belongs to a listed link, and a link is only added while none is being connected
and the list is shorter than its limit; closing leaves at most the one that is
being connected. -/

namespace NMiner

open Transition

/-- The socket of the link is open or being opened. -/
def Link.busy (k : Link) : Bool := k.plug = .live || k.opening = .dialing

structure Link.Sound (k : Link) : Prop where
  live : k.plug = .live → k.opening = .login ∨ k.opening = .up ∧ k.socket = true
  socket : k.socket = true → k.opening = .up
  dark : k.opening = .idle ∨ k.opening = .dialing → k.plug = .absent
  fresh : k.job = none → k.plug ≠ .shut → k.job_at = 0

theorem Link.busy_iff {k : Link} : k.busy = true ↔ k.plug = .live ∨ k.opening = .dialing := by
  simp [Link.busy]

theorem Link.Rests.busy {k k' : Link} (h : k.Rests k') : k'.busy = k.busy := by
  rw [Link.busy, Link.busy, h.plug, h.opening]

theorem Link.Rests.sound {k k' : Link} (h : k.Rests k') (hk : k.Sound) : k'.Sound := by
  refine ⟨fun hlive => ?_, fun hsocket => ?_, fun hdark => ?_, fun hjob hplug => ?_⟩
  · rw [h.opening, h.socket]
    exact hk.live (h.plug ▸ hlive)
  · rw [h.opening]
    exact hk.socket (h.socket ▸ hsocket)
  · rw [h.plug]
    exact hk.dark (h.opening ▸ hdark)
  · rw [h.job_at hjob]
    exact hk.fresh (h.jobless hjob) (h.plug ▸ hplug)

/-- A link that is being connected has a socket, or soon will have one. -/
theorem Link.Sound.connecting_of_busy {k : Link} (hk : k.Sound) (hbusy : k.busy = true)
    (hsocket : k.socket = false) : k.opening.connecting = true := by
  rcases Link.busy_iff.mp hbusy with hlive | hdial
  · rcases hk.live hlive with hlogin | ⟨-, h⟩
    · rw [hlogin]
      rfl
    · rw [hsocket] at h
      cases h
  · rw [hdial]
    rfl

theorem Link.Sound.no_socket {k : Link} (hk : k.Sound) (h : k.opening ≠ .up) : k.socket = false :=
  Bool.eq_false_iff.mpr fun hs => h (hk.socket hs)

theorem Link.Sound.not_busy_of_failed {k : Link} (hk : k.Sound) {message : String}
    (h : k.opening = .failed message) : k.busy = false := by
  by_contra hbusy
  rw [Bool.not_eq_false, Link.busy_iff, h] at hbusy
  rcases hbusy with hlive | hdial
  · rcases hk.live hlive with hlogin | ⟨hup, -⟩
    · rw [h] at hlogin
      cases hlogin
    · rw [h] at hup
      cases hup
  · cases hdial

namespace Upstream

/-- The links in `cut` have lost their socket while their login is under way. -/
structure Wired (N : ℕ) (cut : LinkId → Prop) (u : Upstream) : Prop where
  limit : u.maxLinks = N
  capped : u.links.length ≤ N
  nodup : u.links.Nodup
  born : ∀ l ∈ u.links, l < u.nextLink
  unborn : ∀ l, u.nextLink ≤ l → (u.link l).opening = .idle ∧ (u.link l).job = none
  sound : ∀ l, (u.link l).Sound
  login : ∀ l, (u.link l).opening = .login → (u.link l).plug = .live ∨ cut l
  severed : ∀ l, cut l → (u.link l).opening = .login
  alone : ∀ l ∈ u.links, ∀ m ∈ u.links, (u.link l).opening.connecting = true →
    (u.link m).opening.connecting = true → l = m
  listed : u.closed = false → ∀ l, (u.link l).busy = true → l ∈ u.links
  closed : u.closed = true →
    u.links = [] ∧ ∀ l m, (u.link l).busy = true → (u.link m).busy = true → l = m
  housed : ∀ l, (u.link l).clients ≠ [] → (u.link l).Known
  aimed : u.Aimed

variable {N : ℕ} {cut cut' : LinkId → Prop} {u v : Upstream}

/-! ### Shifts -/

/-- A link that is not listed or unlisted changes, and no other one does. -/
theorem Wired.turn {l : LinkId} (hu : u.Wired N cut) (h : Turns l u v) (hlinks : v.links = u.links)
    (hcut : ∀ m, cut' m → cut m ∧ (v.link m).opening = .login) (hkept : ∀ m ≠ l, cut m → cut' m)
    (hborn : l < u.nextLink ∨ (v.link l).opening = (u.link l).opening ∧
      ((u.link l).plug = .absent → (v.link l).job = (u.link l).job))
    (hsound : (v.link l).Sound)
    (hlogin : (v.link l).opening = .login → (v.link l).plug = .live ∨ cut' l)
    (hbusy : (v.link l).busy = true → (u.link l).busy = true)
    (hconnecting : (v.link l).opening.connecting = true → (u.link l).opening.connecting = true)
    (hknown : (u.link l).Known → (v.link l).Known)
    (hclients : (v.link l).clients ≠ [] → (v.link l).Known) : v.Wired N cut' := by
  have hbusy' : ∀ m, (v.link m).busy = true → (u.link m).busy = true := by
    intro m hm
    by_cases hml : m = l
    · subst hml
      exact hbusy hm
    · exact (h.others m hml).busy ▸ hm
  have hconnecting' : ∀ m, (v.link m).opening.connecting = true →
      (u.link m).opening.connecting = true := by
    intro m hm
    by_cases hml : m = l
    · subst hml
      exact hconnecting hm
    · exact (h.others m hml).opening ▸ hm
  have hknown' : ∀ m, (u.link m).Known → (v.link m).Known := by
    intro m hm
    by_cases hml : m = l
    · subst hml
      exact hknown hm
    · exact (h.others m hml).known hm
  refine ⟨h.maxLinks.trans hu.limit, hlinks ▸ hu.capped, hlinks ▸ hu.nodup, ?_, ?_, fun m => ?_,
    fun m hm => ?_, fun m hm => (hcut m hm).2, ?_, fun hclosed m hm => ?_, fun hclosed => ?_,
    fun m hm => ?_, ?_⟩
  · rw [hlinks, h.nextLink]
    exact hu.born
  · intro m hm
    rw [h.nextLink] at hm
    obtain ⟨hidle, hjob⟩ := hu.unborn m hm
    have hdark := (hu.sound m).dark (Or.inl hidle)
    by_cases hml : m = l
    · subst hml
      obtain ⟨hopening, hkeep⟩ := hborn.resolve_left (not_lt.mpr hm)
      exact ⟨hopening.trans hidle, (hkeep hdark).trans hjob⟩
    · have hrest := h.others m hml
      exact ⟨hrest.opening.trans hidle, (hrest.unplugged hdark).trans hjob⟩
  · by_cases hml : m = l
    · subst hml
      exact hsound
    · exact (h.others m hml).sound (hu.sound m)
  · by_cases hml : m = l
    · subst hml
      exact hlogin hm
    · have hrest := h.others m hml
      rw [hrest.plug]
      exact (hu.login m (hrest.opening ▸ hm)).imp_right (hkept m hml)
  · rw [hlinks]
    exact fun m hm n hn hcm hcn => hu.alone m hm n hn (hconnecting' m hcm) (hconnecting' n hcn)
  · rw [hlinks]
    exact hu.listed (h.closed ▸ hclosed) m (hbusy' m hm)
  · obtain ⟨hnil, hone⟩ := hu.closed (h.closed ▸ hclosed)
    exact ⟨hlinks.trans hnil, fun m n hm hn => hone m n (hbusy' m hm) (hbusy' n hn)⟩
  · by_cases hml : m = l
    · subst hml
      exact hclients hm
    · have hrest := h.others m hml
      exact hrest.known (hu.housed m fun hempty => hm (hrest.clients hempty))
  · intro t ht m hm
    exact hknown' m (hu.aimed t (h.tasks ▸ ht) m hm)

theorem Wired.rest (hu : u.Wired N cut) (h : Rests u v) : v.Wired N cut := by
  have hlink := h.link u.nextLink
  refine hu.turn (h.turns u.nextLink) h.links (fun m hm => ⟨hm, ?_⟩) (fun _ _ hm => hm)
    (Or.inr ⟨hlink.opening, hlink.unplugged⟩) (hlink.sound (hu.sound _)) (fun hlogin =>
      ?_) (fun hbusy => ?_)
    (fun hconnecting => ?_) hlink.known (fun hclients => ?_)
  · rw [(h.link m).opening]
    exact hu.severed m hm
  · rw [hlink.plug]
    exact hu.login _ (hlink.opening ▸ hlogin)
  · exact hlink.busy ▸ hbusy
  · exact hlink.opening ▸ hconnecting
  · exact hlink.known (hu.housed _ fun hempty => hclients (hlink.clients hempty))

theorem Wired.drop {l : LinkId} (hu : u.Wired N cut) (h : Drops l u v)
    (hcut : (u.link l).socket = true ∨ cut l) : v.Wired N cut := by
  have hopening : ∀ m, (v.link m).opening = (u.link m).opening := by
    intro m
    by_cases hml : m = l
    · subst hml
      exact h.opening
    · exact (h.turns.others m hml).opening
  have hcome : (u.link l).opening = .up ∨ (u.link l).opening = .login :=
    hcut.imp (hu.sound l).socket (hu.severed l)
  have hquiet : (v.link l).busy = false := by
    rcases hcome with hup | hlogin
    · simp [Link.busy, h.plug, h.opening, hup]
    · simp [Link.busy, h.plug, h.opening, hlogin]
  have hbusy : ∀ m, (v.link m).busy = true → m ≠ l ∧ (u.link m).busy = true := by
    intro m hm
    have hml : m ≠ l := by
      rintro rfl
      rw [hquiet] at hm
      cases hm
    exact ⟨hml, (h.turns.others m hml).busy ▸ hm⟩
  have hsub : ∀ m ∈ v.links, m ∈ u.links := fun m hm => List.mem_of_mem_erase (h.links ▸ hm)
  refine ⟨h.turns.maxLinks.trans hu.limit, ?_, ?_, ?_, ?_, fun m => ?_, fun m hm => ?_,
    fun m hm => (hopening m).trans (hu.severed m hm), ?_, fun hclosed m hm => ?_, fun hclosed => ?_,
    fun m hm => ?_, ?_⟩
  · rw [h.links]
    exact List.length_erase_le.trans hu.capped
  · rw [h.links]
    exact hu.nodup.erase l
  · rw [h.turns.nextLink]
    exact fun m hm => hu.born m (hsub m hm)
  · rw [h.turns.nextLink]
    intro m hm
    obtain ⟨hidle, hjob⟩ := hu.unborn m hm
    have hml : m ≠ l := by
      rintro rfl
      rcases hcome with hc | hc <;> rw [hidle] at hc <;> cases hc
    refine ⟨(hopening m).trans hidle, ?_⟩
    exact ((h.turns.others m hml).unplugged ((hu.sound m).dark (Or.inl hidle))).trans hjob
  · by_cases hml : m = l
    · subst hml
      refine ⟨fun hlive => ?_, fun hsocket => ?_, fun hdark => ?_,
        fun _ hplug => absurd h.plug hplug⟩
      · rw [h.plug] at hlive
        cases hlive
      · rw [h.socket] at hsocket
        cases hsocket
      · rw [h.opening] at hdark
        rcases hcome with hc | hc <;> rw [hc] at hdark <;> simp at hdark
    · exact (h.turns.others m hml).sound (hu.sound m)
  · rw [hopening m] at hm
    by_cases hml : m = l
    · subst hml
      rcases hcut with hsocket | hcut
      · rw [(hu.sound m).socket hsocket] at hm
        cases hm
      · exact Or.inr hcut
    · rw [(h.turns.others m hml).plug]
      exact hu.login m hm
  · intro m hm n hn hcm hcn
    rw [hopening m] at hcm
    rw [hopening n] at hcn
    exact hu.alone m (hsub m hm) n (hsub n hn) hcm hcn
  · obtain ⟨hml, hm⟩ := hbusy m hm
    rw [h.links]
    exact (List.mem_erase_of_ne hml).mpr (hu.listed (h.turns.closed ▸ hclosed) m hm)
  · obtain ⟨hnil, hone⟩ := hu.closed (h.turns.closed ▸ hclosed)
    refine ⟨?_, fun m n hm hn => hone m n (hbusy m hm).2 (hbusy n hn).2⟩
    rw [h.links, hnil, List.erase_nil]
  · by_cases hml : m = l
    · subst hml
      exact absurd h.clients hm
    · have hrest := h.turns.others m hml
      exact hrest.known (hu.housed m fun hempty => hm (hrest.clients hempty))
  · intro t ht m hm
    have hm := hu.aimed t (h.turns.tasks ▸ ht) m hm
    by_cases hml : m = l
    · subst hml
      exact Or.inr (Or.inl h.plug)
    · exact (h.turns.others m hml).known hm

theorem Wired.unlist {l : LinkId} {message : String} (hu : u.Wired N cut)
    (h : (u.link l).opening = .failed message) :
    Wired N cut { u with links := u.links.erase l } := by
  have hsub : ∀ m ∈ u.links.erase l, m ∈ u.links := fun m hm => List.mem_of_mem_erase hm
  refine ⟨hu.limit, List.length_erase_le.trans hu.capped, hu.nodup.erase l,
    fun m hm => hu.born m (hsub m hm), hu.unborn, hu.sound, hu.login, hu.severed,
    fun m hm n hn => hu.alone m (hsub m hm) n (hsub n hn), fun hclosed m hm => ?_,
    fun hclosed => ⟨?_, (hu.closed hclosed).2⟩, hu.housed, hu.aimed⟩
  · have hml : m ≠ l := by
      rintro rfl
      rw [(hu.sound m).not_busy_of_failed h] at hm
      cases hm
    exact (List.mem_erase_of_ne hml).mpr (hu.listed hclosed m hm)
  · dsimp only
    rw [(hu.closed hclosed).1, List.erase_nil]

theorem Wired.house {l : LinkId} (hu : u.Wired N cut) (c : ClientId)
    (hl : (u.link l).Known ∨ (u.link l).socket = true) : (u.house l c).Wired N cut := by
  have hknown : (u.link l).Known := by
    rcases hl with hl | hl
    · exact hl
    · exact Or.inr (Or.inr (Or.inl ((hu.sound l).socket hl)))
  have hset : (u.setLink l fun k => { k with
      clients := addClient k.clients c, load := k.load + u.rate c, idle_at := 0 }).Wired N cut := by
    refine hu.turn (l := l) (setLink_turns u l _) rfl (fun m hm => ⟨hm, ?_⟩) (fun _ _ hm => hm)
      (Or.inr ⟨?_, fun _ => ?_⟩) ?_ ?_ ?_ ?_ ?_ ?_
    · have hlogin := hu.severed m hm
      unfold setLink
      dsimp only
      rw [Function.update_apply]
      split_ifs with hml
      · exact hml ▸ hlogin
      · exact hlogin
    all_goals
      simp only [setLink, Function.update_self]
    · exact ⟨(hu.sound l).live, (hu.sound l).socket, (hu.sound l).dark, (hu.sound l).fresh⟩
    · exact hu.login l
    · exact id
    · exact id
    · exact id
    · exact fun _ => hknown
  exact ⟨hset.limit, hset.capped, hset.nodup, hset.born, hset.unborn, hset.sound, hset.login,
    hset.severed, hset.alone, hset.listed, hset.closed, hset.housed, hset.aimed⟩

/-- The suspended calls are others, and all of them may only settle on links in use. -/
theorem Wired.retask (hu : u.Wired N cut) (ts : List Task)
    (hts : ∀ t ∈ ts, t ∈ u.tasks ∨ ∀ l, t.phase.target = some l → (u.link l).Known) :
    Wired N cut { u with tasks := ts } := by
  refine ⟨hu.limit, hu.capped, hu.nodup, hu.born, hu.unborn, hu.sound, hu.login, hu.severed,
    hu.alone, hu.listed, hu.closed, hu.housed, fun t ht => ?_⟩
  rcases hts t ht with hold | hnew
  · exact hu.aimed t hold
  · exact hnew

/-- When `pick` adds a link. -/
theorem pick_adds (u : Upstream) (c : ClientId) (exclude : Option LinkId) :
    (u.pick c exclude).2 = u ∧ (u.pick c exclude).1.opens = none ∨
      (u.pick c exclude).2 = u.addLink ∧ (u.pick c exclude).1.opens = some u.nextLink ∧
        u.closed = false ∧ (∀ l ∈ u.links, (u.link l).opening.connecting = false) ∧
          u.links.length < u.maxLinks := by
  unfold pick
  split
  · exact Or.inl ⟨rfl, rfl⟩
  rename_i hclosed
  dsimp only
  cases u.best (u.rate c) (u.usable exclude) with
  | some l => exact Or.inl ⟨rfl, rfl⟩
  | none => cases hpending : u.links.find? fun l => (u.link l).opening.connecting with
    | some l => exact Or.inl ⟨rfl, rfl⟩
    | none =>
      dsimp only
      split
      · cases u.roomiest (u.usable exclude) <;> exact Or.inl ⟨rfl, rfl⟩
      · rename_i hroom
        refine Or.inr ⟨rfl, rfl, Bool.not_eq_true _ ▸ hclosed, fun l hl =>
          ?_, Nat.lt_of_not_le hroom⟩
        simpa using List.find?_eq_none.mp hpending l hl

/-- A link is dialed while no other listed one is being connected and the list is not full. -/
theorem Wired.add (hu : u.Wired N cut) (hclosed : u.closed = false)
    (hquiet : ∀ l ∈ u.links, (u.link l).opening.connecting = false)
    (hroom : u.links.length < u.maxLinks) :
    u.addLink.Wired N cut ∧ ∀ l, (u.link l).Known → (u.addLink.link l).Known := by
  have hidle : (u.link u.nextLink).opening = .idle := (hu.unborn _ le_rfl).1
  have hdark : (u.link u.nextLink).plug = .absent := (hu.sound _).dark (Or.inl hidle)
  have hsocket : (u.link u.nextLink).socket = false := (hu.sound _).no_socket (by simp [hidle])
  obtain ⟨hopening, hplug, hoff, hjob, hat, hclients⟩ :
      (u.addLink.link u.nextLink).opening = .dialing ∧
      (u.addLink.link u.nextLink).plug = (u.link u.nextLink).plug ∧
      (u.addLink.link u.nextLink).socket = (u.link u.nextLink).socket ∧
      (u.addLink.link u.nextLink).job = (u.link u.nextLink).job ∧
      (u.addLink.link u.nextLink).job_at = (u.link u.nextLink).job_at ∧
      (u.addLink.link u.nextLink).clients = (u.link u.nextLink).clients := by
    rw [addLink_link, if_pos rfl, freshLink_eq]
    exact ⟨rfl, rfl, rfl, rfl, rfl, rfl⟩
  have hothers : ∀ l ≠ u.nextLink, u.addLink.link l = u.link l := by
    intro l hl
    rw [addLink_link, if_neg hl]
  have hknown : ∀ l, (u.link l).Known → (u.addLink.link l).Known := by
    intro l hl
    by_cases hnew : l = u.nextLink
    · subst hnew
      rcases hl with hl | hl | hl | ⟨message, hl⟩
      · exact Or.inl (hjob ▸ hl)
      · exact Or.inr (Or.inl (hplug ▸ hl))
      · rw [hidle] at hl
        cases hl
      · rw [hidle] at hl
        cases hl
    · rw [hothers l hnew]
      exact hl
  have hne : ∀ l ∈ u.links, l ≠ u.nextLink := fun l hl => (hu.born l hl).ne
  have hlinks : ∀ l ∈ u.addLink.links, l ∈ u.links ∨ l = u.nextLink :=
    fun l hl => (List.mem_append.mp hl).imp_right List.mem_singleton.mp
  refine ⟨⟨hu.limit, ?_, ?_, fun l hl => ?_, fun l hl => ?_, fun l => ?_, fun l hl => ?_,
    fun l hl => ?_, fun l hl m hm hcl hcm => ?_, fun _ l hl => ?_, fun h => ?_, fun l hl => ?_, ?_⟩,
    hknown⟩
  · have hlt := hu.limit ▸ hroom
    simpa [addLink] using hlt
  · refine List.nodup_append.mpr ⟨hu.nodup, List.nodup_singleton _, fun l hl m hm => ?_⟩
    rw [List.mem_singleton.mp hm]
    exact hne l hl
  · rcases hlinks l hl with hl | rfl
    · exact Nat.lt_succ_of_lt (hu.born l hl)
    · exact Nat.lt_succ_self _
  · have hlt : u.nextLink < l := hl
    rw [hothers l hlt.ne']
    exact hu.unborn l hlt.le
  · by_cases hnew : l = u.nextLink
    · subst hnew
      refine ⟨fun hlive => ?_, fun hs => ?_, fun _ => hplug.trans hdark, fun hnone hshut => ?_⟩
      · rw [hplug, hdark] at hlive
        cases hlive
      · rw [hoff, hsocket] at hs
        cases hs
      · rw [hat]
        exact (hu.sound _).fresh (hjob ▸ hnone) (hplug ▸ hshut)
    · rw [hothers l hnew]
      exact hu.sound l
  · by_cases hnew : l = u.nextLink
    · rw [hnew, hopening] at hl
      cases hl
    · rw [hothers l hnew] at hl ⊢
      exact hu.login l hl
  · have hlogin := hu.severed l hl
    have hnew : l ≠ u.nextLink := by
      rintro rfl
      rw [hidle] at hlogin
      cases hlogin
    rw [hothers l hnew]
    exact hlogin
  · have hold : ∀ n ∈ u.links, (u.addLink.link n).opening.connecting = false := by
      intro n hn
      rw [hothers n (hne n hn)]
      exact hquiet n hn
    rcases hlinks l hl with hl | rfl
    · rw [hold l hl] at hcl
      cases hcl
    rcases hlinks m hm with hm | rfl
    · rw [hold m hm] at hcm
      cases hcm
    · rfl
  · refine List.mem_append.mpr ?_
    by_cases hnew : l = u.nextLink
    · exact Or.inr (List.mem_singleton.mpr hnew)
    · rw [hothers l hnew] at hl
      exact Or.inl (hu.listed hclosed l hl)
  · rw [show u.addLink.closed = u.closed from rfl, hclosed] at h
    cases h
  · refine hknown l (hu.housed l ?_)
    by_cases hnew : l = u.nextLink
    · subst hnew
      exact hclients ▸ hl
    · exact hothers l hnew ▸ hl
  · exact fun t ht l hl => hknown l (hu.aimed t ht l hl)

theorem Wired.pick (hu : u.Wired N cut) (c : ClientId) (exclude : Option LinkId) :
    (u.pick c exclude).2.Wired N cut ∧
      ∀ l, (u.link l).Known → ((u.pick c exclude).2.link l).Known := by
  rcases pick_adds u c exclude with ⟨h, -⟩ | ⟨h, -, hclosed, hquiet, hroom⟩
  · rw [h]
    exact ⟨hu, fun _ hl => hl⟩
  · rw [h]
    exact hu.add hclosed hquiet hroom

theorem Wired.launch (hu : u.Wired N cut) (c : ClientId) (goal : Goal) (origin : Origin) :
    (u.launch c goal origin).Wired N cut := by
  obtain ⟨hpick, hknown⟩ := hu.pick c (Goal.exclude goal)
  refine hpick.retask _ fun t ht => ?_
  rcases List.mem_append.mp ht with ht | ht
  · exact Or.inl ht
  · rw [List.mem_singleton.mp ht]
    exact Or.inr fun l hl => hknown l (pick_target hl)

theorem Wired.attach (hu : u.Wired N cut) (c : ClientId) (origin : Origin) :
    (u.attach c origin).Wired N cut := by
  have hlive : Wired N cut { u with live := insert c u.live } :=
    ⟨hu.limit, hu.capped, hu.nodup, hu.born, hu.unborn, hu.sound, hu.login, hu.severed, hu.alone,
      hu.listed, hu.closed, hu.housed, hu.aimed⟩
  exact hlive.launch c .attach origin

theorem Wired.erase (hu : u.Wired N cut) (i : ℕ) :
    Wired N cut { u with tasks := u.tasks.eraseIdx i } :=
  hu.retask _ fun _ ht => Or.inl (List.mem_of_mem_eraseIdx ht)

theorem Wired.setPhase (hu : u.Wired N cut) (i : ℕ) (t : Task) {p : Phase}
    (hp : ∀ l, p.target = some l → (u.link l).Known) : (u.setPhase i t p).Wired N cut := by
  refine hu.retask _ fun x hx => ?_
  rcases List.mem_or_eq_of_mem_set hx with hx | rfl
  · exact Or.inl hx
  · exact Or.inr hp

theorem Wired.shift (hu : u.Wired N cut) (h : Shift cut u v) : v.Wired N cut := by
  cases h with
  | rest h => exact hu.rest h
  | drop l hcut h => exact hu.drop h hcut
  | unlist l message h => exact hu.unlist h
  | house l c hl hc => exact hu.house c hl
  | attach c origin => exact hu.attach c origin
  | migrate l c origin => exact hu.launch c (.migrate l) origin
  | settle i t ht hgoal => exact hu.erase i
  | giveUp i t ht => exact (hu.erase i).rest (detach_rests _ t.client)
  | phase i t p ht hopen hpick hp => exact hu.setPhase i t hp
  | repick i t ht hopen =>
    obtain ⟨hpick, hknown⟩ := hu.pick t.client (Goal.exclude t.goal)
    exact hpick.setPhase i t fun l hl => hknown l (pick_target hl)

theorem Wired.shifts (hu : u.Wired N cut) (h : Shifts cut u v) : v.Wired N cut :=
  h.keeps (P := Wired N cut) (fun _ _ hshift hw => hw.shift hshift) hu

theorem addLink_plug (u : Upstream) (l : LinkId) : (u.addLink.link l).plug = (u.link l).plug := by
  rw [addLink_link]
  split_ifs with hl
  · rw [hl, freshLink_eq]
  · rfl

theorem pick_plug (u : Upstream) (c : ClientId) (exclude : Option LinkId) (l : LinkId) :
    ((u.pick c exclude).2.link l).plug = (u.link l).plug := by
  rcases pick_cases u c exclude with h | ⟨h, -⟩
  · rw [h]
  · rw [h]
    exact addLink_plug u l

theorem pick_closed (u : Upstream) (c : ClientId) (exclude : Option LinkId) :
    (u.pick c exclude).2.closed = u.closed := by
  rcases pick_cases u c exclude with h | ⟨h, -⟩
  · rw [h]
  · rw [h]
    rfl

theorem pick_nextLink (u : Upstream) (c : ClientId) (exclude : Option LinkId) :
    u.nextLink ≤ (u.pick c exclude).2.nextLink := by
  rcases pick_cases u c exclude with h | ⟨h, -⟩
  · rw [h]
  · rw [h]
    exact Nat.le_succ _

/-- A socket that has been closed stays so, no link is forgotten, and the upstream is as closed as
before. -/
theorem Shift.frame (h : Shift cut u v) : v.closed = u.closed ∧ u.nextLink ≤ v.nextLink ∧
    ∀ l, (v.link l).plug = (u.link l).plug ∨ (v.link l).plug = .shut := by
  cases h with
  | rest h => exact ⟨(h.turns 0).closed, (h.turns 0).nextLink.ge, fun l => Or.inl (h.link l).plug⟩
  | drop m hcut h =>
    refine ⟨h.turns.closed, h.turns.nextLink.ge, fun l => ?_⟩
    by_cases hl : l = m
    · exact Or.inr (hl ▸ h.plug)
    · exact Or.inl (h.turns.others l hl).plug
  | unlist m message h => exact ⟨rfl, le_rfl, fun l => Or.inl rfl⟩
  | house m c hm hc =>
    refine ⟨rfl, le_rfl, fun l => Or.inl ?_⟩
    unfold Upstream.house setLink
    dsimp only
    rw [Function.update_apply]
    split_ifs with hl
    · rw [hl]
    · rfl
  | attach c origin =>
    let w : Upstream := { u with live := insert c u.live }
    exact ⟨pick_closed w c none, pick_nextLink w c none, fun l => Or.inl (pick_plug w c none l)⟩
  | migrate m c origin =>
    exact ⟨pick_closed u c _, pick_nextLink u c _, fun l => Or.inl (pick_plug u c _ l)⟩
  | settle i t ht hgoal => exact ⟨rfl, le_rfl, fun l => Or.inl rfl⟩
  | giveUp i t ht =>
    have h := detach_rests { u with tasks := u.tasks.eraseIdx i } t.client
    exact ⟨(h.turns 0).closed, (h.turns 0).nextLink.ge, fun l => Or.inl (h.link l).plug⟩
  | phase i t p ht hopen hpick hp => exact ⟨rfl, le_rfl, fun l => Or.inl rfl⟩
  | repick i t ht hopen =>
    exact ⟨pick_closed u t.client _, pick_nextLink u t.client _,
      fun l => Or.inl (pick_plug u t.client _ l)⟩

theorem Shifts.nextLink_le (h : Shifts cut u v) : u.nextLink ≤ v.nextLink :=
  h.keeps (P := fun w => u.nextLink ≤ w.nextLink) (fun _ _ hs hw => hw.trans hs.frame.2.1) le_rfl

theorem Shifts.shut (h : Shifts cut u v) {l : LinkId} (hl : (u.link l).plug = .shut) :
    (v.link l).plug = .shut := by
  refine h.keeps (P := fun w => (w.link l).plug = .shut) (fun _ _ hs hw => ?_) hl
  rcases hs.frame.2.2 l with hsame | hshut
  · exact hsame.trans hw
  · exact hshut

/-- Losing a link leaves its socket closed. -/
theorem hangUp_shut (u : Upstream) (l : LinkId) : ((u.hangUp l).link l).plug = .shut := by
  obtain ⟨v, hdrop, hrest⟩ := hangUp_drops u l
  exact (hrest fun _ => False).shut hdrop.plug

theorem hangUp_nextLink (u : Upstream) (l : LinkId) : u.nextLink ≤ (u.hangUp l).nextLink := by
  obtain ⟨v, hdrop, hrest⟩ := hangUp_drops u l
  exact hdrop.turns.nextLink ▸ (hrest fun _ => False).nextLink_le

/-! ### Steps -/

theorem Wired.lt_nextLink (hu : u.Wired N cut) {l : LinkId} (h : (u.link l).opening ≠ .idle) :
    l < u.nextLink := by
  by_contra hle
  exact h (hu.unborn l (Nat.le_of_not_lt hle)).1

/-- The connection of a link ends without a socket. -/
theorem Wired.fail (hu : u.Wired N cut) {l : LinkId} {f : Link → Link} {message : String}
    (hcut : ∀ m ≠ l, ¬ cut m) (hborn : l < u.nextLink)
    (hopening : (f (u.link l)).opening = .failed message) (hplug : (f (u.link l)).plug ≠ .live)
    (hsocket : (f (u.link l)).socket = false)
    (hfresh : (f (u.link l)).job = none → (f (u.link l)).plug ≠ .shut → (f (u.link l)).job_at = 0) :
    (u.setLink l f).Wired N fun _ => False := by
  have hself : (u.setLink l f).link l = f (u.link l) := Function.update_self ..
  have hknown : ((u.setLink l f).link l).Known := by
    rw [hself]
    exact Or.inr (Or.inr (Or.inr ⟨message, hopening⟩))
  have hidle : ((u.setLink l f).link l).busy = false := by
    simp [hself, Link.busy, hopening, hplug]
  refine hu.turn (setLink_turns u l f) rfl (fun _ hm => hm.elim) hcut (Or.inl hborn)
    ⟨fun h => ?_, fun h => ?_, fun h => ?_, hself ▸ hfresh⟩ (fun h =>
      ?_) (fun h => ?_) (fun h => ?_)
    (fun _ => hknown) (fun _ => hknown)
  · exact absurd (hself ▸ h) hplug
  · rw [hself, hsocket] at h
    cases h
  · rw [hself, hopening] at h
    simp at h
  · rw [hself, hopening] at h
    cases h
  · rw [hidle] at h
    cases h
  · rw [hself, hopening] at h
    cases h

theorem dialed_wired (hu : u.Wired N fun _ => False) {l : LinkId}
    (hl : (u.link l).opening = .dialing) (outcome : Except String Unit) :
    (u.dialed l outcome).Wired N fun _ => False := by
  have hborn : l < u.nextLink := hu.lt_nextLink (by rw [hl]; simp)
  have hdark : (u.link l).plug = .absent := (hu.sound l).dark (Or.inr hl)
  have hsocket : (u.link l).socket = false := (hu.sound l).no_socket (by simp [hl])
  have hjob : (u.link l).Known → (u.link l).job.isSome = true := by
    rintro (h | h | h | ⟨message, h⟩)
    · exact h
    · rw [hdark] at h
      cases h
    · rw [hl] at h
      cases h
    · rw [hl] at h
      cases h
  cases outcome with
  | error message =>
    exact hu.fail (f := fun k => { k with opening := .failed message })
      (fun _ _ h => h) hborn rfl (by simp [hdark]) hsocket (hu.sound l).fresh
  | ok _ =>
    let f : Link → Link := fun k => { k with opening := .login, plug := .live }
    have hself : (u.setLink l f).link l = f (u.link l) := Function.update_self ..
    change (u.setLink l f).Wired N fun _ => False
    refine hu.turn (setLink_turns u l f) rfl (fun _ hm => hm.elim) (fun _ _ hm => hm.elim)
      (Or.inl hborn) ?_ ?_ (fun _ => Link.busy_iff.mpr (Or.inr hl)) (fun _ => ?_) ?_ ?_
    · rw [hself]
      refine ⟨fun _ => Or.inl rfl, fun hs => ?_, fun h => by simp [f] at h, fun hjob _ => ?_⟩
      · rw [show (f (u.link l)).socket = (u.link l).socket from rfl, hsocket] at hs
        cases hs
      · exact (hu.sound l).fresh hjob (by simp [hdark])
    · exact fun _ => Or.inl (by rw [hself])
    · rw [hl]
      rfl
    · rw [hself]
      exact fun h => Or.inl (hjob h)
    · rw [hself]
      exact fun h => Or.inl (hjob (hu.housed l h))

/-- Nobody is on a link whose login is under way and that has no job yet. -/
theorem Wired.empty_of_login (hu : u.Wired N fun _ => False) {l : LinkId}
    (hl : (u.link l).opening = .login) (hjob : (u.link l).job = none) :
    (u.link l).clients = [] := by
  by_contra hne
  rcases hu.housed l hne with h | h | h | ⟨message, h⟩
  · rw [hjob] at h
    cases h
  · rw [(hu.login l hl).resolve_right id] at h
    cases h
  · rw [hl] at h
    cases h
  · rw [hl] at h
    cases h

theorem loggedIn_wired (hu : u.Wired N fun _ => False) {l : LinkId}
    (hl : (u.link l).opening = .login) (outcome : Except String StratumJob) :
    (u.loggedIn l outcome).Wired N fun _ => False := by
  have hborn : l < u.nextLink := hu.lt_nextLink (by rw [hl]; simp)
  have hlive : (u.link l).plug = .live := (hu.login l hl).resolve_right id
  cases outcome with
  | error message =>
    have hsocket : (u.link l).socket = false := (hu.sound l).no_socket (by simp [hl])
    exact hu.fail (f := fun k => { k with opening := .failed message, plug := .shut })
      (fun _ _ h => h) hborn rfl (by simp) hsocket (fun _ h => absurd rfl h)
  | ok job =>
    obtain ⟨hturn, hlinks, hup, hsocket, hplug, hjob⟩ :=
      loggedIn_turns job (by simp [hlive]) (hu.empty_of_login hl)
    refine hu.turn hturn hlinks (fun _ hm => hm.elim) (fun _ _ hm => hm.elim) (Or.inl hborn)
      ⟨fun _ => Or.inr ⟨hup, hsocket⟩, fun _ => hup, fun h => ?_, fun h => ?_⟩ (fun h => ?_)
      (fun _ => ?_) (fun h => ?_) (fun _ => ?_) (fun _ => ?_)
    · rw [hup] at h
      simp at h
    · rw [h] at hjob
      cases hjob
    · rw [hup] at h
      cases h
    · exact Link.busy_iff.mpr (Or.inl hlive)
    · rw [hup] at h
      cases h
    · exact Or.inr (Or.inr (Or.inl hup))
    · exact Or.inr (Or.inr (Or.inl hup))

/-- A link may be lost while its login is under way. -/
theorem Wired.sever (hu : u.Wired N fun _ => False) {l : LinkId}
    (hl : (u.link l).opening = .login) : u.Wired N (· = l) := by
  refine ⟨hu.limit, hu.capped, hu.nodup, hu.born, hu.unborn, hu.sound,
    fun m hm => ?_, fun m hm => ?_,
    hu.alone, hu.listed, hu.closed, hu.housed, hu.aimed⟩
  · exact Or.inl ((hu.login m hm).resolve_right id)
  · exact hm ▸ hl

theorem lost_wired (hu : u.Wired N fun _ => False) {l : LinkId} (hl : (u.link l).plug = .live) :
    (u.lost l).Wired N fun _ => False := by
  unfold lost
  dsimp only
  split_ifs with hpending
  · have hlogin : (u.link l).opening = .login := by
      rcases (hu.sound l).live hl with h | ⟨h, -⟩
      · exact h
      · rw [h] at hpending
        cases hpending
    have hw : (u.hangUp l).Wired N (· = l) := (hu.sever hlogin).shifts (hangUp_shifts (Or.inr rfl))
    have hshut := hangUp_shut u l
    have hborn : l < (u.hangUp l).nextLink :=
      lt_of_lt_of_le (hu.lt_nextLink (by rw [hlogin]; simp)) (hangUp_nextLink u l)
    have hsocket : ((u.hangUp l).link l).socket = false :=
      (hw.sound l).no_socket (by simp [hw.severed l rfl])
    exact hw.fail (f := fun k => { k with opening := .failed CLOSED_ERROR })
      (fun m hml hm => hml hm) hborn rfl (by simp [hshut]) hsocket (fun _ h => absurd hshut h)
  · refine hu.shifts (hangUp_shifts (Or.inl ?_))
    rcases (hu.sound l).live hl with h | ⟨-, h⟩
    · rw [h] at hpending
      exact absurd rfl hpending
    · exact h

theorem close_link (u : Upstream) (l : LinkId) : u.close.link l = u.link l ∨
    (u.link l).socket = true ∧ u.close.link l = { u.link l with plug := .shut } := by
  unfold close
  dsimp only
  split_ifs with h
  · exact Or.inr ⟨h.2, rfl⟩
  · exact Or.inl rfl

/-- Closing leaves no socket open but that of a link that is being connected. -/
theorem close_busy (hu : u.Wired N fun _ => False) {l : LinkId}
    (hl : (u.close.link l).busy = true) : (u.link l).busy = true ∧
      (u.closed = false → l ∈ u.links ∧ (u.link l).opening.connecting = true) := by
  have hkept : (u.link l).busy = true := by
    rcases close_link u l with h | ⟨hs, h⟩
    · exact h ▸ hl
    · rw [h] at hl
      rcases Link.busy_iff.mp hl with hlive | hdial
      · cases hlive
      · exact Link.busy_iff.mpr (Or.inr hdial)
  refine ⟨hkept, fun hclosed => ?_⟩
  have hlisted := hu.listed hclosed l hkept
  refine ⟨hlisted, (hu.sound l).connecting_of_busy hkept ?_⟩
  by_contra hs
  have hs := Bool.not_eq_false _ ▸ hs
  have hshut : u.close.link l = { u.link l with plug := .shut } := if_pos ⟨hlisted, hs⟩
  rw [hshut] at hl
  rcases Link.busy_iff.mp hl with hlive | hdial
  · cases hlive
  · have hup := (hu.sound l).socket hs
    rw [show (u.link l).opening = .dialing from hdial] at hup
    cases hup

theorem close_wired (hu : u.Wired N fun _ => False) : u.close.Wired N fun _ => False := by
  have hopening : ∀ l, (u.close.link l).opening = (u.link l).opening := by
    intro l
    rcases close_link u l with h | ⟨-, h⟩ <;> rw [h]
  have hjob : ∀ l, (u.close.link l).job = (u.link l).job := by
    intro l
    rcases close_link u l with h | ⟨-, h⟩ <;> rw [h]
  have hknown : ∀ l, (u.link l).Known → (u.close.link l).Known := by
    intro l hl
    rcases close_link u l with h | ⟨-, h⟩
    · exact h ▸ hl
    · rw [h]
      exact Or.inr (Or.inl rfl)
  refine ⟨hu.limit, Nat.zero_le N, List.nodup_nil, fun l hl => (List.not_mem_nil hl).elim,
    fun l hl => ⟨(hopening l).trans (hu.unborn l hl).1, (hjob l).trans (hu.unborn l hl).2⟩,
    fun l => ?_, fun l hl => ?_,
    fun l hl => hl.elim, fun l hl => (List.not_mem_nil hl).elim, fun hclosed => ?_,
    fun _ => ⟨rfl, fun l m hl hm => ?_⟩, fun l hl => ?_,
    fun t ht l hl => hknown l (hu.aimed t ht l hl)⟩
  · rcases close_link u l with h | ⟨hs, h⟩
    · rw [h]
      exact hu.sound l
    · have hup := (hu.sound l).socket hs
      rw [h]
      refine ⟨fun hlive => ?_, fun _ => hup, fun hdark => ?_, fun _ hshut => absurd rfl hshut⟩
      · cases hlive
      · dsimp only at hdark
        rw [hup] at hdark
        simp at hdark
  · rw [hopening] at hl
    rcases close_link u l with h | ⟨hs, -⟩
    · rw [h]
      exact hu.login l hl
    · have hup := (hu.sound l).socket hs
      rw [hl] at hup
      cases hup
  · cases hclosed
  · obtain ⟨hl, hlisted⟩ := close_busy hu hl
    obtain ⟨hm, hmisted⟩ := close_busy hu hm
    cases hclosed : u.closed with
    | true => exact (hu.closed hclosed).2 l m hl hm
    | false =>
      obtain ⟨hll, hlc⟩ := hlisted hclosed
      obtain ⟨hml, hmc⟩ := hmisted hclosed
      exact hu.alone l hll m hml hlc hmc
  · refine hknown l (hu.housed l ?_)
    rcases close_link u l with h | ⟨-, h⟩
    · exact h ▸ hl
    · rw [h] at hl
      exact hl

theorem step_wired (u : Upstream) (a : Action) (v : Upstream) (hu : u.Wired N fun _ => False)
    (h : u.step a = some v) : v.Wired N fun _ => False := by
  cases ha : a.wiring with
  | false => exact hu.shifts (step_shifts hu.aimed ha h)
  | true => cases a with
    | dialed l outcome =>
      simp only [step] at h
      split_ifs at h with hl
      rw [Option.some.injEq] at h
      exact h ▸ dialed_wired hu hl outcome
    | loggedIn l outcome =>
      simp only [step] at h
      split_ifs at h with hl
      rw [Option.some.injEq] at h
      exact h ▸ loggedIn_wired hu hl outcome
    | lost l =>
      simp only [step] at h
      split_ifs at h with hl
      rw [Option.some.injEq] at h
      exact h ▸ lost_wired hu hl
    | close =>
      rw [step, Option.some.injEq] at h
      exact h ▸ close_wired hu
    | _ => cases ha

/-! ### Runs -/

theorem start_wired (maxLinks idleTimeout : ℕ) (expand : Bool) (now : ℕ)
    (client : ClientId → Client) :
    (start maxLinks idleTimeout expand now client).Wired maxLinks fun _ => False := by
  refine ⟨rfl, Nat.zero_le _, List.nodup_nil, fun l hl => (List.not_mem_nil hl).elim,
    fun _ _ => ⟨rfl, rfl⟩,
    fun l => ⟨fun h => ?_, fun h => ?_, fun _ => rfl, fun _ _ => rfl⟩,
      fun l hl => ?_, fun l hl => hl.elim,
    fun l hl => (List.not_mem_nil hl).elim, fun _ l hl => ?_, fun h => ?_, fun l hl => ?_,
    fun t ht => (List.not_mem_nil ht).elim⟩
  · cases h
  · cases h
  · cases hl
  · cases hl
  · cases h
  · exact absurd rfl hl

theorem run_wired {maxLinks idleTimeout : ℕ} {expand : Bool} {now : ℕ} {client : ClientId → Client}
    {as : List Action} {u : Upstream}
    (hrun : exec step (start maxLinks idleTimeout expand now client) as = some u) :
    u.Wired maxLinks fun _ => False :=
  exec_preserves step_wired (start_wired maxLinks idleTimeout expand now client) hrun

theorem Wired.connecting_le (hu : u.Wired N cut) :
    (u.links.filter fun l => (u.link l).opening.connecting).length ≤ 1 := by
  have hnodup : (u.links.filter fun l => (u.link l).opening.connecting).Nodup := hu.nodup.filter _
  rw [← List.toFinset_card_of_nodup hnodup]
  refine Finset.card_le_one.mpr fun l hl m hm => ?_
  obtain ⟨hl, hcl⟩ := List.mem_filter.mp (List.mem_toFinset.mp hl)
  obtain ⟨hm, hcm⟩ := List.mem_filter.mp (List.mem_toFinset.mp hm)
  exact hu.alone l hl m hm hcl hcm

theorem Wired.busy_le (hu : u.Wired N cut) (hN : 1 ≤ N) :
    {l | (u.link l).busy = true}.encard ≤ N := by
  cases hclosed : u.closed with
  | true =>
    have hone : {l | (u.link l).busy = true}.encard ≤ 1 :=
      Set.encard_le_one_iff.mpr fun l m hl hm => (hu.closed hclosed).2 l m hl hm
    exact hone.trans (by exact_mod_cast hN)
  | false =>
    have hsub : {l | (u.link l).busy = true} ⊆ (u.links.toFinset : Set LinkId) :=
      fun l hl => Finset.mem_coe.mpr (List.mem_toFinset.mpr (hu.listed hclosed l hl))
    calc {l | (u.link l).busy = true}.encard
        ≤ (u.links.toFinset : Set LinkId).encard := Set.encard_le_encard hsub
      _ = u.links.toFinset.card := Set.encard_coe_eq_coe_finsetCard _
      _ ≤ u.links.length := by exact_mod_cast List.toFinset_card_le u.links
      _ ≤ N := by exact_mod_cast hu.capped

/-- The link limit bounds the list of links and the sockets that are open or being opened, and
links are connected one after the other, however calls, sockets and sweeps interleave. -/
theorem links_capped (maxLinks idleTimeout : ℕ) (hmax : 1 ≤ maxLinks) (expand : Bool) (now : ℕ)
    (client : ClientId → Client) {as : List Action} {u : Upstream}
    (hrun : exec step (start maxLinks idleTimeout expand now client) as = some u) :
    u.links.length ≤ maxLinks ∧
      (u.links.filter fun l => (u.link l).opening.connecting).length ≤ 1 ∧
        {l | (u.link l).busy = true}.encard ≤ maxLinks := by
  have hu := run_wired hrun
  exact ⟨hu.capped, hu.connecting_le, hu.busy_le hmax⟩

/-- Two miners come while the only link is being connected; it is lost, and both wait for the
next. -/
theorem links_capped_one : ∃ u,
    exec step
      (start 1 300000 false 1000 fun _ => { hashrate := 1000, vardiff := VarDiff.new 1000 1000 })
      [.attach 0 0, .attach 1 1, .dialed 0 (.ok ()), .loggedIn 0 (.ok plainJob),
        .resume 0, .resume 0,
        .resume 0, .resume 0, .lost 0, .dialed 1 (.error "refused"), .resume 0] = some u ∧
      u.links.length ≤ 1 ∧ (u.links.filter fun l => (u.link l).opening.connecting).length ≤ 1 ∧
        {l | (u.link l).busy = true}.encard ≤ (1 : ℕ) :=
  exists_exec (by decide +kernel) fun _ h => links_capped 1 300000 le_rfl false 1000 _ h

end Upstream

end NMiner
