import NMiner.Proofs.Peers
import NMiner.Spec.Fleet

/-! What the outputs of a `UdpEdge` say of its table: `joined` and `left` count the peers, and a key
that loses its peer is reported as dropped. -/

namespace NMiner

def Note.weight : Note → ℤ
  | .on => 1
  | .off => -1

/-- What the notes add up to. -/
def Note.net (notes : List Note) : ℤ := (notes.map Note.weight).sum

@[simp] theorem Note.net_nil : Note.net [] = 0 := rfl

@[simp] theorem Note.net_cons (n : Note) (ns : List Note) :
    Note.net (n :: ns) = n.weight + Note.net ns := rfl

theorem Note.net_append (ns ms : List Note) : Note.net (ns ++ ms) = Note.net ns + Note.net ms := by
  rw [net, List.map_append, List.sum_append]
  rfl

namespace UdpEdge

open Function (update)

variable {valid : Text → Bool}

/-- The keys that have a peer. -/
def held (s : UdpEdge) : Set Key := {key | s.peers key ≠ none}

def net (os : List EdgeOutput) : ℤ := Note.net (os.filterMap EdgeOutput.note)

theorem net_append (os os' : List EdgeOutput) : net (os ++ os') = net os + net os' := by
  unfold net
  rw [List.filterMap_append, Note.net_append]

@[simp] theorem net_cons (o : EdgeOutput) (os : List EdgeOutput) :
    net (o :: os) = o.note.elim 0 Note.weight + net os := by
  unfold net
  cases ho : o.note with
  | none => simp [ho]
  | some n => simp [ho]

@[simp] theorem net_nil : net [] = 0 := rfl

/-- The end of two lists in a row. -/
theorem suffix_append_cases {α : Type*} {rest os os' : List α} (h : rest <:+ os ++ os') :
    rest <:+ os' ∨ ∃ early, rest = early ++ os' ∧ early <:+ os := by
  obtain ⟨t, ht⟩ := h
  rcases List.append_eq_append_iff.mp ht with ⟨early, hos, hrest⟩ | ⟨late, -, hos'⟩
  · exact Or.inr ⟨early, hrest, t, hos.symm⟩
  · exact Or.inl ⟨late, hos'.symm⟩

/-- The new outputs count what the table has gained, and none counts a peer that was never there. -/
structure Counts (s s' : UdpEdge) (os : List EdgeOutput) : Prop where
  out : s'.out = s.out ++ os
  finite : s.held.Finite → s'.held.Finite
  count : s.held.Finite → (s'.held.ncard : ℤ) = s.held.ncard + net os
  late : s.held.Finite → ∀ rest, rest <:+ os → net rest ≤ s'.held.ncard

/-- A key that has lost its peer is reported. -/
def Tells (s s' : UdpEdge) (os : List EdgeOutput) : Prop :=
  ∀ key, s.peers key ≠ none → s'.peers key = none → .dropped key ∈ os

variable {s s' s'' : UdpEdge} {os os' : List EdgeOutput}

theorem Counts.same (hpeers : s'.peers = s.peers) (hout : s'.out = s.out ++ os)
    (hquiet : os.filterMap EdgeOutput.note = []) : Counts s s' os := by
  have hheld : s'.held = s.held := by
    unfold held
    rw [hpeers]
  have hnet : ∀ rest, rest <:+ os → net rest = 0 := by
    intro rest hrest
    have hnone := hrest.filterMap EdgeOutput.note
    rw [hquiet, List.suffix_nil] at hnone
    rw [net, hnone, Note.net_nil]
  refine ⟨hout, fun h => hheld ▸ h, fun _ => ?_, fun _ rest hrest => ?_⟩
  · rw [hheld, hnet os List.suffix_rfl, add_zero]
  · rw [hnet rest hrest]
    exact Int.natCast_nonneg _

theorem Counts.trans (h : Counts s s' os) (h' : Counts s' s'' os') :
    Counts s s'' (os ++ os') := by
  refine ⟨?_, fun hf => h'.finite (h.finite hf), fun hf => ?_, fun hf rest hrest => ?_⟩
  · rw [h'.out, h.out, List.append_assoc]
  · rw [h'.count (h.finite hf), h.count hf, net_append, add_assoc]
  · rcases suffix_append_cases hrest with hlate | ⟨early, rfl, hearly⟩
    · exact h'.late (h.finite hf) rest hlate
    · rw [net_append, h'.count (h.finite hf)]
      have := h.late hf early hearly
      omega

theorem Tells.same (hpeers : s'.peers = s.peers) : Tells s s' os :=
  fun _ hheld hnone => absurd (hpeers ▸ hnone) hheld

theorem Tells.trans (h : Tells s s' os) (h' : Tells s' s'' os') : Tells s s'' (os ++ os') := by
  intro key hheld hnone
  by_cases hkey : s'.peers key = none
  · exact List.mem_append_left _ (h key hheld hkey)
  · exact List.mem_append_right _ (h' key hkey hnone)

/-- Both, for some outputs. -/
def Reports (s s' : UdpEdge) : Prop := ∃ os, Counts s s' os ∧ Tells s s' os

theorem Reports.same (hpeers : s'.peers = s.peers) (hout : s'.out = s.out) : Reports s s' :=
  ⟨[], Counts.same hpeers (by rw [hout, List.append_nil]) rfl, Tells.same hpeers⟩

theorem Reports.refl (s : UdpEdge) : Reports s s := Reports.same rfl rfl

theorem Reports.trans (h : Reports s s') (h' : Reports s' s'') : Reports s s'' := by
  obtain ⟨os, hcounts, htells⟩ := h
  obtain ⟨os', hcounts', htells'⟩ := h'
  exact ⟨os ++ os', hcounts.trans hcounts', htells.trans htells'⟩

theorem emit_reports (s : UdpEdge) (o : EdgeOutput) (ho : o.note = none) : Reports s (s.emit o) :=
  ⟨[o], Counts.same rfl rfl (by simp [ho]), Tells.same rfl⟩

theorem setPeer_reports (s : UdpEdge) (p : PeerId) (f : Peer → Peer) : Reports s (s.setPeer p f) :=
  Reports.same rfl rfl

theorem release_reports (s : UdpEdge) (p : PeerId) : Reports s (s.release p) := Reports.same rfl rfl

theorem discard_counts (s : UdpEdge) (key : Key) (notify : Bool) :
    ∃ os, Counts s (s.discard key notify) os ∧ (notify = true → .dropped key ∈ os) := by
  have hfirst : ∃ os, Counts s (if notify then s.emit (.dropped key) else s) os ∧
      (notify = true → .dropped key ∈ os) := by
    cases notify with
    | true => exact ⟨[.dropped key], Counts.same rfl rfl rfl, fun _ => List.mem_singleton_self _⟩
    | false => exact ⟨[], Counts.same rfl (List.append_nil _).symm rfl,
        fun h => absurd h Bool.false_ne_true⟩
  obtain ⟨os, hos, hnotified⟩ := hfirst
  unfold discard
  dsimp only
  generalize hfirst : (if notify then s.emit (.dropped key) else s) = t at hos
  cases hp : t.peers key with
  | none => exact ⟨os, hos, hnotified⟩
  | some p =>
    let u := (({ t with peers := update t.peers key none }.emit (.left key)).stop
      p).emit (.closed p)
    have hout : u.out = t.out ++ [.left key, .closed p] := by
      simp [u, emit, stop, release, setOutbox, setPeer]
    have hheld : u.held = t.held \ {key} := by
      ext k
      by_cases hk : k = key
      · simp [u, held, emit, stop, release, setOutbox, setPeer, hk]
      · simp [u, held, emit, stop, release, setOutbox, setPeer, hk]
    have hmem : key ∈ t.held := by
      unfold held
      rw [Set.mem_ofPred_eq, hp]
      exact Option.some_ne_none p
    have hone : Counts t u [.left key, .closed p] := by
      refine ⟨hout, fun hf => hheld ▸ hf.sdiff, fun hf => ?_, fun hf rest hrest => ?_⟩
      · have hpos := (Set.ncard_pos hf).mpr ⟨key, hmem⟩
        rw [hheld, Set.ncard_sdiff_singleton_of_mem hmem]
        simp only [net_cons, net_nil, EdgeOutput.note, Note.weight, Option.elim_some,
          Option.elim_none]
        omega
      · have hle : net rest ≤ 0 := by
          simp only [List.suffix_cons_iff, List.suffix_nil] at hrest
          rcases hrest with rfl | rfl | rfl <;> simp [EdgeOutput.note, Note.weight]
        omega
    exact ⟨os ++ [.left key, .closed p], hos.trans hone,
      fun h => List.mem_append_left _ (hnotified h)⟩

/-- `discard` takes one key out of the table. -/
theorem discard_peers (s : UdpEdge) (key : Key) (notify : Bool) :
    (s.discard key notify).peers = update s.peers key none := by
  unfold discard
  have hfirst : (if notify then s.emit (.dropped key) else s).peers = s.peers := by
    split_ifs <;> rfl
  dsimp only
  rw [← hfirst]
  generalize (if notify then s.emit (.dropped key) else s) = t
  cases hp : t.peers key with
  | none => exact (Function.update_eq_self_iff.mpr hp.symm).symm
  | some p => rfl

theorem drop_reports (s : UdpEdge) (key : Key) :
    ∃ os, Counts s (s.drop key) os ∧ Tells s (s.drop key) os ∧ .dropped key ∈ os := by
  obtain ⟨os, hcounts, hnotified⟩ := discard_counts s key true
  refine ⟨os, hcounts, fun k hheld hnone => ?_, hnotified rfl⟩
  by_cases hk : k = key
  · exact hk ▸ hnotified rfl
  · unfold drop at hnone
    rw [discard_peers, Function.update_of_ne hk] at hnone
    exact absurd hnone hheld

theorem drop_reported (s : UdpEdge) (key : Key) : Reports s (s.drop key) := by
  obtain ⟨os, hcounts, htells, -⟩ := drop_reports s key
  exact ⟨os, hcounts, htells⟩

theorem drops_reported (keys : List Key) (s : UdpEdge) : Reports s (keys.foldl drop s) := by
  induction keys generalizing s with
  | nil => exact Reports.refl s
  | cons key rest ih => exact (drop_reported s key).trans (ih _)

theorem send_reported (s : UdpEdge) (p : PeerId) (payload : Text) (now : ℤ) :
    Reports s (s.send p payload now) := by
  unfold send await
  dsimp only
  split_ifs
  all_goals exact ⟨[_], Counts.same rfl rfl rfl, Tells.same rfl⟩

theorem deliver_reported (s : UdpEdge) (p : PeerId) (text : Text) (now : ℤ) :
    Reports s (s.deliver p text now) := by
  unfold deliver
  split_ifs
  · exact Reports.refl s
  · exact send_reported s p text now

theorem handle_reported (s : UdpEdge) (p : PeerId) (request : Option Request) :
    Reports s (s.handle p request) := by
  cases request with
  | none =>
    unfold handle
    split_ifs
    · exact Reports.refl s
    · exact drop_reported s _
  | some request => exact Reports.same rfl rfl

theorem heard_reported (s : UdpEdge) (p : PeerId) (text : Text) (request : Option Request) :
    Reports s (s.heard p text request) := by
  unfold heard
  split_ifs with hack
  · cases parseInt36 (text.drop 1) with
    | none => exact Reports.refl s
    | some seq =>
      dsimp only
      split_ifs <;> exact Reports.same rfl rfl
  · cases dataOf text with
    | none => exact Reports.refl s
    | some data =>
      have hacked := emit_reports s (.write (s.objects p).key (ackText data.1)) rfl
      dsimp only
      split_ifs
      · exact hacked
      · exact (hacked.trans (setPeer_reports _ p _)).trans (handle_reported _ p request)

theorem resend_reported (s : UdpEdge) (p : PeerId) (now : ℤ) : Reports s (s.resend p now) := by
  unfold resend
  rcases Datagram.resend now (s.objects p).link.outbox with ⟨outbox, written, dead⟩
  have hresent : Reports s { s.setOutbox p outbox with
      out := s.out ++ written.map (.frame p (s.objects p).key) } := by
    refine ⟨written.map (.frame p (s.objects p).key), Counts.same rfl rfl ?_, Tells.same rfl⟩
    rw [List.filterMap_map]
    exact List.filterMap_eq_nil_iff.mpr fun _ _ => rfl
  dsimp only
  split_ifs
  · exact (hresent.trans (release_reports _ p)).trans (drop_reported _ _)
  · exact hresent.trans (release_reports _ p)
  · exact hresent

/-! ### Greetings -/

theorem join_counts (s : UdpEdge) (key : Key) (salt privateHash : Text) (now : ℤ)
    (hfree : s.peers key = none) : ∃ os, Counts s (s.join key salt privateHash now) os := by
  have hheld : (s.join key salt privateHash now).held = insert key s.held := by
    ext k
    unfold held
    rw [join_peers, Set.mem_ofPred_eq, Function.update_apply, Set.mem_insert_iff]
    split_ifs with hk
    · simp [hk]
    · simp [hk]
  have hnot : key ∉ s.held := fun h => h hfree
  refine ⟨[.joined key, .write key (WELCOME :: privateHash)], ?_, fun hf => ?_, fun hf => ?_,
    fun hf rest hrest => ?_⟩
  · simp [join, emit]
  · exact hheld ▸ hf.insert key
  · rw [hheld, Set.ncard_insert_of_notMem hnot hf]
    simp [EdgeOutput.note, Note.weight]
  · have hle : net rest ≤ 1 := by
      simp only [List.suffix_cons_iff, List.suffix_nil] at hrest
      rcases hrest with rfl | rfl | rfl <;> simp [EdgeOutput.note, Note.weight]
    rw [hheld, Set.ncard_insert_of_notMem hnot hf]
    omega

theorem replace_reported (s : UdpEdge) (key : Key) (salt privateHash : Text) (now : ℤ) :
    Reports s (((s.supplant key).discard key false).join key salt privateHash now) := by
  have hsame : Reports s (s.supplant key) := by
    unfold supplant
    split
    · exact Reports.refl s
    · exact Reports.same rfl rfl
  obtain ⟨os, hos, -⟩ := hsame
  obtain ⟨os', hos', -⟩ := discard_counts (s.supplant key) key false
  obtain ⟨os'', hos''⟩ := join_counts ((s.supplant key).discard key false) key salt privateHash now
    (by rw [discard_peers]; exact Function.update_self ..)
  refine ⟨_, (hos.trans hos').trans hos'', fun k hheld hnone => ?_⟩
  have hjoins := replace_joins s key salt privateHash now
  by_cases hk : k = key
  · rw [hk, hjoins.here] at hnone
    exact absurd hnone (Option.some_ne_none _)
  · rw [hjoins.peers k hk] at hnone
    exact absurd hnone hheld

theorem greet_reported (valid : Text → Bool) (s : UdpEdge) (key : Key)
    (salt privateHash : Text) (now : ℤ) :
    Reports s (s.greet valid key salt privateHash now) := by
  unfold greet
  by_cases hshort : salt.length < 64
  · rw [if_pos hshort]
    exact Reports.refl s
  · rw [if_neg hshort]
    cases s.known key salt with
    | some p => exact (setPeer_reports s p _).trans (emit_reports _ _ rfl)
    | none =>
      dsimp only
      split_ifs
      · exact replace_reported s key salt privateHash now
      · exact Reports.refl s

/-- The key of a text that arrives has a peer afterwards, or is reported. -/
theorem receive_reported (valid : Text → Bool) (s : UdpEdge) (key : Key) (text privateHash : Text)
    (request : Option Request) (now : ℤ) :
    ∃ os, Counts s (s.receive valid key text privateHash request now) os ∧
      Tells s (s.receive valid key text privateHash request now) os ∧
      ((s.receive valid key text privateHash request now).peers key = none →
        .dropped key ∈ os) := by
  unfold receive
  by_cases hhello : text.head? = some HELLO
  · rw [if_pos hhello]
    obtain ⟨os, hcounts, htells⟩ := greet_reported valid s key (text.drop 1) privateHash now
    dsimp only
    split_ifs with hnone
    · refine ⟨os ++ [.dropped key], hcounts.trans (Counts.same rfl rfl rfl),
        htells.trans (Tells.same rfl), fun _ => ?_⟩
      exact List.mem_append_right _ (List.mem_singleton_self _)
    · exact ⟨os, hcounts, htells, fun h => absurd (Option.isNone_iff_eq_none.mpr h) hnone⟩
  · rw [if_neg hhello]
    by_cases hreset : text = [] ∨ text.head? = some RESET
    · rw [if_pos hreset]
      obtain ⟨os, hcounts, htells, hdropped⟩ := drop_reports s key
      exact ⟨os, hcounts, htells, fun _ => hdropped⟩
    · rw [if_neg hreset]
      cases hp : s.peers key with
      | none =>
        obtain ⟨os, hcounts, htells⟩ := emit_reports s (.write key [RESET]) rfl
        obtain ⟨os', hcounts', htells', hdropped⟩ := drop_reports (s.emit (.write key [RESET])) key
        exact ⟨os ++ os', hcounts.trans hcounts', htells.trans htells',
          fun _ => List.mem_append_right _ hdropped⟩
      | some p =>
        have hheard : Reports s
            ((s.setPeer p fun peer => { peer with seen := now }).heard p text request) :=
          (setPeer_reports s p _).trans (heard_reported _ p text request)
        obtain ⟨os, hcounts, htells⟩ := hheard
        exact ⟨os, hcounts, htells, htells key (by rw [hp]; exact Option.some_ne_none p)⟩

theorem step_reported {a : Action.Udp} (hstep : s.step valid a = some s') :
    Counts { s with out := [] } s' s'.out ∧ Tells { s with out := [] } s' s'.out := by
  have hreports : Reports { s with out := [] } s' := by
    cases a with
    | receive key text privateHash request now =>
      obtain rfl := Option.some.inj hstep
      obtain ⟨os, hcounts, htells, -⟩ := receive_reported valid { s with out := [] } key text
        privateHash request now
      exact ⟨os, hcounts, htells⟩
    | resolve i text now =>
      obtain ⟨⟨p, request⟩, -, rfl⟩ := Option.map_eq_some_iff.mp hstep
      unfold resolved
      refine Reports.trans ?_ (deliver_reported _ p text now)
      split_ifs <;> exact Reports.same rfl rfl
    | reject i text now =>
      obtain ⟨⟨p, request⟩, -, rfl⟩ := Option.map_eq_some_iff.mp hstep
      unfold rejected
      dsimp only
      have hfirst : Reports { s with out := [] }
          (if request.id then { s with out := [], calls := s.calls.eraseIdx i }.deliver p text now
            else { s with out := [], calls := s.calls.eraseIdx i }) := by
        have hcalls : Reports { s with out := [] }
            { s with out := [], calls := s.calls.eraseIdx i } := Reports.same rfl rfl
        split_ifs
        · exact hcalls.trans (deliver_reported _ p text now)
        · exact hcalls
      split_ifs at hfirst ⊢
      all_goals first
        | exact hfirst
        | exact hfirst.trans (drop_reported _ _)
    | push p text now =>
      obtain ⟨-, hs'⟩ := Option.ite_none_right_eq_some.mp hstep
      exact Option.some.inj hs' ▸ deliver_reported _ p text now
    | kill p text now =>
      obtain ⟨-, hs'⟩ := Option.ite_none_right_eq_some.mp hstep
      exact Option.some.inj hs' ▸ (deliver_reported _ p text now).trans (Reports.same rfl rfl)
    | expire i =>
      obtain ⟨p, -, rfl⟩ := Option.map_eq_some_iff.mp hstep
      have hkills : Reports { s with out := [] }
          { s with out := [], kills := s.kills.eraseIdx i } := Reports.same rfl rfl
      exact hkills.trans (drop_reported _ _)
    | resend p now =>
      obtain ⟨-, hs'⟩ := Option.ite_none_right_eq_some.mp hstep
      exact Option.some.inj hs' ▸ resend_reported _ p now
    | sweep now => exact Option.some.inj hstep ▸ drops_reported _ _
    | close => exact Option.some.inj hstep ▸ drops_reported _ _
  obtain ⟨os, hcounts, htells⟩ := hreports
  have hout : s'.out = os := hcounts.out.trans (List.nil_append os)
  exact hout ▸ ⟨hcounts, htells⟩

end UdpEdge

end NMiner
