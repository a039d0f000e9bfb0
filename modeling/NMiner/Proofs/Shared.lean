import NMiner.Lib.Transition
import NMiner.Proofs.Objects

/-! What becomes of the `Grant` objects that a miner's ledger shares with the replies of
`get_chunk`: the ranges told are those that `take` cut as long as nothing is merged into an object
that is still to be serialised. -/

namespace NMiner

open Transition
open Function (update_self update_of_ne)

/-- No nonce is in both ranges. -/
def Grant.apart (g g' : Grant) : Bool :=
  min g.nonce_limit g'.nonce_limit ≤ max g.start_nonce g'.start_nonce

theorem Grant.apart_iff {g g' : Grant} : g.apart g' = true ↔ Disjoint g.nonces g'.nonces := by
  rw [Grant.apart, decide_eq_true_eq, Grant.nonces, Grant.nonces, Set.Ico_disjoint_Ico]

namespace Shared

/-- Whether the object of a reply must stay as it is: for any reply, or for those that still read
it. -/
def Stage.watched (all : Bool) : Stage → Bool
  | .chunk => true
  | .reply none => true
  | _ => all

namespace Upstream

variable {u v : Upstream} {l : LinkId} {count : ℚ} {g : Grant} {all : Bool}

/-! ### The replies and what is told -/

/-- Each reply has an object of its own, which is told once. -/
structure Referenced (u : Upstream) : Prop where
  held : ∀ r ∈ u.held, r < u.next
  distinct : u.held.Nodup
  replies : ∀ reply ∈ u.replies, reply.ref < u.next
  told : ∀ t ∈ u.told, t.ref < u.next
  single : (u.replies.map Reply.ref).Nodup
  untold : ∀ reply ∈ u.replies, reply.stage ≠ .told → reply.ref ∉ u.told.map Told.ref
  copies : ∀ reply ∈ u.replies, ∀ range, reply.stage = .reply (some range) →
    range = u.cut reply.ref

/-- The objects that are watched are as they were cut, and so is every range told; the ranges told
for one job are disjoint. -/
structure Fixed (all : Bool) (u : Upstream) : Prop where
  intact : ∀ reply ∈ u.replies, reply.stage.watched all = true →
    u.grants reply.ref = u.cut reply.ref
  told : ∀ t ∈ u.told, t.range = u.cut t.ref
  disjoint : u.told.Pairwise fun s t => u.key s.ref = u.key t.ref →
    Disjoint s.range.nonces t.range.nonces

/-- The range is merged into no object that is watched. -/
def spares (all : Bool) (u : Upstream) (l : LinkId) (g : Grant) : Bool :=
  u.replies.all fun reply =>
    !reply.stage.watched all || decide (u.mergesInto l g ≠ some reply.ref)

/-- The slots of the job are distinct, or the range is in none that has been told for the job. -/
def clears (u : Upstream) (key : LinkId × ℕ) (range : Grant) : Bool :=
  (u.slots key).Nodup ∨ ∀ t ∈ u.told, u.key t.ref = key → t.range.apart range = true

def serves (all : Bool) (u : Upstream) (l : LinkId) (count : ℚ) : Bool :=
  (u.cuts l count).all fun g => u.spares all l g && u.clears (l, (u.links l).pushes) g

/-- The condition on a step. -/
def keeps (all : Bool) (u : Upstream) : Action → Bool
  | .job l job_id slot extra count =>
    u.home ≠ some l || (u.setJob l job_id slot extra).serves all l count
  | .chunk job_id count => u.home.all fun l =>
    (u.links l).job_id ≠ some job_id || (u.cuts l count).all (u.spares all l)
  | .house l count => u.serves all l count
  | .serialise i => (u.replies[i]?).all fun reply => match reply.stage with
    | .reply copy => u.clears (u.key reply.ref) (copy.getD (u.grants reply.ref))
    | _ => true
  | _ => true

/-- All that is known of a state. -/
structure Sound (all : Bool) (u : Upstream) : Prop where
  partitioned : u.Partitioned
  referenced : u.Referenced
  fixed : u.Fixed all

theorem Rests.referenced (h : Rests u v) (hu : u.Referenced) : v.Referenced := by
  refine ⟨fun r hr => ?_, hu.distinct.sublist h.held, ?_, ?_, ?_, ?_, ?_⟩
  · rw [h.next]
    exact hu.held r (h.held.subset hr)
  · rw [h.replies, h.next]
    exact hu.replies
  · rw [h.told, h.next]
    exact hu.told
  · rw [h.replies]
    exact hu.single
  · rw [h.replies, h.told]
    exact hu.untold
  · rw [h.replies, h.cut]
    exact hu.copies

theorem Rests.fixed (h : Rests u v) (hu : u.Fixed all) : v.Fixed all := by
  refine ⟨?_, ?_, ?_⟩
  · rw [h.replies, h.grants, h.cut]
    exact hu.intact
  · rw [h.told, h.cut]
    exact hu.told
  · rw [h.told, h.key]
    exact hu.disjoint

theorem Rests.sound (h : Rests u v) (hu : u.Sound all) : v.Sound all :=
  ⟨h.partitioned hu.partitioned, h.referenced hu.referenced, h.fixed hu.fixed⟩

theorem setJob_sound (hu : u.Sound all) (l : LinkId) (job_id : String)
    (slot : Fin NICEHASH_SLOTS) (extra : List (Fin NICEHASH_SLOTS)) :
    (u.setJob l job_id slot extra).Sound all :=
  ⟨setJob_partitioned hu.partitioned l job_id slot extra,
    ⟨hu.referenced.held, hu.referenced.distinct, hu.referenced.replies,
      hu.referenced.told, hu.referenced.single,
      hu.referenced.untold, hu.referenced.copies⟩,
    ⟨hu.fixed.intact, hu.fixed.told, hu.fixed.disjoint⟩⟩

/-! ### A range that is cut for the miner -/

theorem Gains.cut_of_lt {last : Option Ref} (h : Gains u v l count g last) {r : Ref}
    (hr : r < u.next) : v.cut r = u.cut r := by
  rw [h.cut, update_of_ne hr.ne]

theorem Gains.key_of_lt {last : Option Ref} (h : Gains u v l count g last) {r : Ref}
    (hr : r < u.next) : v.key r = u.key r := by
  rw [h.key, update_of_ne hr.ne]

theorem Gains.lt {last : Option Ref} (h : Gains u v l count g last) :
    g.start_nonce < g.nonce_limit := by
  have hcuts := h.cuts
  unfold Upstream.cuts at hcuts
  split_ifs at hcuts
  exact take_lt hcuts

theorem Gains.referenced {last : Option Ref} (h : Gains u v l count g last)
    (hu : u.Referenced) : v.Referenced := by
  refine ⟨fun r hr => ?_, ?_, fun reply hreply => ?_, fun t ht => ?_, ?_, ?_,
    fun reply hreply range => ?_⟩
  · rw [h.next]
    rcases h.held with hsub | ⟨old, hsub, heq⟩
    · exact Nat.lt_succ_of_lt (hu.held r (hsub.subset hr))
    · rw [heq] at hr
      rcases List.mem_append.mp hr with hr | hr
      · exact Nat.lt_succ_of_lt (hu.held r (hsub.subset hr))
      · exact List.mem_singleton.mp hr ▸ Nat.lt_succ_self _
  · rcases h.held with hsub | ⟨old, hsub, heq⟩
    · exact hu.distinct.sublist hsub
    · rw [heq, ← List.concat_eq_append]
      exact (hu.distinct.sublist hsub).concat fun hr => lt_irrefl _ (hu.held _ (hsub.subset hr))
  · rw [h.next]
    exact Nat.lt_succ_of_lt (hu.replies reply (h.replies ▸ hreply))
  · rw [h.next]
    exact Nat.lt_succ_of_lt (hu.told t (h.told ▸ ht))
  · rw [h.replies]
    exact hu.single
  · rw [h.replies, h.told]
    exact hu.untold
  · rw [h.replies] at hreply
    rw [h.cut_of_lt (hu.replies reply hreply)]
    exact hu.copies reply hreply range

/-- The objects that are watched stay as they are exactly if the range is merged into none. -/
theorem Gains.fixed_iff (h : Gains u v l count g (u.mergesInto l g)) (hr : u.Referenced)
    (hu : u.Fixed all) : v.Fixed all ↔ u.spares all l g = true := by
  have hintact : ∀ reply ∈ u.replies, reply.stage.watched all = true →
      (v.grants reply.ref = v.cut reply.ref ↔ u.mergesInto l g ≠ some reply.ref) := by
    intro reply hreply hwatched
    have hlt := hr.replies reply hreply
    have hsame := hu.intact reply hreply hwatched
    rw [h.grants _ hlt, h.cut_of_lt hlt, ← hsame]
    split_ifs with hmerges
    · refine iff_of_false (fun heq => ?_) (not_not.mpr hmerges)
      -- the limit has grown
      obtain ⟨job_id, -, hmerged⟩ := Option.bind_eq_some_iff.mp hmerges
      have hlimit := congrArg Grant.nonce_limit heq
      rw [(mem_held_of_merged hmerged).2] at hlimit
      exact h.lt.ne' hlimit
    · exact iff_of_true rfl hmerges
  unfold spares
  rw [List.all_eq_true]
  constructor
  · intro hv reply hreply
    cases hwatched : reply.stage.watched all with
    | false => rfl
    | true =>
      have hgrants := hv.intact reply (h.replies.symm ▸ hreply) hwatched
      exact decide_eq_true ((hintact reply hreply hwatched).mp hgrants)
  · refine fun hspares => ⟨fun reply hreply hwatched => ?_, fun t ht => ?_, ?_⟩
    · rw [h.replies] at hreply
      have hspare := hspares reply hreply
      rw [hwatched] at hspare
      exact (hintact reply hreply hwatched).mpr (of_decide_eq_true hspare)
    · rw [h.told] at ht
      rw [h.cut_of_lt (hr.told t ht)]
      exact hu.told t ht
    · rw [h.told]
      refine hu.disjoint.imp_of_mem fun {s t} hs ht hdisjoint => ?_
      rw [h.key_of_lt (hr.told s hs), h.key_of_lt (hr.told t ht)]
      exact hdisjoint

/-- What a range must meet to be told: it is new to the job, or the slots of the job are not
distinct and it happens to be. -/
theorem clears_iff {key : LinkId × ℕ} (hfresh : (u.slots key).Nodup →
      ∀ t ∈ u.told, u.key t.ref = key → Disjoint t.range.nonces g.nonces) :
    u.clears key g = true ↔
      ∀ t ∈ u.told, u.key t.ref = key → Disjoint t.range.nonces g.nonces := by
  unfold clears
  rw [decide_eq_true_eq]
  constructor
  · rintro (hnodup | hclear)
    · exact hfresh hnodup
    · exact fun t ht hkey => Grant.apart_iff.mp (hclear t ht hkey)
  · exact fun hdisjoint => Or.inr fun t ht hkey => Grant.apart_iff.mpr (hdisjoint t ht hkey)

/-- A range that is told right leaves all as it is exactly if it is disjoint from those told for the
job. -/
theorem tell_fixed_iff {r : Ref} (hcut : g = u.cut r) : (u.tell r g).Fixed all ↔
    u.Fixed all ∧ ∀ t ∈ u.told, u.key t.ref = u.key r → Disjoint t.range.nonces g.nonces := by
  have hpairs : (u.tell r g).told.Pairwise (fun s t => u.key s.ref = u.key t.ref →
      Disjoint s.range.nonces t.range.nonces) ↔
      u.told.Pairwise (fun s t => u.key s.ref = u.key t.ref →
        Disjoint s.range.nonces t.range.nonces) ∧
        ∀ t ∈ u.told, u.key t.ref = u.key r → Disjoint t.range.nonces g.nonces := by
    rw [tell, List.pairwise_append]
    refine and_congr_right fun _ => ⟨fun h t ht => h.2 t ht _ (List.mem_singleton_self _),
      fun h => ⟨List.pairwise_singleton _ _, fun s hs t ht => ?_⟩⟩
    rw [List.mem_singleton.mp ht]
    exact h s hs
  constructor
  · intro h
    obtain ⟨hdisjoint, hnew⟩ := hpairs.mp h.disjoint
    exact ⟨⟨h.intact, fun t ht => h.told t (List.mem_append_left _ ht), hdisjoint⟩, hnew⟩
  · rintro ⟨hu, hnew⟩
    refine ⟨hu.intact, fun t ht => ?_, hpairs.mpr ⟨hu.disjoint, hnew⟩⟩
    rcases List.mem_append.mp ht with ht | ht
    · exact hu.told t ht
    · rw [List.mem_singleton.mp ht]
      exact hcut

theorem tell_referenced (hu : u.Referenced) {r : Ref} (hr : r < u.next)
    (hreplies : ∀ reply ∈ u.replies, reply.stage ≠ .told → reply.ref ≠ r) (range : Grant) :
    (u.tell r range).Referenced := by
  refine ⟨hu.held, hu.distinct, hu.replies, fun t ht => ?_, hu.single,
    fun reply hreply hstage => ?_, hu.copies⟩
  · rcases List.mem_append.mp ht with ht | ht
    · exact hu.told t ht
    · exact List.mem_singleton.mp ht ▸ hr
  · rw [tell, List.map_append, List.mem_append, List.map_singleton, List.mem_singleton]
    exact not_or.mpr ⟨hu.untold reply hreply hstage, hreplies reply hreply hstage⟩

/-! ### Steps -/

/-- A step keeps what holds in any run, and the objects and ranges exactly if it meets its
condition. -/
structure Turns (all : Bool) (v : Upstream) (ok : Bool) : Prop where
  partitioned : v.Partitioned
  referenced : v.Referenced
  fixed : v.Fixed all ↔ ok = true

theorem Sound.turns (h : v.Sound all) : v.Turns all true :=
  ⟨h.partitioned, h.referenced, iff_of_true h.fixed rfl⟩

theorem tell_partitioned (hu : u.Partitioned) (r : Ref) (range : Grant) :
    (u.tell r range).Partitioned := ⟨hu.pushes, hu.space, hu.behind, hu.apart⟩

theorem serve_turns (hu : u.Sound all) (l : LinkId) (count : ℚ) :
    (u.serve l count).Turns all (u.serves all l count) := by
  unfold serve serves
  rcases grant_cases hu.referenced.held l count with
    ⟨hcuts, v, hgrant, hrests⟩ | ⟨g, v, hcuts, hgrant, hgains⟩
  · rw [hcuts, hgrant]
    exact (hrests.sound hu).turns
  · rw [hcuts, hgrant]
    dsimp only
    rw [hgains.own]
    have hreferenced := hgains.referenced hu.referenced
    refine ⟨tell_partitioned (hgains.partitioned hu.partitioned) _ _, ?_, ?_⟩
    · refine tell_referenced hreferenced (hgains.next ▸ Nat.lt_succ_self _)
        (fun reply hreply _ => ?_) g
      exact (hu.referenced.replies reply (hgains.replies ▸ hreply)).ne
    · have hcut : g = v.cut u.next := by rw [hgains.cut, update_self]
      have hkey : v.key u.next = (l, (u.links l).pushes) := by rw [hgains.key, update_self]
      have hclears : u.clears (l, (u.links l).pushes) g = true ↔
          ∀ t ∈ u.told, u.key t.ref = (l, (u.links l).pushes) →
            Disjoint t.range.nonces g.nonces := clears_iff fun hnodup t ht htkey => by
        rw [hu.fixed.told t ht]
        exact hu.partitioned.fresh hcuts hnodup (hu.referenced.told t ht) htkey
      rw [tell_fixed_iff hcut, hgains.fixed_iff hu.referenced hu.fixed, Option.all_some,
        Bool.and_eq_true, hclears, hgains.told, hkey]
      refine and_congr_right fun _ => forall₂_congr fun t ht => ?_
      rw [hgains.key_of_lt (hu.referenced.told t ht)]

theorem chunk_turns (hu : u.Sound all) (job_id : String) (count : ℚ) :
    (u.chunk job_id count).Turns all (u.keeps all (.chunk job_id count)) := by
  unfold chunk keeps
  rcases u.home with _ | l
  · exact hu.turns
  dsimp only [Option.all_some]
  by_cases hjob : (u.links l).job_id ≠ some job_id
  · rw [if_pos hjob, decide_eq_true hjob]
    exact hu.turns
  rw [if_neg hjob, decide_eq_false hjob, Bool.false_or]
  rcases grant_cases hu.referenced.held l count with
    ⟨hcuts, v, hgrant, hrests⟩ | ⟨g, v, hcuts, hgrant, hgains⟩
  · rw [hcuts, hgrant]
    exact (hrests.sound hu).turns
  · rw [hcuts, hgrant]
    dsimp only
    have hp := hgains.partitioned hu.partitioned
    have hr := hgains.referenced hu.referenced
    have hnew : u.next < v.next := hgains.next ▸ Nat.lt_succ_self _
    refine ⟨⟨hp.pushes, hp.space, hp.behind, hp.apart⟩, ⟨hr.held, hr.distinct,
      fun reply hreply => ?_, hr.told, ?_, fun reply hreply hstage => ?_,
      fun reply hreply range hstage => ?_⟩, ?_⟩
    · rcases List.mem_append.mp hreply with hreply | hreply
      · exact hr.replies reply hreply
      · rw [List.mem_singleton.mp hreply]
        exact hnew
    · rw [List.map_append, List.map_singleton, ← List.concat_eq_append]
      refine hr.single.concat fun hmem => ?_
      obtain ⟨reply, hreply, heq⟩ := List.mem_map.mp hmem
      exact (hu.referenced.replies reply (hgains.replies ▸ hreply)).ne heq
    · rcases List.mem_append.mp hreply with hreply | hreply
      · exact hr.untold reply hreply hstage
      · rw [List.mem_singleton.mp hreply]
        intro hmem
        obtain ⟨t, ht, heq⟩ := List.mem_map.mp hmem
        exact (hu.referenced.told t (hgains.told ▸ ht)).ne heq
    · rcases List.mem_append.mp hreply with hreply | hreply
      · exact hr.copies reply hreply range hstage
      · rw [List.mem_singleton.mp hreply] at hstage
        cases hstage
    · rw [Option.all_some, ← hgains.fixed_iff hu.referenced hu.fixed]
      refine ⟨fun h => ⟨fun reply hreply => h.intact reply (List.mem_append_left _ hreply), h.told,
        h.disjoint⟩, fun h => ⟨fun reply hreply hwatched => ?_, h.told, h.disjoint⟩⟩
      rcases List.mem_append.mp hreply with hreply | hreply
      · exact h.intact reply hreply hwatched
      · rw [List.mem_singleton.mp hreply]
        change v.grants u.next = v.cut u.next
        rw [hgains.own, hgains.cut, update_self]

/-! ### A reply on its way -/

section setStage

variable {i : ℕ} {stage : Stage} {reply : Reply}

theorem mem_setStage (h : reply ∈ (u.setStage i stage).replies) : ∃ j old,
    u.replies[j]? = some old ∧ reply = if i = j then { old with stage := stage } else old := by
  obtain ⟨j, hj⟩ := List.mem_iff_getElem?.mp h
  rw [setStage, List.getElem?_modify] at hj
  obtain ⟨old, hold, heq⟩ := Option.map_eq_some_iff.mp hj
  refine ⟨j, old, hold, heq.symm.trans ?_⟩
  split_ifs <;> rfl

theorem setStage_refs (u : Upstream) (i : ℕ) (stage : Stage) :
    (u.setStage i stage).replies.map Reply.ref = u.replies.map Reply.ref := by
  refine List.ext_getElem? fun j => ?_
  rw [setStage, List.getElem?_map, List.getElem?_map, List.getElem?_modify]
  cases u.replies[j]? with
  | none => rfl
  | some old =>
    split_ifs <;> rfl

theorem setStage_referenced (hu : u.Referenced) (hi : u.replies[i]? = some reply)
    (hreply : reply.stage ≠ .told)
    (hcopy : ∀ range, stage = .reply (some range) → range = u.cut reply.ref) :
    (u.setStage i stage).Referenced := by
  refine ⟨hu.held, hu.distinct, fun r hr => ?_, hu.told, setStage_refs u i stage ▸ hu.single,
    fun r hr hstage => ?_, fun r hr range hstage => ?_⟩
  · obtain ⟨j, old, hold, rfl⟩ := mem_setStage hr
    have := hu.replies old (List.mem_of_getElem? hold)
    split_ifs <;> exact this
  · obtain ⟨j, old, hold, rfl⟩ := mem_setStage hr
    have huntold := hu.untold old (List.mem_of_getElem? hold)
    split_ifs at hstage ⊢ with heq
    · obtain rfl := Option.some.inj (hold.symm.trans (heq ▸ hi))
      exact huntold hreply
    · exact huntold hstage
  · obtain ⟨j, old, hold, rfl⟩ := mem_setStage hr
    have hcopies := hu.copies old (List.mem_of_getElem? hold) range
    split_ifs at hstage ⊢ with heq
    · obtain rfl := Option.some.inj (hold.symm.trans (heq ▸ hi))
      exact hcopy range hstage
    · exact hcopies hstage

theorem setStage_fixed (hu : u.Fixed all) (hi : u.replies[i]? = some reply)
    (hwatched : stage.watched all = true → reply.stage.watched all = true) :
    (u.setStage i stage).Fixed all := by
  refine ⟨fun r hr hw => ?_, hu.told, hu.disjoint⟩
  obtain ⟨j, old, hold, rfl⟩ := mem_setStage hr
  have hintact := hu.intact old (List.mem_of_getElem? hold)
  split_ifs at hw ⊢ with heq
  · obtain rfl := Option.some.inj (hold.symm.trans (heq ▸ hi))
    exact hintact (hwatched hw)
  · exact hintact hw

end setStage

theorem resume_turns (hu : u.Sound all) {i : ℕ} {reply : Reply} (hi : u.replies[i]? = some reply)
    (hstage : reply.stage = .chunk) (copies : Bool) :
    (u.setStage i (.reply (if copies then some (u.grants reply.ref) else none))).Turns
      all true := by
  have hwatched : reply.stage.watched all = true := by
    rw [hstage]
    rfl
  have hsame := hu.fixed.intact reply (List.mem_of_getElem? hi) hwatched
  refine ⟨⟨hu.partitioned.pushes, hu.partitioned.space, hu.partitioned.behind,
    hu.partitioned.apart⟩,
    setStage_referenced hu.referenced hi (by simp [hstage]) fun range hrange => ?_,
    iff_of_true (setStage_fixed hu.fixed hi fun _ => hwatched) rfl⟩
  cases copies with
  | true =>
    rw [if_pos rfl] at hrange
    rw [← hsame]
    cases hrange
    rfl
  | false => cases hrange

theorem serialise_turns (hu : u.Sound all) {i : ℕ} {reply : Reply} (hi : u.replies[i]? = some reply)
    {copy : Option Grant} (hstage : reply.stage = .reply copy) :
    ((u.setStage i .told).tell reply.ref (copy.getD (u.grants reply.ref))).Turns all
      (u.clears (u.key reply.ref) (copy.getD (u.grants reply.ref))) := by
  have hmem := List.mem_of_getElem? hi
  have huntold : reply.stage ≠ .told := by simp [hstage]
  have hlt := hu.referenced.replies reply hmem
  -- a copy was made while the object was as it was cut, and without one the object still is
  have hcut : copy.getD (u.grants reply.ref) = u.cut reply.ref := by
    cases copy with
    | none => exact hu.fixed.intact reply hmem (by rw [hstage]; rfl)
    | some range => exact hu.referenced.copies reply hmem range hstage
  have hreferenced : (u.setStage i .told).Referenced :=
    setStage_referenced hu.referenced hi huntold (by simp)
  have hfixed : (u.setStage i .told).Fixed all := by
    refine setStage_fixed hu.fixed hi fun hall => ?_
    rw [hstage]
    cases copy with
    | none => rfl
    | some range => exact hall
  have hpartitioned : (u.setStage i .told).Partitioned :=
    ⟨hu.partitioned.pushes, hu.partitioned.space, hu.partitioned.behind, hu.partitioned.apart⟩
  refine ⟨tell_partitioned hpartitioned _ _,
    tell_referenced hreferenced hlt (fun r hr hr' heq => ?_) _, ?_⟩
  · obtain ⟨j, old, hold, rfl⟩ := mem_setStage hr
    split_ifs at hr' heq with hij
    · exact hr' rfl
    · -- no other reply has this object
      refine hij ((List.getElem?_inj ?_ hu.referenced.single).mp ?_)
      · rw [List.length_map]
        exact (List.getElem?_eq_some_iff.mp hi).1
      · rw [List.getElem?_map, List.getElem?_map, hi, hold, Option.map_some, Option.map_some, heq]
  · have hclears : u.clears (u.key reply.ref) (copy.getD (u.grants reply.ref)) = true ↔
        ∀ t ∈ u.told, u.key t.ref = u.key reply.ref →
          Disjoint t.range.nonces (copy.getD (u.grants reply.ref)).nonces :=
      clears_iff fun hnodup t ht hkey => by
        have hne : t.ref ≠ reply.ref := fun heq =>
          hu.referenced.untold reply hmem huntold (heq ▸ List.mem_map_of_mem ht)
        rw [hcut, hu.fixed.told t ht]
        exact hu.partitioned.apart _ (hu.referenced.told t ht) _ hlt hne hkey (hkey ▸ hnodup)
    rw [hclears]
    exact (tell_fixed_iff (u := u.setStage i .told) hcut).trans (and_iff_right hfixed)

theorem step_turns (hu : u.Sound all) (a : Action) (h : u.step a = some v) :
    v.Turns all (u.keeps all a) := by
  cases a with
  | job l job_id slot extra count =>
    obtain rfl := Option.some.inj h
    have hjob := setJob_sound hu l job_id slot extra
    have hhome : (u.setJob l job_id slot extra).home = u.home := rfl
    unfold accept keeps
    dsimp only
    rw [hhome]
    by_cases hl : u.home = some l
    · rw [if_pos hl, decide_eq_false (not_not.mpr hl), Bool.false_or]
      exact serve_turns hjob l count
    · rw [if_neg hl, decide_eq_true hl]
      exact hjob.turns
  | chunk job_id count => exact Option.some.inj h ▸ chunk_turns hu job_id count
  | house l count =>
    obtain rfl := Option.some.inj h
    have hrests : Rests u { u with home := some l } := { Rests.refl u with }
    exact serve_turns (hrests.sound hu) l count
  | rehome home =>
    obtain rfl := Option.some.inj h
    have hrests : Rests u { u with home := home } := { Rests.refl u with }
    exact (hrests.sound hu).turns
  | detach =>
    obtain rfl := Option.some.inj h
    have hrests : Rests u { u with home := none, ledger := {} } :=
      { Rests.refl u with held := List.nil_sublist _ }
    exact (hrests.sound hu).turns
  | sever l =>
    obtain rfl := Option.some.inj h
    have hlink : Rests u (u.setLink l fun link => { link with job_id := none }) :=
      setLink_rests u l rfl (Or.inl rfl)
    have hrests : Rests u { u.setLink l fun link => { link with job_id := none } with
        home := if u.home = some l then none else u.home } := { hlink with }
    exact (hrests.sound hu).turns
  | other l count =>
    obtain rfl := Option.some.inj h
    split_ifs
    · exact hu.turns
    · exact ((take_rests u l count).sound hu).turns
  | resume i copies =>
    obtain ⟨reply, hi, h⟩ := Option.bind_eq_some_iff.mp h
    obtain ⟨hstage, h⟩ := Option.ite_none_right_eq_some.mp h
    exact Option.some.inj h ▸ resume_turns hu hi hstage copies
  | serialise i =>
    obtain ⟨reply, hi, h⟩ := Option.bind_eq_some_iff.mp h
    simp only [keeps, hi, Option.all_some]
    cases hstage : reply.stage with
    | chunk =>
      rw [hstage] at h
      cases h
    | reply copy =>
      rw [hstage] at h
      exact Option.some.inj h ▸ serialise_turns hu hi hstage
    | told =>
      rw [hstage] at h
      cases h

/-! ### Runs -/

theorem new_sound (all : Bool) : Sound all {} where
  partitioned := by
    refine ⟨fun r hr => absurd hr (Nat.not_lt_zero r), fun l _ => ?_,
      fun r hr => absurd hr (Nat.not_lt_zero r), fun r hr => absurd hr (Nat.not_lt_zero r)⟩
    exact createSpace_wellFormed [] .nil fun _ hs => (by cases hs)
  referenced := ⟨fun _ hr => (by cases hr), .nil, fun _ hr => (by cases hr),
    fun _ ht => (by cases ht), .nil, fun _ hr => (by cases hr), fun _ hr => (by cases hr)⟩
  fixed := ⟨fun _ hr => (by cases hr), fun _ ht => (by cases ht), .nil⟩

/-- In every state of a run the objects that `chunk` has returned are as they were cut (all of them,
or those still to be serialised), each range told is the one cut for its call, and those told for
one job are disjoint, if and only if no range is merged into such an object when it is recorded, and
none is told again for a job of which a slot occurs twice. -/
theorem grants_fixed_iff (all : Bool) (actions : List Action) (u : Upstream)
    (hrun : exec step {} actions = some u) :
    Meets step (fun u a => u.keeps all a = true) {} actions ↔
      ∀ n v, exec step {} (actions.take n) = some v → v.Fixed all := by
  have hnew := new_sound all
  refine meets_iff_forall (I := fun u => u.Partitioned ∧ u.Referenced) (P := Fixed all)
    (fun u a v hu hfixed h => (step_turns ⟨hu.1, hu.2, hfixed⟩ a h).fixed)
    (fun u a v hu hfixed h _ => ?_) ⟨hnew.partitioned, hnew.referenced⟩ hnew.fixed hrun
  have hturns := step_turns ⟨hu.1, hu.2, hfixed⟩ a h
  exact ⟨hturns.partitioned, hturns.referenced⟩

/-- The first range that the miner is told is merged with its second, and only then another miner is
served: the third is an object of the ledger. -/
theorem grants_fixed_iff_apart : ∃ u, exec step {}
    [.job 0 "1" 0 [] 4096, .house 0 4096, .chunk "1" 4096, .resume 0 false, .serialise 0,
      .other 0 4096, .chunk "1" 4096, .resume 1 true, .serialise 1] = some u ∧
    u.told.map Told.range = [⟨0, 4096⟩, ⟨4096, 8192⟩, ⟨12288, 16384⟩] ∧ u.Fixed true := by
  have hrun : (exec step {} [.job 0 "1" 0 [] 4096, .house 0 4096, .chunk "1" 4096,
      .resume 0 false, .serialise 0, .other 0 4096, .chunk "1" 4096, .resume 1 true,
      .serialise 1]).any (fun u =>
        u.told.map Told.range = [⟨0, 4096⟩, ⟨4096, 8192⟩, ⟨12288, 16384⟩]) = true := by
    decide +kernel
  obtain ⟨u, hu, htold⟩ := (Option.any_eq_true _ _).mp hrun
  exact ⟨u, hu, of_decide_eq_true htold,
    (grants_fixed_iff true _ u hu).mp (by decide +kernel) 9 u hu⟩

/-- Another miner is served before the first of two calls, and the second is granted before the
reply of the first is serialised: the miner is told the second range twice. -/
theorem told_twice : ¬ ∀ u, exec step {}
    [.job 0 "1" 0 [] 4096, .house 0 4096, .other 0 4096, .chunk "1" 4096, .chunk "1" 4096,
      .resume 0 false, .resume 1 false, .serialise 0, .serialise 1] = some u → u.Fixed false := by
  intro h
  have hrun : (exec step {} [.job 0 "1" 0 [] 4096, .house 0 4096, .other 0 4096,
      .chunk "1" 4096, .chunk "1" 4096, .resume 0 false, .resume 1 false, .serialise 0,
      .serialise 1]).any (fun u =>
        u.told = [⟨0, ⟨0, 4096⟩⟩, ⟨1, ⟨8192, 16384⟩⟩, ⟨2, ⟨12288, 16384⟩⟩] ∧
          u.key 1 = u.key 2) = true := by decide +kernel
  obtain ⟨u, hu, hstate⟩ := (Option.any_eq_true _ _).mp hrun
  obtain ⟨htold, hkey⟩ := of_decide_eq_true hstate
  have hdisjoint := (h u hu).disjoint
  rw [htold] at hdisjoint
  have hlast := (List.pairwise_cons.mp (List.pairwise_cons.mp hdisjoint).2).1 _
    (List.mem_singleton_self _) hkey
  exact absurd (Grant.apart_iff.mpr hlast) (by decide)

end Upstream

end Shared

end NMiner
