import NMiner.Proofs.Difficulty
import NMiner.Proofs.Granting
import NMiner.Proofs.Loads
import NMiner.Proofs.Stock

/-! The fan-out of a job on a link that is not too full. What a space can still grant goes down with
each grant by no more than the miner's hashes in the window and the smallest chunk together, so
there is something left for everybody if the space covers the sum. But the first miner for whom the
job's target does not decode ends the fan-out. -/

namespace NMiner

/-! ### What a space can still grant -/

/-- The nonces of a segment from the cursor on, without the one that is never granted. -/
def Segment.rest (s : Segment) (cursor : ℤ) : ℤ :=
  max 0 (min (s.base + s.size) TOP - (s.base + cursor))

/-- What the rest of the current segment and those behind it have to give. -/
def NonceSpace.reserve (space : NonceSpace) : ℤ := match space.segments.drop space.index with
  | [] => 0
  | s :: rest => s.rest space.cursor + (rest.map fun s => s.rest 0).sum

theorem reserve_cons {space : NonceSpace} (h : space.index < space.segments.length) :
    space.reserve = (space.segments[space.index]).rest space.cursor +
      ((space.segments.drop (space.index + 1)).map fun s => s.rest 0).sum := by
  rw [NonceSpace.reserve, List.drop_eq_getElem_cons h]

theorem reserve_next (space : NonceSpace) :
    ({ space with index := space.index + 1, cursor := 0 } : NonceSpace).reserve =
      ((space.segments.drop (space.index + 1)).map fun s => s.rest 0).sum := by
  rw [NonceSpace.reserve]
  dsimp only
  cases space.segments.drop (space.index + 1) with
  | nil => rfl
  | cons s rest => rw [List.map_cons, List.sum_cons]

/-- A call of `take` lowers the reserve by at most what was asked for, and gives nothing only when
there is none. -/
theorem take_reserve (space : NonceSpace) (count : ℚ) :
    space.reserve ≤ max 1 ⌊count⌋ + (take space count).2.reserve ∧
      ((take space count).1 = none → space.reserve ≤ 0) ∧
      ∀ g, (take space count).1 = some g → g.start_nonce < g.nonce_limit := by
  fun_induction take space count with
  | case1 space h segment left hleft ih =>
    have hsame : space.reserve =
        ({ space with index := space.index + 1, cursor := 0 } : NonceSpace).reserve := by
      rw [reserve_next, reserve_cons h, add_eq_right]
      simp only [Segment.rest, left, segment] at hleft ⊢
      omega
    rw [hsame]
    exact ih
  | case2 space h segment left hleft size start limit rest hlimit =>
    refine ⟨?_, fun hnone => (by cases hnone), fun g hg => Option.some.inj hg ▸ hlimit⟩
    have hsize : size ≤ max 1 ⌊count⌋ := min_le_left _ _
    have hpos : 0 < size := by
      simp only [size]
      omega
    rw [reserve_cons h, @reserve_cons rest h]
    simp only [Segment.rest, rest]
    omega
  | case3 space h segment left hleft size start limit rest hlimit ih =>
    have hpos : 0 < size := by
      simp only [size]
      omega
    -- what is skipped cannot be granted
    have htop : TOP ≤ start := by
      simp only [limit] at hlimit
      omega
    have hsame : space.reserve = rest.reserve := by
      rw [reserve_cons h, @reserve_cons rest h]
      simp only [Segment.rest, rest, start, segment] at htop ⊢
      omega
    rw [hsame]
    exact ih
  | case4 space h =>
    have hnone : space.reserve = 0 := by
      rw [NonceSpace.reserve, List.drop_eq_nil_of_le (not_lt.mp h)]
    rw [hnone]
    exact ⟨by positivity, fun _ => le_rfl, fun g hg => (by cases hg)⟩

theorem Segment.rest_le {s : Segment} (cursor : ℤ) (h : cursor ≤ s.size) :
    s.rest cursor ≤ s.size - cursor := by
  unfold Segment.rest
  omega

theorem reserve_le_spaceLeft {space : NonceSpace} (h : space.Sized) :
    space.reserve ≤ spaceLeft space := by
  have hbehind : ∀ ss : List Segment, (∀ s ∈ ss, 0 ≤ s.size) →
      (ss.map fun s => s.rest 0).sum ≤ (ss.map Segment.size).sum := by
    intro ss hss
    refine List.sum_le_sum fun s hs => ?_
    have hle := Segment.rest_le 0 (hss s hs)
    rwa [sub_zero] at hle
  by_cases hi : space.index < space.segments.length
  · have hle := hbehind (space.segments.drop (space.index + 1)) fun s hs =>
      (h.within s (List.mem_of_mem_drop hs)).2.1
    have hhead := Segment.rest_le space.cursor (h.high hi)
    rw [reserve_cons hi, spaceLeft, List.drop_eq_getElem_cons hi]
    dsimp only
    split_ifs <;> linarith
  · rw [NonceSpace.reserve, List.drop_eq_nil_of_le (not_lt.mp hi), spaceLeft,
      List.drop_eq_nil_of_le (not_lt.mp hi)]
    exact le_rfl

/-! ### A fresh space -/

open Upstream (segmentOf segments_nicehashSpace)

theorem segmentOf_rest {b : ℤ} (h : b < NICEHASH_SLOTS) :
    (segmentOf b).rest 0 = if b = 255 then NICEHASH_SPAN - 1 else NICEHASH_SPAN := by
  unfold NICEHASH_SLOTS at h
  simp only [Segment.rest, segmentOf, NICEHASH_SPAN, TOP]
  split_ifs <;> omega

/-- Only the last slot has a nonce that is never granted. -/
theorem sum_rest (bs : List ℤ) (h : ∀ b ∈ bs, b < NICEHASH_SLOTS) :
    ((bs.map segmentOf).map fun s => s.rest 0).sum = NICEHASH_SPAN * bs.length - bs.count 255 := by
  induction bs with
  | nil => rfl
  | cons b bs ih =>
    have hb := segmentOf_rest (h b List.mem_cons_self)
    simp only [List.map_cons, List.sum_cons, ih fun x hx => h x (List.mem_cons_of_mem b hx), hb,
      List.length_cons, List.count_cons, beq_iff_eq]
    split_ifs <;> push_cast <;> ring

theorem sum_size (bs : List ℤ) :
    ((bs.map segmentOf).map Segment.size).sum = NICEHASH_SPAN * bs.length := by
  induction bs with
  | nil => rfl
  | cons b bs ih =>
    rw [List.map_cons, List.map_cons, List.sum_cons, ih, List.length_cons]
    simp only [segmentOf]
    push_cast
    ring

/-- The space that a job with this slot is given. -/
def arrivalSpace (slot : ℤ) (extra : List ℤ) : NonceSpace :=
  if 0 < slot then nicehashSpace slot extra else fullSpace

variable {slot : ℤ} {extra : List ℤ}

theorem arrivalSpace_sized (hslot : slot < NICEHASH_SLOTS) (hextra : Spare extra) :
    (arrivalSpace slot extra).Sized := by
  unfold arrivalSpace
  split_ifs with hpos
  · unfold nicehashSpace
    refine createSpace_sized ?_ fun s hs => ?_
    · have hsub : extra ⊆ (List.range NICEHASH_SLOTS).map Int.ofNat := by
        intro b hb
        obtain ⟨h0, hlt⟩ := hextra.2 b hb
        exact List.mem_map.mpr ⟨b.toNat, List.mem_range.mpr (by omega), Int.toNat_of_nonneg h0⟩
      have hlen := (hextra.1.subperm hsub).length_le
      rw [List.length_map, List.length_range] at hlen
      rw [List.length_map, List.length_cons]
      exact Nat.succ_le_succ hlen
    · obtain ⟨b, hb, rfl⟩ := List.mem_map.mp hs
      have hbyte : 0 ≤ b ∧ b < NICEHASH_SLOTS := by
        rcases List.mem_cons.mp hb with rfl | hb
        · exact ⟨hpos.le, hslot⟩
        · exact hextra.2 b hb
      simp only [NICEHASH_SLOTS, NICEHASH_SPAN] at hbyte ⊢
      omega
  · refine createSpace_sized (by simp) fun s hs => ?_
    rw [List.mem_singleton.mp hs]
    decide

/-- At most two segments have the nonce that is never granted: the own slot may be among the spare
ones. -/
theorem arrivalSpace_reserve (hslot : slot < NICEHASH_SLOTS) (hextra : Spare extra) :
    spaceTotal (arrivalSpace slot extra) ≤ (arrivalSpace slot extra).reserve + 2 := by
  unfold arrivalSpace
  split_ifs with hpos
  · have hbytes : ∀ b ∈ slot :: extra, b < NICEHASH_SLOTS :=
      List.forall_mem_cons.mpr ⟨hslot, fun b hb => (hextra.2 b hb).2⟩
    have hcount : ((slot :: extra).count 255 : ℤ) ≤ 2 := by
      have hone := List.nodup_iff_count_le_one.mp hextra.1 255
      rw [List.count_cons]
      split_ifs <;> omega
    have hreserve : (nicehashSpace slot extra).reserve =
        (((slot :: extra).map segmentOf).map fun s => s.rest 0).sum := by
      rw [NonceSpace.reserve, segments_nicehashSpace]
      rfl
    rw [spaceTotal, hreserve, segments_nicehashSpace, sum_size, sum_rest _ hbytes]
    omega
  · decide

/-! ### The slot byte of a job -/

theorem foldl_digits_lt (ds : List ℕ) (h : ∀ d ∈ ds, d < 16) (n : ℕ) :
    ds.foldl (fun n d => 16 * n + d) n < (n + 1) * 16 ^ ds.length := by
  induction ds generalizing n with
  | nil => simp
  | cons d ds ih =>
    obtain ⟨hd, hds⟩ := List.forall_mem_cons.mp h
    rw [List.foldl_cons, List.length_cons, pow_succ']
    refine (ih hds (16 * n + d)).trans_le ?_
    rw [← mul_assoc]
    exact Nat.mul_le_mul_right _ (by omega)

theorem hexPrefix_lt (cs : List Char) : ∀ d ∈ hexPrefix cs, d < 16 := by
  intro d hd
  have hmem := (List.takeWhile_sublist _).subset (List.reduceOption_mem_iff.mp hd)
  obtain ⟨c, -, hc⟩ := List.mem_map.mp hmem
  exact HexText.digitValue_lt hc

theorem length_hexPrefix_le (cs : List Char) : (hexPrefix cs).length ≤ cs.length := by
  refine (List.reduceOption_length_le _).trans ?_
  refine (List.takeWhile_sublist _).length_le.trans ?_
  rw [List.length_map]

/-- Two characters spell at most a byte. -/
theorem parseHex_lt {cs : List Char} {n : ℤ} (hlen : cs.length ≤ 2) (h : parseHex cs = some n) :
    n < NICEHASH_SLOTS := by
  have hbyte : ∀ rest : List Char, rest.length ≤ 2 →
      (hexPrefix rest).foldl (fun n d => 16 * n + d) 0 < NICEHASH_SLOTS := by
    intro rest hrest
    refine (foldl_digits_lt _ (hexPrefix_lt rest) 0).trans_le ?_
    have hfew : (hexPrefix rest).length ≤ 2 := (length_hexPrefix_le rest).trans hrest
    calc (0 + 1) * 16 ^ (hexPrefix rest).length = 16 ^ (hexPrefix rest).length := by omega
      _ ≤ 16 ^ 2 := Nat.pow_le_pow_right (by decide) hfew
      _ = NICEHASH_SLOTS := rfl
  have hsigned : ∀ (sign : ℤ) (rest : List Char), sign = 1 ∨ sign = -1 → rest.length ≤ 2 →
      sign * ((hexPrefix rest).foldl (fun n d => 16 * n + d) 0 : ℕ) < NICEHASH_SLOTS := by
    intro sign rest hsign hrest
    have hlt := hbyte rest hrest
    rcases hsign with rfl | rfl <;> omega
  unfold parseHex at h
  split at h
  next sign rest heq =>
    have hsign : (sign = 1 ∨ sign = -1) ∧ rest.length ≤ 2 := by
      split at heq
      · obtain ⟨rfl, rfl⟩ := Prod.mk.inj heq
        exact ⟨.inr rfl, (Nat.le_succ _).trans hlen⟩
      · obtain ⟨rfl, rfl⟩ := Prod.mk.inj heq
        exact ⟨.inl rfl, (Nat.le_succ _).trans hlen⟩
      · obtain ⟨rfl, rfl⟩ := Prod.mk.inj heq
        exact ⟨.inl rfl, hlen⟩
    simp only [Option.ite_none_left_eq_some, Option.some.injEq] at h
    obtain ⟨-, rfl⟩ := h
    apply hsigned sign _ hsign.1
    -- a prefix 0x makes the rest shorter
    split
    · exact (Nat.le_add_right _ 2).trans hsign.2
    · exact (Nat.le_add_right _ 2).trans hsign.2
    · exact hsign.2

theorem nicehashSlot_lt (blob : String) : nicehashSlot blob < NICEHASH_SLOTS := by
  unfold nicehashSlot
  split_ifs
  · cases h : parseByte blob 84 with
    | none => decide
    | some n =>
      refine parseHex_lt ((List.dropWhile_sublist _).length_le.trans ?_) h
      rw [List.length_map]
      exact List.length_take_le _ _
  · decide

/-! ### A single grant -/

/-- A grant uses up less than the miner's hashes in the window and the smallest chunk together. -/
theorem chunkSize_lt {rate share deadline window : ℚ} (hrate : 0 < rate)
    (hwindow : max 1 (min CHUNK_SECONDS deadline) ≤ window) :
    ((max 1 ⌊chunkSize rate share deadline⌋ : ℤ) : ℚ) < rate * window + MIN_CHUNK := by
  have hone : 1 ≤ max 1 (min CHUNK_SECONDS deadline) := le_max_left _ _
  have hpos : 0 < rate * window := mul_pos hrate (one_pos.trans_le (hone.trans hwindow))
  have hceil : (⌈rate * max 1 (min CHUNK_SECONDS deadline)⌉ : ℚ) < rate * window + 1 :=
    (Int.ceil_lt_add_one _).trans_le
      (add_le_add_left (mul_le_mul_of_nonneg_left hwindow hrate.le) 1)
  have hchunk : chunkSize rate share deadline < rate * window + MIN_CHUNK := by
    unfold chunkSize
    rw [if_pos hrate]
    refine max_lt (lt_add_of_pos_left _ hpos) ?_
    refine (min_le_right _ _).trans_lt ((min_le_left _ _).trans_lt (hceil.trans_le ?_))
    norm_num [MIN_CHUNK]
  rw [Int.cast_max]
  refine max_lt ?_ ((Int.floor_le _).trans_lt hchunk)
  norm_num [MIN_CHUNK]
  linarith

theorem tune_ceiling {v w : VarDiff} {pool : String} (hv : v.CeilingOk)
    (h : v.tune pool = some w) : w.CeilingOk := by
  obtain ⟨d, t, hd, -, hceiling, -⟩ := tune_cases hv h
  intro c hc
  rw [hceiling] at hc
  exact Option.some.inj hc ▸ hd

namespace Upstream

open Transition

variable {u v w : Upstream} {l : LinkId} {job : StratumJob} {seconds : ℚ}

/-- The seconds that a grant on the link is made for. -/
def window (k : Link) (now : ℕ) : ℚ := max 1 (min CHUNK_SECONDS (k.deadline now))

theorem window_antitone (k : Link) : Antitone (window k) := by
  intro now later h
  refine max_le_max le_rfl (min_le_min le_rfl (max_le_max le_rfl ?_))
  have hcast : (now : ℚ) ≤ later := Nat.cast_le.mpr h
  linarith

theorem rate_pos (u : Upstream) (c : ClientId) : 0 < u.rate c := by
  unfold rate rateOf
  split_ifs with h
  · exact h
  · norm_num

/-- What the miners' grants may use up. -/
def demand (u : Upstream) (seconds : ℚ) (cs : List ClientId) : ℚ :=
  (cs.map fun c => u.rate c * seconds + MIN_CHUNK).sum

theorem demand_nonneg (u : Upstream) (hs : 0 ≤ seconds) (cs : List ClientId) :
    0 ≤ u.demand seconds cs := by
  refine List.sum_nonneg fun x hx => ?_
  obtain ⟨c, -, rfl⟩ := List.mem_map.mp hx
  exact add_nonneg (mul_nonneg (u.rate_pos c).le hs) (by norm_num [MIN_CHUNK])

theorem demand_eq (u : Upstream) (cs : List ClientId) :
    u.demand seconds cs = (cs.map u.rate).sum * seconds + MIN_CHUNK * cs.length := by
  unfold demand
  induction cs with
  | nil => simp
  | cons c cs ih =>
    simp only [List.map_cons, List.sum_cons, ih, List.length_cons]
    push_cast
    ring

/-- The link works on the job, and its space covers what the miners may use up. -/
structure Supplied (u : Upstream) (l : LinkId) (job : StratumJob) (seconds : ℚ)
    (cs : List ClientId) : Prop where
  job : (u.link l).job = some job
  sized : (u.link l).space.Sized
  window : window (u.link l) u.now ≤ seconds
  ceiling : ∀ c ∈ cs, (u.client c).vardiff.CeilingOk
  reserve : u.demand seconds cs ≤ (u.link l).space.reserve + 2

theorem Supplied.lapse {cs : List ClientId} (h : u.Supplied l job seconds cs) (ms : ℕ) :
    Supplied { u with now := u.now + ms } l job seconds cs :=
  ⟨h.job, h.sized, (window_antitone _ (Nat.le_add_right _ ms)).trans h.window, h.ceiling, h.reserve⟩

/-- A grant is what `take` gives for the miner's share of what is left. -/
theorem grant_of_take (hjob : (u.link l).job = some job) (hleft : 0 < spaceLeft (u.link l).space)
    (c : ClientId) : ∃ share : ℚ, ∀ g,
      (take (u.link l).space (chunkSize (u.rate c) share ((u.link l).deadline u.now))).1 = some g →
      u.grant l c = (some g, (u.setLink l fun k => { k with
        space := (take (u.link l).space
          (chunkSize (u.rate c) share ((u.link l).deadline u.now))).2 }).record c l job g) := by
  refine ⟨if 0 < (u.link l).load then spaceLeft (u.link l).space * (u.rate c / (u.link l).load)
    else spaceLeft (u.link l).space, fun g hg => ?_⟩
  unfold grant
  rw [if_neg (not_le.mpr hleft)]
  dsimp only
  rw [hg, hjob]

/-- The range goes on record for the job. -/
theorem grant_supplied {c : ClientId} {cs : List ClientId}
    (h : u.Supplied l job seconds (c :: cs)) : ∃ (g : Grant) (space : NonceSpace),
      g.start_nonce < g.nonce_limit ∧
      u.grant l c = (some g, (u.setLink l fun k => { k with space := space }).record c l job g) ∧
      ((u.setLink l fun k => { k with space := space }).record c l job g).Supplied
        l job seconds cs := by
  have hone : 1 ≤ seconds := (le_max_left _ _).trans h.window
  have hdemand : u.rate c * seconds + MIN_CHUNK + u.demand seconds cs ≤
      (u.link l).space.reserve + 2 := h.reserve
  have hreserve : (0 : ℚ) < (u.link l).space.reserve := by
    have hrest : 0 ≤ u.demand seconds cs := u.demand_nonneg (zero_le_one.trans hone) cs
    have hpos : 0 < u.rate c * seconds := mul_pos (u.rate_pos c) (one_pos.trans_le hone)
    norm_num [MIN_CHUNK] at hdemand
    linarith
  have hleft : 0 < spaceLeft (u.link l).space :=
    (Int.cast_pos.mp hreserve).trans_le (reserve_le_spaceLeft h.sized)
  obtain ⟨share, hgrant⟩ := grant_of_take h.job hleft c
  have hsize : ((max 1 ⌊chunkSize (u.rate c) share ((u.link l).deadline u.now)⌋ : ℤ) : ℚ) <
      u.rate c * seconds + MIN_CHUNK := chunkSize_lt (u.rate_pos c) h.window
  generalize chunkSize (u.rate c) share _ = size at hsize hgrant
  obtain ⟨hcut, hnone, hsome⟩ := take_reserve (u.link l).space size
  have hcut : ((u.link l).space.reserve : ℚ) ≤
      ((max 1 ⌊size⌋ : ℤ) : ℚ) + (take (u.link l).space size).2.reserve := by exact_mod_cast hcut
  cases hg : (take (u.link l).space size).1 with
  | none => exact absurd (hnone hg) (not_le.mpr (Int.cast_pos.mp hreserve))
  | some g =>
    refine ⟨g, (take (u.link l).space size).2, hsome g hg, hgrant g hg, ?_⟩
    have hself : ((u.setLink l fun k => { k with space := (take (u.link l).space size).2 }).record
        c l job g).link l = { u.link l with space := (take (u.link l).space size).2 } :=
      Function.update_self ..
    refine ⟨?_, ?_, ?_, fun x hx => h.ceiling x (List.mem_cons_of_mem c hx), ?_⟩
    · rw [hself]
      exact h.job
    · rw [hself]
      exact take_sized h.sized size
    · rw [hself]
      exact h.window
    · rw [hself]
      change u.demand seconds cs ≤ _
      dsimp only
      linarith

/-- A target that decodes gives every miner a payload. -/
theorem payload_supplied {cs : List ClientId} (h : u.Supplied l job seconds cs) {c : ClientId}
    (hc : (u.client c).vardiff.CeilingOk) (hdec : (decode job.target).isSome = true) (g : Grant) :
    ∃ (p : Payload) (x : VarDiff), p.job = job ∧ p.range = g ∧
      u.payload l c g = some (p, u.setClient c fun k => { k with vardiff := x }) ∧
      (u.setClient c fun k => { k with vardiff := x }).Supplied l job seconds cs := by
  rw [← tune_isSome hc] at hdec
  obtain ⟨x, hx⟩ := Option.isSome_iff_exists.mp hdec
  refine ⟨{ job := job, target := x.target, range := g }, x, rfl, rfl, ?_, ?_⟩
  · rw [payload, h.job, Option.bind_some, hx, Option.map_some]
  · have hrate : (u.setClient c fun k => { k with vardiff := x }).rate = u.rate := by
      funext y
      unfold rate setClient
      dsimp only
      rw [Function.update_apply]
      split_ifs with hy
      · rw [hy]
        rfl
      · rfl
    refine ⟨h.job, h.sized, h.window, fun y hy => ?_, ?_⟩
    · unfold setClient
      dsimp only
      rw [Function.update_apply]
      split_ifs
      · exact tune_ceiling hc hx
      · exact h.ceiling y hy
    · rw [demand, hrate]
      exact h.reserve

theorem payload_undecoded {c : ClientId} (hjob : (u.link l).job = some job)
    (hc : (u.client c).vardiff.CeilingOk) (hdec : decode job.target = none) (g : Grant) :
    u.payload l c g = none := by
  have hnone : (u.client c).vardiff.tune job.target = none := by
    rw [← Option.isNone_iff_eq_none, ← Option.not_isSome, tune_isSome hc, hdec]
    rfl
  rw [payload, hjob, Option.bind_some, hnone, Option.map_none]

/-! ### The fan-out -/

/-- `accept`'s fan-out while the clock goes on: so many milliseconds pass before a miner's grant. -/
def fanoutOver (lapse : ClientId → ℕ) (u : Upstream) (l : LinkId) : List ClientId → Bool × Upstream
  | [] => (false, u)
  | c :: cs => match grant { u with now := u.now + lapse c } l c with
    | (some g, u) => match u.payload l c g with
      | some (p, u) => fanoutOver lapse (u.emit (.job c p)) l cs
      | none => (true, u)
    | (none, u) => fanoutOver lapse (u.migrate l c .fanout) l cs

def acceptOver (lapse : ClientId → ℕ) (u : Upstream) (l : LinkId) (job : StratumJob) :
    Bool × Upstream :=
  let u := (u.observeInterval l).setJob l job
  u.fanoutOver lapse l (u.link l).clients

theorem fanoutOver_zero (cs : List ClientId) :
    u.fanoutOver (fun _ => 0) l cs = u.fanout l cs := by
  induction cs generalizing u with
  | nil => rfl
  | cons c cs ih =>
    unfold fanoutOver fanout
    simp only [ih]
    rfl

/-- It is `accept` when no time passes. -/
theorem acceptOver_zero : u.acceptOver (fun _ => 0) l job = u.accept l job :=
  fanoutOver_zero _

/-- Every one of the miners is cut a range for the job, and nobody is moved or dropped. -/
structure Serves (l : LinkId) (job : StratumJob) (cs : List ClientId) (u v : Upstream) : Prop where
  granted : ∀ c ∈ cs, ∃ r ∈ u.since v c, r.link = l ∧ r.job = job ∧
    r.range.start_nonce < r.range.nonce_limit
  unmoved : v.tasks = u.tasks
  undropped : ∀ d ∈ v.outbox.drop u.outbox.length, ∀ c message, d ≠ .drop c message

/-- The miners are told the job one after the other, each with a range. -/
def Tells (job : StratumJob) (cs : List ClientId) (u v : Upstream) : Prop :=
  ∃ ps : List Payload, ps.length = cs.length ∧
    (∀ p ∈ ps, p.job = job ∧ p.range.start_nonce < p.range.nonce_limit) ∧
    v.outbox = u.outbox ++ List.zipWith .job cs ps

/-- A miner's grant and its payload in a fan-out on a job that decodes. -/
theorem turn_supplied {c : ClientId} {cs : List ClientId} (h : u.Supplied l job seconds (c :: cs))
    (hdec : (decode job.target).isSome = true) : ∃ g p v w, u.grant l c = (some g, v) ∧
      v.payload l c g = some (p, w) ∧ p.job = job ∧ p.range = g ∧ g.start_nonce < g.nonce_limit ∧
      w.tasks = u.tasks ∧ w.outbox = u.outbox ∧
      w.issued = Function.update u.issued c
        (u.issued c ++ [{ link := l, job := job, range := g }]) ∧
      w.Supplied l job seconds cs := by
  obtain ⟨g, space, hlt, hgrant, hv⟩ := grant_supplied h
  obtain ⟨p, x, hpjob, hprange, hpay, hw⟩ :=
    payload_supplied hv (h.ceiling c List.mem_cons_self) hdec g
  exact ⟨g, p, _, _, hgrant, hpay, hpjob, hprange, hlt, rfl, rfl, rfl, hw⟩

theorem fanoutOver_deals (lapse : ClientId → ℕ) (cs : List ClientId) (u : Upstream) :
    Deals (fun _ => True) u (u.fanoutOver lapse l cs).2 := by
  induction cs generalizing u with
  | nil => exact .refl u
  | cons c cs ih =>
    have hlapse : Deals (fun _ => True) u { u with now := u.now + lapse c } :=
      .of_same (fun _ => rfl) rfl rfl
    have hgrant := hlapse.trans ((grant_deals { u with now := u.now + lapse c } l c).mono
      fun _ _ => trivial)
    unfold fanoutOver
    rcases hg : grant { u with now := u.now + lapse c } l c with ⟨_ | g, v⟩
    · rw [hg] at hgrant
      exact (hgrant.trans (migrate_deals v l c .fanout)).trans (ih _)
    · rw [hg] at hgrant
      dsimp only
      cases hp : v.payload l c g with
      | none => exact hgrant
      | some pw =>
        have hpay := payload_deals (P := fun _ => True) (p := pw.1) hp
        exact ((hgrant.trans hpay).trans (emit_deals _ _)).trans (ih _)

theorem Tells.undropped {cs : List ClientId} (h : Tells job cs u v) :
    ∀ d ∈ v.outbox.drop u.outbox.length, ∀ c message, d ≠ .drop c message := by
  obtain ⟨ps, -, -, hout⟩ := h
  rw [hout, List.drop_left]
  intro d hd c message
  obtain ⟨x, p, hxp⟩ : ∃ x p, d = .job x p := by
    clear hout
    induction cs generalizing ps with
    | nil => cases hd
    | cons x cs ih => cases ps with
      | nil => cases hd
      | cons p ps =>
        rcases List.mem_cons.mp hd with rfl | hd
        · exact ⟨x, p, rfl⟩
        · exact ih ps hd
  rw [hxp]
  exact fun heq => (by cases heq)

theorem Tells.cons {c : ClientId} {cs : List ClientId} {p : Payload} (hjob : p.job = job)
    (hlt : p.range.start_nonce < p.range.nonce_limit) (hout : v.outbox = u.outbox ++ [.job c p])
    (h : Tells job cs v w) : Tells job (c :: cs) u w := by
  obtain ⟨ps, hlen, hall, hps⟩ := h
  refine ⟨p :: ps, congrArg Nat.succ hlen, List.forall_mem_cons.mpr ⟨⟨hjob, hlt⟩, hall⟩, ?_⟩
  rw [hps, hout, List.append_assoc]
  rfl

/-- If the job's target decodes, everybody is served and told. -/
theorem fanoutOver_serves (lapse : ClientId → ℕ) {cs : List ClientId}
    (h : u.Supplied l job seconds cs) (hdec : (decode job.target).isSome = true) :
    Serves l job cs u (u.fanoutOver lapse l cs).2 ∧
      Tells job cs u (u.fanoutOver lapse l cs).2 := by
  induction cs generalizing u with
  | nil =>
    have htells : Tells job [] u u :=
      ⟨[], rfl, fun p hp => (by cases hp), (List.append_nil _).symm⟩
    exact ⟨⟨fun c hc => (by cases hc), rfl, htells.undropped⟩, htells⟩
  | cons c cs ih =>
    obtain ⟨g, p, v, w, hgrant, hpay, hjob, rfl, hlt, htasks, hout, hissued, hw⟩ :=
      turn_supplied (h.lapse (lapse c)) hdec
    have hturn : ∀ cs', u.fanoutOver lapse l (c :: cs') =
        (w.emit (.job c p)).fanoutOver lapse l cs' := by
      intro cs'
      rw [fanoutOver, hgrant]
      dsimp only
      rw [hpay]
    have hemit : (w.emit (.job c p)).Supplied l job seconds cs :=
      ⟨hw.job, hw.sized, hw.window, hw.ceiling, hw.reserve⟩
    obtain ⟨hserves, htells⟩ := ih hemit
    have hnow := fanoutOver_deals (l := l) lapse [c] u
    have hlater := fanoutOver_deals (l := l) lapse cs (w.emit (.job c p))
    rw [hturn [], fanoutOver] at hnow
    have htold : Tells job (c :: cs) u ((w.emit (.job c p)).fanoutOver lapse l cs).2 :=
      .cons hjob hlt (congrArg (· ++ [Delivery.job c p]) hout) htells
    rw [hturn cs]
    refine ⟨⟨fun x hx => ?_, hserves.unmoved.trans htasks, htold.undropped⟩, htold⟩
    rcases List.mem_cons.mp hx with rfl | hx
    · refine ⟨⟨l, job, p.range⟩, hnow.mem hlater ?_, rfl, rfl, hlt⟩
      have hx : (w.emit (.job x p)).issued x = u.issued x ++ [⟨l, job, p.range⟩] := by
        rw [emit, hissued]
        exact Function.update_self ..
      rw [since, hx, List.drop_left]
      exact List.mem_singleton_self _
    · obtain ⟨r, hr, hrange⟩ := hserves.granted x hx
      exact ⟨r, since_trans hnow hlater x ▸ List.mem_append_right _ hr, hrange⟩

/-- If it does not, the first miner gets a range and is not told, and the others get nothing. -/
theorem fanoutOver_stops (lapse : ClientId → ℕ) {c : ClientId} {cs : List ClientId}
    (h : u.Supplied l job seconds (c :: cs)) (hdec : decode job.target = none) :
    Serves l job [c] u (u.fanoutOver lapse l (c :: cs)).2 ∧
      (u.fanoutOver lapse l (c :: cs)).2.outbox = u.outbox ∧
      ∀ x, x ≠ c → u.since (u.fanoutOver lapse l (c :: cs)).2 x = [] := by
  obtain ⟨g, space, hlt, hgrant, hv⟩ := grant_supplied (h.lapse (lapse c))
  have hend : u.fanoutOver lapse l (c :: cs) = (true, Upstream.record (setLink
      { u with now := u.now + lapse c } l fun k => { k with space := space }) c l job g) := by
    rw [fanoutOver, hgrant]
    dsimp only
    rw [payload_undecoded hv.job (h.ceiling c List.mem_cons_self) hdec]
  have hself : ((u.fanoutOver lapse l (c :: cs)).2).issued c = u.issued c ++ [⟨l, job, g⟩] := by
    rw [hend]
    exact Function.update_self ..
  refine ⟨⟨fun x hx => ?_, ?_, fun d hd => ?_⟩, ?_, fun x hx => ?_⟩
  · obtain rfl := List.mem_singleton.mp hx
    refine ⟨⟨l, job, g⟩, ?_, rfl, rfl, hlt⟩
    rw [since, hself, List.drop_left]
    exact List.mem_singleton_self _
  · rw [hend]
    rfl
  · rw [hend] at hd
    change d ∈ u.outbox.drop u.outbox.length at hd
    rw [List.drop_length] at hd
    cases hd
  · rw [hend]
    rfl
  · have hother : ((u.fanoutOver lapse l (c :: cs)).2).issued x = u.issued x := by
      rw [hend]
      exact Function.update_of_ne hx ..
    rw [since, hother, List.drop_length]

/-! ### A job arrives -/

/-- Learning an interval changes nothing but what is known of it. -/
theorem observeInterval_links (u : Upstream) (l : LinkId) : ∃ link : LinkId → Link,
    u.observeInterval l = { u with link := link } ∧ ∀ m, (link m).clients = (u.link m).clients ∧
      (link m).extra = (u.link m).extra := by
  have hset : ∀ (v : Upstream) (m : LinkId) (k : Link), k.clients = (v.link m).clients →
      k.extra = (v.link m).extra → ∀ x, (Function.update v.link m k x).clients =
        (v.link x).clients ∧
        (Function.update v.link m k x).extra = (v.link x).extra := by
    intro v m k hclients hextra x
    rw [Function.update_apply]
    split_ifs with hx
    · subst hx
      exact ⟨hclients, hextra⟩
    · exact ⟨rfl, rfl⟩
  unfold observeInterval
  dsimp only
  split_ifs
  · exact ⟨u.link, rfl, fun _ => ⟨rfl, rfl⟩⟩
  · refine List.foldlRecOn (motive := fun v : Upstream => ∃ link : LinkId → Link,
      v = { u with link := link } ∧ ∀ m, (link m).clients = (u.link m).clients ∧
        (link m).extra = (u.link m).extra) _ _ ⟨_, rfl, ?_⟩ ?_
    · exact hset u l _ rfl rfl
    · rintro v ⟨link, rfl, hlink⟩ m -
      split_ifs
      · have hm := hset { u with link := link } m { link m with
          interval := min MAX_INTERVAL (max MIN_INTERVAL ((u.now : ℚ) - (u.link l).job_at))
          interval_hi :=
            min MAX_INTERVAL (max MIN_INTERVAL ((u.now : ℚ) - (u.link l).job_at)) } rfl rfl
        exact ⟨_, rfl, fun x => ⟨(hm x).1.trans (hlink x).1, (hm x).2.trans (hlink x).2⟩⟩
      · exact ⟨link, rfl, hlink⟩
  · exact ⟨_, rfl, hset u l _ rfl rfl⟩

/-- The link with the job that has just come. -/
def arrived (u : Upstream) (l : LinkId) (job : StratumJob) : Link :=
  ((u.observeInterval l).setJob l job).link l

/-- A job that comes finds the link as it was, but for what it says itself. -/
theorem setJob_links (u : Upstream) (l : LinkId) (job : StratumJob) : ∃ (link : LinkId → Link)
    (extra : List ℤ), (u.observeInterval l).setJob l job = { u with link := link } ∧
      link l = u.arrived l job ∧ (link l).job = some job ∧
      (link l).clients = (u.link l).clients ∧
      (link l).space = arrivalSpace (nicehashSlot job.blob) extra ∧
      (extra = (u.link l).extra ∨ extra = []) := by
  obtain ⟨link, heq, hlink⟩ := observeInterval_links u l
  have hself : ((u.observeInterval l).setJob l job).link l = { link l with
      job := some job, job_at := u.now, slot := nicehashSlot job.blob
      space := arrivalSpace (nicehashSlot job.blob) (if u.expand then (link l).extra
        else []) } := by
    rw [heq]
    exact Function.update_self ..
  refine ⟨((u.observeInterval l).setJob l job).link, if u.expand then (link l).extra else [],
    ?_, rfl, ?_, ?_, ?_, ?_⟩
  · rw [heq]
    rfl
  · rw [hself]
  · rw [hself]
    exact (hlink l).1
  · rw [hself]
  · split_ifs
    · exact .inl (hlink l).2
    · exact .inr rfl

/-- A fifth of the space is for the smallest chunks and the rest for the hashes in the window. -/
theorem arrived_supplied (hspare : Spare (u.link l).extra)
    (hceiling : ∀ c ∈ (u.link l).clients, (u.client c).vardiff.CeilingOk)
    (hfits : ((u.link l).clients.map u.rate).sum * window (u.arrived l job) u.now ≤
      8 / 10 * spaceTotal (u.arrived l job).space)
    (hfloor : 4096 * (u.link l).clients.length ≤
      (2 / 10 * spaceTotal (u.arrived l job).space : ℚ)) :
    ((u.observeInterval l).setJob l job).Supplied l job (window (u.arrived l job) u.now)
      (u.link l).clients := by
  obtain ⟨link, extra, heq, hself, hjob, -, hspace, hextra⟩ := setJob_links u l job
  have hspare : Spare extra := by
    rcases hextra with rfl | rfl
    · exact hspare
    · exact spare_nil
  have hslot := nicehashSlot_lt job.blob
  have htotal := arrivalSpace_reserve hslot hspare
  rw [← hspace, hself] at htotal
  rw [heq]
  refine ⟨hjob, ?_, ?_, hceiling, ?_⟩
  · change (link l).space.Sized
    rw [hspace]
    exact arrivalSpace_sized hslot hspare
  · change window (link l) u.now ≤ _
    rw [hself]
  · change u.demand _ _ ≤ ((link l).space.reserve : ℚ) + 2
    have htotal : (spaceTotal (u.arrived l job).space : ℚ) ≤
        (u.arrived l job).space.reserve + 2 := by exact_mod_cast htotal
    rw [hself, demand_eq]
    norm_num [MIN_CHUNK]
    linarith

theorem Supplied.serves_iff (lapse : ClientId → ℕ) {cs : List ClientId} (hnodup : cs.Nodup)
    (h : u.Supplied l job seconds cs) :
    Serves l job cs u (u.fanoutOver lapse l cs).2 ↔
      cs.length ≤ 1 ∨ (decode job.target).isSome = true := by
  by_cases hdec : (decode job.target).isSome = true
  · exact iff_of_true (fanoutOver_serves lapse h hdec).1 (.inr hdec)
  have hnone : decode job.target = none := Option.not_isSome_iff_eq_none.mp hdec
  rw [or_iff_left hdec]
  rcases cs with _ | ⟨c, _ | ⟨c', cs⟩⟩
  · refine iff_of_true ⟨fun c hc => (by cases hc), rfl, fun d hd => ?_⟩ (Nat.zero_le 1)
    change d ∈ u.outbox.drop u.outbox.length at hd
    rw [List.drop_length] at hd
    cases hd
  · exact iff_of_true (fanoutOver_stops lapse h hnone).1 le_rfl
  · refine iff_of_false (fun hserves => ?_) (by simp)
    obtain ⟨r, hr, -⟩ := hserves.granted c' (by simp)
    have hne : c' ≠ c := fun heq => (List.nodup_cons.mp hnodup).1 (heq ▸ List.mem_cons_self)
    rw [(fanoutOver_stops lapse h hnone).2.2 c' hne] at hr
    cases hr

theorem Supplied.tells_iff (lapse : ClientId → ℕ) {cs : List ClientId}
    (h : u.Supplied l job seconds cs) :
    Tells job cs u (u.fanoutOver lapse l cs).2 ↔ cs = [] ∨ (decode job.target).isSome = true := by
  by_cases hdec : (decode job.target).isSome = true
  · exact iff_of_true (fanoutOver_serves lapse h hdec).2 (.inr hdec)
  have hnone : decode job.target = none := Option.not_isSome_iff_eq_none.mp hdec
  rw [or_iff_left hdec]
  cases cs with
  | nil => exact iff_of_true ⟨[], rfl, fun p hp => (by cases hp), (List.append_nil _).symm⟩ rfl
  | cons c cs =>
    refine iff_of_false (fun htells => ?_) (List.cons_ne_nil c cs)
    obtain ⟨ps, hlen, -, hout⟩ := htells
    rw [(fanoutOver_stops lapse h hnone).2.1] at hout
    cases ps with
    | nil => cases hlen
    | cons p ps => exact absurd hout (by simp)

/-- A job on a link that is loaded to four fifths of its space at most, with the smallest chunks in
the last fifth, is fanned out to every miner exactly if its target decodes. -/
theorem fanout_serves_iff (maxLinks idleTimeout : ℕ) (expand : Bool)
    (now : ℕ) (client : ClientId → Client)
    (actions : List Action) (u : Upstream)
    (hrun : exec step (start maxLinks idleTimeout expand now client) actions = some u)
    (lapse : ClientId → ℕ) (l : LinkId) (job : StratumJob)
    (hclient : ∀ c ∈ (u.link l).clients, ∃ seed since calls,
      (u.client c).vardiff = (VarDiff.new seed since).run calls)
    (hload : (u.link l).load = ((u.link l).clients.map u.rate).sum)
    (hfits : (u.link l).load * window (u.arrived l job) u.now ≤
      8 / 10 * spaceTotal (u.arrived l job).space)
    (hfloor : 4096 * (u.link l).clients.length ≤
      (2 / 10 * spaceTotal (u.arrived l job).space : ℚ)) :
    (Serves l job (u.link l).clients u (u.acceptOver lapse l job).2 ↔
        (u.link l).clients.length ≤ 1 ∨ (decode job.target).isSome = true) ∧
      (Tells job (u.link l).clients u (u.acceptOver lapse l job).2 ↔
        (u.link l).clients = [] ∨ (decode job.target).isSome = true) := by
  have hceiling : ∀ c ∈ (u.link l).clients, (u.client c).vardiff.CeilingOk := by
    intro c hmem
    obtain ⟨seed, since, calls, hc⟩ := hclient c hmem
    rw [hc]
    exact (run_issues (P := fun _ => True) (fun _ _ => trivial) calls (new_issues trivial)).ceiling
  have hsupplied := @arrived_supplied u l job (run_spare hrun l) hceiling (hload ▸ hfits) hfloor
  have hclients : (u.arrived l job).clients = (u.link l).clients := by
    obtain ⟨link, extra, -, hself, -, hclients, -⟩ := setJob_links u l job
    exact hself ▸ hclients
  have hfan : u.acceptOver lapse l job =
      ((u.observeInterval l).setJob l job).fanoutOver lapse l (u.link l).clients := by
    rw [← hclients]
    rfl
  rw [hfan]
  have hserves := hsupplied.serves_iff lapse (run_nodup hrun l)
  have htells := hsupplied.tells_iff lapse
  obtain ⟨link, extra, heq, -⟩ := setJob_links u l job
  rw [heq] at hserves htells ⊢
  refine ⟨.trans ⟨fun h => ⟨h.granted, h.unmoved, h.undropped⟩,
    fun h => ⟨h.granted, h.unmoved, h.undropped⟩⟩ hserves, htells⟩

/-- Two miners of 1 MH/s. -/
def twoStart : Upstream := start 64 300000 false 1000 fun _ =>
  { hashrate := 1000000, vardiff := VarDiff.new 1000000 1000 }

/-- Both are housed on one link. -/
def pairing : List Action :=
  [.attach 0 0, .dialed 0 (.ok ()), .loggedIn 0 (.ok plainJob), .resume 0, .resume 0,
    .attach 1 1, .resume 0]

/-- A job whose target is not hexadecimal. -/
def oddJob : StratumJob := { plainJob with job_id := "2", target := "zz" }

theorem fanout_serves_iff_pair : ∃ u, exec step twoStart pairing = some u ∧
    (u.link 0).clients = [0, 1] ∧ Serves 0 plainJob [0, 1] u (u.acceptOver id 0 plainJob).2 ∧
    Tells plainJob [0, 1] u (u.acceptOver id 0 plainJob).2 := by
  have hrun : (exec step twoStart pairing).any (fun u => (u.link 0).clients = [0, 1] ∧
      (∀ c ∈ (u.link 0).clients, (u.client c).vardiff =
        (VarDiff.new 1000000 1000).run [.tune plainJob.target]) ∧
      (u.link 0).load = ((u.link 0).clients.map u.rate).sum ∧
      (u.link 0).load * window (u.arrived 0 plainJob) u.now ≤
        8 / 10 * spaceTotal (u.arrived 0 plainJob).space ∧
      4096 * (u.link 0).clients.length ≤
        (2 / 10 * spaceTotal (u.arrived 0 plainJob).space : ℚ)) = true := by decide +kernel
  obtain ⟨u, hu, hstate⟩ := (Option.any_eq_true _ _).mp hrun
  obtain ⟨hclients, hclient, hload, hfits, hfloor⟩ := of_decide_eq_true hstate
  have hiff := fanout_serves_iff 64 300000 false 1000 _ pairing u hu id 0 plainJob
    (fun c hc => ⟨_, _, _, hclient c hc⟩) hload hfits hfloor
  have hdec : (decode plainJob.target).isSome = true := by decide +kernel
  rw [hclients] at hiff
  exact ⟨u, hu, hclients, hiff.1.mpr (.inr hdec), hiff.2.mpr (.inr hdec)⟩

/-- The second of two miners gets no range for a job whose target is not hexadecimal, though
both take up little of the space. -/
theorem fanout_starves : ∃ u, exec step twoStart pairing = some u ∧
    (u.link 0).clients = [0, 1] ∧ (u.link 0).load = ((u.link 0).clients.map u.rate).sum ∧
    (u.link 0).load * window (u.arrived 0 oddJob) u.now ≤
      8 / 10 * spaceTotal (u.arrived 0 oddJob).space ∧
    4096 * (u.link 0).clients.length ≤ (2 / 10 * spaceTotal (u.arrived 0 oddJob).space : ℚ) ∧
    ¬ Serves 0 oddJob (u.link 0).clients u (u.accept 0 oddJob).2 := by
  have hrun : (exec step twoStart pairing).any (fun u => (u.link 0).clients = [0, 1] ∧
      (u.link 0).load = ((u.link 0).clients.map u.rate).sum ∧
      (u.link 0).load * window (u.arrived 0 oddJob) u.now ≤
        8 / 10 * spaceTotal (u.arrived 0 oddJob).space ∧
      4096 * (u.link 0).clients.length ≤ (2 / 10 * spaceTotal (u.arrived 0 oddJob).space : ℚ) ∧
      u.since (u.accept 0 oddJob).2 1 = []) = true := by decide +kernel
  obtain ⟨u, hu, hstate⟩ := (Option.any_eq_true _ _).mp hrun
  obtain ⟨hclients, hload, hfits, hfloor, hnone⟩ := of_decide_eq_true hstate
  refine ⟨u, hu, hclients, hload, hfits, hfloor, fun hserves => ?_⟩
  obtain ⟨r, hr, -⟩ := hserves.granted 1 (by rw [hclients]; decide)
  rw [hnone] at hr
  cases hr

end Upstream

end NMiner
