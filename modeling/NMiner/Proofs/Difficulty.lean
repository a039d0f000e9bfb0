import NMiner.Lib.Quotient
import NMiner.Spec.VarDiff

/-! What the difficulty controller hands out. Every target `tune` makes records the
difficulty that target proves and asks for no more than the pool does. The one
exception is the issue of the constructor, which records a difficulty that its
compact target may not be able to express. -/

namespace NMiner

open HexText

/-! ### Decoding what was encoded -/

/-- The difficulty a compact target made for `difficulty` proves. -/
def compactDifficulty (difficulty : ℕ) : ℕ := U32 / compactOf difficulty

theorem compactOf_pos (d : ℕ) : 0 < compactOf d := by
  unfold compactOf
  omega

theorem compactOf_le (d : ℕ) : compactOf d ≤ U32 := by
  unfold compactOf U32
  omega

theorem compactDifficulty_pos (d : ℕ) : 0 < compactDifficulty d :=
  Nat.div_pos (compactOf_le d) (compactOf_pos d)

theorem compactDifficulty_le (d : ℕ) : compactDifficulty d ≤ U32 := Nat.div_le_self _ _

/-- A difficulty that fits 32 bits is divided into the numerator. -/
theorem compactOf_fit {d : ℕ} (hpos : 0 < d) (hfit : d ≤ U32) : compactOf d = U32 / d := by
  have h1 : 1 ≤ U32 / d := Nat.div_pos hfit hpos
  have h2 : U32 / d ≤ U32 := Nat.div_le_self _ _
  unfold compactOf
  rw [max_eq_right (by omega : 1 ≤ d), min_eq_right h2, max_eq_right h1]

/-- A difficulty beyond 32 bits gets the hardest compact target. -/
theorem compactOf_big {d : ℕ} (hbig : U32 < d) : compactOf d = 1 := by
  unfold compactOf
  rw [max_eq_right (by omega : 1 ≤ d), Nat.div_eq_of_lt hbig]
  rfl

theorem le_compactDifficulty {d : ℕ} (hpos : 0 < d) (hfit : d ≤ U32) :
    d ≤ compactDifficulty d := by
  unfold compactDifficulty
  rw [compactOf_fit hpos hfit]
  exact Quotient.le_div_div hfit

/-- A compact target spells four bytes. -/
theorem spells_difficultyTarget (d : ℕ) :
    Spells (difficultyTarget d) (toBytes 4 (compactOf d)) := spells_text _ (toBytes_lt 4 _)

theorem isWide_difficultyTarget (d : ℕ) : isWide (difficultyTarget d) = false := by
  unfold isWide
  rw [(spells_difficultyTarget d).length, length_toBytes]
  rfl

theorem targetInteger_difficultyTarget (d : ℕ) :
    targetInteger (difficultyTarget d) = some (compactOf d) := by
  have hspells := spells_difficultyTarget d
  have hlen : (codeUnits (difficultyTarget d)).length = 8 := by
    rw [hspells.length, length_toBytes]
  have hlt : compactOf d < 256 ^ 4 := lt_of_le_of_lt (compactOf_le d) (by decide)
  unfold targetInteger
  rw [isWide_difficultyTarget, List.rightpad, hlen]
  simp only [Bool.false_eq_true, if_false, Nat.sub_self, List.replicate_zero, List.append_nil,
    List.take_of_length_le hlen.le, hspells.decodes, readLE, length_toBytes, List.drop_zero,
    Nat.zero_add, le_refl, if_true, List.take_of_length_le (length_toBytes 4 _).le,
    littleEndian_toBytes 4 _ hlt]

theorem decode_difficultyTarget (d : ℕ) : decode (difficultyTarget d) =
    some { value := U64 / compactDifficulty d, difficulty := compactDifficulty d } := by
  unfold decode
  rw [targetInteger_difficultyTarget]
  simp only [isWide_difficultyTarget, Bool.false_eq_true, if_false, Option.map_some,
    if_pos (compactOf_pos d)]
  rfl

@[simp] theorem targetDifficulty_difficultyTarget (d : ℕ) :
    targetDifficulty (difficultyTarget d) = some (compactDifficulty d) := by
  rw [targetDifficulty, decode_difficultyTarget]
  rfl

/-- The zero target decodes to the easiest bound with the default difficulty. -/
theorem decode_zero {target : String} (h : targetInteger target = some 0) :
    decode target = some { value := U64, difficulty := MIN_DIFFICULTY } := by
  unfold decode
  rw [h]
  cases isWide target <;> rfl

/-- A bound lies below every quotient by less than its difficulty. This is what makes a
compact target of smaller difficulty at least as easy. -/
theorem value_le_of_difficulty {target : String} {c : Decoded} {e : ℕ}
    (hdec : decode target = some c) (hzero : targetInteger target ≠ some 0) (hpos : 0 < e)
    (hsmall : e < 2 ^ 53) (hlt : e < c.difficulty) : c.value ≤ U64 / e := by
  unfold decode at hdec
  cases hint : targetInteger target with
  | none => simp [hint] at hdec
  | some n =>
    have hn : 0 < n := Nat.pos_of_ne_zero fun h0 => hzero (by rw [hint, h0])
    rw [hint] at hdec
    cases hw : isWide target with
    | true =>
      simp only [hw, if_true, Option.map_some, if_pos hn, Option.some.injEq] at hdec
      subst hdec
      rw [← Double.ofNat_of_lt hsmall] at hlt
      exact Quotient.le_div_of_le_div hn hpos (Double.lt_of_ofNat_lt hlt).le
    | false =>
      simp only [hw, Bool.false_eq_true, if_false, Option.map_some, if_pos hn,
        Option.some.injEq] at hdec
      subst hdec
      exact Nat.div_le_div_left hlt.le hpos

/-! ### One `tune` -/

/-- The cached pool difficulty is the one of the cached pool target. -/
def VarDiff.CeilingOk (v : VarDiff) : Prop :=
  ∀ c, v.ceiling = some c → targetDifficulty c.target = some c.difficulty

theorem ceilingFor_eq {v : VarDiff} (hc : v.CeilingOk) (pool : String) :
    v.ceilingFor pool = (targetDifficulty pool).map fun d =>
      { target := pool, difficulty := d } := by
  unfold VarDiff.ceilingFor
  cases h : v.ceiling with
  | none => rfl
  | some c =>
    by_cases heq : c.target = pool
    · subst heq
      simp only [if_true, hc c h, Option.map_some]
    · simp only [if_neg heq]

/-- What `tune` may hand out: the pool target, or a compact target of smaller difficulty. -/
theorem nextTarget_cases (pool : String) (ceiling next : ℕ) :
    ∃ t, nextTarget pool ceiling next = some t ∧
      (t = pool ∨ t = difficultyTarget next ∧ next < ceiling ∧
        compactDifficulty next < ceiling) := by
  unfold nextTarget
  by_cases hle : ceiling ≤ next
  · exact ⟨pool, by simp [hle], Or.inl rfl⟩
  by_cases heq : difficultyTarget next = pool
  · exact ⟨pool, by simp [hle, heq], Or.inl rfl⟩
  by_cases hhard : ceiling ≤ compactDifficulty next
  · exact ⟨pool, by simp [hle, heq, hhard], Or.inl rfl⟩
  · exact ⟨difficultyTarget next, by simp [hle, heq, hhard], Or.inr ⟨rfl, by omega, by omega⟩⟩

/-- Everything a successful `tune` does: it keeps the issue when the target text is the
same, and otherwise makes a new issue with the difficulty of the new text. -/
theorem tune_cases {v v' : VarDiff} {pool : String} (hc : v.CeilingOk)
    (h : v.tune pool = some v') :
    ∃ d t, targetDifficulty pool = some d ∧
      nextTarget pool d (v.nextDifficulty d) = some t ∧
      v'.ceiling = some { target := pool, difficulty := d } ∧
      (t = v.issue.target ∧ v'.issue = v.issue ∧ v'.prior = v.prior ∨
        t ≠ v.issue.target ∧ v'.issue.target = t ∧ v'.prior = some v.issue ∧
          targetDifficulty t = some v'.issue.difficulty) := by
  unfold VarDiff.tune at h
  rw [ceilingFor_eq hc, Option.bind_eq_some_iff] at h
  obtain ⟨c, hceil, h⟩ := h
  obtain ⟨d, hd, rfl⟩ := Option.map_eq_some_iff.mp hceil
  obtain ⟨t, ht, h⟩ := Option.bind_eq_some_iff.mp h
  refine ⟨d, t, hd, ht, ?_⟩
  by_cases heq : t = v.issue.target
  · rw [if_pos heq, Option.some.injEq] at h
    subst h
    exact ⟨rfl, Or.inl ⟨heq, rfl, rfl⟩⟩
  · rw [if_neg heq] at h
    obtain ⟨e, he, rfl⟩ := Option.map_eq_some_iff.mp h
    exact ⟨rfl, Or.inr ⟨heq, rfl, rfl, he⟩⟩

/-- `tune` succeeds exactly on the pool targets that decode. -/
theorem tune_isSome {v : VarDiff} (hc : v.CeilingOk) (pool : String) :
    (v.tune pool).isSome = (decode pool).isSome := by
  unfold VarDiff.tune
  rw [ceilingFor_eq hc, targetDifficulty]
  cases hdec : decode pool with
  | none => rfl
  | some c =>
    obtain ⟨t, ht, hcase⟩ := nextTarget_cases pool c.difficulty (v.nextDifficulty c.difficulty)
    simp only [Option.map_some, Option.bind_some]
    change ((nextTarget pool c.difficulty (v.nextDifficulty c.difficulty)).bind _).isSome = true
    rw [ht, Option.bind_some]
    split_ifs with heq
    · rfl
    · rcases hcase with rfl | ⟨rfl, -, -⟩
      · rw [targetDifficulty, hdec]
        rfl
      · rw [targetDifficulty_difficultyTarget]
        rfl

theorem tune_target {v v' : VarDiff} {pool : String} {d : ℕ} {t : String} (hc : v.CeilingOk)
    (h : v.tune pool = some v') (hd : targetDifficulty pool = some d)
    (ht : nextTarget pool d (v.nextDifficulty d) = some t) : v'.issue.target = t := by
  obtain ⟨d', t', hd', ht', -, hcase⟩ := tune_cases hc h
  rw [hd, Option.some.injEq] at hd'
  subst hd'
  rw [ht, Option.some.injEq] at ht'
  subst ht'
  rcases hcase with ⟨heq, hi, -⟩ | ⟨-, hi, -⟩
  · rw [hi, heq]
  · exact hi

/-- The issued target is the pool's own or a compact one. -/
theorem tune_target_cases {v v' : VarDiff} {pool : String} (hc : v.CeilingOk)
    (h : v.tune pool = some v') :
    v'.target = pool ∨ ∃ n, v'.target = difficultyTarget n := by
  obtain ⟨d, t, hd, ht, -, -⟩ := tune_cases hc h
  have htarget : v'.target = t := tune_target hc h hd ht
  obtain ⟨t', ht', hcase⟩ := nextTarget_cases pool d (v.nextDifficulty d)
  rw [ht, Option.some.injEq] at ht'
  rw [htarget, ht']
  rcases hcase with hpool | ⟨hcompact, -, -⟩
  · exact Or.inl hpool
  · exact Or.inr ⟨_, hcompact⟩

/-! ### What every call preserves -/

/-- A property of issues that the constructor's issue has and every issue with an exact
difficulty has is a property of the current and the prior issue in every run. -/
structure VarDiff.Issues (P : Issue → Prop) (v : VarDiff) : Prop where
  ceiling : v.CeilingOk
  issue : P v.issue
  prior : ∀ p, v.prior = some p → P p

/-- The recorded difficulty is the one the target proves. -/
def Issue.Recorded (i : Issue) : Prop := targetDifficulty i.target = some i.difficulty

/-- A `tune` keeps the issue or makes one whose recorded difficulty is exact. -/
theorem tune_issue {v v' : VarDiff} {pool : String} (hc : v.CeilingOk)
    (h : v.tune pool = some v') :
    v'.issue = v.issue ∧ v'.prior = v.prior ∨
      v'.issue.target ≠ v.issue.target ∧ v'.issue.Recorded ∧ v'.prior = some v.issue := by
  obtain ⟨d, t, -, -, -, hcase⟩ := tune_cases hc h
  rcases hcase with ⟨-, hi, hp⟩ | ⟨hne, hi, hp, hdt⟩
  · exact Or.inl ⟨hi, hp⟩
  · exact Or.inr ⟨hi ▸ hne, by rw [Issue.Recorded, hi, hdt], hp⟩

theorem tune_issues_of {P : Issue → Prop} {v v' : VarDiff} {pool : String} (hv : v.Issues P)
    (h : v.tune pool = some v') (hissue : P v'.issue) : v'.Issues P := by
  obtain ⟨d, t, hd, -, hceil, -⟩ := tune_cases hv.ceiling h
  refine ⟨?_, hissue, ?_⟩
  · intro c hc
    rw [hceil, Option.some.injEq] at hc
    subst hc
    exact hd
  · intro p hp
    rcases tune_issue hv.ceiling h with ⟨-, hprior⟩ | ⟨-, -, hprior⟩
    · exact hv.prior p (hprior ▸ hp)
    · rw [hprior, Option.some.injEq] at hp
      exact hp ▸ hv.issue

theorem tune_issues {P : Issue → Prop} (hexact : ∀ i : Issue, i.Recorded → P i) {v v' : VarDiff}
    {pool : String} (hv : v.Issues P) (h : v.tune pool = some v') : v'.Issues P := by
  refine tune_issues_of hv h ?_
  rcases tune_issue hv.ceiling h with ⟨hi, -⟩ | ⟨-, hrec, -⟩
  · exact hi ▸ hv.issue
  · exact hexact _ hrec

theorem submitted_issues {P : Issue → Prop} {v : VarDiff} (hv : v.Issues P) (difficulty : ℚ)
    (count now : ℕ) : (v.submitted difficulty count now).Issues P := by
  unfold VarDiff.submitted
  dsimp only
  split_ifs <;> exact ⟨hv.ceiling, hv.issue, hv.prior⟩

theorem observe_issues {P : Issue → Prop} {v : VarDiff} (hv : v.Issues P) (hashrate : ℚ) :
    (v.observe hashrate).Issues P := by
  unfold VarDiff.observe
  split_ifs <;> exact ⟨hv.ceiling, hv.issue, hv.prior⟩

theorem apply_issues {P : Issue → Prop} (hexact : ∀ i : Issue, i.Recorded → P i) {v : VarDiff}
    (hv : v.Issues P) (call : VarDiff.Call) : (v.apply call).Issues P := by
  cases call with
  | observe hashrate => exact observe_issues hv hashrate
  | submitted difficulty count now => exact submitted_issues hv difficulty count now
  | settle => exact ⟨hv.ceiling, hv.issue, by simp [VarDiff.apply, VarDiff.settle]⟩
  | tune pool =>
    cases h : v.tune pool with
    | none => simpa only [VarDiff.apply, h, Option.getD_none] using hv
    | some v' => simpa only [VarDiff.apply, h, Option.getD_some] using tune_issues hexact hv h

theorem run_issues {P : Issue → Prop} (hexact : ∀ i : Issue, i.Recorded → P i)
    (calls : List VarDiff.Call) {v : VarDiff} (hv : v.Issues P) : (v.run calls).Issues P := by
  induction calls generalizing v with
  | nil => exact hv
  | cons call calls ih => exact ih (apply_issues hexact hv call)

theorem new_issues {P : Issue → Prop} {seed : ℚ} {now : ℕ} (h : P (VarDiff.new seed now).issue) :
    (VarDiff.new seed now).Issues P :=
  ⟨by simp [VarDiff.CeilingOk, VarDiff.new], h, by simp [VarDiff.new]⟩

/-! ### Recorded difficulty -/

theorem seedDifficulty_pos (seed : ℚ) : 0 < seedDifficulty seed :=
  lt_of_lt_of_le (by decide : 0 < MIN_DIFFICULTY) (le_max_left _ _)

theorem jsRound_int (n : ℤ) : jsRound n = n := by
  unfold jsRound
  rw [Int.floor_eq_iff]
  constructor <;> linarith

/-- A whole number of hashes a second asks for their number in fifteen seconds. -/
theorem seedDifficulty_natCast {n : ℕ} (hpos : 0 < n) (h : n * 15 < 2 ^ 53) :
    seedDifficulty n = max MIN_DIFFICULTY (n * 15) := by
  have hseed : seedHashrate n = n := if_pos (Nat.cast_pos.mpr hpos)
  have hproduct : (n : ℚ) * SHARE_SECONDS = (n * 15 : ℕ) := by
    unfold SHARE_SECONDS
    push_cast
    rfl
  rw [seedDifficulty, wanted, hseed, hproduct, Double.round_natCast h]
  exact congrArg (fun d : ℤ => max MIN_DIFFICULTY d.toNat) (jsRound_int (n * 15 : ℕ))

theorem new_recorded_iff (seed : ℚ) (now : ℕ) : (VarDiff.new seed now).issue.Recorded ↔
    seedDifficulty seed ≤ U32 ∧ U32 / (U32 / seedDifficulty seed) = seedDifficulty seed := by
  change targetDifficulty (difficultyTarget (seedDifficulty seed)) = some (seedDifficulty seed) ↔ _
  rw [targetDifficulty_difficultyTarget, Option.some.injEq]
  have hpos := seedDifficulty_pos seed
  rcases Nat.lt_or_ge U32 (seedDifficulty seed) with hbig | hfit
  · have hle := compactDifficulty_le (seedDifficulty seed)
    omega
  · rw [compactDifficulty, compactOf_fit hpos hfit]
    exact ⟨fun h => ⟨hfit, h⟩, fun h => h.2⟩

/-- The recorded difficulty of the current and the retained issue is that of the issue's
target in every state of every run, exactly when the seed's difficulty survives the
compact encoding. -/
theorem recorded_in_every_run_iff (seed : ℚ) (now : ℕ) :
    (∀ calls, ((VarDiff.new seed now).run calls).issue.Recorded ∧
        ∀ p, ((VarDiff.new seed now).run calls).prior = some p → p.Recorded) ↔
      seedDifficulty seed ≤ U32 ∧ U32 / (U32 / seedDifficulty seed) = seedDifficulty seed := by
  rw [← new_recorded_iff seed now]
  refine ⟨fun h => (h []).1, fun h calls => ?_⟩
  have hrun := run_issues (P := Issue.Recorded) (fun _ hi => hi) calls (new_issues h)
  exact ⟨hrun.issue, hrun.prior⟩

/-- Six threads: the constructor records 90000 for a target that proves 90001. -/
theorem recorded_fails_for_six_threads :
    ¬ ∀ calls, ((VarDiff.new 6000 0).run calls).issue.Recorded := by
  intro h
  have hseed : seedDifficulty 6000 = 90000 :=
    seedDifficulty_natCast (n := 6000) (by decide) (by decide)
  have hrecorded := (new_recorded_iff 6000 0).mp (h [])
  rw [hseed] at hrecorded
  exact absurd hrecorded (by decide)

/-! ### The pool's difficulty as a ceiling -/

/-- The issue asks for no more than the pool target: neither in its recorded difficulty nor
for any 64-bit hash value. -/
def WithinPool (v : VarDiff) (pool : String) : Prop :=
  (∀ d, targetDifficulty pool = some d → v.difficulty ≤ d) ∧
    ∀ value ≤ U64, meetsValue (some value) pool = some true →
      meetsValue (some value) v.target = some true

/-- The recorded difficulty is at most the one the target proves. -/
def Issue.Covered (i : Issue) : Prop := ∃ d, targetDifficulty i.target = some d ∧ i.difficulty ≤ d

theorem Issue.Recorded.covered {i : Issue} (h : i.Recorded) : i.Covered := ⟨_, h, le_rfl⟩

theorem new_covered {seed : ℚ} (now : ℕ) (h : seedDifficulty seed ≤ U32) :
    (VarDiff.new seed now).issue.Covered :=
  ⟨_, targetDifficulty_difficultyTarget _, le_compactDifficulty (seedDifficulty_pos seed) h⟩

theorem meetsValue_iff {target : String} {c : Decoded} (h : decode target = some c) (value : ℕ) :
    meetsValue (some value) target = some true ↔ value ≤ c.value := by
  simp [meetsValue, h]

/-- With covered issues the difficulty stays at or below the one of the target handed out. -/
theorem tune_difficulty_le {v v' : VarDiff} {pool t : String} {d e : ℕ}
    (hv : v.Issues Issue.Covered) (h : v.tune pool = some v') (hd : targetDifficulty pool = some d)
    (ht : nextTarget pool d (v.nextDifficulty d) = some t) (he : targetDifficulty t = some e) :
    v'.difficulty ≤ e := by
  obtain ⟨d', hd', hle⟩ := (tune_issues (fun _ hi => hi.covered) hv h).issue
  rw [tune_target hv.ceiling h hd ht, he, Option.some.injEq] at hd'
  subst hd'
  exact hle

/-- Handing out the pool target itself is within the pool. -/
theorem within_of_pool {v v' : VarDiff} {pool : String} {d : ℕ} (hv : v.Issues Issue.Covered)
    (h : v.tune pool = some v') (hd : targetDifficulty pool = some d)
    (ht : nextTarget pool d (v.nextDifficulty d) = some pool) : WithinPool v' pool := by
  refine ⟨fun e he => tune_difficulty_le hv h hd ht he, fun value _ hmeet => ?_⟩
  rw [VarDiff.target, tune_target hv.ceiling h hd ht]
  exact hmeet

/-- A non-zero pool target is never exceeded. -/
theorem within_of_nonzero {v v' : VarDiff} {pool : String} (hv : v.Issues Issue.Covered)
    (h : v.tune pool = some v') (hzero : targetInteger pool ≠ some 0) : WithinPool v' pool := by
  obtain ⟨d, t, hd, ht, -, -⟩ := tune_cases hv.ceiling h
  obtain ⟨t', ht', hcase⟩ := nextTarget_cases pool d (v.nextDifficulty d)
  rw [ht, Option.some.injEq] at ht'
  subst ht'
  rcases hcase with rfl | ⟨rfl, -, hlt⟩
  · exact within_of_pool hv h hd ht
  · obtain ⟨c, hc, rfl⟩ := Option.map_eq_some_iff.mp hd
    have hsmall : compactDifficulty (v.nextDifficulty c.difficulty) < 2 ^ 53 :=
      lt_of_le_of_lt (compactDifficulty_le _) (by decide)
    have hle := tune_difficulty_le hv h hd ht (targetDifficulty_difficultyTarget _)
    refine ⟨fun e he => ?_, fun value _ hmeet => ?_⟩
    · rw [hd, Option.some.injEq] at he
      omega
    · rw [VarDiff.target, tune_target hv.ceiling h hd ht,
        meetsValue_iff (decode_difficultyTarget _)]
      exact ((meetsValue_iff hc value).mp hmeet).trans
        (value_le_of_difficulty hc hzero (compactDifficulty_pos _) hsmall hlt)

/-- The states in which a zero pool target is answered with a harder compact target: the
issue is below the default difficulty, yet too close to it to be retuned. -/
def ZeroGap (v : VarDiff) : Prop :=
  v.difficulty < MIN_DIFFICULTY ∧ (MIN_DIFFICULTY : ℚ) ≤ v.difficulty * RETUNE_RATIO

theorem nextDifficulty_default (v : VarDiff) : v.nextDifficulty MIN_DIFFICULTY =
    if (MIN_DIFFICULTY : ℚ) > v.difficulty * RETUNE_RATIO ∨
      MIN_DIFFICULTY * RETUNE_RATIO < v.difficulty then MIN_DIFFICULTY else v.difficulty := by
  have hmin : min MIN_DIFFICULTY (wanted v.hashrate) = MIN_DIFFICULTY :=
    min_eq_left (le_max_left _ _)
  unfold VarDiff.nextDifficulty
  rw [hmin]
  rfl

/-- In the gap the next difficulty is the current one. -/
theorem nextDifficulty_gap {v : VarDiff} (hgap : ZeroGap v) :
    v.nextDifficulty MIN_DIFFICULTY = v.difficulty := by
  obtain ⟨hlt, hle⟩ := hgap
  have hcast : (v.difficulty : ℚ) < MIN_DIFFICULTY := by exact_mod_cast hlt
  have hmin : (0 : ℚ) < MIN_DIFFICULTY := by norm_num [MIN_DIFFICULTY]
  rw [nextDifficulty_default, if_neg]
  unfold RETUNE_RATIO at hle ⊢
  rintro (h | h) <;> linarith

/-- Outside the gap the next difficulty reaches the default one. -/
theorem nextDifficulty_no_gap {v : VarDiff} (hgap : ¬ ZeroGap v) :
    MIN_DIFFICULTY ≤ v.nextDifficulty MIN_DIFFICULTY := by
  rw [nextDifficulty_default]
  split_ifs with h
  · exact le_rfl
  · by_contra hlt
    exact hgap ⟨not_le.mp hlt, le_of_not_gt fun hgt => h (Or.inl hgt)⟩

/-- In the gap the value that meets every zero target does not meet the issued one. -/
theorem not_within_gap {v v' : VarDiff} {pool : String} (hv : v.Issues Issue.Covered)
    (h : v.tune pool = some v') (hzero : targetInteger pool = some 0) (hgap : ZeroGap v) :
    ¬ WithinPool v' pool := by
  intro hw
  have hdec := decode_zero hzero
  have hd : targetDifficulty pool = some MIN_DIFFICULTY := by rw [targetDifficulty, hdec]; rfl
  obtain ⟨hlt, hle⟩ := hgap
  have hbig : 1 < v.difficulty := by
    by_contra hsmall
    have hcast : (v.difficulty : ℚ) ≤ 1 := by exact_mod_cast Nat.le_of_not_lt hsmall
    norm_num [MIN_DIFFICULTY, RETUNE_RATIO] at hle
    linarith
  have hself : compactDifficulty v.difficulty = v.difficulty := by
    rw [compactDifficulty,
      compactOf_fit (by omega) (by unfold U32; unfold MIN_DIFFICULTY at hlt; omega)]
    refine Quotient.div_div_self (by omega) ?_
    rw [Nat.le_div_iff_mul_le (by omega)]
    unfold MIN_DIFFICULTY at hlt
    calc v.difficulty * v.difficulty ≤ 1000 * 1000 := Nat.mul_le_mul hlt.le hlt.le
      _ ≤ U32 := by decide
  have hne : difficultyTarget v.difficulty ≠ pool := by
    intro heq
    rw [← heq, targetInteger_difficultyTarget, Option.some.injEq] at hzero
    exact absurd hzero (compactOf_pos _).ne'
  have ht : nextTarget pool MIN_DIFFICULTY (v.nextDifficulty MIN_DIFFICULTY) =
      some (difficultyTarget v.difficulty) := by
    rw [nextDifficulty_gap ⟨hlt, hle⟩]
    simp [nextTarget, not_le.mpr hlt, hne, hself]
  have hmeet := hw.2 U64 le_rfl ((meetsValue_iff hdec U64).mpr le_rfl)
  rw [VarDiff.target, tune_target hv.ceiling h hd ht,
    meetsValue_iff (decode_difficultyTarget _), hself] at hmeet
  exact absurd hmeet (not_le.mpr (Nat.div_lt_self (by decide) hbig))

/-- With a seed difficulty of 32 bits a `tune` stays within the pool exactly outside the
zero target's gap. -/
theorem tune_within_iff {v v' : VarDiff} {pool : String} (hv : v.Issues Issue.Covered)
    (h : v.tune pool = some v') :
    WithinPool v' pool ↔ ¬ (targetInteger pool = some 0 ∧ ZeroGap v) := by
  by_cases hzero : targetInteger pool = some 0
  · have hd : targetDifficulty pool = some MIN_DIFFICULTY := by
      rw [targetDifficulty, decode_zero hzero]; rfl
    by_cases hgap : ZeroGap v
    · exact iff_of_false (not_within_gap hv h hzero hgap) (fun hn => hn ⟨hzero, hgap⟩)
    · refine iff_of_true (within_of_pool hv h hd ?_) (fun hn => hgap hn.2)
      simp [nextTarget, nextDifficulty_no_gap hgap]
  · exact iff_of_true (within_of_nonzero hv h hzero) (fun hn => hzero hn.1)

/-- A seed difficulty beyond 32 bits stays recorded when the pool's own target is the
hardest compact one. -/
theorem tune_hardest_kept {seed : ℚ} (now : ℕ) (hbig : U32 < seedDifficulty seed) :
    ∃ v', (VarDiff.new seed now).tune (difficultyTarget U32) = some v' ∧
      v'.issue = { target := difficultyTarget U32, difficulty := seedDifficulty seed } ∧
      v'.prior = none := by
  have hpool : difficultyTarget (seedDifficulty seed) = difficultyTarget U32 := by
    unfold difficultyTarget
    rw [compactOf_big hbig]
    rfl
  have hd : targetDifficulty (difficultyTarget U32) = some U32 := by
    rw [targetDifficulty_difficultyTarget]
    rfl
  have hnew : (VarDiff.new seed now).Issues fun _ => True := new_issues trivial
  have hsome := tune_isSome hnew.ceiling (difficultyTarget U32)
  rw [decode_difficultyTarget] at hsome
  obtain ⟨v', h⟩ := Option.isSome_iff_exists.mp hsome
  -- whichever way the retune goes, the next difficulty reaches the ceiling
  have hnext : U32 ≤ (VarDiff.new seed now).nextDifficulty U32 := by
    unfold VarDiff.nextDifficulty
    change U32 ≤ if _ then min U32 (seedDifficulty seed) else seedDifficulty seed
    split_ifs
    · exact le_min le_rfl hbig.le
    · exact hbig.le
  obtain ⟨d, t, hd', ht, -, hcase⟩ := tune_cases hnew.ceiling h
  rw [hd, Option.some.injEq] at hd'
  subst hd'
  have htarget : t = (VarDiff.new seed now).issue.target := by
    change t = difficultyTarget (seedDifficulty seed)
    simp only [nextTarget, hnext, if_true, Option.some.injEq] at ht
    rw [hpool, ht]
  rcases hcase with ⟨-, hi, hp⟩ | ⟨hne, -⟩
  · refine ⟨v', h, ?_, hp⟩
    rw [hi, ← hpool]
    rfl
  · exact absurd htarget hne

theorem tune_hardest_compact {seed : ℚ} (now : ℕ) (hbig : U32 < seedDifficulty seed) :
    ∃ v', (VarDiff.new seed now).tune (difficultyTarget U32) = some v' ∧
      ¬ WithinPool v' (difficultyTarget U32) := by
  obtain ⟨v', h, hi, -⟩ := tune_hardest_kept now hbig
  refine ⟨v', h, fun hw => ?_⟩
  have hd : targetDifficulty (difficultyTarget U32) = some U32 := by
    rw [targetDifficulty_difficultyTarget]
    rfl
  have hle := hw.1 U32 hd
  rw [VarDiff.difficulty, hi] at hle
  exact absurd hbig (not_lt.mpr hle)

/-- A miner is never asked for more than the pool, in every run and for every pool target
that decodes, as long as the seed's difficulty fits 32 bits and no zero target meets an
issue in the gap below the default difficulty; every larger seed has a run in which it is. -/
theorem tune_never_above_pool (seed : ℚ) (now : ℕ) :
    (seedDifficulty seed ≤ U32 → ∀ calls pool v',
      ((VarDiff.new seed now).run calls).tune pool = some v' →
        (WithinPool v' pool ↔
          ¬ (targetInteger pool = some 0 ∧ ZeroGap ((VarDiff.new seed now).run calls)))) ∧
      (U32 < seedDifficulty seed → ∃ calls pool v',
        ((VarDiff.new seed now).run calls).tune pool = some v' ∧ targetInteger pool ≠ some 0 ∧
          ¬ WithinPool v' pool) := by
  refine ⟨fun hfit calls pool v' h => ?_, fun hbig => ?_⟩
  · exact tune_within_iff
      (run_issues (fun _ hi => hi.covered) calls (new_issues (new_covered now hfit))) h
  · obtain ⟨v', h, hnot⟩ := tune_hardest_compact now hbig
    refine ⟨[], difficultyTarget U32, v', h, ?_, hnot⟩
    rw [targetInteger_difficultyTarget]
    decide

/-- The default seed against a wide pool target. -/
theorem tune_never_above_pool_default : ∃ v',
    ((VarDiff.new 1000 0).run [.observe 250000]).tune "ffffffffff000000" = some v' ∧
      (WithinPool v' "ffffffffff000000" ↔ ¬ (targetInteger "ffffffffff000000" = some 0 ∧
        ZeroGap ((VarDiff.new 1000 0).run [.observe 250000]))) := by
  obtain ⟨v', hv'⟩ : ∃ v',
      ((VarDiff.new 1000 0).run [.observe 250000]).tune "ffffffffff000000" = some v' :=
    Option.isSome_iff_exists.mp (by decide +kernel)
  exact ⟨v', hv', (tune_never_above_pool 1000 0).1 (by decide +kernel) _ _ v' hv'⟩

/-- 286332 threads ask for more than the hardest compact pool target proves, and the record
keeps it when that target is the pool's own. -/
theorem tune_above_pool : ¬ ∀ calls pool v',
    ((VarDiff.new 286332000 0).run calls).tune pool = some v' → WithinPool v' pool := by
  intro h
  have hrun : ((VarDiff.new 286332000 0).tune "01000000").map VarDiff.difficulty =
      some 4294980000 := by decide +kernel
  obtain ⟨v', hv', hd⟩ := Option.map_eq_some_iff.mp hrun
  have hle := (h [] "01000000" v' hv').1 4294967295 (by decide +kernel)
  omega

end NMiner
