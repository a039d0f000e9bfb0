import NMiner.Proofs.Difficulty
import NMiner.Spec.Retune

/-! Shares in flight across a retune. The invariant is that everything outstanding, the
targets the miner holds or is about to receive and the shares on their way, is no easier
than the target `floor` answers for. -/

namespace NMiner

open HexText Transition

/-- The bound of a target, `0` when it does not decode. -/
def valueOf (target : String) : ℕ := ((decode target).map Decoded.value).getD 0

theorem valueOf_eq {target : String} {c : Decoded} (h : decode target = some c) :
    valueOf target = c.value := by
  rw [valueOf, h]
  rfl

/-! ### Difficulties order targets -/

/-- The recorded difficulty is the rounded quotient of the bound, up to one unit. -/
def Issue.Graded (i : Issue) : Prop :=
  ∃ c q, decode i.target = some c ∧ i.difficulty = Double.ofNat q ∧ 0 < q ∧
    U64 / (q + 1) ≤ c.value ∧ c.value ≤ U64 / q

theorem readLE_lt {us : List ℕ} {offset width n : ℕ}
    (h : readLE (bytes us) offset width = some n) : n < 256 ^ width := by
  unfold readLE at h
  split_ifs at h with hlen
  rw [Option.some.injEq] at h
  have hlt := littleEndian_lt (((bytes us).drop offset).take width)
    (fun b hb => bytes_lt us b (List.mem_of_mem_drop (List.mem_of_mem_take hb)))
  rw [List.length_take, List.length_drop, Nat.min_eq_left (by omega)] at hlt
  exact h ▸ hlt

/-- An exact difficulty of a non-zero target grades it. -/
theorem Issue.Recorded.graded {i : Issue} (h : i.Recorded)
    (hzero : targetInteger i.target ≠ some 0) : i.Graded := by
  obtain ⟨c, hc, hd⟩ := Option.map_eq_some_iff.mp h
  have hdec := hc
  unfold decode at hc
  cases hint : targetInteger i.target with
  | none => simp [hint] at hc
  | some n =>
    have hn : 0 < n := Nat.pos_of_ne_zero fun h0 => hzero (by rw [hint, h0])
    rw [hint] at hc
    cases hw : isWide i.target with
    | true =>
      simp only [hw, if_true, Option.map_some, if_pos hn, Option.some.injEq] at hc
      have hlt : n < 256 ^ 8 := by
        rw [targetInteger, hw, if_pos rfl] at hint
        exact readLE_lt hint
      have hle : n ≤ U64 := by
        unfold U64
        omega
      refine ⟨c, U64 / n, hdec, by rw [← hd, ← hc], Nat.div_pos hle hn, ?_, ?_⟩
      · rw [← hc]
        have := Nat.lt_mul_div_succ U64 hn
        exact (Nat.div_lt_iff_lt_mul (Nat.succ_pos _)).mpr this |>.le
      · rw [← hc]
        exact Quotient.le_div_of_le_div hn (Nat.div_pos hle hn) le_rfl
    | false =>
      simp only [hw, Bool.false_eq_true, if_false, Option.map_some, if_pos hn,
        Option.some.injEq] at hc
      have hlt : n < 256 ^ 4 := by
        rw [targetInteger, hw, if_neg (by decide)] at hint
        exact readLE_lt hint
      have hle : n ≤ U32 := by
        unfold U32
        omega
      have hsmall : U32 / n < 2 ^ 53 := lt_of_le_of_lt (Nat.div_le_self _ _) (by decide)
      refine ⟨c, U32 / n, hdec, by rw [Double.ofNat_of_lt hsmall, ← hd, ← hc],
        Nat.div_pos hle hn, ?_, by rw [← hc]⟩
      rw [← hc]
      exact Nat.div_le_div_left (Nat.le_succ _) (Nat.div_pos hle hn)

/-- The seeds whose compact target proves the seed difficulty or one unit more. -/
def SeedFits (seed : ℚ) : Prop :=
  seedDifficulty seed ≤ compactDifficulty (seedDifficulty seed) ∧
    compactDifficulty (seedDifficulty seed) ≤ seedDifficulty seed + 1

instance (seed : ℚ) : Decidable (SeedFits seed) := inferInstanceAs (Decidable (_ ∧ _))

theorem new_graded {seed : ℚ} (now : ℕ) (h : SeedFits seed) :
    (VarDiff.new seed now).issue.Graded := by
  obtain ⟨hlow, hhigh⟩ := h
  have hpos := seedDifficulty_pos seed
  have hsmall : seedDifficulty seed < 2 ^ 53 :=
    lt_of_le_of_lt (hlow.trans (compactDifficulty_le _)) (by decide)
  exact ⟨_, seedDifficulty seed, decode_difficultyTarget _, (Double.ofNat_of_lt hsmall).symm, hpos,
    Nat.div_le_div_left hhigh (compactDifficulty_pos _), Nat.div_le_div_left hlow hpos⟩

/-- The issue of smaller difficulty accepts at least what the other accepts. -/
theorem value_le_of_lt {i j : Issue} (hi : i.Graded) (hj : j.Graded)
    (h : i.difficulty < j.difficulty) : valueOf j.target ≤ valueOf i.target := by
  obtain ⟨c, q, hc, hq, -, hlow, -⟩ := hi
  obtain ⟨c', q', hc', hq', -, -, hhigh⟩ := hj
  rw [hq, hq'] at h
  rw [valueOf_eq hc, valueOf_eq hc']
  calc c'.value ≤ U64 / q' := hhigh
    _ ≤ U64 / (q + 1) := Nat.div_le_div_left (Double.lt_of_ofNat_lt h) (Nat.succ_pos q)
    _ ≤ c.value := hlow

/-- A compact target accepts at least what an issue of the same difficulty accepts. -/
theorem value_le_compact {i : Issue} (hi : i.Graded) {n : ℕ}
    (h : i.difficulty = compactDifficulty n) :
    valueOf i.target ≤ valueOf (difficultyTarget n) := by
  obtain ⟨c, q, hc, hq, -, -, hhigh⟩ := hi
  have hsmall : compactDifficulty n < 2 ^ 53 := lt_of_le_of_lt (compactDifficulty_le n) (by decide)
  have hqn : q = compactDifficulty n := by
    rcases Nat.lt_or_ge q (2 ^ 53) with hlt | hge
    · rw [← h, hq, Double.ofNat_of_lt hlt]
    · have := Double.le_ofNat_large hge
      omega
  rw [valueOf_eq hc, valueOf_eq (decode_difficultyTarget n), ← hqn]
  exact hhigh

/-- The floor is never harder than the current target. -/
theorem target_le_floor {v : VarDiff} (hv : v.Issues Issue.Graded) :
    valueOf v.target ≤ valueOf v.floor.target := by
  unfold VarDiff.floor
  cases hp : v.prior with
  | none => exact le_rfl
  | some p =>
    dsimp only
    split_ifs with hlt
    · exact value_le_of_lt (hv.prior p hp) hv.issue hlt
    · exact le_rfl

/-! ### The guard -/

/-- Nothing the miner holds, is about to receive or has in flight is easier than `bound`. -/
def Wire.covered (w : Wire) (bound : ℕ) : Bool :=
  ((w.held.toList ++ w.down).all fun t => valueOf t ≤ bound) && w.up.all fun x => x ≤ bound

/-- When a retune changes the target, a pool target handed out is not the zero target and is
no harder than a target of the same difficulty it replaces, and nothing outstanding is
easier than both targets. When a judged share meets the newest target, nothing
outstanding is easier than that target. -/
def Wire.guard (w : Wire) : Wire.Action → Bool
  | .retune pool => match w.vardiff.tune pool with
    | none => true
    | some v => v.target = w.vardiff.target ||
        (v.target ≠ pool || (targetInteger pool ≠ some 0 &&
          (targetDifficulty pool ≠ some w.vardiff.difficulty ||
            valueOf w.vardiff.target ≤ valueOf pool))) &&
        w.covered (max (valueOf w.vardiff.target) (valueOf v.target))
  | .judge _ => match w.up with
    | [] => true
    | value :: _ => meetsValue (some value) w.vardiff.target ≠ some true ||
        w.covered (valueOf w.vardiff.target)
  | _ => true

theorem covered_iff {w : Wire} {bound : ℕ} : w.covered bound = true ↔
    (∀ t ∈ w.held.toList ++ w.down, valueOf t ≤ bound) ∧ ∀ x ∈ w.up, x ≤ bound := by
  simp only [Wire.covered, Bool.and_eq_true, List.all_eq_true, decide_eq_true_eq]

structure Wire.Sound (w : Wire) : Prop where
  issues : w.vardiff.Issues Issue.Graded
  covered : w.covered (valueOf w.vardiff.floor.target) = true
  decodes : ∀ t ∈ w.held.toList ++ w.down, (decode t).isSome
  refused : w.refused = []

theorem Issue.Graded.decodes {i : Issue} (h : i.Graded) : (decode i.target).isSome := by
  obtain ⟨c, q, hc, -⟩ := h
  rw [hc]
  rfl

theorem floor_graded {v : VarDiff} (hv : v.Issues Issue.Graded) : v.floor.Graded := by
  unfold VarDiff.floor
  cases hp : v.prior with
  | none => exact hv.issue
  | some p =>
    dsimp only
    split_ifs
    · exact hv.prior p hp
    · exact hv.issue

theorem meetsValue_valueOf {target : String} (h : (decode target).isSome) (value : ℕ) :
    meetsValue (some value) target = some (decide (value ≤ valueOf target)) := by
  obtain ⟨c, hc⟩ := Option.isSome_iff_exists.mp h
  rw [valueOf_eq hc, meetsValue, hc]
  rfl

/-- A new issue is graded when the pool target it may hand out is not the zero target. -/
theorem tune_graded {v v' : VarDiff} {pool : String} (hc : v.CeilingOk)
    (h : v.tune pool = some v') (hrec : v'.issue.Recorded)
    (hzero : v'.target = pool → targetInteger pool ≠ some 0) : v'.issue.Graded := by
  refine hrec.graded ?_
  change targetInteger v'.target ≠ some 0
  rcases tune_target_cases hc h with hpool | ⟨n, hn⟩
  · rw [hpool]
    exact hzero hpool
  · rw [hn, targetInteger_difficultyTarget, ne_eq, Option.some.injEq]
    exact (compactOf_pos n).ne'

/-- After a change of target the floor covers the old target and the new one, unless a pool
target of the same difficulty is harder than the old one. -/
theorem retune_floor {v v' : VarDiff} {pool : String} (hv : v.Issues Issue.Graded)
    (hv' : v'.Issues Issue.Graded) (h : v.tune pool = some v')
    (hprior : v'.prior = some v.issue) (hrec : v'.issue.Recorded)
    (hpool : v'.target = pool → targetDifficulty pool = some v.difficulty →
      valueOf v.target ≤ valueOf pool) :
    max (valueOf v.target) (valueOf v'.target) ≤ valueOf v'.floor.target := by
  refine max_le ?_ (target_le_floor hv')
  unfold VarDiff.floor
  rw [hprior]
  dsimp only
  split_ifs with hlt
  · exact le_rfl
  rcases Nat.lt_or_ge v'.issue.difficulty v.issue.difficulty with hgt | hge
  · exact value_le_of_lt hv'.issue hv.issue hgt
  -- equal difficulties: the pool target by hypothesis, a compact one by its encoding
  have heq : v.issue.difficulty = v'.issue.difficulty := by omega
  change targetDifficulty v'.target = _ at hrec
  change valueOf v.target ≤ valueOf v'.target
  rcases tune_target_cases hv.ceiling h with hp | ⟨n, hn⟩
  · rw [hp] at hrec ⊢
    exact hpool hp (by rw [hrec, VarDiff.difficulty, heq])
  · rw [hn, targetDifficulty_difficultyTarget, Option.some.injEq] at hrec
    rw [hn]
    exact value_le_compact hv.issue (by rw [heq, hrec])

/-- A sent target joins the end of the outstanding ones. -/
theorem forall_sent {P : String → Prop} {held down : List String} {t : String}
    (hold : ∀ x ∈ held ++ down, P x) (ht : P t) : ∀ x ∈ held ++ (down ++ [t]), P x := by
  intro x hx
  rw [← List.append_assoc] at hx
  rcases List.mem_append.mp hx with hx | hx
  · exact hold x hx
  · exact List.mem_singleton.mp hx ▸ ht

theorem retune_sound {w w' : Wire} {pool : String} (hs : w.Sound)
    (hg : w.guard (.retune pool) = true) (h : w.step (.retune pool) = some w') : w'.Sound := by
  obtain ⟨v, hv, rfl⟩ := Option.map_eq_some_iff.mp h
  have hceil := hs.issues.ceiling
  obtain ⟨hcov, hup⟩ := covered_iff.mp hs.covered
  simp only [Wire.guard, hv] at hg
  rcases tune_issue hceil hv with ⟨hi, hp⟩ | ⟨hne, hrec, hp⟩
  · -- the issue is kept, so the floor is the same and the resent target is below it
    have hiss := tune_issues_of hs.issues hv (hi ▸ hs.issues.issue)
    have hfloor : v.floor = w.vardiff.floor := by unfold VarDiff.floor; rw [hi, hp]
    refine ⟨hiss, covered_iff.mpr ⟨forall_sent ?_ (target_le_floor hiss), hfloor ▸ hup⟩,
      forall_sent hs.decodes hiss.issue.decodes, hs.refused⟩
    exact hfloor ▸ hcov
  · have hne' : v.target ≠ w.vardiff.target := hne
    simp only [decide_eq_false hne', Bool.false_or, Bool.and_eq_true, Bool.or_eq_true,
      decide_eq_true_eq] at hg
    obtain ⟨hpool, hmax⟩ := hg
    have hgraded := tune_graded hceil hv hrec fun hp' => (hpool.resolve_left fun hn => hn hp').1
    have hiss := tune_issues_of hs.issues hv hgraded
    have hfloor := retune_floor hs.issues hiss hv hp hrec fun hp' hd' =>
      ((hpool.resolve_left fun hn => hn hp').2).resolve_left fun hn => hn hd'
    obtain ⟨hcov', hup'⟩ := covered_iff.mp hmax
    exact ⟨hiss, covered_iff.mpr ⟨forall_sent (fun t ht => (hcov' t ht).trans hfloor)
        (target_le_floor hiss), fun x hx => (hup' x hx).trans hfloor⟩,
      forall_sent hs.decodes hgraded.decodes, hs.refused⟩

theorem deliver_sound {w w' : Wire} (hs : w.Sound) (h : w.step .deliver = some w') : w'.Sound := by
  obtain ⟨hcov, hup⟩ := covered_iff.mp hs.covered
  unfold Wire.step at h
  cases hd : w.down with
  | nil => simp [hd] at h
  | cons t rest =>
    simp only [hd, Option.some.injEq] at h
    subst h
    have hsub : ∀ x ∈ (some t).toList ++ rest, x ∈ w.held.toList ++ w.down := by
      intro x hx
      rw [hd]
      exact List.mem_append_right _ (by simpa using hx)
    exact ⟨hs.issues, covered_iff.mpr ⟨fun x hx => hcov x (hsub x hx), hup⟩,
      fun x hx => hs.decodes x (hsub x hx), hs.refused⟩

theorem submit_sound {w w' : Wire} {value : ℕ} (hs : w.Sound)
    (h : w.step (.submit value) = some w') : w'.Sound := by
  obtain ⟨hcov, hup⟩ := covered_iff.mp hs.covered
  unfold Wire.step at h
  cases hh : w.held with
  | none => simp [hh] at h
  | some t =>
    have hmem : t ∈ w.held.toList ++ w.down := by simp [hh]
    simp only [hh] at h
    rw [meetsValue_valueOf (hs.decodes t hmem)] at h
    split_ifs at h with hmeet
    simp only [Option.some.injEq] at h hmeet
    subst h
    refine ⟨hs.issues, covered_iff.mpr ⟨fun x hx => hcov x (hh ▸ hx), ?_⟩,
      fun x hx => hs.decodes x (hh ▸ hx), hs.refused⟩
    intro x hx
    rcases List.mem_append.mp hx with hx | hx
    · exact hup x hx
    · rw [List.mem_singleton.mp hx]
      exact (of_decide_eq_true hmeet).trans (hcov t hmem)

/-- A share below the floor is credited, and settling changes the floor only to the
current target. -/
theorem judge_spec {v : VarDiff} (hv : v.Issues Issue.Graded) {value : ℕ}
    (hle : value ≤ valueOf v.floor.target) :
    ∃ d v', v.judge (some value) = some (some d, v') ∧ v'.Issues Issue.Graded ∧
      (valueOf v'.floor.target = valueOf v.floor.target ∨
        meetsValue (some value) v.target = some true ∧ v'.floor.target = v.target) := by
  have hmet := meetsValue_valueOf (floor_graded hv).decodes value
  rw [decide_eq_true hle] at hmet
  have hsettle : v.settle.Issues Issue.Graded :=
    ⟨hv.ceiling, hv.issue, by simp [VarDiff.settle]⟩
  unfold VarDiff.judge
  simp only [hmet, Option.bind_some, if_true]
  by_cases hsame : v.floor.target = v.target
  · exact ⟨_, _, by rw [if_pos hsame]; rfl, hsettle, Or.inl (by rw [hsame]; rfl)⟩
  · have hcur := meetsValue_valueOf hv.issue.decodes value
    change meetsValue (some value) v.target = _ at hcur
    rw [if_neg hsame, hcur]
    by_cases hc : value ≤ valueOf v.issue.target
    · exact ⟨_, _, rfl, by simpa [hc] using hsettle, Or.inr ⟨by simp [hc], by simp [hc]; rfl⟩⟩
    · exact ⟨_, _, rfl, by simpa [hc] using hv, Or.inl (by simp [hc])⟩

theorem submitted_floor (v : VarDiff) (difficulty : ℚ) (count now : ℕ) :
    (v.submitted difficulty count now).floor = v.floor := by
  unfold VarDiff.submitted
  dsimp only
  split_ifs <;> rfl

theorem judge_sound {w w' : Wire} {now : ℕ} (hs : w.Sound)
    (hg : w.guard (.judge now) = true) (h : w.step (.judge now) = some w') : w'.Sound := by
  obtain ⟨hcov, hup⟩ := covered_iff.mp hs.covered
  unfold Wire.step at h
  unfold Wire.guard at hg
  cases hu : w.up with
  | nil => simp [hu] at h
  | cons value rest =>
    simp only [hu, Bool.or_eq_true, decide_eq_true_eq] at h hg
    obtain ⟨d, v, hj, hiss, hfloor⟩ := judge_spec hs.issues (hup value (by simp [hu]))
    rw [hj, Option.map_some, Option.some.injEq] at h
    subst h
    have hcov' : w.covered (valueOf v.floor.target) = true := by
      rcases hfloor with heq | ⟨hmeet, heq⟩
      · rw [heq]
        exact hs.covered
      · rw [heq]
        exact hg.resolve_left (fun hne => hne hmeet)
    obtain ⟨hcov', hup'⟩ := covered_iff.mp hcov'
    refine ⟨submitted_issues hiss d 1 now, covered_iff.mpr ?_, hs.decodes, hs.refused⟩
    rw [submitted_floor]
    exact ⟨hcov', fun x hx => hup' x (by rw [hu]; exact List.mem_cons_of_mem _ hx)⟩

theorem step_sound (w : Wire) (a : Wire.Action) (w' : Wire) (hs : w.Sound)
    (hg : w.guard a = true) (h : w.step a = some w') : w'.Sound := by
  cases a with
  | observe hashrate =>
    rw [Wire.step, Option.some.injEq] at h
    subst h
    have hfloor : (w.vardiff.observe hashrate).floor = w.vardiff.floor := by
      unfold VarDiff.observe
      split_ifs <;> rfl
    exact ⟨observe_issues hs.issues hashrate, hfloor ▸ hs.covered, hs.decodes, hs.refused⟩
  | retune pool => exact retune_sound hs hg h
  | deliver => exact deliver_sound hs h
  | submit value => exact submit_sound hs h
  | judge now => exact judge_sound hs hg h

/-- In every guarded run of the wire no share that met the miner's target is refused. -/
theorem shares_in_flight_accepted (seed : ℚ) (now : ℕ) (hseed : SeedFits seed)
    (actions : List Wire.Action) (w : Wire)
    (hguard : Meets Wire.step (fun w a => w.guard a = true) (Wire.start seed now) actions)
    (hrun : exec Wire.step (Wire.start seed now) actions = some w) : w.refused = [] := by
  have hstart : (Wire.start seed now).Sound :=
    ⟨new_issues (new_graded now hseed),
      covered_iff.mpr ⟨by simp [Wire.start], by simp [Wire.start]⟩,
      by simp [Wire.start], rfl⟩
  exact (exec_invariant step_sound hstart hguard hrun).refused

/-- One retune to a harder target, with a share under the old target judged after it and a
share under the new one that settles it. -/
theorem shares_in_flight_accepted_once : ∃ w, exec Wire.step (Wire.start 1000 0)
    [.retune "01000000", .deliver, .observe 2000, .retune "01000000", .submit (U64 / 15000),
      .judge 0, .deliver, .submit (U64 / 30000), .judge 0] = some w ∧ w.refused = [] :=
  exists_exec (by decide +kernel) fun w h =>
    shares_in_flight_accepted 1000 0 (by decide +kernel) _ w (by decide +kernel) h

/-- Two retunes outstanding: only the middle target is kept, and a share that met the target
the miner still holds is refused. -/
theorem shares_in_flight_refused : ¬ ∀ actions w,
    exec Wire.step (Wire.start 1000 0) actions = some w → w.refused = [] := by
  intro h
  have hrun : (exec Wire.step (Wire.start 1000 0)
      [.retune "01000000", .deliver, .observe 2000, .retune "01000000", .observe 4000,
        .retune "01000000", .submit (U64 / 15000), .judge 0]).map Wire.refused =
      some [U64 / 15000] := by decide +kernel
  obtain ⟨w, hw, hrefused⟩ := Option.map_eq_some_iff.mp hrun
  rw [h _ w hw] at hrefused
  exact absurd hrefused (by decide)

end NMiner
