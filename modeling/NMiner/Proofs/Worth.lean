import NMiner.Proofs.Mirror

/-! What a share is credited with against what it proves. A hash that meets a target is worth the
difficulty of the target, so a credit is too high only where an issue records more than its target
asks for, and that is the constructor's issue for a seed beyond 32 bits. -/

namespace NMiner

open HexText

/-- The target decodes and is not the zero target. -/
def Nonzero (target : String) : Prop := ∃ n, targetInteger target = some n ∧ 0 < n

/-- The difficulty of the issue as an integer: a wide target's is the quotient before it is made
a double. -/
def Issue.exact (i : Issue) : ℕ := if isWide i.target then U64 / valueOf i.target else i.difficulty

/-- The number on record is the exact difficulty, and no hash that meets the target is worth
less. -/
structure Issue.Backed (i : Issue) : Prop where
  number : i.difficulty = if isWide i.target then Double.ofNat i.exact else i.exact
  bound : i.exact ≤ U64 / valueOf i.target

theorem nonzero_of_ne {target : String} {c : Decoded} (hdec : decode target = some c)
    (h : targetInteger target ≠ some 0) : Nonzero target := by
  cases hint : targetInteger target with
  | none => simp [decode, hint] at hdec
  | some n => exact ⟨n, hint, Nat.pos_of_ne_zero fun h0 => h (by rw [hint, h0])⟩

theorem Nonzero.decodes {target : String} (h : Nonzero target) : ∃ c, decode target = some c := by
  obtain ⟨n, hn, -⟩ := h
  unfold decode
  rw [hn]
  cases isWide target <;> exact ⟨_, rfl⟩

/-- The bound of a compact target is the quotient by its difficulty. -/
theorem decode_compact {target : String} {c : Decoded} (hdec : decode target = some c)
    (hw : isWide target = false) (hzero : Nonzero target) :
    c.value = U64 / c.difficulty ∧ c.difficulty ≤ U32 := by
  obtain ⟨n, hn, hpos⟩ := hzero
  rw [decode, hw, hn, if_neg (by decide), Option.map_some, Option.some.injEq] at hdec
  dsimp only at hdec
  rw [if_pos hpos, if_pos hpos] at hdec
  subst hdec
  exact ⟨rfl, Nat.div_le_self _ _⟩

theorem Issue.Covered.backed {i : Issue} (h : i.Covered) (hw : isWide i.target = false)
    (hzero : Nonzero i.target) : i.Backed := by
  obtain ⟨d, hd, hle⟩ := h
  obtain ⟨c, hc, rfl⟩ := Option.map_eq_some_iff.mp hd
  obtain ⟨hvalue, hfit⟩ := decode_compact hc hw hzero
  have hexact : i.exact = i.difficulty := by rw [Issue.exact, hw, if_neg (by decide)]
  refine ⟨?_, ?_⟩
  · rw [hw, if_neg (by decide), hexact]
  · rw [hexact, valueOf_eq hc, hvalue]
    exact hle.trans (Quotient.le_div_div (hfit.trans (by decide)))

theorem Issue.Recorded.backed {i : Issue} (h : i.Recorded) (hzero : Nonzero i.target) :
    i.Backed := by
  cases hw : isWide i.target with
  | false => exact h.covered.backed hw hzero
  | true =>
    have hexact : i.exact = U64 / valueOf i.target := by rw [Issue.exact, if_pos hw]
    obtain ⟨c, hc, hd⟩ := Option.map_eq_some_iff.mp h
    obtain ⟨n, hn, hpos⟩ := hzero
    have hdec := hc
    rw [decode, if_pos hw, hn, Option.map_some, if_pos hpos, Option.some.injEq] at hc
    refine ⟨?_, hexact.le⟩
    rw [if_pos hw, hexact, valueOf_eq hdec, ← hd, ← hc]

/-- What the credit for a share is at most. -/
theorem Issue.Backed.worth {i : Issue} (h : i.Backed) {value : ℕ} (hpos : 0 < value)
    (hmeet : value ≤ valueOf i.target) : i.exact ≤ U64 / value :=
  h.bound.trans (Nat.div_le_div_left hmeet hpos)

theorem le_valueOf {target : String} {value : ℕ} (h : meetsValue (some value) target = some true) :
    value ≤ valueOf target := by
  obtain ⟨c, hc, hle⟩ := Option.map_eq_some_iff.mp h
  rw [valueOf_eq hc]
  exact of_decide_eq_true hle

/-! ### The controller -/

/-- A target handed out under a non-zero pool target is not zero. -/
theorem tune_nonzero {v v' : VarDiff} {pool : String} (hc : v.CeilingOk)
    (h : v.tune pool = some v') (hpool : targetInteger pool ≠ some 0) : Nonzero v'.target := by
  rcases tune_target_cases hc h with ht | ⟨n, hn⟩
  · have hsome : (decode pool).isSome = true := by
      rw [← tune_isSome hc pool, h]
      rfl
    obtain ⟨c, hdec⟩ := Option.isSome_iff_exists.mp hsome
    rw [ht]
    exact nonzero_of_ne hdec hpool
  · rw [hn]
    exact ⟨_, targetInteger_difficultyTarget n, compactOf_pos n⟩

theorem tune_backed {v v' : VarDiff} {pool : String} (hv : v.Issues Issue.Backed)
    (h : v.tune pool = some v') (hpool : targetInteger pool ≠ some 0) : v'.Issues Issue.Backed := by
  apply tune_issues_of hv h
  rcases tune_issue hv.ceiling h with ⟨hi, -⟩ | ⟨-, hrec, -⟩
  · exact hi ▸ hv.issue
  · exact hrec.backed (tune_nonzero hv.ceiling h hpool)

/-- The pool target of a `tune` is not the zero target, which the addon refuses. -/
def VarDiff.Call.Nonzero : VarDiff.Call → Prop
  | .tune pool => targetInteger pool ≠ some 0
  | _ => True

theorem apply_backed {v : VarDiff} (hv : v.Issues Issue.Backed) {call : VarDiff.Call}
    (hcall : call.Nonzero) : (v.apply call).Issues Issue.Backed := by
  cases call with
  | observe hashrate => exact observe_issues hv hashrate
  | submitted difficulty count now => exact submitted_issues hv difficulty count now
  | settle => exact settle_issues hv
  | tune pool =>
    cases h : v.tune pool with
    | none => simpa only [VarDiff.apply, h, Option.getD_none] using hv
    | some v' => simpa only [VarDiff.apply, h, Option.getD_some] using tune_backed hv h hcall

theorem run_backed {v : VarDiff} (hv : v.Issues Issue.Backed) (calls : List VarDiff.Call)
    (hcalls : ∀ call ∈ calls, call.Nonzero) : (v.run calls).Issues Issue.Backed := by
  induction calls generalizing v with
  | nil => exact hv
  | cons call calls ih =>
    exact ih (apply_backed hv (hcalls call List.mem_cons_self))
      fun c hc => hcalls c (List.mem_cons_of_mem _ hc)

theorem new_backed {seed : ℚ} (now : ℕ) (h : seedDifficulty seed ≤ U32) :
    (VarDiff.new seed now).Issues Issue.Backed := by
  refine new_issues ((new_covered now h).backed ?_ ?_)
  · exact isWide_difficultyTarget (seedDifficulty seed)
  · exact ⟨_, targetInteger_difficultyTarget _, compactOf_pos _⟩

/-! ### A share at the primary -/

/-- The issue whose difficulty `LocalBackend.submit` credits. -/
def VarDiff.credited (v : VarDiff) (value : ℕ) : Issue :=
  if (v.floor.target = v.target ∨ meetsValue (some value) v.target = some true) ∧
    v.difficulty > v.floor.difficulty then v.issue else v.floor

theorem judge_credited {v w : VarDiff} {value d : ℕ} (h : v.judge (some value) = some (some d, w)) :
    d = (v.credited value).difficulty ∧ value ≤ valueOf (v.credited value).target := by
  unfold VarDiff.judge at h
  obtain ⟨met, hmet, h⟩ := Option.bind_eq_some_iff.mp h
  cases met with
  | false => simp at h
  | true =>
    have hfloor : value ≤ valueOf v.floor.target := le_valueOf hmet
    rw [if_pos rfl] at h
    obtain ⟨settled, hsettled, h⟩ := Option.map_eq_some_iff.mp h
    obtain ⟨hd, -⟩ := Prod.mk.inj h
    have hd := Option.some.inj hd
    have hiff : (v.floor.target = v.target ∨ meetsValue (some value) v.target = some true) ↔
        settled = true := by
      by_cases hsame : v.floor.target = v.target
      · rw [if_pos hsame, Option.some.injEq] at hsettled
        exact iff_of_true (Or.inl hsame) hsettled.symm
      · rw [if_neg hsame] at hsettled
        rw [or_iff_right hsame, hsettled, Option.some.injEq]
    unfold VarDiff.credited
    simp only [hiff]
    by_cases hcond : settled = true ∧ v.difficulty > v.floor.difficulty
    · rw [if_pos hcond] at hd ⊢
      refine ⟨hd.symm, ?_⟩
      rcases hiff.mpr hcond.1 with hsame | hcurrent
      · change value ≤ valueOf v.target
        exact hsame ▸ hfloor
      · exact le_valueOf hcurrent
    · rw [if_neg hcond] at hd ⊢
      exact ⟨hd.symm, hfloor⟩

/-- A share that the primary credits has been judged by its controller. -/
theorem credit_judged {job : Option StratumJob} {owns : ℤ → Bool} {v : VarDiff}
    {nonce result : String} {now value d : ℕ} (hvalue : hashValue result = some value)
    (h : (decideShare job owns v nonce result now).1.credit = some d) :
    ∃ w, v.judge (some value) = some (some d, w) := by
  unfold decideShare at h
  rw [hvalue] at h
  rcases job with _ | job
  · cases h
  cases hclaimed : claimedNonce nonce with
  | none => simp [hclaimed, Decision.credit] at h
  | some claimed =>
    rw [hclaimed] at h
    dsimp only at h
    cases howns : owns claimed with
    | false => simp [howns, Decision.credit] at h
    | true =>
      rw [howns, if_pos rfl] at h
      rcases hjudge : v.judge (some value) with _ | ⟨_ | e, w⟩
      · simp [hjudge, Decision.credit] at h
      · simp [hjudge, Decision.credit] at h
      · rw [hjudge] at h
        refine ⟨w, ?_⟩
        rcases hpool : meetsValue (some value) job.target with _ | _ | _ <;>
          simp [hpool, Decision.credit] at h <;> rw [h]

theorem floor_issues {P : Issue → Prop} {v : VarDiff} (hv : v.Issues P) : P v.floor := by
  unfold VarDiff.floor
  cases hp : v.prior with
  | none => exact hv.issue
  | some p =>
    dsimp only
    split_ifs
    · exact hv.prior p hp
    · exact hv.issue

theorem credited_issues {P : Issue → Prop} {v : VarDiff} (hv : v.Issues P) (value : ℕ) :
    P (v.credited value) := by
  unfold VarDiff.credited
  split_ifs
  · exact hv.issue
  · exact floor_issues hv

/-- The credit is the difficulty of an issue that the share proves. -/
def Proven (i : Issue) (value d : ℕ) : Prop :=
  d = (if isWide i.target then Double.ofNat i.exact else i.exact) ∧ i.exact ≤ U64 / value

theorem credit_proven {v : VarDiff} (hv : v.Issues Issue.Backed) {job : Option StratumJob}
    {owns : ℤ → Bool} {nonce result : String} {now value d : ℕ}
    (hvalue : hashValue result = some value) (hpos : 0 < value)
    (h : (decideShare job owns v nonce result now).1.credit = some d) :
    Proven (v.credited value) value d := by
  obtain ⟨w, hjudge⟩ := credit_judged hvalue h
  obtain ⟨hd, hmeet⟩ := judge_credited hjudge
  have hbacked : (v.credited value).Backed := credited_issues hv value
  exact ⟨hd.trans hbacked.number, hbacked.worth hpos hmeet⟩

/-! ### A share at a worker -/

/-- What happens to a worker's entry for a session. -/
inductive Known.Call
  | learn (m : Message)
  | submit (job_id nonce result : String)

def Known.apply (k : Known) : Known.Call → Known
  | .learn m => k.learn m
  | .submit job_id nonce result => (k.submit job_id nonce result).2

def Known.run (k : Known) (calls : List Known.Call) : Known := calls.foldl Known.apply k

def Known.Call.Nonzero : Known.Call → Prop
  | .learn (.job p) => NMiner.Nonzero p.target
  | _ => True

def Known.current (k : Known) : Issue := { target := k.target, difficulty := k.diff }

def Known.retained (k : Known) : Issue := { target := k.prior, difficulty := k.older }

structure Known.Backed (k : Known) : Prop where
  current : k.target ≠ "" → k.current.Backed
  retained : k.prior ≠ "" → k.retained.Backed

/-- The issue whose difficulty `WorkerBackend.submit` tallies. -/
def Known.credited (k : Known) (value : ℕ) : Issue :=
  if meetsValue (some value) k.target = some true ∧ k.diff > k.floor.difficulty then k.current
  else k.floor

theorem learnTarget_backed {k : Known} (h : k.Backed) {target : String} (ht : Nonzero target) :
    (k.learnTarget target).Backed := by
  unfold Known.learnTarget
  split_ifs with heq
  · exact h
  · obtain ⟨c, hc⟩ := ht.decodes
    refine ⟨fun _ => ?_, h.current⟩
    have hrec : ({ target := target, difficulty := (targetDifficulty target).getD 0 } :
      Issue).Recorded := by
      rw [Issue.Recorded, targetDifficulty, hc]
      rfl
    exact hrec.backed ht

theorem learnRange_backed {k : Known} (h : k.Backed) (range : Grant) :
    (k.learnRange range).Backed := by
  unfold Known.learnRange
  split_ifs <;> exact ⟨h.current, h.retained⟩

theorem floor_backed {k : Known} (h : k.Backed) (htarget : k.target ≠ "") : k.floor.Backed := by
  unfold Known.floor
  split_ifs with hprior
  · exact h.retained hprior.1
  · exact h.current htarget

/-- Dropping the replaced target is all a share does to the entry. -/
theorem submit_known (k : Known) (job_id nonce result : String) :
    (k.submit job_id nonce result).2 = k ∨
      (k.submit job_id nonce result).2 = { k with prior := "" } := by
  unfold Known.submit
  split_ifs
  · dsimp only
    rcases meetsValue (hashValue result) k.floor.target with _ | _ | _
    · exact Or.inl rfl
    · exact Or.inl rfl
    · dsimp only
      cases meetsValue (hashValue result) k.target with
      | none => exact Or.inl rfl
      | some current =>
        dsimp only
        split_ifs
        · exact Or.inr rfl
        · exact Or.inl rfl
  · exact Or.inl rfl

theorem apply_known_backed {k : Known} (h : k.Backed) {call : Known.Call} (hcall : call.Nonzero) :
    (k.apply call).Backed := by
  cases call with
  | learn m =>
    cases m with
    | job p =>
      have hjob : Known.Backed { k with job_id := p.job.job_id, pool := p.pool_target } :=
        ⟨h.current, h.retained⟩
      exact learnRange_backed (learnTarget_backed hjob hcall) p.range
    | range g => exact learnRange_backed h g
    | other => exact h
  | submit job_id nonce result =>
    change (k.submit job_id nonce result).2.Backed
    rcases submit_known k job_id nonce result with heq | heq <;> rw [heq]
    · exact h
    · exact ⟨h.current, fun hne => absurd rfl hne⟩

theorem run_known_backed {k : Known} (h : k.Backed) (calls : List Known.Call)
    (hcalls : ∀ call ∈ calls, call.Nonzero) : (k.run calls).Backed := by
  induction calls generalizing k with
  | nil => exact h
  | cons call calls ih =>
    exact ih (apply_known_backed h (hcalls call List.mem_cons_self))
      fun c hc => hcalls c (List.mem_cons_of_mem _ hc)

/-- A share that a worker settles is covered and meets the target of the issue it is credited
with. -/
theorem absorbed_credited {k : Known} {job_id nonce result : String} {value d : ℕ}
    (hvalue : hashValue result = some value)
    (h : (k.submit job_id nonce result).1 = .absorbed d) :
    k.target ≠ "" ∧ d = (k.credited value).difficulty ∧ value ≤ valueOf
      (k.credited value).target := by
  unfold Known.submit at h
  rw [hvalue] at h
  by_cases hcov : k.covers job_id nonce = true
  · rw [if_pos hcov] at h
    have htarget : k.target ≠ "" := by
      unfold Known.covers at hcov
      simp only [Bool.and_eq_true, decide_eq_true_eq] at hcov
      exact hcov.1.1.1
    refine ⟨htarget, ?_⟩
    dsimp only at h
    rcases hmet : meetsValue (some value) k.floor.target with _ | _ | _
    · simp [hmet] at h
    · simp [hmet] at h
    · have hfloor : value ≤ valueOf k.floor.target := le_valueOf hmet
      rw [hmet] at h
      dsimp only at h
      unfold Known.credited
      rcases hcur : meetsValue (some value) k.target with _ | current
      · simp [hcur] at h
      · rw [hcur] at h
        dsimp only at h
        have hd : (if current = true ∧ k.diff > k.floor.difficulty then k.diff
            else k.floor.difficulty) = d := by
          split at h
          · cases h
          · cases h
          · have h := WorkerDecision.absorbed.inj h
            simp only [apply_ite Known.diff, ite_self] at h
            exact h
        simp only [Option.some.injEq]
        by_cases hcond : current = true ∧ k.diff > k.floor.difficulty
        · rw [if_pos hcond] at hd ⊢
          exact ⟨hd.symm, le_valueOf (hcond.1 ▸ hcur)⟩
        · rw [if_neg hcond] at hd ⊢
          exact ⟨hd.symm, hfloor⟩
  · rw [if_neg hcov] at h
    cases h

theorem absorbed_proven {k : Known} (hk : k.Backed) {job_id nonce result : String} {value d : ℕ}
    (hvalue : hashValue result = some value) (hpos : 0 < value)
    (h : (k.submit job_id nonce result).1 = .absorbed d) : Proven (k.credited value) value d := by
  obtain ⟨htarget, hd, hmeet⟩ := absorbed_credited hvalue h
  have hbacked : (k.credited value).Backed := by
    unfold Known.credited
    split_ifs
    · exact hk.current htarget
    · exact floor_backed hk htarget
  exact ⟨hd.trans hbacked.number, hbacked.worth hpos hmeet⟩

/-! ### Every share -/

/-- Whatever has happened to the controller of a login under non-zero pool targets, and whatever the
worker has learned, a share is credited with no more than it proves. -/
def CreditsProven (v : VarDiff) : Prop :=
  (∀ calls : List VarDiff.Call, (∀ call ∈ calls, call.Nonzero) →
    ∀ (job : Option StratumJob) (owns : ℤ → Bool) (nonce result : String) (now value d : ℕ),
      hashValue result = some value → 0 < value →
      (decideShare job owns (v.run calls) nonce result now).1.credit = some d →
        Proven ((v.run calls).credited value) value d) ∧
  ∀ calls : List Known.Call, (∀ call ∈ calls, call.Nonzero) →
    ∀ (job_id nonce result : String) (value d : ℕ), hashValue result = some value → 0 < value →
      ((Known.run {} calls).submit job_id nonce result).1 = .absorbed d →
        Proven ((Known.run {} calls).credited value) value d

/-- The hash of a share that proves exactly the largest 32-bit difficulty. -/
def hardestResult : String := String.ofList (List.replicate 48 '0' ++ "0100000001000000".toList)

theorem hashValue_hardestResult : hashValue hardestResult = some (U64 / U32) := by decide +kernel

/-- Under the hardest compact target the constructor's difficulty is credited as it stands. -/
theorem credit_of_big {seed : ℚ} (now : ℕ) (hbig : U32 < seedDifficulty seed) :
    ¬ CreditsProven (VarDiff.new seed now) := by
  intro h
  obtain ⟨v, htune, hissue, hprior⟩ := tune_hardest_kept now hbig
  have hrun : (VarDiff.new seed now).run [.tune (difficultyTarget U32)] = v := by
    change ((VarDiff.new seed now).tune (difficultyTarget U32)).getD _ = v
    rw [htune]
    rfl
  have hfloor : v.floor = v.issue := by
    rw [VarDiff.floor, hprior]
  have hmeet : meetsValue (some (U64 / U32)) (difficultyTarget U32) = some true := by
    decide +kernel
  have hcredited : v.credited (U64 / U32) = v.issue := by
    rw [VarDiff.credited, hfloor, ite_self]
  have hjudge : v.judge (some (U64 / U32)) = some (some (seedDifficulty seed), v.settle) := by
    unfold VarDiff.judge
    simp [hfloor, VarDiff.target, hissue, hmeet, VarDiff.difficulty]
  have hjob : (decideShare (some ⟨"", difficultyTarget U32, "", "", none, none⟩) (fun _ => true) v
      "00000000" hardestResult now).1.credit = some (seedDifficulty seed) := by
    have hclaimed : claimedNonce "00000000" = some 0 := by decide +kernel
    unfold decideShare
    simp [hclaimed, hashValue_hardestResult, hjudge, hmeet, Decision.credit]
  have hcalls : ∀ call ∈ [VarDiff.Call.tune (difficultyTarget U32)], call.Nonzero := by
    intro call hcall
    rw [List.mem_singleton.mp hcall]
    change targetInteger (difficultyTarget U32) ≠ some 0
    decide +kernel
  have hproven := h.1 _ hcalls _ _ "00000000" hardestResult now (U64 / U32) (seedDifficulty seed)
    hashValue_hardestResult (by decide) (by rw [hrun]; exact hjob)
  rw [hrun, hcredited] at hproven
  have hexact : v.issue.exact = seedDifficulty seed := by
    have hnarrow : ¬ isWide (difficultyTarget U32) = true := by decide +kernel
    rw [Issue.exact, hissue]
    exact if_neg hnarrow
  have hle := hproven.2
  rw [hexact] at hle
  exact absurd (hle.trans (by decide : U64 / (U64 / U32) ≤ U32)) (not_le.mpr hbig)

/-- No share of a login that states a number of threads is ever credited with more than it proves,
exactly when the difficulty its seed asks for fits 32 bits. -/
theorem credit_within_proof_iff (threads : ℚ) (now : ℕ) :
    CreditsProven (VarDiff.new (Double.round (threads * 1000)) now) ↔
      seedDifficulty (Double.round (threads * 1000)) ≤ U32 := by
  constructor
  · intro h
    by_contra hbig
    exact credit_of_big now (not_le.mp hbig) h
  · intro hfit
    refine ⟨fun calls hcalls job owns nonce result now' value d hvalue hpos h => ?_,
      fun calls hcalls job_id nonce result value d hvalue hpos h => ?_⟩
    · exact credit_proven (run_backed (new_backed now hfit) calls hcalls) hvalue hpos h
    · have hstart : Known.Backed {} := ⟨fun hne => absurd rfl hne, fun hne => absurd rfl hne⟩
      exact absorbed_proven (run_known_backed hstart calls hcalls) hvalue hpos h

/-- A login that states 300000 threads records 4500000000 for a target that proves 4294967295. -/
theorem credit_exceeds_proof :
    ¬ ∀ threads : ℚ, 0 < threads → ∀ now,
      CreditsProven (VarDiff.new (Double.round (threads * 1000)) now) := by
  intro h
  have hproduct : Double.round (300000 * 1000) = (300000000 : ℕ) := by
    have hround := Double.round_natCast (n := 300000000) (by decide)
    norm_num at hround ⊢
    exact hround
  have hseed : seedDifficulty (Double.round (300000 * 1000)) = 4500000000 := by
    rw [hproduct]
    exact seedDifficulty_natCast (by decide) (by decide)
  refine credit_of_big 0 ?_ (h 300000 (by norm_num) 0)
  rw [hseed]
  decide

end NMiner
