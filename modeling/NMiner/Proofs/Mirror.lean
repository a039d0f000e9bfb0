import NMiner.Proofs.Retune
import NMiner.Spec.Mirror

/-! The worker's local share path agrees with the primary's. The two remember the replaced
target differently, one as an issue and the other as a text and a number, but `floor`
reads the same target from both; a simulation carries this over every event. -/

namespace NMiner

open Transition

/-- The recorded difficulty is exact and the target is not the zero target. -/
structure Issue.Exact (i : Issue) : Prop where
  recorded : i.Recorded
  nonzero : targetInteger i.target ≠ some 0

theorem Issue.Exact.graded {i : Issue} (h : i.Exact) : i.Graded := h.recorded.graded h.nonzero

/-- The empty text reads as the zero target. -/
theorem text_ne_of_nonzero {target : String} (h : targetInteger target ≠ some 0) :
    target ≠ "" := by
  intro heq
  exact h (by rw [heq]; decide +kernel)

theorem VarDiff.Issues.mono {P Q : Issue → Prop} (himp : ∀ i, P i → Q i) {v : VarDiff}
    (h : v.Issues P) : v.Issues Q :=
  ⟨h.ceiling, himp _ h.issue, fun p hp => himp _ (h.prior p hp)⟩

theorem VarDiff.Issues.graded {v : VarDiff} (h : v.Issues Issue.Exact) : v.Issues Issue.Graded :=
  h.mono fun _ hi => hi.graded

theorem VarDiff.Issues.covered {v : VarDiff} (h : v.Issues Issue.Exact) :
    v.Issues Issue.Covered :=
  h.mono fun _ hi => hi.recorded.covered

/-- A non-zero pool target leads to an exact issue again. -/
theorem tune_exact {v v' : VarDiff} {pool : String} (hv : v.Issues Issue.Exact)
    (h : v.tune pool = some v') (hpool : targetInteger pool ≠ some 0) :
    v'.Issues Issue.Exact := by
  refine tune_issues_of hv h ?_
  rcases tune_issue hv.ceiling h with ⟨hi, -⟩ | ⟨-, hrec, -⟩
  · exact hi ▸ hv.issue
  refine ⟨hrec, ?_⟩
  change targetInteger v'.target ≠ some 0
  rcases tune_target_cases hv.ceiling h with hp | ⟨n, hn⟩
  · rw [hp]
    exact hpool
  · rw [hn, targetInteger_difficultyTarget, ne_eq, Option.some.injEq]
    exact (compactOf_pos n).ne'

/-! ### The relation -/

/-- What the worker remembers of the replaced target. The issue of the constructor is replaced
before the worker learns any target, and then it is never the easier one. -/
def PriorAgrees (v : VarDiff) (k : Known) : Prop :=
  match v.prior with
  | none => k.prior = ""
  | some p => (k.prior = p.target ∧ k.older = p.difficulty ∧ p.target ≠ "") ∨
      k.prior = "" ∧ v.issue.difficulty ≤ p.difficulty

/-- The worker knows the target handed out, and the primary behind it has the same one. -/
structure Follows (v behind : VarDiff) (k : Known) : Prop where
  issues : v.Issues Issue.Exact
  backed : behind.Issues Issue.Exact
  same : behind.issue = v.issue
  target : k.target = v.target
  diff : k.diff = v.difficulty
  prior : PriorAgrees v k

theorem Follows.floor {v behind : VarDiff} {k : Known} (h : Follows v behind k) :
    k.floor = v.floor := by
  have hcur : ({ target := k.target, difficulty := k.diff } : Issue) = v.issue := by
    rw [h.target, h.diff]
    rfl
  have hp := h.prior
  unfold PriorAgrees at hp
  unfold Known.floor VarDiff.floor
  rw [hcur, h.diff]
  cases hprior : v.prior with
  | none =>
    rw [hprior] at hp
    simp [show k.prior = "" from hp]
  | some p =>
    rw [hprior] at hp
    rcases hp with ⟨ht, hd, hne⟩ | ⟨ht, hle⟩
    · simp [ht, hd, hne, VarDiff.difficulty]
    · simp [ht, not_lt.mpr hle]

/-- Only the four fields about targets matter. -/
theorem Follows.congr {v behind : VarDiff} {k k' : Known} (h : Follows v behind k)
    (ht : k'.target = k.target) (hd : k'.diff = k.diff) (hp : k'.prior = k.prior)
    (ho : k'.older = k.older) : Follows v behind k' := by
  refine ⟨h.issues, h.backed, h.same, ht.trans h.target, hd.trans h.diff, ?_⟩
  have := h.prior
  unfold PriorAgrees at this ⊢
  rw [hp, ho]
  exact this

theorem follow_issue {behind v : VarDiff} : (Twin.follow behind v).issue = v.issue := by
  unfold Twin.follow
  split_ifs with heq
  · exact heq.symm
  · rfl

theorem follow_exact {behind v : VarDiff} (hb : behind.Issues Issue.Exact)
    (hv : v.issue.Exact) : (Twin.follow behind v).Issues Issue.Exact := by
  unfold Twin.follow
  split_ifs
  · exact hb
  · refine ⟨hb.ceiling, hv, ?_⟩
    intro p hp
    rw [Option.some.injEq] at hp
    exact hp ▸ hb.issue

theorem learnTarget_target (k : Known) (target : String) :
    (k.learnTarget target).target = target := by
  unfold Known.learnTarget
  split_ifs with heq
  · exact heq.symm
  · rfl

/-- A retune of both sides. -/
theorem tune_follows {v v' behind : VarDiff} {k : Known} {pool : String}
    (h : Follows v behind k) (htune : v.tune pool = some v')
    (hpool : targetInteger pool ≠ some 0) :
    Follows v' (Twin.follow behind v') (k.learnTarget v'.target) := by
  have hv' := tune_exact h.issues htune hpool
  have hb' := follow_exact h.backed hv'.issue
  have hprior := h.prior
  refine ⟨hv', hb', follow_issue, learnTarget_target k _, ?_, ?_⟩
  all_goals
    unfold Known.learnTarget
    rcases tune_issue h.issues.ceiling htune with ⟨hi, hp⟩ | ⟨hne, hrec, hp⟩
  · -- the target is kept
    rw [if_pos (by rw [h.target, VarDiff.target, VarDiff.target, hi]), h.diff,
      VarDiff.difficulty, VarDiff.difficulty, hi]
  · rw [if_neg (by rw [h.target]; exact hne)]
    change (targetDifficulty v'.issue.target).getD 0 = v'.issue.difficulty
    rw [show targetDifficulty v'.issue.target = _ from hrec]
    rfl
  · rw [if_pos (by rw [h.target, VarDiff.target, VarDiff.target, hi])]
    unfold PriorAgrees at hprior ⊢
    rw [hp, hi]
    exact hprior
  · rw [if_neg (by rw [h.target]; exact hne)]
    unfold PriorAgrees
    rw [hp]
    exact Or.inl ⟨h.target, h.diff, text_ne_of_nonzero h.issues.issue.nonzero⟩

/-! ### The first target -/

/-- The first target a miner is given is never harder than the seed's, as long as the seed's
difficulty survives the compact encoding. -/
theorem first_tune_le {seed : ℚ} {now : ℕ} {pool : String} {v' : VarDiff}
    (hseed : (VarDiff.new seed now).issue.Recorded)
    (h : (VarDiff.new seed now).tune pool = some v') :
    v'.issue.difficulty ≤ (VarDiff.new seed now).issue.difficulty := by
  have hceil : (VarDiff.new seed now).CeilingOk :=
    VarDiff.Issues.ceiling (P := fun _ => True) (new_issues trivial)
  obtain ⟨d, t, hd, ht, -, hcase⟩ := tune_cases hceil h
  rcases hcase with ⟨-, hi, -⟩ | ⟨hne, -, -, hdt⟩
  · rw [hi]
  change t ≠ difficultyTarget (seedDifficulty seed) at hne
  change v'.issue.difficulty ≤ seedDifficulty seed
  have hself : compactDifficulty (seedDifficulty seed) = seedDifficulty seed := by
    change targetDifficulty (difficultyTarget (seedDifficulty seed)) = _ at hseed
    rwa [targetDifficulty_difficultyTarget, Option.some.injEq] at hseed
  -- a next difficulty below the ceiling is the seed's own
  have hnext : d ≤ (VarDiff.new seed now).nextDifficulty d ∧ d ≤ seedDifficulty seed ∨
      (VarDiff.new seed now).nextDifficulty d = seedDifficulty seed := by
    unfold VarDiff.nextDifficulty
    change d ≤ (if _ then min d (seedDifficulty seed) else seedDifficulty seed) ∧ _ ∨
      (if _ then min d (seedDifficulty seed) else seedDifficulty seed) = _
    split_ifs
    · rcases Nat.le_total d (seedDifficulty seed) with hle | hge
      · exact Or.inl ⟨by rw [min_eq_left hle], hle⟩
      · exact Or.inr (min_eq_right hge)
    · exact Or.inr rfl
  have hpool : t = pool → d ≤ seedDifficulty seed → v'.issue.difficulty ≤ seedDifficulty seed := by
    intro htp hle
    rw [htp, hd, Option.some.injEq] at hdt
    omega
  unfold nextTarget at ht
  rcases hnext with ⟨hle, hds⟩ | heq
  · simp only [hle, if_true, Option.some.injEq] at ht
    exact hpool ht.symm hds
  · rw [heq] at ht
    by_cases hle : d ≤ seedDifficulty seed
    · simp only [hle, if_true, Option.some.injEq] at ht
      exact hpool ht.symm hle
    · exfalso
      simp only [if_neg hle, targetDifficulty_difficultyTarget, Option.map_some, hself] at ht
      split_ifs at ht with hsame
      · exact hne (by rw [← Option.some.inj ht, hsame])
      · exact hne (Option.some.inj ht).symm

theorem new_exact {seed : ℚ} {now : ℕ} (hseed : (VarDiff.new seed now).issue.Recorded) :
    (VarDiff.new seed now).Issues Issue.Exact := by
  refine new_issues ⟨hseed, ?_⟩
  change targetInteger (difficultyTarget (seedDifficulty seed)) ≠ some 0
  rw [targetInteger_difficultyTarget, ne_eq, Option.some.injEq]
  exact (compactOf_pos _).ne'

/-- The first job sets up the relation. -/
theorem first_follows {seed : ℚ} {now : ℕ} {pool : String} {v' : VarDiff}
    (hseed : (VarDiff.new seed now).issue.Recorded)
    (h : (VarDiff.new seed now).tune pool = some v') (hpool : targetInteger pool ≠ some 0) :
    Follows v' (Twin.follow (VarDiff.new seed now) v') (Known.learnTarget {} v'.target) := by
  have hnew := new_exact hseed
  have hv' := tune_exact hnew h hpool
  have hne : ¬ v'.target = ({} : Known).target := text_ne_of_nonzero hv'.issue.nonzero
  refine ⟨hv', follow_exact hnew hv'.issue, follow_issue, learnTarget_target _ _, ?_, ?_⟩
  all_goals
    unfold Known.learnTarget
    rw [if_neg hne]
  · change (targetDifficulty v'.issue.target).getD 0 = v'.issue.difficulty
    rw [show targetDifficulty v'.issue.target = _ from hv'.issue.recorded]
    rfl
  · unfold PriorAgrees
    rcases tune_issue hnew.ceiling h with ⟨-, hp⟩ | ⟨-, -, hp⟩
    · rw [hp]
      rfl
    · rw [hp]
      exact Or.inr ⟨rfl, first_tune_le hseed h⟩

/-! ### One share -/

theorem meetsValue_target {v : VarDiff} (hv : v.Issues Issue.Exact) (value : ℕ) :
    meetsValue (some value) v.target = some (decide (value ≤ valueOf v.target)) :=
  meetsValue_valueOf hv.issue.graded.decodes value

theorem judge_none (v : VarDiff) : v.judge none = some (none, v) := rfl

theorem judge_below {v : VarDiff} (hv : v.Issues Issue.Exact) {value : ℕ}
    (h : ¬ value ≤ valueOf v.floor.target) : v.judge (some value) = some (none, v) := by
  have hmet := meetsValue_valueOf (floor_graded hv.graded).decodes value
  unfold VarDiff.judge
  simp [hmet, h]

/-- A share that meets the current target is credited with the current difficulty, whatever
the retained issue is, and settles it. -/
theorem judge_current {v : VarDiff} (hv : v.Issues Issue.Exact) {value : ℕ}
    (h : value ≤ valueOf v.target) :
    v.judge (some value) = some (some v.difficulty, v.settle) := by
  have hmet := meetsValue_valueOf (floor_graded hv.graded).decodes value
  have hcur := meetsValue_target hv value
  rw [decide_eq_true (h.trans (target_le_floor hv.graded))] at hmet
  rw [decide_eq_true h] at hcur
  have hcredit : (if v.difficulty > v.floor.difficulty then v.difficulty
      else v.floor.difficulty) = v.difficulty := by
    unfold VarDiff.floor VarDiff.difficulty
    cases v.prior with
    | none => simp
    | some p => by_cases hlt : p.difficulty < v.issue.difficulty <;> simp [hlt]
  unfold VarDiff.judge
  by_cases hsame : v.floor.target = v.target <;> simp [hmet, hcur, hsame, hcredit]

/-- A share that meets only the retained target is credited with its difficulty. -/
theorem judge_retained {v : VarDiff} (hv : v.Issues Issue.Exact) {value : ℕ}
    (h : value ≤ valueOf v.floor.target) (hnot : ¬ value ≤ valueOf v.target) :
    v.judge (some value) = some (some v.floor.difficulty, v) := by
  have hmet := meetsValue_valueOf (floor_graded hv.graded).decodes value
  have hcur := meetsValue_target hv value
  have hne : v.floor.target ≠ v.target := fun heq => hnot (heq ▸ h)
  unfold VarDiff.judge
  simp [hmet, hcur, hne, h, hnot]

theorem submitted_issue (v : VarDiff) (difficulty : ℚ) (count now : ℕ) :
    (v.submitted difficulty count now).issue = v.issue ∧
      (v.submitted difficulty count now).prior = v.prior := by
  unfold VarDiff.submitted
  dsimp only
  split_ifs <;> exact ⟨rfl, rfl⟩

theorem settle_issues {P : Issue → Prop} {v : VarDiff} (hv : v.Issues P) : v.settle.Issues P :=
  ⟨hv.ceiling, hv.issue, by simp [VarDiff.settle]⟩

/-- Counting a share changes nothing the worker mirrors. -/
theorem Follows.submitted {v behind : VarDiff} {k : Known} (h : Follows v behind k)
    (difficulty : ℚ) (count now : ℕ) : Follows (v.submitted difficulty count now) behind k := by
  obtain ⟨hi, hp⟩ := submitted_issue v difficulty count now
  refine ⟨submitted_issues h.issues difficulty count now, h.backed,
    h.same.trans hi.symm, ?_, ?_, ?_⟩
  · rw [h.target, VarDiff.target, VarDiff.target, hi]
  · rw [h.diff, VarDiff.difficulty, VarDiff.difficulty, hi]
  · have hprior := h.prior
    unfold PriorAgrees at hprior ⊢
    rw [hp, hi]
    exact hprior

/-- Both sides drop the replaced target. -/
theorem Follows.settle {v behind : VarDiff} {k : Known} (h : Follows v behind k) :
    Follows v.settle behind { k with prior := "" } :=
  ⟨settle_issues h.issues, h.backed, h.same, h.target, h.diff, rfl⟩

/-- The primary behind the worker settles a forwarded share by itself. -/
theorem Follows.forwarded {v behind : VarDiff} {k : Known} (h : Follows v behind k)
    (difficulty : ℚ) (count now : ℕ) :
    Follows v (behind.settle.submitted difficulty count now) k :=
  ⟨h.issues, submitted_issues (settle_issues h.backed) difficulty count now,
    (submitted_issue _ difficulty count now).1.trans h.same, h.target, h.diff, h.prior⟩

/-- The relation in a state with a job. -/
structure Twin.Mirrored (s : Twin) (job : StratumJob) : Prop where
  follows : Follows s.vardiff s.behind s.known
  current : s.job = some job
  named : job.job_id ≠ ""
  nonzero : targetInteger job.target ≠ some 0
  decodes : (decode job.target).isSome
  within : valueOf job.target ≤ valueOf s.vardiff.target
  job_id : s.known.job_id = job.job_id
  pool : s.known.pool = job.target
  ledger : s.known.ledger = s.ledger

/-- The worker's answer, with the answer of the primary to a share passed on, is the decision
of the single process. -/
def Twin.agrees : Decision × WorkerDecision × Option Decision → Bool
  | (d, .delegated, some e) => d = e
  | (.denied r, .denied r', none) => r = r'
  | (.absorbed d, .absorbed e, none) => d = e
  | (.forwarded d, .forwarded, some (.forwarded e)) => d = e
  | _ => false

/-- What the worker covers is exactly what the primary would not turn away before judging. -/
theorem Twin.Mirrored.covers {s : Twin} {job : StratumJob} (h : s.Mirrored job) (nonce : String) :
    s.known.covers job.job_id nonce =
      ((claimedNonce nonce).map fun n : ℕ => s.ledger.owns n).getD false := by
  have htarget : s.known.target ≠ "" :=
    h.follows.target ▸ text_ne_of_nonzero h.follows.issues.issue.nonzero
  have hpool : s.known.pool ≠ "" := h.pool ▸ text_ne_of_nonzero h.nonzero
  unfold Known.covers
  rw [h.ledger]
  simp [htarget, hpool, h.job_id]

/-- A share the worker does not cover is turned away by the primary, settled or not. -/
theorem decideShare_uncovered (job : StratumJob) {owns : ℤ → Bool} {nonce : String}
    (hcov : ((claimedNonce nonce).map fun n : ℕ => owns n).getD false = false) (result : String)
    (now : ℕ) : ∃ reason, ∀ v : VarDiff,
      decideShare (some job) owns v nonce result now = (.denied reason, v) := by
  cases hn : claimedNonce nonce with
  | none => exact ⟨"Malformed nonce.", fun v => by simp only [decideShare, hn]⟩
  | some n =>
    rw [hn] at hcov
    have howns : owns n = false := hcov
    exact ⟨"Nonce outside your assigned range.", fun v => by simp [decideShare, hn, howns]⟩

theorem decideShare_covered (job : StratumJob) {owns : ℤ → Bool} {nonce : String}
    (hcov : ((claimedNonce nonce).map fun n : ℕ => owns n).getD false = true) (v : VarDiff)
    (result : String) (now : ℕ) : decideShare (some job) owns v nonce result now =
      match v.judge (hashValue result) with
      | none => (.thrown, v)
      | some (none, v) => (.denied "Share is below your assigned difficulty.", v)
      | some (some d, v) =>
        (match meetsValue (hashValue result) job.target with
          | none => .thrown
          | some true => .forwarded d
          | some false => .absorbed d, v.submitted d 1 now) := by
  cases hn : claimedNonce nonce with
  | none => simp [hn] at hcov
  | some n =>
    rw [hn] at hcov
    have howns : owns n = true := hcov
    unfold decideShare
    rw [hn]
    exact if_pos howns

/-- A share that misses the floor is denied on both sides. -/
theorem share_refused {s s' : Twin} {job : StratumJob} {nonce result : String} {now : ℕ}
    (hs : s.Mirrored job) (hcov : s.known.covers job.job_id nonce = true)
    (hlow : ∀ value, hashValue result = some value → ¬ value ≤ valueOf s.vardiff.floor.target)
    (h : s.share nonce result now = some s') :
    s'.Mirrored job ∧ ∃ r, s'.verdicts = s.verdicts ++ [r] ∧ Twin.agrees r := by
  have hjudge : s.vardiff.judge (hashValue result) = some (none, s.vardiff) := by
    cases hv : hashValue result with
    | none => exact judge_none _
    | some value => exact judge_below hs.follows.issues (hlow value hv)
  have hmet : meetsValue (hashValue result) s.vardiff.floor.target = some false := by
    cases hv : hashValue result with
    | none => rfl
    | some value =>
      rw [meetsValue_valueOf (floor_graded hs.follows.issues.graded).decodes,
        decide_eq_false (hlow value hv)]
  have hworker : s.known.submit job.job_id nonce result =
      (.denied "Share is below your assigned difficulty.", s.known) := by
    simp only [Known.submit, hcov, if_true, hs.follows.floor, hmet]
  rw [hs.covers] at hcov
  have hsingle := decideShare_covered job hcov s.vardiff result now
  rw [hjudge] at hsingle
  simp only [Twin.share, hs.current, Option.map_some, Option.some.injEq, hworker, hsingle,
    Twin.passedOn, Bool.false_eq_true, if_false] at h
  subst h
  exact ⟨⟨hs.follows, rfl, hs.named, hs.nonzero, hs.decodes, hs.within, hs.job_id, hs.pool,
    hs.ledger⟩, _, rfl, by simp [Twin.agrees]⟩

/-- A share that meets only the retained target is absorbed on both sides: the pool target is
no easier than the current one. -/
theorem share_retained {s s' : Twin} {job : StratumJob} {nonce result : String} {now value : ℕ}
    (hs : s.Mirrored job) (hcov : s.known.covers job.job_id nonce = true)
    (hvalue : hashValue result = some value) (hfloor : value ≤ valueOf s.vardiff.floor.target)
    (hnot : ¬ value ≤ valueOf s.vardiff.target) (h : s.share nonce result now = some s') :
    s'.Mirrored job ∧ ∃ r, s'.verdicts = s.verdicts ++ [r] ∧ Twin.agrees r := by
  have hiss := hs.follows.issues
  have hmet : meetsValue (some value) s.vardiff.floor.target = some true := by
    rw [meetsValue_valueOf (floor_graded hiss.graded).decodes, decide_eq_true hfloor]
  have hcur : meetsValue (some value) s.vardiff.target = some false := by
    rw [meetsValue_target hiss, decide_eq_false hnot]
  have hpool : meetsValue (some value) job.target = some false := by
    rw [meetsValue_valueOf hs.decodes, decide_eq_false fun hle => hnot (hle.trans hs.within)]
  have hworker : s.known.submit job.job_id nonce result =
      (.absorbed s.vardiff.floor.difficulty, s.known) := by
    simp [Known.submit, hcov, hs.follows.floor, hvalue, hmet, hs.follows.target, hcur, hs.pool,
      hpool]
  rw [hs.covers] at hcov
  have hsingle := decideShare_covered job hcov s.vardiff result now
  rw [hvalue, judge_retained hiss hfloor hnot] at hsingle
  simp only [hpool] at hsingle
  simp only [Twin.share, hs.current, Option.map_some, Option.some.injEq, hworker, hsingle,
    Twin.passedOn, Bool.false_eq_true, if_false] at h
  subst h
  refine ⟨⟨hs.follows.submitted _ 1 now, rfl, hs.named, hs.nonzero, hs.decodes, ?_,
    hs.job_id, hs.pool, hs.ledger⟩, _, rfl, by simp [Twin.agrees]⟩
  change _ ≤ valueOf (s.vardiff.submitted _ 1 now).issue.target
  rw [(submitted_issue _ _ 1 now).1]
  exact hs.within

theorem Known.submit_current {k : Known} {job_id nonce result : String} {value : ℕ} {b : Bool}
    (hcov : k.covers job_id nonce = true) (hvalue : hashValue result = some value)
    (hmet : meetsValue (some value) k.floor.target = some true)
    (hcur : meetsValue (some value) k.target = some true)
    (hpool : meetsValue (some value) k.pool = some b) :
    k.submit job_id nonce result = (if b then .forwarded
      else .absorbed (if k.diff > k.floor.difficulty then k.diff else k.floor.difficulty),
      { k with prior := "" }) := by
  have hclear : k.prior = "" → { k with prior := "" } = k := by
    intro hp
    cases k
    subst hp
    rfl
  by_cases hp : k.prior = ""
  · cases b <;> simp [Known.submit, hcov, hvalue, hmet, hcur, hpool, hp, hclear hp]
  · cases b <;> simp [Known.submit, hcov, hvalue, hmet, hcur, hpool, hp]

/-- A share that meets the current target is credited with the current difficulty on both
sides, and when it also meets the pool's it is forwarded and credited so by the primary. -/
theorem share_current {s s' : Twin} {job : StratumJob} {nonce result : String} {now value : ℕ}
    (hs : s.Mirrored job) (hcov : s.known.covers job.job_id nonce = true)
    (hvalue : hashValue result = some value) (hcurrent : value ≤ valueOf s.vardiff.target)
    (h : s.share nonce result now = some s') :
    s'.Mirrored job ∧ ∃ r, s'.verdicts = s.verdicts ++ [r] ∧ Twin.agrees r := by
  have hiss := hs.follows.issues
  have hfloor := hcurrent.trans (target_le_floor hiss.graded)
  have hmet : meetsValue (some value) s.vardiff.floor.target = some true := by
    rw [meetsValue_valueOf (floor_graded hiss.graded).decodes, decide_eq_true hfloor]
  have hcur : meetsValue (some value) s.vardiff.target = some true := by
    rw [meetsValue_target hiss, decide_eq_true hcurrent]
  have hpool := meetsValue_valueOf hs.decodes value
  have hcredit : (if s.known.diff > s.vardiff.floor.difficulty then s.known.diff
      else s.vardiff.floor.difficulty) = s.vardiff.difficulty := by
    rw [hs.follows.diff]
    unfold VarDiff.floor VarDiff.difficulty
    cases s.vardiff.prior with
    | none => simp
    | some p => by_cases hlt : p.difficulty < s.vardiff.issue.difficulty <;> simp [hlt]
  have hwithin : valueOf job.target ≤
      valueOf (s.vardiff.settle.submitted (s.vardiff.difficulty : ℚ) 1 now).target := by
    change _ ≤ valueOf (s.vardiff.settle.submitted _ 1 now).issue.target
    rw [(submitted_issue _ _ 1 now).1]
    exact hs.within
  have hworker : ∀ b, meetsValue (some value) job.target = some b →
      s.known.submit job.job_id nonce result = (if b then .forwarded
        else .absorbed s.vardiff.difficulty, { s.known with prior := "" }) := by
    intro b hb
    rw [Known.submit_current hcov hvalue (hs.follows.floor ▸ hmet) (hs.follows.target ▸ hcur)
      (hs.pool ▸ hb), hs.follows.floor, hcredit]
  rw [hs.covers] at hcov
  have hsingle := decideShare_covered job hcov s.vardiff result now
  have hprimary := decideShare_covered job hcov s.behind result now
  have hbehind : value ≤ valueOf s.behind.target := by
    rw [VarDiff.target, hs.follows.same]
    exact hcurrent
  rw [hvalue, judge_current hiss hcurrent] at hsingle
  rw [hvalue, judge_current hs.follows.backed hbehind] at hprimary
  by_cases hle : value ≤ valueOf job.target
  · rw [decide_eq_true hle] at hpool
    simp only [hpool] at hsingle hprimary
    simp only [Twin.share, hs.current, Option.map_some, Option.some.injEq, hworker true hpool,
      hsingle, hprimary, Twin.passedOn, if_true] at h
    subst h
    refine ⟨⟨(hs.follows.settle.submitted _ 1 now).forwarded _ 1 now, rfl, hs.named,
      hs.nonzero, hs.decodes, hwithin, hs.job_id, hs.pool, hs.ledger⟩, _, rfl, ?_⟩
    simp [Twin.agrees, VarDiff.difficulty, hs.follows.same]
  · rw [decide_eq_false hle] at hpool
    simp only [hpool] at hsingle
    simp only [Twin.share, hs.current, Option.map_some, Option.some.injEq, hworker false hpool,
      hsingle, Twin.passedOn, Bool.false_eq_true, if_false] at h
    subst h
    exact ⟨⟨hs.follows.settle.submitted _ 1 now, rfl, hs.named, hs.nonzero, hs.decodes,
      hwithin, hs.job_id, hs.pool, hs.ledger⟩, _, rfl, by simp [Twin.agrees]⟩

/-- A share the worker does not cover is decided by the primary alone. -/
theorem share_uncovered {s s' : Twin} {job : StratumJob} {nonce result : String} {now : ℕ}
    (hs : s.Mirrored job) (hcov : s.known.covers job.job_id nonce = false)
    (h : s.share nonce result now = some s') :
    s'.Mirrored job ∧ ∃ r, s'.verdicts = s.verdicts ++ [r] ∧ Twin.agrees r := by
  have hworker : s.known.submit job.job_id nonce result = (.delegated, s.known) := by
    simp only [Known.submit, hcov, Bool.false_eq_true, if_false]
  rw [hs.covers] at hcov
  obtain ⟨reason, hdenied⟩ := decideShare_uncovered job hcov result now
  simp only [Twin.share, hs.current, Option.map_some, Option.some.injEq, hworker, hdenied,
    Twin.passedOn, if_true] at h
  subst h
  exact ⟨⟨hs.follows, rfl, hs.named, hs.nonzero, hs.decodes, hs.within, hs.job_id, hs.pool,
    hs.ledger⟩, _, rfl, by simp [Twin.agrees]⟩

theorem share_mirrored {s s' : Twin} {job : StratumJob} {nonce result : String} {now : ℕ}
    (hs : s.Mirrored job) (h : s.share nonce result now = some s') :
    s'.Mirrored job ∧ ∃ r, s'.verdicts = s.verdicts ++ [r] ∧ Twin.agrees r := by
  cases hcov : s.known.covers job.job_id nonce with
  | false => exact share_uncovered hs hcov h
  | true =>
    cases hvalue : hashValue result with
    | none => exact share_refused hs hcov (by simp [hvalue]) h
    | some value =>
      by_cases hfloor : value ≤ valueOf s.vardiff.floor.target
      · by_cases hcurrent : value ≤ valueOf s.vardiff.target
        · exact share_current hs hcov hvalue hcurrent h
        · exact share_retained hs hcov hvalue hfloor hcurrent h
      · refine share_refused hs hcov ?_ h
        intro x hx
        rw [hvalue, Option.some.injEq] at hx
        exact hx ▸ hfloor

/-! ### Jobs and chunk replies -/

theorem valueOf_le (target : String) : valueOf target ≤ U64 := by
  unfold valueOf
  cases hdec : decode target with
  | none => exact Nat.zero_le _
  | some c =>
    change c.value ≤ U64
    unfold decode at hdec
    cases hint : targetInteger target with
    | none => simp [hint] at hdec
    | some n =>
      cases hw : isWide target with
      | true =>
        have hlt : n < 256 ^ 8 := by
          rw [targetInteger, hw, if_pos rfl] at hint
          exact readLE_lt hint
        simp only [hw, hint, if_true, Option.map_some, Option.some.injEq] at hdec
        subst hdec
        unfold U64
        split_ifs <;> simp only [] <;> omega
      | false =>
        simp only [hw, hint, Bool.false_eq_true, if_false, Option.map_some,
          Option.some.injEq] at hdec
        subst hdec
        split_ifs with hn
        · exact Nat.div_le_self _ _
        · exact le_rfl

/-- After a retune the target handed out accepts everything the pool's does. -/
theorem tune_value_le {v v' : VarDiff} {pool : String} (hv : v.Issues Issue.Exact)
    (h : v.tune pool = some v') (hpool : targetInteger pool ≠ some 0) :
    (decode pool).isSome ∧ valueOf pool ≤ valueOf v'.target := by
  have hdec : (decode pool).isSome := by
    rw [← tune_isSome hv.ceiling pool, h]
    rfl
  have hmeet := (within_of_nonzero hv.covered h hpool).2 (valueOf pool) (valueOf_le pool)
    (by rw [meetsValue_valueOf hdec, decide_eq_true le_rfl])
  rw [meetsValue_target (tune_exact hv h hpool), Option.some.injEq, decide_eq_true_eq] at hmeet
  exact ⟨hdec, hmeet⟩

/-- A job message sets what the worker knows of the job, its range and its target. -/
theorem learn_job {v behind : VarDiff} {k : Known} {p : Payload}
    (h : Follows v behind (k.learnTarget p.target)) (hid : p.job.job_id ≠ "") :
    Follows v behind (k.learn (.job p)) ∧ (k.learn (.job p)).job_id = p.job.job_id ∧
      (k.learn (.job p)).pool = p.job.target ∧
      (k.learn (.job p)).ledger = k.ledger.record p.job.job_id p.range := by
  unfold Known.learn Known.learnRange
  unfold Known.learnTarget at h ⊢
  dsimp only
  by_cases heq : p.target = k.target
  · rw [if_pos heq] at h
    simp only [if_pos heq, hid, if_false]
    exact ⟨h.congr rfl rfl rfl rfl, trivial, rfl, trivial⟩
  · rw [if_neg heq] at h
    simp only [if_neg heq, hid, if_false]
    exact ⟨h.congr rfl rfl rfl rfl, trivial, rfl, trivial⟩

theorem learn_range {v behind : VarDiff} {k : Known} (range : Grant) (h : Follows v behind k)
    (hid : k.job_id ≠ "") : Follows v behind (k.learn (.range range)) ∧
      k.learn (.range range) = { k with ledger := k.ledger.record k.job_id range } := by
  have heq : k.learn (.range range) = { k with ledger := k.ledger.record k.job_id range } := by
    simp only [Known.learn, Known.learnRange, hid, if_false]
  exact ⟨heq ▸ h.congr rfl rfl rfl rfl, heq⟩

/-- The pool targets and job ids the worker's mirror can represent: a target that is not the
zero target and an id that is not the empty text. -/
def Twin.guard : Twin.Event → Bool
  | .push job _ => job.job_id ≠ "" && targetInteger job.target ≠ some 0
  | _ => true

theorem push_mirrored {s s' : Twin} {job : StratumJob} {range : Grant} {v : VarDiff}
    (hiss : s.vardiff.Issues Issue.Exact) (htune : s.vardiff.tune job.target = some v)
    (hfollows : Follows v (Twin.follow s.behind v) (s.known.learnTarget v.target))
    (hledger : s.known.ledger = s.ledger) (hg : Twin.guard (.push job range) = true)
    (h : s.push job range = some s') : s'.Mirrored job ∧ s'.verdicts = s.verdicts := by
  simp only [Twin.guard, Bool.and_eq_true, decide_eq_true_eq] at hg
  obtain ⟨hdec, hle⟩ := tune_value_le hiss htune hg.2
  simp only [Twin.push, htune, Option.map_some, Option.some.injEq] at h
  subst h
  obtain ⟨hf, hid, hp, hl⟩ := learn_job
    (p := { job := job, target := v.target, range := range }) hfollows hg.1
  exact ⟨⟨hf, rfl, hg.1, hg.2, hdec, hle, hid, hp, by rw [hl, hledger]⟩, rfl⟩

theorem observed_follows {v behind : VarDiff} {k : Known} (h : Follows v behind k)
    (hashrate : Option ℚ) : Follows (Twin.observed v hashrate) behind k ∧
      (Twin.observed v hashrate).target = v.target := by
  cases hashrate with
  | none => exact ⟨h, rfl⟩
  | some r =>
    change Follows (v.observe r) behind k ∧ (v.observe r).target = v.target
    have hiss := observe_issues h.issues r
    unfold VarDiff.observe at hiss ⊢
    split_ifs at hiss ⊢
    · exact ⟨⟨hiss, h.backed, h.same, h.target, h.diff, h.prior⟩, rfl⟩
    · exact ⟨h, rfl⟩

theorem chunk_mirrored {s s' : Twin} {job : StratumJob} {hashrate : Option ℚ}
    {range : Option Grant} (hs : s.Mirrored job) (h : s.chunk hashrate range = some s') :
    s'.Mirrored job ∧ s'.verdicts = s.verdicts := by
  obtain ⟨hobs, htarget⟩ := observed_follows hs.follows hashrate
  simp only [Twin.chunk, hs.current, Option.bind_some] at h
  cases range with
  | none =>
    simp only [Option.some.injEq] at h
    subst h
    exact ⟨⟨hobs, rfl, hs.named, hs.nonzero, hs.decodes, htarget ▸ hs.within, hs.job_id, hs.pool,
      hs.ledger⟩, rfl⟩
  | some range =>
    obtain ⟨v, htune, h⟩ := Option.map_eq_some_iff.mp h
    obtain ⟨-, hle⟩ := tune_value_le hobs.issues htune hs.nonzero
    have hfollows := tune_follows hobs htune hs.nonzero
    by_cases heq : v.target = (Twin.observed s.vardiff hashrate).target
    · -- a bare range: the worker already has this target
      have hsame : s.known.learnTarget v.target = s.known := by
        rw [Known.learnTarget, if_pos (heq.trans hobs.target.symm)]
      rw [hsame] at hfollows
      obtain ⟨hf, hk⟩ := learn_range range hfollows (hs.job_id ▸ hs.named)
      rw [if_pos heq] at h
      subst h
      refine ⟨⟨hf, rfl, hs.named, hs.nonzero, hs.decodes, hle, ?_, ?_, ?_⟩, rfl⟩
      · rw [hk]
        exact hs.job_id
      · rw [hk]
        exact hs.pool
      · rw [hk]
        change s.known.ledger.record s.known.job_id range = s.ledger.record job.job_id range
        rw [hs.ledger, hs.job_id]
    · obtain ⟨hf, hid, hp, hl⟩ := learn_job
        (p := { job := job, target := v.target, range := range }) hfollows hs.named
      rw [if_neg heq] at h
      subst h
      exact ⟨⟨hf, rfl, hs.named, hs.nonzero, hs.decodes, hle, hid, hp, by rw [hl, hs.ledger]⟩, rfl⟩

/-! ### Runs -/

/-- Every share so far got the same answer, and before the first job nothing has happened. -/
structure Twin.Agreeing (seed : ℚ) (now : ℕ) (s : Twin) : Prop where
  verdicts : ∀ r ∈ s.verdicts, Twin.agrees r
  state : s = Twin.start seed now ∨ ∃ job, s.Mirrored job

theorem step_agreeing {seed : ℚ} {now : ℕ} (hseed : (VarDiff.new seed now).issue.Recorded)
    (s : Twin) (e : Twin.Event) (s' : Twin) (hs : s.Agreeing seed now)
    (hg : Twin.guard e = true) (h : s.step e = some s') : s'.Agreeing seed now := by
  cases e with
  | push job range =>
    obtain ⟨v, htune, -⟩ := Option.map_eq_some_iff.mp h
    have hpool : targetInteger job.target ≠ some 0 := by
      simp only [Twin.guard, Bool.and_eq_true, decide_eq_true_eq] at hg
      exact hg.2
    rcases hs.state with rfl | ⟨job₀, hm⟩
    · obtain ⟨hmirror, hverd⟩ := push_mirrored (new_exact hseed) htune
        (first_follows hseed htune hpool) rfl hg h
      exact ⟨hverd ▸ hs.verdicts, Or.inr ⟨job, hmirror⟩⟩
    · obtain ⟨hmirror, hverd⟩ := push_mirrored hm.follows.issues htune
        (tune_follows hm.follows htune hpool) hm.ledger hg h
      exact ⟨hverd ▸ hs.verdicts, Or.inr ⟨job, hmirror⟩⟩
  | chunk hashrate range =>
    rcases hs.state with rfl | ⟨job, hm⟩
    · simp [Twin.step, Twin.chunk, Twin.start] at h
    · obtain ⟨hmirror, hverd⟩ := chunk_mirrored hm h
      exact ⟨hverd ▸ hs.verdicts, Or.inr ⟨job, hmirror⟩⟩
  | share nonce result time =>
    rcases hs.state with rfl | ⟨job, hm⟩
    · simp [Twin.step, Twin.share, Twin.start] at h
    · obtain ⟨hmirror, r, hverd, hr⟩ := share_mirrored hm h
      refine ⟨?_, Or.inr ⟨job, hmirror⟩⟩
      intro x hx
      rw [hverd] at hx
      rcases List.mem_append.mp hx with hx | hx
      · exact hs.verdicts x hx
      · exact List.mem_singleton.mp hx ▸ hr

/-- The worker settles every share as the single process does, in every run of one login whose
seed difficulty survives the compact encoding. -/
theorem worker_agrees (seed : ℚ) (now : ℕ)
    (hseed : seedDifficulty seed ≤ U32 ∧ U32 / (U32 / seedDifficulty seed) = seedDifficulty seed)
    (events : List Twin.Event) (s : Twin) (hguard : ∀ e ∈ events, Twin.guard e = true)
    (hrun : exec Twin.step (Twin.start seed now) events = some s) :
    ∀ r ∈ s.verdicts, Twin.agrees r = true := by
  have hrec := (new_recorded_iff seed now).mpr hseed
  have hstart : (Twin.start seed now).Agreeing seed now :=
    ⟨by simp [Twin.start], Or.inl rfl⟩
  exact (exec_invariant (step_agreeing hrec) hstart (meets_of_forall _ _ hguard) hrun).verdicts

/-- One thread: a retune by a chunk reply, a share under the replaced target, one that settles
it and one for the pool. -/
theorem worker_agrees_retuned : ∃ s, exec Twin.step (Twin.start 1000 0)
    [.push { blob := "", target := "ffff0000", job_id := "1", seed_hash := "" } ⟨0, 1000⟩,
      .chunk (some 3000) (some ⟨1000, 2000⟩),
      .share "05000000" (String.ofList (List.replicate 48 '0') ++ "0000000000000300") 9,
      .share "ee030000" (String.ofList (List.replicate 48 '0') ++ "0000000000000100") 9,
      .share "06000000" (String.ofList (List.replicate 48 '0') ++ "0000000000000000") 9] = some s ∧
    ∀ r ∈ s.verdicts, Twin.agrees r = true :=
  exists_exec (by decide +kernel) fun s h =>
    worker_agrees 1000 0 (by decide +kernel) _ s (by decide +kernel) h

/-- Six threads: for a share under the constructor's target the single process credits the
90000 it recorded, and the worker the 90001 that target proves. -/
theorem worker_disagrees : ¬ ∀ events s,
    (∀ e ∈ events, Twin.guard e = true) →
      exec Twin.step (Twin.start 6000 0) events = some s →
        ∀ r ∈ s.verdicts, Twin.agrees r = true := by
  intro h
  have hrun : (exec Twin.step (Twin.start 6000 0)
      [.push { blob := "", target := "01000000", job_id := "1", seed_hash := "" } ⟨0, 1000⟩,
        .share "05000000" (String.ofList (List.replicate 48 '0') ++ "0000000000010000") 9]).map
      (fun s => s.verdicts) = some [(.absorbed 90000, .absorbed 90001, none)] := by decide +kernel
  obtain ⟨s, hs, hverdicts⟩ := Option.map_eq_some_iff.mp hrun
  have hagree := h _ s (by decide +kernel) hs _ (hverdicts ▸ List.mem_singleton_self _)
  exact absurd hagree (by decide)

end NMiner
