import NMiner.Proofs.Everywhere
import NMiner.Proofs.Ledgers
import NMiner.Proofs.Sessions

/-! Where a share goes. An accepted share is sent on the socket of the miner's home link when its
value meets the pool target of that link's present job; that is the link and the target of the
job it was found for only as far as the two agree. -/

namespace NMiner

open Transition

namespace Backend

/-! ### Ledgers along a run -/

structure Sound (b : Backend) : Prop where
  drained : ∀ i, (b.upstream i).outbox = []
  booked : ∀ i, (b.upstream i).Booked

theorem Sound.of_upstream {b b' : Backend} (hb : b.Sound) (h : b'.upstream = b.upstream) :
    b'.Sound := by
  refine ⟨?_, ?_⟩ <;> rw [h]
  · exact hb.drained
  · exact hb.booked

theorem booked_stable : Stable (fun _ u => u.Booked) fun _ _ => True :=
  ⟨fun _ _ _ h => h.books, fun _ _ _ _ _ _ _ => Ledger.booked_empty _⟩

theorem Sound.everywhere {b : Backend} (hb : b.Sound) : Everywhere (fun _ u => u.Booked) b :=
  ⟨hb.drained, hb.booked⟩

theorem Everywhere.sound {b : Backend} (hb : Everywhere (fun _ u => u.Booked) b) : b.Sound :=
  ⟨hb.drained, hb.holds⟩

theorem drop_sound {b : Backend} (hb : b.Sound) (s : SessionId) : (b.drop s).Sound :=
  (drop_everywhere booked_stable hb.everywhere s).sound

theorem chunk_sound {b : Backend} (hb : b.Sound) (s : SessionId) (job_id : String)
    (hashrate : Option ℚ) : (b.chunk s job_id hashrate).Sound :=
  (chunk_everywhere booked_stable hb.everywhere s job_id hashrate).sound

theorem submit_sound {b : Backend} (hb : b.Sound) (s : SessionId) (job_id nonce result : String) :
    (b.submit s job_id nonce result).Sound :=
  (submit_everywhere booked_stable hb.everywhere s job_id nonce result).sound

theorem poolReply_sound {b : Backend} (hb : b.Sound) (n : CallId) (s : SessionId) (e : Entry)
    (report : ShareReport) (pool : ℕ) (stray : Bool) (outcome : Except String Bool) :
    (b.poolReply n s e report pool stray outcome).Sound :=
  (poolReply_everywhere booked_stable hb.everywhere n s e report pool stray outcome).sound

theorem account_sound {b : Backend} (hb : b.Sound) (s : SessionId) (shares work actual : ℕ) :
    (b.account s shares work actual).Sound :=
  (account_everywhere booked_stable hb.everywhere s shares work actual).sound

theorem step_sound (b : Backend) (a : Action) (b' : Backend) (hb : b.Sound)
    (h : step b a = some b') : b'.Sound :=
  (step_everywhere booked_stable hb.everywhere (fun _ _ _ => trivial) h).sound

theorem exec_sound {maxLinks idleTimeout : ℕ} {expand : Bool} {now : ℕ}
    {actions : List Action} {b : Backend}
    (hrun : exec step (start maxLinks idleTimeout expand now) actions = some b) : b.Sound := by
  have hstart : (start maxLinks idleTimeout expand now).Sound :=
    ⟨fun _ => rfl, fun _ _ => Ledger.booked_empty _⟩
  exact exec_preserves step_sound hstart hrun

/-! ### Where a share goes -/

/-- The upstream and the link whose socket an output is sent on. -/
def sentLink : Output → Option (UpstreamId × LinkId)
  | .submitted i l _ _ _ => some (i, l)
  | _ => none

/-- The upstream and the link on whose socket the submission of a share is sent. -/
def sentOn (b : Backend) (s : SessionId) (job_id nonce result : String) :
    Option (UpstreamId × LinkId) :=
  ((b.submit s job_id nonce result).outbox.drop b.outbox.length).findSome? sentLink

/-- The proxy credits the share. -/
def accepts (b : Backend) (e : Entry) (nonce result : String) : Bool :=
  (b.decide e nonce result).1.credit.isSome

/-- The link is the miner's home, has its socket, and its job has a pool target that the value
meets. -/
def Goes (b : Backend) (e : Entry) (result : String) (l : LinkId) : Prop :=
  let u := b.upstream e.upstream
  u.homes e.client = some l ∧ (u.link l).socket = true ∧
    ∃ job, (u.link l).job = some job ∧ meetsValue (hashValue result) job.target = some true

theorem setLink_socket (u : Upstream) (m : LinkId) {f : Link → Link}
    (h : (f (u.link m)).socket = (u.link m).socket) (l : LinkId) :
    ((u.setLink m f).link l).socket = (u.link l).socket :=
  congrFun (Upstream.update_proj_same u.link m _ Link.socket h) l

theorem report_frame (u : Upstream) (c : ClientId) (hashrate : ℚ) :
    (u.report c hashrate).outbox = u.outbox ∧ (u.report c hashrate).homes = u.homes ∧
      ∀ l, ((u.report c hashrate).link l).socket = (u.link l).socket := by
  unfold Upstream.report
  split_ifs
  · cases u.homes c with
    | none => exact ⟨rfl, rfl, fun _ => rfl⟩
    | some m =>
      refine ⟨rfl, rfl, fun l => ?_⟩
      change ((u.setLink m fun k =>
        { k with load := k.load + (hashrate - u.rate c) }).link l).socket = _
      exact setLink_socket u m rfl l
  · exact ⟨rfl, rfl, fun _ => rfl⟩

theorem counted_frame {b : Backend} (hb : b.Sound) (e : Entry) (v : VarDiff) :
    (b.counted e v).outbox = b.outbox ∧
      ((b.counted e v).upstream e.upstream).homes = (b.upstream e.upstream).homes ∧
        ((b.counted e v).upstream e.upstream).outbox = [] ∧
          ∀ l, (((b.counted e v).upstream e.upstream).link l).socket =
            ((b.upstream e.upstream).link l).socket := by
  -- `u` is the upstream with the new controller and, for a miner without a stated rate, the rate
  have key : ∀ u : Upstream, u.outbox = [] → u.homes = (b.upstream e.upstream).homes →
      (∀ l, (u.link l).socket = ((b.upstream e.upstream).link l).socket) →
        (b.run e.upstream u).outbox = b.outbox ∧
          ((b.run e.upstream u).upstream e.upstream).homes = (b.upstream e.upstream).homes ∧
            ((b.run e.upstream u).upstream e.upstream).outbox = [] ∧
              ∀ l, (((b.run e.upstream u).upstream e.upstream).link l).socket =
                ((b.upstream e.upstream).link l).socket := by
    intro u hout hhomes hsocket
    have hup : (b.setUpstream e.upstream u).upstream e.upstream = { u with outbox := [] } :=
      Function.update_self ..
    rw [run_of_silent b e.upstream hout, hup]
    exact ⟨rfl, hhomes, rfl, hsocket⟩
  have hout : (setVardiff (b.upstream e.upstream) e.client v).outbox = [] := hb.drained e.upstream
  obtain ⟨hrout, hrhomes, hrsocket⟩ :=
    report_frame (setVardiff (b.upstream e.upstream) e.client v) e.client v.hashrate
  unfold counted
  dsimp only
  split_ifs
  · exact key _ hout rfl fun _ => rfl
  · exact key _ (hrout.trans hout) hrhomes hrsocket

/-- Everything `decide` requires of an accepted share. -/
theorem decide_of_accepts {b : Backend} {e : Entry} {nonce result : String}
    (h : b.accepts e nonce result = true) :
    ∃ job claimed d, (b.upstream e.upstream).jobOf e.client = some job ∧
      claimedNonce nonce = some claimed ∧ (b.upstream e.upstream).owns e.client claimed = true ∧
        ((b.decide e nonce result).1 = .forwarded d ∧
            meetsValue (hashValue result) job.target = some true ∨
          (b.decide e nonce result).1 = .absorbed d ∧
            meetsValue (hashValue result) job.target = some false) := by
  unfold accepts decide decideShare at h
  unfold decide decideShare
  dsimp only at h ⊢
  cases hjob : (b.upstream e.upstream).jobOf e.client with
  | none => simp [hjob, Decision.credit] at h
  | some job =>
    rw [hjob] at h
    dsimp only at h ⊢
    cases hclaim : claimedNonce nonce with
    | none => simp [hclaim, Decision.credit] at h
    | some claimed =>
      rw [hclaim] at h
      dsimp only at h ⊢
      split_ifs at h with howns
      · rw [if_pos howns]
        rcases hjudge : (b.vardiff e).judge (hashValue result) with _ | ⟨_ | d, v⟩
        · simp [hjudge, Decision.credit] at h
        · simp [hjudge, Decision.credit] at h
        · rw [hjudge] at h
          dsimp only at h ⊢
          refine ⟨job, claimed, d, rfl, rfl, howns, ?_⟩
          rcases hmeets : meetsValue (hashValue result) job.target with _ | _ | _
          · simp [hmeets, Decision.credit] at h
          · exact Or.inr ⟨rfl, rfl⟩
          · exact Or.inl ⟨rfl, rfl⟩
      · simp [Decision.credit] at h

/-- The socket `Upstream.submit` sends on, if any. -/
theorem submit_delivers (u : Upstream) (call : ℕ) (c : ClientId) (job_id nonce result : String) :
    match u.submit call c job_id nonce result with
    | none => ∀ l, u.homes c = some l → (u.link l).socket = false
    | some (l, v) => u.homes c = some l ∧ (u.link l).socket = true ∧
        v.outbox = u.outbox ++ [.submitted call l job_id nonce result] := by
  unfold Upstream.submit
  cases hhome : u.homes c with
  | none => simp
  | some l =>
    rw [Option.bind_some]
    by_cases hsocket : (u.link l).socket = true
    · rw [if_pos hsocket]
      refine ⟨rfl, hsocket, ?_⟩
      split_ifs <;> rfl
    · rw [if_neg hsocket]
      rintro m ⟨⟩
      exact Bool.eq_false_iff.mpr hsocket

/-- What `submit` puts out for an absorbed share. -/
theorem submit_absorbed {b : Backend} (hb : b.Sound) {s : SessionId} {e : Entry}
    (he : b.entries s = some e) (job_id : String) {nonce result : String} {d : ℕ} {v : VarDiff}
    (hv : b.decide e nonce result = (.absorbed d, v)) :
    (b.submit s job_id nonce result).outbox =
        b.outbox ++ [.share s e (b.report e d result), .reply b.nextCall (.ok .ok)] ∧
      (b.submit s job_id nonce result).calls b.nextCall = none := by
  have hb' : Sound { b with nextCall := b.nextCall + 1 } := hb.of_upstream rfl
  have hv' : decide { b with nextCall := b.nextCall + 1 } e nonce result = (.absorbed d, v) := hv
  have hout := (counted_frame hb' e v).1
  unfold submit
  simp only [he, hv', answer, emit, setCall, hout, List.append_assoc]
  exact ⟨rfl, Function.update_self ..⟩

/-- What it puts out for a share that meets the pool target of the home link's job. -/
theorem submit_forwarded {b : Backend} (hb : b.Sound) {s : SessionId} {e : Entry}
    (he : b.entries s = some e) (job_id : String) {nonce result : String} {d : ℕ} {v : VarDiff}
    (hv : b.decide e nonce result = (.forwarded d, v)) {l : LinkId}
    (hhome : (b.upstream e.upstream).homes e.client = some l) :
    (((b.upstream e.upstream).link l).socket = true ∧
        (b.submit s job_id nonce result).outbox =
          b.outbox ++ [.submitted e.upstream l job_id nonce result] ∧
        ∃ (report : ShareReport) (pool : ℕ) (stray : Bool), report.difficulty = d ∧
          (b.submit s job_id nonce result).calls b.nextCall =
            some (.forwarding s e report pool stray)) ∨
      ((b.upstream e.upstream).link l).socket = false ∧
        (∃ report : ShareReport, report.difficulty = d ∧
          (b.submit s job_id nonce result).outbox = b.outbox ++
          [.share s e report, .reply b.nextCall (.error "Upstream is not connected.")]) ∧
        (b.submit s job_id nonce result).calls b.nextCall = none := by
  have hb' : Sound { b with nextCall := b.nextCall + 1 } := hb.of_upstream rfl
  have hv' : decide { b with nextCall := b.nextCall + 1 } e nonce result = (.forwarded d, v) := hv
  obtain ⟨hout, hhomes, hdrained, hsocket⟩ := counted_frame hb' e v
  have hspec := submit_delivers ((counted { b with nextCall := b.nextCall + 1 } e v).upstream
    e.upstream) b.nextCall e.client job_id nonce result
  unfold submit
  simp only [he, hv']
  rcases hsub : ((counted { b with nextCall := b.nextCall + 1 } e v).upstream e.upstream).submit
    b.nextCall e.client job_id nonce result with _ | ⟨m, u⟩
  · rw [hsub] at hspec
    refine Or.inr ⟨?_, ⟨{ b.report e d result with forwarded := true, accepted := false }, rfl, ?_⟩,
      ?_⟩
    · rw [← hsocket l]
      exact hspec l (by rw [hhomes, hhome])
    · dsimp only [answer, emit, setCall]
      rw [hout, List.append_assoc]
      rfl
    · exact Function.update_self ..
  · rw [hsub] at hspec
    obtain ⟨hm, hopen, hu⟩ := hspec
    rw [hhomes, hhome, Option.some.injEq] at hm
    subst hm
    rw [hsocket] at hopen
    rw [hdrained, List.nil_append] at hu
    refine Or.inl ⟨hopen, ?_, ?_⟩
    · dsimp only [run]
      rw [hu]
      change (counted { b with nextCall := b.nextCall + 1 } e v).outbox ++ _ = _
      rw [hout]
    · dsimp only [run]
      rw [hu]
      exact ⟨_, _, _, rfl, Function.update_self ..⟩

/-- An accepted share is sent on the socket of the miner's home link when its value meets the pool
target of that link's job, and not at all otherwise. -/
theorem sentOn_iff {b : Backend} (hb : b.Sound) {s : SessionId} {e : Entry}
    (he : b.entries s = some e) (job_id : String) {nonce result : String}
    (hacc : b.accepts e nonce result = true) (i : UpstreamId) (l : LinkId) :
    b.sentOn s job_id nonce result = some (i, l) ↔ i = e.upstream ∧ b.Goes e result l := by
  obtain ⟨job, claimed, d, hjob, -, -, hdecide⟩ := decide_of_accepts hacc
  obtain ⟨home, hhome, hlink⟩ := Option.bind_eq_some_iff.mp hjob
  have hsent : ∀ os, (b.submit s job_id nonce result).outbox = b.outbox ++ os →
      b.sentOn s job_id nonce result = os.findSome? sentLink := by
    intro os hos
    unfold sentOn
    rw [hos, List.drop_left]
  have hgoes : b.Goes e result l ↔ l = home ∧ ((b.upstream e.upstream).link home).socket = true ∧
      meetsValue (hashValue result) job.target = some true := by
    constructor
    · rintro ⟨hl, hsocket, job', hjob', hmeets⟩
      rw [hhome, Option.some.injEq] at hl
      subst hl
      rw [hlink, Option.some.injEq] at hjob'
      exact ⟨rfl, hsocket, hjob' ▸ hmeets⟩
    · rintro ⟨rfl, hsocket, hmeets⟩
      exact ⟨hhome, hsocket, job, hlink, hmeets⟩
  rw [hgoes]
  rcases hv : b.decide e nonce result with ⟨decision, v⟩
  rw [hv] at hdecide
  rcases hdecide with ⟨hd, hmeets⟩ | ⟨hd, hmeets⟩
  · dsimp only at hd
    subst hd
    rcases submit_forwarded hb he job_id hv hhome with ⟨hsocket, hos, -⟩ | ⟨hsocket, ⟨r, -, hos⟩, -⟩
    · have hsome : [Output.submitted e.upstream home job_id nonce result].findSome? sentLink =
          some (e.upstream, home) := rfl
      rw [hsent _ hos, hsome]
      simp [hsocket, hmeets, eq_comm]
    · have hnone : [Output.share s e r, .reply b.nextCall
          (.error "Upstream is not connected.")].findSome? sentLink = none := rfl
      rw [hsent _ hos, hnone]
      simp [hsocket]
  · dsimp only at hd
    subst hd
    have hnone : [Output.share s e (b.report e d result), .reply b.nextCall (.ok .ok)].findSome?
        sentLink = none := rfl
    rw [hsent _ (submit_absorbed hb he job_id hv).1, hnone, hmeets]
    simp

/-! ### Late shares -/

/-- The nonce lies in a range granted to the miner for this job, which is its current or its
previous one. -/
structure Granted (b : Backend) (e : Entry) (job_id nonce : String) (r : Issued) : Prop where
  issued : r ∈ (b.upstream e.upstream).issued e.client
  job : r.job.job_id = job_id
  range : ∃ n, claimedNonce nonce = some n ∧ r.range.has n = true
  recent : ∃ x ∈ recent Issued.job_id ((b.upstream e.upstream).issued e.client),
    x.job.job_id = job_id

/-- A share found for a job is sent to the pool just when it meets the pool target of that job, and
on the socket of the link that issued it. -/
structure RightPool (b : Backend) (s : SessionId) (e : Entry) (job_id nonce result : String)
    (r : Issued) : Prop where
  judged : (b.sentOn s job_id nonce result).isSome ↔
    meetsValue (hashValue result) r.job.target = some true
  link : ∀ i l, b.sentOn s job_id nonce result = some (i, l) → i = e.upstream ∧ l = r.link

/-- A share that meets the pool target of its job finds the miner on the link that
issued the job, with its socket and with a job whose pool target it meets too; any other
share finds no such link. -/
def Fits (b : Backend) (e : Entry) (result : String) (r : Issued) : Prop :=
  if meetsValue (hashValue result) r.job.target = some true then b.Goes e result r.link
  else ∀ l, ¬ b.Goes e result l

theorem rightPool_iff {b : Backend} (hb : b.Sound) {s : SessionId} {e : Entry}
    (he : b.entries s = some e) {job_id nonce result : String}
    (hacc : b.accepts e nonce result = true) (r : Issued) :
    b.RightPool s e job_id nonce result r ↔ b.Fits e result r := by
  have hsent := sentOn_iff hb he job_id hacc
  unfold Fits
  split_ifs with hmeets
  · constructor
    · intro h
      obtain ⟨⟨i, l⟩, hil⟩ := Option.isSome_iff_exists.mp (h.judged.mpr hmeets)
      rw [← (h.link i l hil).2]
      exact ((hsent i l).mp hil).2
    · intro h
      have hr := (hsent e.upstream r.link).mpr ⟨rfl, h⟩
      refine ⟨⟨fun _ => hmeets, fun _ => ?_⟩, ?_⟩
      · rw [hr]
        rfl
      · intro i l hil
        rw [hr, Option.some.injEq, Prod.mk.injEq] at hil
        exact ⟨hil.1.symm, hil.2.symm⟩
  · constructor
    · intro h l hl
      have hl' := (hsent e.upstream l).mpr ⟨rfl, hl⟩
      refine hmeets (h.judged.mp ?_)
      rw [hl']
      rfl
    · intro h
      have hnone : ∀ i l, b.sentOn s job_id nonce result ≠ some (i, l) := fun i l hil =>
        h l ((hsent i l).mp hil).2
      refine ⟨⟨fun hsome => ?_, fun hm => absurd hm hmeets⟩, fun i l hil => absurd hil (hnone i l)⟩
      obtain ⟨⟨i, l⟩, hil⟩ := Option.isSome_iff_exists.mp hsome
      exact absurd hil (hnone i l)

/-- In every state that a run reaches, the nonce of an accepted share was granted for the miner's
current or previous job; and a share found for such a job gets to the right pool socket exactly if
it fits the link that the miner is on. -/
theorem late_shares (maxLinks idleTimeout : ℕ) (expand : Bool) (now : ℕ)
    (actions : List Action) (b : Backend)
    (s : SessionId) (e : Entry) (job_id nonce result : String)
    (hrun : exec step (start maxLinks idleTimeout expand now) actions = some b)
    (he : b.entries s = some e)
    (hacc : b.accepts e nonce result = true) :
    (∃ r, b.Granted e r.job.job_id nonce r) ∧
      ∀ r, b.Granted e job_id nonce r →
        (b.RightPool s e job_id nonce result r ↔ b.Fits e result r) := by
  have hb := exec_sound hrun
  refine ⟨?_, fun r _ => rightPool_iff hb he hacc r⟩
  obtain ⟨job, claimed, d, -, hclaim, howns, -⟩ := decide_of_accepts hacc
  obtain ⟨r, hr, hhas⟩ := (hb.booked e.upstream e.client).owns howns
  exact ⟨r, recent_subset _ hr, rfl, ⟨claimed, hclaim, hhas⟩, r, hr, rfl⟩

/-- A job with an easier pool target than `plainJob`, which follows it. -/
def easyJob : StratumJob := { blob := "", target := "ffff0000", job_id := "0", seed_hash := "" }

/-- A miner logs in and gets `easyJob`, then the next job comes. -/
def retargeted : List Action :=
  [.login 0 "a" none, .resolved 0 (.ok wallet), .upstream 0 (.dialed 0 (.ok ())),
    .upstream 0 (.loggedIn 0 (.ok easyJob)), .upstream 0 (.resume 0), .upstream 0 (.resume 0),
    .settle 0, .upstream 0 (.job 0 Upstream.plainJob)]

/-- A hash by the last eight bytes of its hexadecimal text. -/
def hashOf (tail : String) : String := String.ofList (List.replicate 48 '0') ++ tail

/-- A late share that solves a block for either target. -/
theorem late_shares_solving : ∃ b e, exec step (start 64 300000 false 1000) retargeted = some b ∧
    b.entries 0 = some e ∧ (∃ r, b.Granted e r.job.job_id "88130000" r) ∧
      ∀ r, b.Granted e "0" "88130000" r →
        (b.RightPool 0 e "0" "88130000" (hashOf "0100000000000000") r ↔
          b.Fits e (hashOf "0100000000000000") r) := by
  have hrun : (exec step (start 64 300000 false 1000) retargeted).map (fun b =>
      (b.entries 0).map fun e => b.accepts e "88130000" (hashOf "0100000000000000")) =
        some (some true) := by decide +kernel
  obtain ⟨b, hb, hstate⟩ := Option.map_eq_some_iff.mp hrun
  obtain ⟨e, he, hacc⟩ := Option.map_eq_some_iff.mp hstate
  exact ⟨b, e, hb, he, late_shares 64 300000 false 1000 _ b 0 e "0" _ _ hb he hacc⟩

/-- A late share that solves a block for the target of its own job, and not for the present one: it
is absorbed. -/
theorem late_share_absorbed : ¬ ∀ b e r, exec step
    (start 64 300000 false 1000) retargeted = some b →
    b.entries 0 = some e → b.accepts e "88130000" (hashOf "0000000000100000") = true →
      b.Granted e "0" "88130000" r →
        b.RightPool 0 e "0" "88130000" (hashOf "0000000000100000") r := by
  intro h
  have hrun : (exec step (start 64 300000 false 1000) retargeted).map (fun b =>
      (b.sentOn 0 "0" "88130000" (hashOf "0000000000100000"), (b.entries 0).map fun e =>
        (b.accepts e "88130000" (hashOf "0000000000100000"),
          (b.upstream e.upstream).issued e.client))) =
      some (none, some (true, [{ link := 0, job := easyJob, range := ⟨0, 20000⟩ },
        { link := 0, job := Upstream.plainJob, range := ⟨0, 4096⟩ }])) := by decide +kernel
  obtain ⟨b, hb, hstate⟩ := Option.map_eq_some_iff.mp hrun
  obtain ⟨hsent, hentry⟩ := Prod.mk.inj hstate
  obtain ⟨e, he, hview⟩ := Option.map_eq_some_iff.mp hentry
  obtain ⟨hacc, hissued⟩ := Prod.mk.inj hview
  have hgranted : b.Granted e "0" "88130000"
      { link := 0, job := easyJob, range := ⟨0, 20000⟩ } := by
    refine ⟨?_, rfl, ⟨5000, by decide +kernel, by decide⟩, ?_⟩
    · rw [hissued]
      exact List.mem_cons_self
    · rw [hissued]
      decide
  have hright := h b e _ hb he hacc hgranted
  have hmeets : (b.sentOn 0 "0" "88130000" (hashOf "0000000000100000")).isSome = true :=
    hright.judged.mpr (by decide +kernel)
  rw [hsent] at hmeets
  exact absurd hmeets (by simp)

end Backend

end NMiner
