import NMiner.Proofs.Calls
import NMiner.Spec.Cluster

/-! What the difficulty controllers have counted. Whatever an upstream does leaves it alone; in a
backend `submit` adds the share it counts and `account` those of the tally, each to the controller
of the session's entry, and nothing else adds any. -/

namespace NMiner

namespace VarDiff

theorem submitted_totals (v : VarDiff) (difficulty : ℚ) (count now : ℕ) :
    (v.submitted difficulty count now).totals =
      (v.accepted + count, v.work + difficulty * count) := by
  unfold submitted
  split_ifs with hcount
  · simp [totals, hcount]
  · dsimp only
    split_ifs <;> rfl

theorem observe_totals (v : VarDiff) (hashrate : ℚ) : (v.observe hashrate).totals = v.totals := by
  unfold observe
  split_ifs <;> rfl

theorem tune_totals {v w : VarDiff} {pool : String} (h : v.tune pool = some w) :
    w.totals = v.totals := by
  obtain ⟨ceiling, -, h⟩ := Option.bind_eq_some_iff.mp h
  obtain ⟨target, -, h⟩ := Option.bind_eq_some_iff.mp h
  split_ifs at h
  · exact Option.some.inj h ▸ rfl
  · obtain ⟨d, -, rfl⟩ := Option.map_eq_some_iff.mp h
    rfl

/-- A share is judged without being counted, and a refused one changes nothing. -/
theorem judge_totals {v w : VarDiff} {value credit : Option ℕ}
    (h : v.judge value = some (credit, w)) : w.totals = v.totals ∧ (credit = none → w = v) := by
  obtain ⟨met, -, h⟩ := Option.bind_eq_some_iff.mp h
  by_cases hmet : met
  · rw [if_pos hmet] at h
    obtain ⟨settled, -, h⟩ := Option.map_eq_some_iff.mp h
    obtain ⟨hcredit, rfl⟩ := Prod.mk.inj h
    refine ⟨by split_ifs <;> rfl, fun hnone => ?_⟩
    rw [hnone] at hcredit
    exact absurd hcredit (by simp)
  · rw [if_neg hmet] at h
    obtain ⟨-, rfl⟩ := Prod.mk.inj (Option.some.inj h)
    exact ⟨rfl, fun _ => rfl⟩

end VarDiff

/-! ### An upstream -/

namespace Upstream

@[simp] theorem setLink_counters (u : Upstream) (l : LinkId) (f : Link → Link) :
    (u.setLink l f).counters = u.counters := rfl

@[simp] theorem emit_counters (u : Upstream) (d : Delivery) :
    (u.emit d).counters = u.counters := rfl

theorem foldl_counters {α : Type*} {f : Upstream → α → Upstream}
    (hf : ∀ u a, (f u a).counters = u.counters) (as : List α) (u : Upstream) :
    (as.foldl f u).counters = u.counters := by
  induction as generalizing u with
  | nil => rfl
  | cons a as ih => exact (ih _).trans (hf u a)

theorem setClient_counters (u : Upstream) (c : ClientId) (f : Client → Client) :
    (u.setClient c f).counters =
      Function.update u.counters c (f (u.client c)).vardiff.totals := by
  funext x
  unfold counters setClient
  dsimp only
  rw [Function.update_apply, Function.update_apply]
  split_ifs <;> rfl

/-- A client whose controller has counted what it had. -/
theorem setClient_counters_same (u : Upstream) (c : ClientId) {f : Client → Client}
    (h : (f (u.client c)).vardiff.totals = (u.client c).vardiff.totals) :
    (u.setClient c f).counters = u.counters := by
  rw [setClient_counters, h]
  exact Function.update_eq_self c u.counters

@[simp] theorem house_counters (u : Upstream) (l : LinkId) (c : ClientId) :
    (u.house l c).counters = u.counters := rfl

@[simp] theorem evict_counters (u : Upstream) (c : ClientId) :
    (u.evict c).counters = u.counters := by
  unfold evict
  cases u.homes c <;> rfl

@[simp] theorem detach_counters (u : Upstream) (c : ClientId) :
    (u.detach c).counters = u.counters := by
  unfold detach
  exact evict_counters _ c

@[simp] theorem report_counters (u : Upstream) (c : ClientId) (hashrate : ℚ) :
    (u.report c hashrate).counters = u.counters := by
  unfold report
  split_ifs
  · dsimp only
    rw [setClient_counters_same _ c rfl]
    cases u.homes c <;> rfl
  · rfl

@[simp] theorem pick_counters (u : Upstream) (c : ClientId) (exclude : Option LinkId) :
    (u.pick c exclude).2.counters = u.counters := by
  rcases pick_cases u c exclude with h | ⟨h, -⟩ <;> rw [h]
  rfl

@[simp] theorem launch_counters (u : Upstream) (c : ClientId) (goal : Goal) (origin : Origin) :
    (u.launch c goal origin).counters = u.counters := pick_counters u c (Goal.exclude goal)

@[simp] theorem attach_counters (u : Upstream) (c : ClientId) (origin : Origin) :
    (u.attach c origin).counters = u.counters := launch_counters _ c _ origin

@[simp] theorem migrate_counters (u : Upstream) (l : LinkId) (c : ClientId) (origin : Origin) :
    (u.migrate l c origin).counters = u.counters := launch_counters u c _ origin

theorem grant_counters {u v : Upstream} {l : LinkId} {c : ClientId} {r : Option Grant}
    (h : u.grant l c = (r, v)) : v.counters = u.counters := by
  obtain rfl : (u.grant l c).2 = v := congrArg Prod.snd h
  rcases grant_cases u l c with h | ⟨space, ⟨r, h, -⟩ | ⟨g, job, -, h⟩⟩ <;> rw [h]
  all_goals rfl

/-- The payload's target is tuned, which counts nothing. -/
theorem payload_counters {u v : Upstream} {l : LinkId} {c : ClientId} {g : Grant} {p : Payload}
    (h : u.payload l c g = some (p, v)) : v.counters = u.counters := by
  obtain ⟨job, -, h⟩ := Option.bind_eq_some_iff.mp h
  obtain ⟨w, hw, h⟩ := Option.map_eq_some_iff.mp h
  obtain ⟨-, rfl⟩ := Prod.mk.inj h
  exact setClient_counters_same u c (VarDiff.tune_totals hw)

@[simp] theorem fanout_counters (l : LinkId) (cs : List ClientId) (u : Upstream) :
    (u.fanout l cs).2.counters = u.counters := by
  induction cs generalizing u with
  | nil => rfl
  | cons c cs ih =>
    unfold fanout
    rcases hg : u.grant l c with ⟨_ | g, v⟩
    · exact (ih _).trans ((migrate_counters v l c .fanout).trans (grant_counters hg))
    · dsimp only
      cases hp : v.payload l c g with
      | none => exact grant_counters hg
      | some pw => exact (ih _).trans ((payload_counters (p := pw.1) hp).trans (grant_counters hg))

@[simp] theorem observeInterval_counters (u : Upstream) (l : LinkId) :
    (u.observeInterval l).counters = u.counters := by
  unfold observeInterval
  dsimp only
  split_ifs
  · rfl
  · refine foldl_counters (fun v m => ?_) _ _
    split_ifs <;> rfl
  · rfl

theorem accept_counters (u : Upstream) (l : LinkId) (job : StratumJob) :
    (u.accept l job).2.counters = u.counters :=
  (fanout_counters l _ _).trans (observeInterval_counters u l)

@[simp] theorem reslice_counters (u : Upstream) : u.reslice.counters = u.counters := by
  refine foldl_counters ?_ _ _
  rintro v ⟨l, i⟩
  rfl

@[simp] theorem sever_counters (u : Upstream) (l : LinkId) : (u.sever l).counters = u.counters := by
  have hrehome : ∀ v : Upstream, ((u.link l).clients.foldl
      (fun u c => u.attach c .rehome) v.reslice).counters = v.counters := fun v =>
    (foldl_counters (fun w c => attach_counters w c .rehome) _ _).trans (reslice_counters v)
  unfold sever
  dsimp only
  split_ifs <;> exact hrehome _

@[simp] theorem hangUp_counters (u : Upstream) (l : LinkId) :
    (u.hangUp l).counters = u.counters := sever_counters _ l

theorem finishAttach_counters (u : Upstream) (c : ClientId) (picked : Except String LinkId) :
    (u.finishAttach c picked).2.counters = u.counters := by
  unfold finishAttach
  cases picked with
  | error message => exact detach_counters u c
  | ok l =>
    dsimp only
    split_ifs
    · rcases hg : (u.house l c).grant l c with ⟨_ | g, v⟩
      · have hcut : v.counters = u.counters := (grant_counters hg).trans (house_counters u l c)
        exact (detach_counters v c).trans hcut
      · have hcut : v.counters = u.counters := (grant_counters hg).trans (house_counters u l c)
        dsimp only
        cases hp : v.payload l c g with
        | none => exact (detach_counters v c).trans hcut
        | some pw => exact (payload_counters (p := pw.1) hp).trans hcut
    · exact detach_counters u c

theorem finishMigrate_counters (u : Upstream) (source : LinkId) (c : ClientId)
    (picked : Except String LinkId) : (u.finishMigrate source c picked).2.counters =
      u.counters := by
  unfold finishMigrate
  cases picked with
  | error message => rfl
  | ok l =>
    dsimp only
    split_ifs
    · rcases hg : ((u.evict c).house l c).grant l c with ⟨_ | g, v⟩
      · have hcut : v.counters = u.counters :=
          (grant_counters hg).trans ((house_counters _ l c).trans (evict_counters u c))
        dsimp only
        split_ifs
        · exact (evict_counters v c).trans hcut
        · exact hcut
      · have hcut : v.counters = u.counters :=
          (grant_counters hg).trans ((house_counters _ l c).trans (evict_counters u c))
        dsimp only
        cases hp : v.payload l c g with
        | none => exact hcut
        | some pw => exact (payload_counters (p := pw.1) hp).trans hcut
    · rfl

theorem attachDone_counters (u : Upstream) (c : ClientId) (origin : Origin)
    (r : Except String Payload) : (u.attachDone c origin r).counters = u.counters := by
  unfold attachDone
  split <;> rfl

theorem migrateDone_counters (u : Upstream) (source : LinkId) (c : ClientId) (origin : Origin)
    (r : Except String Bool) : (u.migrateDone source c origin r).counters = u.counters := by
  unfold migrateDone
  split <;> rfl

theorem finish_counters (u : Upstream) (t : Task) (r : Except String LinkId) :
    (u.finish t r).counters = u.counters := by
  unfold finish
  cases t.goal with
  | attach =>
    exact (attachDone_counters _ t.client t.origin _).trans (finishAttach_counters u t.client r)
  | migrate source =>
    exact (migrateDone_counters _ source t.client t.origin _).trans
      (finishMigrate_counters u source t.client r)

theorem resume_counters {u v : Upstream} {i : ℕ} (h : u.resume i = some v) :
    v.counters = u.counters := by
  obtain ⟨t, -, h⟩ := Option.bind_eq_some_iff.mp h
  cases hphase : t.phase with
  | waiting l =>
    rw [hphase] at h
    dsimp only at h
    split_ifs at h
    exact Option.some.inj h ▸ pick_counters u t.client (Goal.exclude t.goal)
  | opening l roomiest =>
    rw [hphase] at h
    dsimp only at h
    split at h
    · exact Option.some.inj h ▸ reslice_counters u
    · exact Option.some.inj h ▸ rfl
    · cases h
  | picked l =>
    rw [hphase] at h
    exact Option.some.inj h ▸ finish_counters _ t _
  | failed message =>
    rw [hphase] at h
    exact Option.some.inj h ▸ finish_counters _ t _

@[simp] theorem chunk_counters (u : Upstream) (call : ℕ) (c : ClientId) (job_id : String) :
    (u.chunk call c job_id).counters = u.counters := by
  unfold chunk
  cases u.homes c with
  | none => rfl
  | some l =>
    dsimp only
    cases (u.link l).job with
    | none => rfl
    | some job =>
      dsimp only
      split_ifs
      · rfl
      · rcases hg : u.grant l c with ⟨_ | g, v⟩
        · exact (migrate_counters v l c (.chunk call)).trans (grant_counters hg)
        · exact (emit_counters v _).trans (grant_counters hg)

theorem submit_counters {u v : Upstream} {call : ℕ} {c : ClientId} {job_id nonce result : String}
    {l : LinkId} (h : u.submit call c job_id nonce result = some (l, v)) :
    v.counters = u.counters := by
  obtain ⟨m, -, h⟩ := Option.bind_eq_some_iff.mp h
  split_ifs at h
  all_goals
    obtain ⟨-, rfl⟩ := Prod.mk.inj (Option.some.inj h)
    rfl

@[simp] theorem rejected_counters (u : Upstream) (stray : Bool) :
    (u.rejected stray).counters = u.counters := by
  have hnarrow : ∀ v : Upstream, v.narrow.counters = v.counters := by
    intro v
    unfold narrow
    split_ifs
    · exact foldl_counters (fun w l => setLink_counters w l _) _ _
    · rfl
  unfold rejected
  dsimp only
  split_ifs
  · exact hnarrow _
  · rfl
  · rfl

theorem drain_counters (u : Upstream) (l : LinkId) (cs : List ClientId) :
    (u.drain l cs).counters = u.counters :=
  foldl_counters (fun v c => migrate_counters v l c .sweep) cs u

theorem rebalance_counters (u : Upstream) : u.rebalance.counters = u.counters := by
  have hsweep : ∀ (v : Upstream) (l : LinkId), (v.sweepLink l).counters = v.counters := by
    intro v l
    unfold sweepLink
    dsimp only
    split_ifs
    · rfl
    · exact hangUp_counters v l
    · rfl
    · obtain ⟨cs, h⟩ := shed_drain l (v.link l).clients
        (v.setLink l fun k => { k with idle_at := 0 }) (-(v.link l).headroom)
      exact h ▸ drain_counters _ l cs
  have hconsolidate : ∀ v : Upstream, v.consolidate.counters = v.counters := by
    intro v
    obtain ⟨l, cs, h⟩ := consolidate_drain v
    exact h ▸ drain_counters v l cs
  exact (hconsolidate _).trans (foldl_counters hsweep u.links u)

theorem loggedIn_counters (u : Upstream) (l : LinkId) (outcome : Except String StratumJob) :
    (u.loggedIn l outcome).counters = u.counters := by
  unfold loggedIn
  cases outcome with
  | error message => rfl
  | ok job =>
    dsimp only
    split
    · rfl
    · exact accept_counters _ l job

theorem lost_counters (u : Upstream) (l : LinkId) : (u.lost l).counters = u.counters := by
  unfold lost
  dsimp only
  split_ifs <;> exact hangUp_counters u l

/-- No event of an upstream counts a share. -/
theorem step_counters {u v : Upstream} {a : Action} (h : u.step a = some v) :
    v.counters = u.counters := by
  cases a with
  | attach call c => exact Option.some.inj h ▸ attach_counters u c (.login call)
  | detach c => exact Option.some.inj h ▸ detach_counters u c
  | report c hashrate => exact Option.some.inj h ▸ report_counters u c hashrate
  | chunk call c job_id => exact Option.some.inj h ▸ chunk_counters u call c job_id
  | submit call c job_id nonce result =>
    obtain ⟨⟨l, w⟩, hw, rfl⟩ := Option.map_eq_some_iff.mp h
    exact submit_counters hw
  | rejected stray => exact Option.some.inj h ▸ rejected_counters u stray
  | resume i => exact resume_counters h
  | dialed l outcome =>
    simp only [step] at h
    split_ifs at h
    refine Option.some.inj h ▸ ?_
    cases outcome <;> rfl
  | loggedIn l outcome =>
    simp only [step] at h
    split_ifs at h
    exact Option.some.inj h ▸ loggedIn_counters u l outcome
  | job l job =>
    simp only [step] at h
    split_ifs at h
    exact Option.some.inj h ▸ accept_counters u l job
  | lost l =>
    simp only [step] at h
    split_ifs at h
    exact Option.some.inj h ▸ lost_counters u l
  | rebalance =>
    simp only [step] at h
    split_ifs at h
    exact Option.some.inj h ▸ rebalance_counters u
  | tick ms => exact Option.some.inj h ▸ rfl
  | close => exact Option.some.inj h ▸ rfl

end Upstream

/-! ### The backend -/

/-- The totals with these shares of one difficulty on top of those of the entry's controller. -/
def Entry.counting (e : Entry) (difficulty : ℚ) (count : ℕ) (t : UpstreamId → ClientId → ℕ × ℚ) :
    UpstreamId → ClientId → ℕ × ℚ :=
  Function.update t e.upstream (Function.update (t e.upstream) e.client
    ((t e.upstream e.client).1 + count, (t e.upstream e.client).2 + difficulty * count))

theorem Entry.counting_zero (e : Entry) (difficulty : ℚ) (t : UpstreamId → ClientId → ℕ × ℚ) :
    e.counting difficulty 0 t = t := by
  simp [counting]

namespace Backend

open Upstream (setClient_counters setClient_counters_same)

@[simp] theorem emit_counters (b : Backend) (o : Output) : (b.emit o).counters = b.counters := rfl

@[simp] theorem setCall_counters (b : Backend) (n : CallId) (call : Option Call) :
    (b.setCall n call).counters = b.counters := rfl

@[simp] theorem answer_counters (b : Backend) (n : CallId) (result : Except String Reply) :
    (b.answer n result).counters = b.counters := rfl

theorem setUpstream_counters (b : Backend) (i : UpstreamId) (u : Upstream) :
    (b.setUpstream i u).counters = Function.update b.counters i u.counters := by
  funext j
  unfold counters setUpstream
  dsimp only
  rw [Function.update_apply, Function.update_apply]
  split_ifs <;> rfl

@[simp] theorem deliver_counters (b : Backend) (i : UpstreamId) (d : Delivery) :
    (b.deliver i d).counters = b.counters := by
  cases d with
  | job c payload =>
    simp only [deliver]
    split <;> rfl
  | drop c message =>
    simp only [deliver]
    split <;> rfl
  | attached n result =>
    simp only [deliver]
    split <;> rfl
  | chunked n result =>
    simp only [deliver]
    split <;> rfl
  | submitted n l job_id nonce result => rfl
  | retired =>
    simp only [deliver, retire]
    split_ifs
    · have hclose : (b.upstream i).close.counters = (b.upstream i).counters := rfl
      funext j
      unfold counters
      dsimp only
      rw [Function.update_apply]
      split_ifs with hj
      · rw [hclose, hj]
      · rfl
    · rfl

theorem run_counters (b : Backend) (i : UpstreamId) (u : Upstream) :
    (b.run i u).counters = Function.update b.counters i u.counters := by
  have key : ∀ (ds : List Delivery) (b : Backend),
      (ds.foldl (fun b d => b.deliver i d) b).counters = b.counters := by
    intro ds
    induction ds with
    | nil => exact fun _ => rfl
    | cons d ds ih => exact fun b => (ih _).trans (deliver_counters b i d)
  exact (key _ _).trans (setUpstream_counters b i u)

/-- An upstream goes on by itself. -/
theorem run_counters_same (b : Backend) {i : UpstreamId} {u : Upstream}
    (h : u.counters = (b.upstream i).counters) : (b.run i u).counters = b.counters := by
  rw [run_counters, h]
  exact Function.update_eq_self i b.counters

theorem drop_counters (b : Backend) (s : SessionId) : (b.drop s).counters = b.counters := by
  unfold drop
  split
  · rfl
  · exact run_counters_same _ (Upstream.detach_counters _ _)

theorem login_counters (b : Backend) (s : SessionId) (address : String) (threads : Option ℚ) :
    (b.login s address threads).counters = b.counters := drop_counters b s

theorem close_counters (b : Backend) (s : SessionId) : (b.close s).counters = b.counters :=
  drop_counters b s

theorem settle_counters (b : Backend) (n : CallId) (s : SessionId) (e : Entry)
    (result : Except String Payload) : (b.settle n s e result).counters = b.counters := by
  have hfail : ∀ b' : Backend, b'.counters = b.counters → ∀ message,
      ((b'.run e.upstream ((b'.upstream e.upstream).detach e.client)).answer n
        (.error message)).counters = b.counters := fun b' hb' message =>
    (run_counters_same b' (Upstream.detach_counters _ _)).trans hb'
  unfold settle
  cases result with
  | error message =>
    refine hfail _ ?_ message
    split_ifs <;> rfl
  | ok payload =>
    dsimp only
    split_ifs
    · rfl
    · exact hfail b rfl _

theorem chunk_counters (b : Backend) (s : SessionId) (job_id : String) (hashrate : Option ℚ) :
    (b.chunk s job_id hashrate).counters = b.counters := by
  unfold chunk
  dsimp only
  split
  · rfl
  · rename_i e _
    have hkey : ∀ u : Upstream, u.counters = (b.upstream e.upstream).counters →
        (u.chunk b.nextCall e.client job_id).counters = (b.upstream e.upstream).counters :=
      fun u hu => (Upstream.chunk_counters u _ _ _).trans hu
    refine run_counters_same _ (hkey _ ?_)
    split
    · split_ifs
      · exact (Upstream.report_counters _ _ _).trans
          (setClient_counters_same _ e.client (VarDiff.observe_totals _ _))
      · rfl
    · rfl

/-- Keep a controller with these totals. -/
theorem setVardiff_counters (u : Upstream) (c : ClientId) (v : VarDiff) :
    (setVardiff u c v).counters = Function.update u.counters c v.totals :=
  setClient_counters u c _

theorem setVardiff_counters_same {u : Upstream} {c : ClientId} {v : VarDiff}
    (h : v.totals = (u.client c).vardiff.totals) : (setVardiff u c v).counters = u.counters :=
  setClient_counters_same u c h

theorem setUpstream_counters_same (b : Backend) {i : UpstreamId} {u : Upstream}
    (h : u.counters = (b.upstream i).counters) : (b.setUpstream i u).counters = b.counters := by
  rw [setUpstream_counters, h]
  exact Function.update_eq_self i b.counters

theorem chunked_counters (b : Backend) (n : CallId) (e : Entry)
    (result : Except String ChunkReply) :
    (b.chunked n e result).counters = b.counters := by
  cases result with
  | error message => rfl
  | ok reply =>
    cases reply with
    | range g =>
      simp only [chunked]
      split
      · rfl
      · split
        · rfl
        · rename_i v hv
          exact setUpstream_counters_same b (setVardiff_counters_same (VarDiff.tune_totals hv))
    | _ => rfl

theorem poolReply_counters (b : Backend) (n : CallId) (s : SessionId) (e : Entry)
    (report : ShareReport) (pool : ℕ) (stray : Bool) (outcome : Except String Bool) :
    (b.poolReply n s e report pool stray outcome).counters = b.counters := by
  cases outcome with
  | error message => exact run_counters_same b (Upstream.rejected_counters _ stray)
  | ok accepted =>
    unfold poolReply
    dsimp only
    split_ifs
    · exact setUpstream_counters_same b (setVardiff_counters_same rfl)
    · rfl

/-! ### Shares -/

/-- The entry's own controller has counted the shares. -/
theorem vardiff_of_counting {b b' : Backend} {e : Entry} {difficulty : ℚ} {count : ℕ}
    (h : b'.counters = e.counting difficulty count b.counters) :
    (b'.vardiff e).totals =
      ((b.vardiff e).accepted + count, (b.vardiff e).work + difficulty * count) := by
  change b'.counters e.upstream e.client = _
  rw [h, Entry.counting, Function.update_self, Function.update_self]
  rfl

theorem counted_counters (b : Backend) (e : Entry) (v : VarDiff) :
    (b.counted e v).counters = Function.update b.counters e.upstream
      (Function.update (b.counters e.upstream) e.client v.totals) := by
  unfold counted
  dsimp only
  rw [run_counters]
  refine congrArg _ ?_
  split_ifs
  · exact setVardiff_counters _ _ v
  · exact (Upstream.report_counters _ _ _).trans (setVardiff_counters _ _ v)

/-- A controller that has counted these shares is kept. -/
theorem counted_counting (b : Backend) {e : Entry} {v : VarDiff} {difficulty : ℚ} {count : ℕ}
    (h : v.totals = ((b.vardiff e).accepted + count, (b.vardiff e).work + difficulty * count)) :
    (b.counted e v).counters = e.counting difficulty count b.counters := by
  rw [counted_counters, h]
  rfl

/-- `account` counts the shares of the tally at the difficulty of the aggregate. -/
theorem account_counters {b : Backend} {s : SessionId} {e : Entry} (he : b.entries s = some e)
    (shares work actual : ℕ) : (b.account s shares work actual).counters =
      e.counting (jsRound ((work : ℚ) / shares)) shares b.counters := by
  unfold account
  rw [he]
  dsimp only
  split_ifs with hzero
  · rw [hzero, Entry.counting_zero]
  · rw [foldl_emit]
    exact counted_counting b (VarDiff.submitted_totals ..)

/-- `submit` counts the share once or not at all. -/
theorem decide_totals (b : Backend) (e : Entry) (nonce result : String) :
    (b.decide e nonce result).2.totals = (b.vardiff e).totals ∨
      ∃ d : ℕ, (b.decide e nonce result).2.totals =
        ((b.vardiff e).accepted + 1, (b.vardiff e).work + d) := by
  unfold decide decideShare
  dsimp only
  cases (b.upstream e.upstream).jobOf e.client with
  | none => exact Or.inl rfl
  | some job =>
    cases claimedNonce nonce with
    | none => exact Or.inl rfl
    | some claimed =>
      dsimp only
      split_ifs
      · rcases hjudge : (b.vardiff e).judge (hashValue result) with _ | ⟨_ | d, v⟩
        · exact Or.inl rfl
        · exact Or.inl (VarDiff.judge_totals hjudge).1
        · obtain ⟨haccepted, hwork⟩ := Prod.mk.inj (VarDiff.judge_totals hjudge).1
          refine Or.inr ⟨d, ?_⟩
          dsimp only
          rw [VarDiff.submitted_totals, haccepted, hwork, Nat.cast_one, mul_one]
      · exact Or.inl rfl

/-- A share that it denies leaves the controller as it is. -/
theorem decide_denied {b : Backend} {e : Entry} {nonce result reason : String}
    (h : (b.decide e nonce result).1 = .denied reason) :
    (b.decide e nonce result).2 = b.vardiff e := by
  unfold decide decideShare at h ⊢
  dsimp only at h ⊢
  cases hjob : (b.upstream e.upstream).jobOf e.client with
  | none => rfl
  | some job =>
    cases hclaimed : claimedNonce nonce with
    | none => rfl
    | some claimed =>
      simp only [hjob, hclaimed] at h ⊢
      split_ifs at h ⊢
      · rcases hjudge : (b.vardiff e).judge (hashValue result) with _ | ⟨_ | d, v⟩
        · rfl
        · exact (VarDiff.judge_totals hjudge).2 rfl
        · rw [hjudge] at h
          dsimp only at h
          split at h <;> cases h
      · rfl

/-- The credit of a share that it takes is what the controller counts for it. -/
theorem decide_credit {b : Backend} {e : Entry} {nonce result : String} {d : ℕ}
    (h : (b.decide e nonce result).1.credit = some d) : (b.decide e nonce result).2.totals =
      ((b.vardiff e).accepted + 1, (b.vardiff e).work + d) := by
  unfold decide decideShare at h ⊢
  dsimp only at h ⊢
  cases hjob : (b.upstream e.upstream).jobOf e.client with
  | none => simp [hjob, Decision.credit] at h
  | some job =>
    cases hclaimed : claimedNonce nonce with
    | none => simp [hjob, hclaimed, Decision.credit] at h
    | some claimed =>
      simp only [hjob, hclaimed] at h ⊢
      split_ifs at h ⊢
      · rcases hjudge : (b.vardiff e).judge (hashValue result) with _ | ⟨_ | credit, v⟩
        · simp [hjudge, Decision.credit] at h
        · simp [hjudge, Decision.credit] at h
        · obtain ⟨haccepted, hwork⟩ := Prod.mk.inj (VarDiff.judge_totals hjudge).1
          obtain rfl : credit = d := by
            rw [hjudge] at h
            dsimp only at h
            split at h
            · cases h
            · exact Option.some.inj h
            · exact Option.some.inj h
          dsimp only
          rw [VarDiff.submitted_totals, haccepted, hwork, Nat.cast_one, mul_one]
      · simp [Decision.credit] at h

/-- `submit` leaves the session's controller with what it has decided on. -/
theorem submit_counters {b : Backend} {s : SessionId} {e : Entry} (he : b.entries s = some e)
    (job_id nonce result : String) : (b.submit s job_id nonce result).counters =
      Function.update b.counters e.upstream (Function.update (b.counters e.upstream) e.client
        (b.decide e nonce result).2.totals) := by
  have hsame : Function.update b.counters e.upstream
      (Function.update (b.counters e.upstream) e.client (b.vardiff e).totals) = b.counters := by
    have hinner : Function.update (b.counters e.upstream) e.client (b.vardiff e).totals =
        b.counters e.upstream := Function.update_eq_self e.client (b.counters e.upstream)
    rw [hinner]
    exact Function.update_eq_self e.upstream b.counters
  have hdenied : ∀ reason, (b.decide e nonce result).1 = .denied reason →
      (b.decide e nonce result).2 = b.vardiff e := fun _ h => decide_denied h
  have hdecide : ({ b with nextCall := b.nextCall + 1 } : Backend).decide e nonce result =
      b.decide e nonce result := rfl
  unfold submit
  dsimp only
  rw [he]
  dsimp only
  rw [hdecide]
  generalize b.decide e nonce result = decided at hdenied
  obtain ⟨decision, v⟩ := decided
  have hcount := counted_counters { b with nextCall := b.nextCall + 1 } e v
  cases decision with
  | denied reason =>
    dsimp only at hdenied ⊢
    rw [hdenied reason rfl]
    exact hsame.symm
  | thrown =>
    dsimp only
    split_ifs with hv
    · rw [hv]
      exact hsame.symm
    · exact hcount
  | absorbed d => exact hcount
  | forwarded d =>
    dsimp only
    cases hsub : ((counted { b with nextCall := b.nextCall + 1 } e v).upstream e.upstream).submit
        b.nextCall e.client job_id nonce result with
    | none => exact hcount
    | some p =>
      obtain ⟨l, u⟩ := p
      dsimp only
      refine Eq.trans (run_counters_same _ ?_) hcount
      exact Upstream.submit_counters hsub

/-- A share that passes the checks of `submit` is counted once, at the difficulty it is credited. -/
theorem submit_counting {b : Backend} {s : SessionId} {e : Entry} (he : b.entries s = some e)
    (job_id : String) {nonce result : String} {d : ℕ}
    (h : (b.decide e nonce result).1.credit = some d) :
    (b.submit s job_id nonce result).counters = e.counting d 1 b.counters := by
  rw [submit_counters he, decide_credit h]
  unfold Entry.counting
  rw [Nat.cast_one, mul_one]
  rfl

end Backend

end NMiner
