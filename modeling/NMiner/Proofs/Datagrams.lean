import NMiner.Lib.Ring
import NMiner.Lib.Transition
import NMiner.Spec.Datagram

/-! The datagram links deliver each payload at most once, acknowledge what they have delivered, and
keep the rest in an outbox that is swept. -/

namespace NMiner

open Transition

/-! ### The texts -/

theorem base36_digit {n : ℕ} {c : Char} (hc : c ∈ base36.text n) :
    isSpace c = false ∧ c ≠ '-' ∧ c ≠ '+' ∧ c ≠ ':' := by
  obtain ⟨d, hd, rfl⟩ := Numeral.exists_digit_of_mem_text hc
  have all : ∀ d < 36, isSpace (base36.digit d) = false ∧ base36.digit d ≠ '-' ∧
      base36.digit d ≠ '+' ∧ base36.digit d ≠ ':' := by decide
  exact all d hd

theorem toString36_of_nonneg {n : ℤ} (hn : 0 ≤ n) : toString36 n = base36.text n.natAbs :=
  if_neg (not_lt.mpr hn)

theorem parseInt36_toString36 {n : ℤ} (hn : 0 ≤ n) : parseInt36 (toString36 n) = some n := by
  rw [toString36_of_nonneg hn]
  have hparse := base36.parse_text n.natAbs
  have hmem := @base36_digit n.natAbs
  cases htext : base36.text n.natAbs with
  | nil => exact absurd htext (Numeral.text_ne_nil _)
  | cons c cs =>
    rw [htext] at hparse hmem
    obtain ⟨hspace, hminus, hplus, -⟩ := hmem List.mem_cons_self
    unfold parseInt36
    rw [List.dropWhile_cons_of_neg (by rw [hspace]; decide)]
    split
    next digits heq => exact absurd (List.cons.inj heq).1 hminus
    next digits heq => exact absurd (List.cons.inj heq).1 hplus
    next =>
      rw [hparse, Option.map_some, Int.ofNat_eq_natCast, Int.natAbs_of_nonneg hn]

theorem colon_notMem_toString36 {n : ℤ} (hn : 0 ≤ n) : ':' ∉ toString36 n := by
  rw [toString36_of_nonneg hn]
  exact fun hmem => (base36_digit hmem).2.2.2 rfl

theorem dataOf_dataText {n : ℤ} (hn : 0 ≤ n) (payload : Text) :
    dataOf (dataText n payload) = some (n, payload) := by
  have hcolon := colon_notMem_toString36 hn
  have hidx : (dataText n payload).idxOf ':' = (toString36 n).length + 1 := by
    rw [dataText, List.idxOf_cons_ne _ (by decide), List.idxOf_append_of_notMem hcolon,
      List.idxOf_cons_self, Nat.add_zero]
  have htake : ((dataText n payload).take ((toString36 n).length + 1)).drop 1 = toString36 n := by
    rw [dataText, List.take_succ_cons, List.drop_succ_cons, List.drop_zero, List.take_left]
  have hdrop : (dataText n payload).drop ((toString36 n).length + 1 + 1) = payload := by
    rw [dataText, List.drop_succ_cons, ← List.drop_drop, List.drop_left, List.drop_succ_cons,
      List.drop_zero]
  unfold dataOf
  rw [if_neg (by simp [dataText])]
  simp only [hidx, htake, hdrop, parseInt36_toString36 hn, Option.map_some]

theorem dataOf_ackText (n : ℤ) : dataOf (ackText n) = none := by
  unfold dataOf
  rw [if_pos (Or.inl (by rw [ackText, List.head?_cons]; decide))]

theorem dataText_inj {m n : ℤ} (hm : 0 ≤ m) (hn : 0 ≤ n) {p q : Text}
    (h : dataText m p = dataText n q) : m = n ∧ p = q := by
  have := dataOf_dataText hm p
  rw [h, dataOf_dataText hn, Option.some.injEq, Prod.mk.injEq] at this
  exact ⟨this.1.symm, this.2.symm⟩

theorem dataText_ne_ackText (m n : ℤ) (p : Text) : dataText m p ≠ ackText n := by
  intro h
  have := (List.cons.inj h).1
  revert this
  decide

theorem receive_dataText (d : Side) {seq : ℤ} (hseq : 0 ≤ seq) (payload : Text) :
    d.receive (dataText seq payload) = (d.receiveData seq payload, false) := by
  have hhead : (dataText seq payload).head? ≠ some ACK := by
    rw [dataText, List.head?_cons]
    decide
  rw [Side.receive, if_neg hhead, dataOf_dataText hseq]

theorem receive_ackText (d : Side) {seq : ℤ} (hseq : 0 ≤ seq) :
    (d.receive (ackText seq)).1 = d.receiveAck seq ∧
      ((d.receive (ackText seq)).2 = true → (d.receiveAck seq).link.outbox = []) ∧
      ((d.receive (ackText seq)).2 = false →
        (d.receiveAck seq).link.outbox ≠ [] ∨ (d.receiveAck seq).link.outbox = d.link.outbox) := by
  have hdrop : (ackText seq).drop 1 = toString36 seq := rfl
  have hhead : (ackText seq).head? = some ACK := rfl
  rw [Side.receive, if_pos hhead, hdrop, parseInt36_toString36 hseq]
  refine ⟨rfl, fun h => (of_decide_eq_true h).2, fun h => ?_⟩
  by_cases hany : d.link.outbox.any (·.seq = seq) = true
  · exact Or.inl fun hnil => of_decide_eq_false h ⟨hany, hnil⟩
  · rw [Side.receiveAck, if_neg hany]
    exact Or.inr rfl

/-! ### One side -/

namespace Side

/-- This payload was handed to `send` and got this number. -/
def Sends (d : Side) (seq : ℤ) (payload : Text) : Prop :=
  ∃ i : ℕ, seq = i + 1 ∧ d.sent[i]? = some payload

def numbers (d : Side) : List ℤ := d.delivered.map Prod.fst

theorem mem_numbers {d : Side} {seq : ℤ} :
    seq ∈ d.numbers ↔ ∃ payload, (seq, payload) ∈ d.delivered := by
  rw [numbers, List.mem_map]
  constructor
  · rintro ⟨⟨n, payload⟩, hmem, rfl⟩
    exact ⟨payload, hmem⟩
  · rintro ⟨payload, hmem⟩
    exact ⟨_, hmem, rfl⟩

theorem Sends.pos {d : Side} {seq : ℤ} {payload : Text} (h : d.Sends seq payload) : 0 < seq := by
  obtain ⟨i, rfl, -⟩ := h
  omega

theorem Sends.inj {d : Side} {seq : ℤ} {payload payload' : Text} (h : d.Sends seq payload)
    (h' : d.Sends seq payload') : payload = payload' := by
  obtain ⟨i, hi, hp⟩ := h
  obtain ⟨j, hj, hp'⟩ := h'
  obtain rfl : i = j := by omega
  rw [hp, Option.some.injEq] at hp'
  exact hp'

/-- What holds of a side and its peer, however the network treats their texts. -/
structure Honest (d peer : Side) : Prop where
  numbered : d.link.seq = d.sent.length
  wire : ∀ text ∈ d.wire, (∃ seq payload, d.Sends seq payload ∧ text = dataText seq payload) ∨
    ∃ seq ∈ d.numbers, text = ackText seq
  outbox : ∀ entry ∈ d.link.outbox, ∃ payload, d.Sends entry.seq payload ∧
    entry.text = dataText entry.seq payload
  distinct : (d.link.outbox.map OutboxEntry.text).Nodup
  tries : ∀ entry ∈ d.link.outbox,
    d.wire.count entry.text = entry.tries ∧ entry.tries ≤ RETRIES
  kept : ∀ i < d.sent.length, (i + 1 : ℤ) ∈ d.acked ∨
    (∃ entry ∈ d.link.outbox, entry.seq = i + 1) ∨ d.dead = true ∨ d.stopped = true
  acked : ∀ seq ∈ d.acked, seq ∈ peer.numbers
  delivered : ∀ seq payload, (seq, payload) ∈ d.delivered → peer.Sends seq payload
  seen : ∀ seq ∈ d.link.seen, seq ∈ d.numbers

/-- What a side has sent and delivered only grows. -/
structure Grows (d d' : Side) : Prop where
  sent : d.sent <+: d'.sent
  delivered : d.delivered <+: d'.delivered

theorem Grows.same {d d' : Side} (hsent : d'.sent = d.sent)
    (hdelivered : d'.delivered = d.delivered) : d.Grows d' :=
  ⟨hsent ▸ List.prefix_refl _, hdelivered ▸ List.prefix_refl _⟩

theorem Grows.sends {d d' : Side} (h : d.Grows d') {seq : ℤ} {payload : Text}
    (hs : d.Sends seq payload) : d'.Sends seq payload := by
  obtain ⟨i, hi, hp⟩ := hs
  obtain ⟨rest, hrest⟩ := h.sent
  have hlt := (List.getElem?_eq_some_iff.mp hp).1
  refine ⟨i, hi, ?_⟩
  rw [← hrest, List.getElem?_append_left hlt]
  exact hp

theorem Grows.numbers {d d' : Side} (h : d.Grows d') {seq : ℤ} (hs : seq ∈ d.numbers) :
    seq ∈ d'.numbers := by
  obtain ⟨payload, hmem⟩ := mem_numbers.mp hs
  exact mem_numbers.mpr ⟨payload, h.delivered.subset hmem⟩

theorem Honest.mono {d peer peer' : Side} (h : d.Honest peer) (hp : peer.Grows peer') :
    d.Honest peer' :=
  { h with
    acked := fun seq hseq => hp.numbers (h.acked seq hseq)
    delivered := fun seq payload hmem => hp.sends (h.delivered seq payload hmem) }

theorem Honest.nonneg {d peer : Side} (h : d.Honest peer) {seq : ℤ} (hseq : seq ∈ d.numbers) :
    0 ≤ seq := by
  obtain ⟨payload, hmem⟩ := mem_numbers.mp hseq
  exact (h.delivered seq payload hmem).pos.le

/-- The number of a payload to come is on no text written so far. -/
theorem Honest.count_eq_zero {d peer : Side} (h : d.Honest peer) (payload : Text) :
    d.wire.count (dataText (d.link.seq + 1) payload) = 0 := by
  have hnew : 0 ≤ d.link.seq + 1 := by
    rw [h.numbered]
    omega
  refine List.count_eq_zero.mpr fun hmem => ?_
  rcases h.wire _ hmem with ⟨seq, payload', hsends, heq⟩ | ⟨seq, -, heq⟩
  · obtain ⟨hseq, -⟩ := dataText_inj hnew hsends.pos.le heq
    obtain ⟨i, hi, hp⟩ := hsends
    have hlt := (List.getElem?_eq_some_iff.mp hp).1
    have := h.numbered
    omega
  · exact dataText_ne_ackText _ _ _ heq

theorem Honest.send {d peer : Side} (h : d.Honest peer) (payload : Text) (now : ℤ) :
    ((d.handed payload).send payload now).Honest peer ∧
      d.Grows ((d.handed payload).send payload now) := by
  have hgrows : d.Grows ((d.handed payload).send payload now) :=
    ⟨List.prefix_append _ _, List.prefix_refl _⟩
  have hsends : ((d.handed payload).send payload now).Sends (d.link.seq + 1) payload := by
    refine ⟨d.sent.length, by rw [h.numbered], ?_⟩
    exact List.getElem?_concat_length
  have hzero := h.count_eq_zero payload
  have hfresh : ∀ entry ∈ d.link.outbox, entry.text ≠ dataText (d.link.seq + 1) payload := by
    intro entry hentry heq
    obtain ⟨payload', hs, htext⟩ := h.outbox entry hentry
    obtain ⟨hseq, -⟩ := dataText_inj hs.pos.le hsends.pos.le (htext.symm.trans heq)
    obtain ⟨i, hi, hp⟩ := hs
    have hlt := (List.getElem?_eq_some_iff.mp hp).1
    have := h.numbered
    omega
  refine ⟨⟨?_, ?_, ?_, ?_, ?_, ?_, h.acked, h.delivered, h.seen⟩, hgrows⟩
  · change d.link.seq + 1 = ((d.sent ++ [payload]).length : ℤ)
    rw [List.length_append, List.length_singleton, h.numbered]
    omega
  · intro text htext
    rcases List.mem_append.mp htext with hold | hnew
    · rcases h.wire text hold with ⟨seq, payload', hs, heq⟩ | hack
      · exact Or.inl ⟨seq, payload', hgrows.sends hs, heq⟩
      · exact Or.inr hack
    · exact Or.inl ⟨_, payload, hsends, List.mem_singleton.mp hnew⟩
  · intro entry hentry
    rcases List.mem_append.mp hentry with hold | hnew
    · obtain ⟨payload', hs, heq⟩ := h.outbox entry hold
      exact ⟨payload', hgrows.sends hs, heq⟩
    · rw [List.mem_singleton.mp hnew]
      exact ⟨payload, hsends, rfl⟩
  · change ((d.link.outbox ++ [_]).map OutboxEntry.text).Nodup
    rw [List.map_append, List.map_singleton, List.nodup_append]
    refine ⟨h.distinct, List.nodup_singleton _, fun text htext text' htext' heq => ?_⟩
    obtain ⟨entry, hentry, rfl⟩ := List.mem_map.mp htext
    exact hfresh entry hentry (heq.trans (List.mem_singleton.mp htext'))
  · intro entry hentry
    change (d.wire ++ [_]).count entry.text = entry.tries ∧ _
    rw [List.count_append]
    rcases List.mem_append.mp hentry with hold | hnew
    · obtain ⟨hcount, hle⟩ := h.tries entry hold
      rw [hcount, List.count_singleton, if_neg, Nat.add_zero]
      · exact ⟨rfl, hle⟩
      · exact fun heq => hfresh entry hold (beq_iff_eq.mp heq).symm
    · rw [List.mem_singleton.mp hnew]
      refine ⟨?_, Nat.one_le_ofNat⟩
      change d.wire.count (dataText (d.link.seq + 1) payload) +
        List.count (dataText (d.link.seq + 1) payload) [dataText (d.link.seq + 1) payload] = 1
      rw [hzero, List.count_singleton_self]
  · intro i hi
    change i < (d.sent ++ [payload]).length at hi
    rw [List.length_append, List.length_singleton] at hi
    rcases Nat.lt_succ_iff_lt_or_eq.mp hi with hlt | rfl
    · rcases h.kept i hlt with hacked | ⟨entry, hentry, hseq⟩ | hgone
      · exact Or.inl hacked
      · exact Or.inr (Or.inl ⟨entry, List.mem_append_left _ hentry, hseq⟩)
      · exact Or.inr (Or.inr hgone)
    · refine Or.inr (Or.inl ⟨_, List.mem_append_right _ (List.mem_singleton_self _), ?_⟩)
      change d.link.seq + 1 = _
      rw [h.numbered]

theorem Honest.stop {d peer : Side} (h : d.Honest peer) :
    d.stop.Honest peer ∧ d.Grows d.stop := by
  refine ⟨⟨h.numbered, h.wire, fun _ hentry => (by cases hentry), List.nodup_nil,
    fun _ hentry => (by cases hentry), fun _ _ => Or.inr (Or.inr (Or.inr rfl)), h.acked,
    h.delivered, h.seen⟩, Grows.same rfl rfl⟩

/-- The loop of `resend` writes texts of the outbox, and unless it declares the link dead it keeps
every entry and counts the texts it writes. -/
theorem resend_spec (now : ℤ) {entries outbox : List OutboxEntry} {written : List Text}
    {dead : Bool} (hdistinct : (entries.map OutboxEntry.text).Nodup)
    (htries : ∀ entry ∈ entries, entry.tries ≤ RETRIES)
    (h : Datagram.resend now entries = (outbox, written, dead)) :
    (∀ text ∈ written, text ∈ entries.map OutboxEntry.text) ∧
      (dead = false →
        outbox.map (fun entry => (entry.seq, entry.text)) =
          entries.map (fun entry => (entry.seq, entry.text)) ∧
        ∀ entry ∈ outbox, ∃ old ∈ entries, old.text = entry.text ∧
          entry.tries = old.tries + written.count entry.text ∧ entry.tries ≤ RETRIES) := by
  induction entries generalizing outbox written dead with
  | nil =>
    simp only [Datagram.resend, Prod.mk.injEq] at h
    obtain ⟨rfl, rfl, rfl⟩ := h
    exact ⟨fun _ htext => (by cases htext), fun _ => ⟨rfl, fun _ hentry => (by cases hentry)⟩⟩
  | cons entry rest ih =>
    rw [List.map_cons, List.nodup_cons] at hdistinct
    have hrest : ∀ old ∈ rest, old.tries ≤ RETRIES :=
      fun old hold => htries old (List.mem_cons_of_mem _ hold)
    rcases hr : Datagram.resend now rest with ⟨outbox', written', dead'⟩
    obtain ⟨hwritten, hkept⟩ := ih hdistinct.2 hrest hr
    have hnotin : entry.text ∉ written' := fun hmem => hdistinct.1 (hwritten _ hmem)
    simp only [Datagram.resend, hr] at h
    split_ifs at h with hdue hretries
    · -- not due: kept as it is
      simp only [Prod.mk.injEq] at h
      obtain ⟨rfl, rfl, rfl⟩ := h
      refine ⟨fun text htext => List.mem_cons_of_mem _ (hwritten text htext), fun hdead => ?_⟩
      obtain ⟨hmap, hcounts⟩ := hkept hdead
      refine ⟨by rw [List.map_cons, List.map_cons, hmap], fun new hnew => ?_⟩
      rcases List.mem_cons.mp hnew with rfl | hnew
      · refine ⟨new, List.mem_cons_self, rfl, ?_, htries new List.mem_cons_self⟩
        rw [List.count_eq_zero.mpr hnotin, Nat.add_zero]
      · obtain ⟨old, hold, htext, hcount⟩ := hcounts new hnew
        exact ⟨old, List.mem_cons_of_mem _ hold, htext, hcount⟩
    · -- one try too many
      simp only [Prod.mk.injEq] at h
      obtain ⟨rfl, rfl, rfl⟩ := h
      exact ⟨fun _ htext => (by cases htext), fun hdead => by cases hdead⟩
    · -- written once more
      simp only [Prod.mk.injEq] at h
      obtain ⟨rfl, rfl, rfl⟩ := h
      refine ⟨fun text htext => ?_, fun hdead => ?_⟩
      · rcases List.mem_cons.mp htext with rfl | htext
        · exact List.mem_cons_self
        · exact List.mem_cons_of_mem _ (hwritten text htext)
      · obtain ⟨hmap, hcounts⟩ := hkept hdead
        refine ⟨by rw [List.map_cons, List.map_cons, hmap], fun new hnew => ?_⟩
        rcases List.mem_cons.mp hnew with rfl | hnew
        · refine ⟨entry, List.mem_cons_self, rfl, ?_, not_lt.mp hretries⟩
          change entry.tries + 1 = entry.tries + List.count entry.text (entry.text :: written')
          rw [List.count_cons_self, List.count_eq_zero.mpr hnotin]
        · obtain ⟨old, hold, htext, hcount, hle⟩ := hcounts new hnew
          refine ⟨old, List.mem_cons_of_mem _ hold, htext, ?_, hle⟩
          have hne : entry.text ≠ new.text := by
            intro heq
            exact hdistinct.1 (List.mem_map.mpr ⟨old, hold, htext.trans heq.symm⟩)
          rw [List.count_cons_of_ne hne]
          exact hcount

theorem Honest.resend {d peer : Side} (h : d.Honest peer) (now : ℤ) :
    (d.resend now).Honest peer ∧ d.Grows (d.resend now) := by
  rcases hr : Datagram.resend now d.link.outbox with ⟨outbox, written, dead⟩
  obtain ⟨hwritten, hkept⟩ :=
    resend_spec now h.distinct (fun entry hentry => (h.tries entry hentry).2) hr
  have hwire : ∀ text ∈ d.wire ++ written,
      (∃ seq payload, d.Sends seq payload ∧ text = dataText seq payload) ∨
        ∃ seq ∈ d.numbers, text = ackText seq := by
    intro text htext
    rcases List.mem_append.mp htext with hold | hnew
    · exact h.wire text hold
    · obtain ⟨entry, hentry, rfl⟩ := List.mem_map.mp (hwritten text hnew)
      obtain ⟨payload, hs, heq⟩ := h.outbox entry hentry
      exact Or.inl ⟨_, payload, hs, heq⟩
  have hresend : d.resend now = if dead then
      { Side.stop { d with
          link := { d.link with outbox := outbox }, wire := d.wire ++ written } with
        dead := true }
      else { d with link := { d.link with outbox := outbox }, wire := d.wire ++ written } := by
    rw [Side.resend, hr]
  rw [hresend]
  cases dead with
  | true =>
    exact ⟨⟨h.numbered, hwire, fun _ hentry => (by cases hentry), List.nodup_nil,
      fun _ hentry => (by cases hentry), fun _ _ => Or.inr (Or.inr (Or.inl rfl)), h.acked,
      h.delivered, h.seen⟩, Grows.same rfl rfl⟩
  | false =>
    obtain ⟨hmap, hcounts⟩ := hkept rfl
    have hback : ∀ entry ∈ outbox, ∃ old ∈ d.link.outbox, (old.seq, old.text) =
        (entry.seq, entry.text) := by
      intro entry hentry
      have hmem := List.mem_map_of_mem (f := fun entry => (entry.seq, entry.text)) hentry
      rw [hmap] at hmem
      exact List.mem_map.mp hmem
    have htexts : outbox.map OutboxEntry.text = d.link.outbox.map OutboxEntry.text := by
      have := congrArg (List.map Prod.snd) hmap
      rwa [List.map_map, List.map_map] at this
    refine ⟨⟨h.numbered, hwire, ?_, ?_, ?_, ?_, h.acked, h.delivered, h.seen⟩,
      Grows.same rfl rfl⟩
    · intro entry hentry
      obtain ⟨old, hold, heq⟩ := hback entry hentry
      obtain ⟨hseq, htext⟩ := Prod.mk.inj heq
      obtain ⟨payload, hs⟩ := h.outbox old hold
      rw [hseq, htext] at hs
      exact ⟨payload, hs⟩
    · exact htexts.symm ▸ h.distinct
    · intro entry hentry
      obtain ⟨old, hold, htext, hcount, hle⟩ := hcounts entry hentry
      refine ⟨?_, hle⟩
      change (d.wire ++ written).count entry.text = entry.tries
      rw [List.count_append, hcount, ← htext, (h.tries old hold).1]
    · intro i hi
      rcases h.kept i hi with hacked | ⟨old, hold, hseq⟩ | hgone
      · exact Or.inl hacked
      · have hmem := List.mem_map_of_mem (f := fun entry => (entry.seq, entry.text)) hold
        rw [← hmap] at hmem
        obtain ⟨entry, hentry, heq⟩ := List.mem_map.mp hmem
        exact Or.inr (Or.inl ⟨entry, hentry, (Prod.mk.inj heq).1.trans hseq⟩)
      · exact Or.inr (Or.inr hgone)

theorem Honest.receiveAck {d peer : Side} (h : d.Honest peer) {seq : ℤ}
    (hseq : seq ∈ peer.numbers) :
    (d.receiveAck seq).Honest peer ∧ d.Grows (d.receiveAck seq) := by
  unfold Side.receiveAck
  split_ifs
  · refine ⟨⟨h.numbered, h.wire, ?_, ?_, ?_, ?_, ?_, h.delivered, h.seen⟩, Grows.same rfl rfl⟩
    · exact fun entry hentry => h.outbox entry (List.mem_of_mem_filter hentry)
    · exact h.distinct.sublist (List.filter_sublist.map _)
    · exact fun entry hentry => h.tries entry (List.mem_of_mem_filter hentry)
    · intro i hi
      rcases h.kept i hi with hacked | ⟨entry, hentry, hentryseq⟩ | hgone
      · exact Or.inl (List.mem_append_left _ hacked)
      · by_cases heq : entry.seq = seq
        · refine Or.inl (List.mem_append_right _ (List.mem_singleton.mpr ?_))
          exact hentryseq.symm.trans heq
        · exact Or.inr (Or.inl
            ⟨entry, List.mem_filter.mpr ⟨hentry, decide_eq_true heq⟩, hentryseq⟩)
      · exact Or.inr (Or.inr hgone)
    · intro n hn
      rcases List.mem_append.mp hn with hold | hnew
      · exact h.acked n hold
      · exact List.mem_singleton.mp hnew ▸ hseq
  · exact ⟨h, Grows.same rfl rfl⟩

theorem Honest.receiveData {d peer : Side} (h : d.Honest peer) {seq : ℤ} {payload : Text}
    (hs : peer.Sends seq payload) :
    (d.receiveData seq payload).Honest peer ∧ d.Grows (d.receiveData seq payload) := by
  -- an acknowledgement on the wire changes no count of a `DATA` text
  have htries : ∀ entry ∈ d.link.outbox,
      (d.wire ++ [ackText seq]).count entry.text = entry.tries ∧ entry.tries ≤ RETRIES := by
    intro entry hentry
    obtain ⟨payload', -, htext⟩ := h.outbox entry hentry
    have hne : entry.text ≠ ackText seq := by
      rw [htext]
      exact dataText_ne_ackText _ _ _
    rw [List.count_append, List.count_eq_zero.mpr (fun hmem => hne (List.mem_singleton.mp hmem)),
      Nat.add_zero]
    exact h.tries entry hentry
  unfold Side.receiveData
  split_ifs with hseen
  · refine ⟨⟨h.numbered, ?_, h.outbox, h.distinct, htries, h.kept, h.acked, h.delivered, h.seen⟩,
      Grows.same rfl rfl⟩
    intro text htext
    rcases List.mem_append.mp htext with hold | hnew
    · exact h.wire text hold
    · exact Or.inr ⟨seq, h.seen seq hseen, List.mem_singleton.mp hnew⟩
  · have hgrows : d.Grows { d with
        link := d.link.accept seq, wire := d.wire ++ [ackText seq],
        delivered := d.delivered ++ [(seq, payload)] } :=
      ⟨List.prefix_refl _, List.prefix_append _ _⟩
    refine ⟨⟨h.numbered, ?_, h.outbox, h.distinct, htries, h.kept, h.acked, ?_, ?_⟩, hgrows⟩
    · intro text htext
      rcases List.mem_append.mp htext with hold | hnew
      · rcases h.wire text hold with hdata | ⟨n, hn, heq⟩
        · exact Or.inl hdata
        · exact Or.inr ⟨n, hgrows.numbers hn, heq⟩
      · refine Or.inr ⟨seq, ?_, List.mem_singleton.mp hnew⟩
        exact mem_numbers.mpr ⟨payload, List.mem_append_right _ (List.mem_singleton_self _)⟩
    · intro n payload' hmem
      rcases List.mem_append.mp hmem with hold | hnew
      · exact h.delivered n payload' hold
      · obtain ⟨rfl, rfl⟩ := Prod.mk.inj (List.mem_singleton.mp hnew)
        exact hs
    · intro n hn
      rcases Finset.mem_insert.mp hn with rfl | hn
      · exact mem_numbers.mpr ⟨payload, List.mem_append_right _ (List.mem_singleton_self _)⟩
      · refine hgrows.numbers (h.seen n ?_)
        split_ifs at hn with hevicted
        · exact Finset.mem_of_mem_erase hn
        · exact hn

/-! ### The order of first copies -/

/-- The handler has got the numbers whose texts have arrived, in the order of their first copies. -/
structure Ordered (d : Side) : Prop where
  arrived : ∀ n, n ∈ d.arrived ↔ n ∈ d.numbers
  order : ∀ m ∈ d.numbers, ∀ n ∈ d.numbers,
    d.numbers.idxOf m < d.numbers.idxOf n ↔ d.arrived.idxOf m < d.arrived.idxOf n

/-- A log keeps the places of its entries when it grows. -/
theorem idxOf_concat {l : List ℤ} {m : ℤ} (hm : m ∈ l) (n : ℤ) : (l ++ [n]).idxOf m = l.idxOf m :=
  List.idxOf_append_of_mem hm

theorem idxOf_concat_self {l : List ℤ} {n : ℤ} (hn : n ∉ l) : (l ++ [n]).idxOf n = l.length := by
  rw [List.idxOf_append_of_notMem hn, List.idxOf_cons_self, Nat.add_zero]

/-- Two logs with the same entries in the same order of first places stay so when both grow by one
entry, new or not. -/
theorem order_concat {l k : List ℤ} (hmem : ∀ n, n ∈ k ↔ n ∈ l)
    (h : ∀ m ∈ l, ∀ n ∈ l, l.idxOf m < l.idxOf n ↔ k.idxOf m < k.idxOf n) (seq : ℤ) :
    ∀ m ∈ l ++ [seq], ∀ n ∈ l ++ [seq],
      (l ++ [seq]).idxOf m < (l ++ [seq]).idxOf n ↔
        (k ++ [seq]).idxOf m < (k ++ [seq]).idxOf n := by
  have hold : ∀ m ∈ l, ∀ n ∈ l, (l ++ [seq]).idxOf m < (l ++ [seq]).idxOf n ↔
      (k ++ [seq]).idxOf m < (k ++ [seq]).idxOf n := by
    intro m hm n hn
    rw [idxOf_concat hm, idxOf_concat hn, idxOf_concat ((hmem m).mpr hm),
      idxOf_concat ((hmem n).mpr hn)]
    exact h m hm n hn
  by_cases hs : seq ∈ l
  · have hall : ∀ n ∈ l ++ [seq], n ∈ l := by
      intro n hn
      rcases List.mem_append.mp hn with hn | hn
      · exact hn
      · exact List.mem_singleton.mp hn ▸ hs
    exact fun m hm n hn => hold m (hall m hm) n (hall n hn)
  · have hs' : seq ∉ k := fun hk => hs ((hmem seq).mp hk)
    have hlt : ∀ m ∈ l, (l ++ [seq]).idxOf m < (l ++ [seq]).idxOf seq ∧
        (k ++ [seq]).idxOf m < (k ++ [seq]).idxOf seq := by
      intro m hm
      rw [idxOf_concat hm, idxOf_concat ((hmem m).mpr hm), idxOf_concat_self hs,
        idxOf_concat_self hs']
      exact ⟨List.idxOf_lt_length_of_mem hm, List.idxOf_lt_length_of_mem ((hmem m).mpr hm)⟩
    intro m hm n hn
    rcases List.mem_append.mp hm with hm | hm <;> rcases List.mem_append.mp hn with hn | hn
    · exact hold m hm n hn
    · rw [List.mem_singleton.mp hn]
      exact iff_of_true (hlt m hm).1 (hlt m hm).2
    · rw [List.mem_singleton.mp hm]
      exact iff_of_false (hlt n hn).1.not_gt (hlt n hn).2.not_gt
    · rw [List.mem_singleton.mp hm, List.mem_singleton.mp hn]
      exact iff_of_false (lt_irrefl _) (lt_irrefl _)

theorem receiveData_numbers (d : Side) (seq : ℤ) (payload : Text) :
    (d.receiveData seq payload).numbers =
      if seq ∈ d.link.seen then d.numbers else d.numbers ++ [seq] := by
  unfold Side.receiveData
  split_ifs
  · rfl
  · rw [numbers, List.map_append]
    rfl

theorem receiveData_arrived (d : Side) (seq : ℤ) (payload : Text) :
    (d.receiveData seq payload).arrived = d.arrived := by
  unfold Side.receiveData
  split_ifs <;> rfl

theorem receiveData_link (d : Side) (seq : ℤ) (payload : Text) :
    (d.receiveData seq payload).link =
      if seq ∈ d.link.seen then d.link else d.link.accept seq := by
  unfold Side.receiveData
  split_ifs <;> rfl

theorem Honest.heard {d peer : Side} (h : d.Honest peer) (text : Text) :
    (d.heard text).Honest peer ∧ d.Grows (d.heard text) := ⟨{ h with }, Grows.same rfl rfl⟩

theorem Ordered.receiveData {d peer : Side} (h : d.Ordered) (hd : d.Honest peer) {seq : ℤ}
    (hseq : 0 ≤ seq) (payload : Text) :
    ((d.heard (dataText seq payload)).receiveData seq payload).Ordered := by
  have hnumbers : ((d.heard (dataText seq payload)).receiveData seq payload).numbers = _ :=
    receiveData_numbers (d.heard (dataText seq payload)) seq payload
  have harrived : ((d.heard (dataText seq payload)).receiveData seq payload).arrived =
      d.arrived ++ [seq] := by
    rw [receiveData_arrived, Side.heard, dataOf_dataText hseq]
    rfl
  change _ = if seq ∈ d.link.seen then d.numbers else d.numbers ++ [seq] at hnumbers
  by_cases hseen : seq ∈ d.link.seen
  · -- a copy of a number already delivered
    have hmem := hd.seen seq hseen
    rw [if_pos hseen] at hnumbers
    refine ⟨fun n => ?_, fun m hm n hn => ?_⟩
    · rw [hnumbers, harrived, List.mem_append, List.mem_singleton, h.arrived n]
      constructor
      · rintro (hn | rfl)
        · exact hn
        · exact hmem
      · exact Or.inl
    · rw [hnumbers] at hm hn
      rw [hnumbers, harrived, idxOf_concat ((h.arrived m).mpr hm),
        idxOf_concat ((h.arrived n).mpr hn)]
      exact h.order m hm n hn
  · rw [if_neg hseen] at hnumbers
    refine ⟨fun n => ?_, ?_⟩
    · rw [hnumbers, harrived, List.mem_append, List.mem_append, h.arrived n]
    · rw [hnumbers, harrived]
      exact order_concat h.arrived h.order seq

/-! ### The window of seen numbers -/

/-- The ring and the seen set hold the last `SEEN_WINDOW` numbers delivered. -/
structure Window (d : Side) : Prop where
  ring : Ring.Holds SEEN_WINDOW (-1) d.link.ring d.numbers
  at_ : d.link.at_ = d.numbers.length % SEEN_WINDOW
  seen : ∀ n, n ∈ d.link.seen ↔
    ∃ i < d.numbers.length, d.numbers.length ≤ i + SEEN_WINDOW ∧ d.numbers[i]? = some n
  nodup : d.numbers.Nodup

/-- A copy of this number arrives before `SEEN_WINDOW` others have been delivered since its first
copy. -/
def fresh (d : Side) (seq : ℤ) : Bool :=
  seq ∈ d.numbers → d.numbers.length - 1 - d.numbers.idxOf seq < SEEN_WINDOW

theorem Window.seen_of_fresh {d : Side} (h : d.Window) {seq : ℤ} (hfresh : d.fresh seq = true)
    (hmem : seq ∈ d.numbers) : seq ∈ d.link.seen := by
  have hlt := List.idxOf_lt_length_of_mem hmem
  have := of_decide_eq_true hfresh hmem
  refine (h.seen seq).mpr ⟨d.numbers.idxOf seq, hlt, by omega, ?_⟩
  rw [List.getElem?_eq_getElem hlt, List.getElem_idxOf hlt]

theorem window_pos : 0 < SEEN_WINDOW := by decide

/-- What `accept` leaves in the seen set: the number, and those still in the window. -/
theorem Window.accept_seen {d : Side} (h : d.Window) (hnonneg : ∀ n ∈ d.numbers, 0 ≤ n)
    (seq n : ℤ) :
    n ∈ (d.link.accept seq).seen ↔ n = seq ∨
      ∃ i < d.numbers.length, d.numbers.length + 1 ≤ i + SEEN_WINDOW ∧
        d.numbers[i]? = some n := by
  have hnext := h.ring.next window_pos
  rw [← h.at_] at hnext
  change n ∈ insert seq _ ↔ _
  rw [Finset.mem_insert]
  refine or_congr_right ?_
  by_cases hfull : SEEN_WINDOW ≤ d.numbers.length
  · -- the number evicted is the one that leaves the window
    rw [if_pos hfull] at hnext
    have hlt : d.numbers.length - SEEN_WINDOW < d.numbers.length := by
      have := window_pos
      omega
    obtain ⟨old, hold⟩ : ∃ old, d.numbers[d.numbers.length - SEEN_WINDOW]? = some old :=
      ⟨_, List.getElem?_eq_getElem hlt⟩
    have hevicted : d.link.ring.getD d.link.at_ (-1) = old := by
      rw [List.getD_eq_getElem?_getD, hnext, hold, Option.getD_some]
    rw [hevicted, if_pos (hnonneg old (List.mem_of_getElem? hold)), Finset.mem_erase, h.seen]
    constructor
    · rintro ⟨hne, i, hi, hle, hget⟩
      refine ⟨i, hi, ?_, hget⟩
      have : i ≠ d.numbers.length - SEEN_WINDOW := by
        intro heq
        rw [heq] at hget
        exact hne (Option.some.inj (hget.symm.trans hold))
      omega
    · rintro ⟨i, hi, hle, hget⟩
      refine ⟨?_, i, hi, by omega, hget⟩
      intro heq
      rw [heq] at hget
      have := (List.getElem?_inj hi h.nodup).mp (hget.trans hold.symm)
      omega
  · rw [if_neg hfull] at hnext
    have hevicted : d.link.ring.getD d.link.at_ (-1) = -1 := by
      rw [List.getD_eq_getElem?_getD, hnext, Option.getD_some]
    rw [hevicted, if_neg (by decide), h.seen]
    constructor
    · rintro ⟨i, hi, -, hget⟩
      exact ⟨i, hi, by omega, hget⟩
    · rintro ⟨i, hi, -, hget⟩
      exact ⟨i, hi, by omega, hget⟩

theorem Window.receiveData {d peer : Side} (h : d.Window) (hd : d.Honest peer) {seq : ℤ}
    (hfresh : d.fresh seq = true) (payload : Text) : (d.receiveData seq payload).Window := by
  have hnumbers := receiveData_numbers d seq payload
  have hlink := receiveData_link d seq payload
  by_cases hseen : seq ∈ d.link.seen
  · rw [if_pos hseen] at hnumbers hlink
    refine ⟨?_, ?_, ?_, ?_⟩
    all_goals rw [hnumbers]
    · exact hlink ▸ h.ring
    · exact hlink ▸ h.at_
    · exact hlink ▸ h.seen
    · exact h.nodup
  · have hnew : seq ∉ d.numbers := fun hmem => hseen (h.seen_of_fresh hfresh hmem)
    rw [if_neg hseen] at hnumbers hlink
    refine ⟨?_, ?_, fun n => ?_, ?_⟩
    · rw [hnumbers, hlink]
      have := h.ring.push window_pos seq
      rw [← h.at_] at this
      exact this
    · rw [hnumbers, hlink, List.length_append, List.length_singleton]
      change (d.link.at_ + 1) % SEEN_WINDOW = _
      rw [h.at_, Nat.mod_add_mod]
    · rw [hnumbers, hlink, List.length_append, List.length_singleton]
      refine (h.accept_seen (fun n hn => hd.nonneg hn) seq n).trans ?_
      constructor
      · rintro (rfl | ⟨i, hi, hle, hget⟩)
        · exact ⟨d.numbers.length, Nat.lt_succ_self _, by have := window_pos; omega,
            List.getElem?_concat_length⟩
        · exact ⟨i, by omega, hle, (List.getElem?_append_left hi).trans hget⟩
      · rintro ⟨i, hi, hle, hget⟩
        rcases Nat.lt_succ_iff_lt_or_eq.mp hi with hlt | rfl
        · exact Or.inr ⟨i, hlt, hle, (List.getElem?_append_left hlt).symm.trans hget⟩
        · rw [List.getElem?_concat_length, Option.some.injEq] at hget
          exact Or.inl hget.symm
    · rw [hnumbers]
      exact List.nodup_append.mpr ⟨h.nodup, List.nodup_singleton _, fun a ha b hb hab =>
        hnew (List.mem_singleton.mp hb ▸ hab ▸ ha)⟩

end Side

end NMiner
