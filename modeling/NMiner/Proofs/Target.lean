import NMiner.Proofs.Difficulty
import NMiner.Spec.Target

/-! The miner and the proxy read a target alike. `ParseTarget` divides 64-bit integers where
`decode` divides doubles and big integers, and takes bytes where `decode` takes text, but the bound
that comes out is the same, and so are the difficulty and the shares that meet it. -/

namespace NMiner

open HexText

/-- The bytes as numbers. -/
def octets (bs : List UInt8) : List ℕ := bs.map UInt8.toNat

theorem octets_lt (bs : List UInt8) : ∀ b ∈ octets bs, b < 256 := by
  intro b hb
  obtain ⟨x, -, rfl⟩ := List.mem_map.mp hb
  exact x.toNat_lt

theorem length_octets (bs : List UInt8) : (octets bs).length = bs.length := List.length_map _

theorem octets_take (bs : List UInt8) (k : ℕ) : (octets bs).take k = octets (bs.take k) :=
  List.map_take.symm

/-! ### Words -/

theorem littleEndian_octets_lt (bs : List UInt8) (k : ℕ) :
    littleEndian (octets (bs.take k)) < 256 ^ k := by
  refine lt_of_lt_of_le (littleEndian_lt _ (octets_lt _)) (Nat.pow_le_pow_right (by decide) ?_)
  rw [length_octets, List.length_take]
  exact min_le_left _ _

theorem toNat_load32 (bs : List UInt8) : (load32 bs).toNat = littleEndian (octets (bs.take 4)) :=
  UInt32.toNat_ofNat_of_lt' (littleEndian_octets_lt bs 4)

theorem toNat_load64 (bs : List UInt8) : (load64 bs).toNat = littleEndian (octets (bs.take 8)) :=
  UInt64.toNat_ofNat_of_lt' (littleEndian_octets_lt bs 8)

/-- Reading a number from a buffer is loading it. -/
theorem readLE_octets {bs : List UInt8} {offset width : ℕ} (h : offset + width ≤ bs.length) :
    readLE (octets bs) offset width =
      some (littleEndian (octets ((bs.drop offset).take width))) := by
  unfold readLE
  rw [length_octets, if_pos h, octets, octets, List.map_take, List.map_drop]

/-! ### `ParseTarget` -/

theorem toNat_parseTarget_wide {bs : List UInt8} (h : 8 ≤ bs.length) :
    (parseTarget bs).toNat = littleEndian (octets (bs.take 8)) := by
  rw [parseTarget, if_pos h, toNat_load64]

theorem toNat_parseTarget_compact {bs : List UInt8} (h4 : 4 ≤ bs.length) (h8 : bs.length < 8)
    (hpos : 0 < littleEndian (octets (bs.take 4))) :
    (parseTarget bs).toNat = U64 / (U32 / littleEndian (octets (bs.take 4))) := by
  have hzero : load32 bs ≠ 0 := by
    intro h0
    rw [← toNat_load32, h0] at hpos
    exact absurd hpos (by decide)
  rw [parseTarget, if_neg (by omega), if_pos h4]
  dsimp only
  rw [if_pos hzero, UInt64.toNat_div, UInt64.toNat_div, UInt32.toNat_toUInt64, toNat_load32]
  rfl

theorem parseTarget_compact_zero {bs : List UInt8} (h4 : 4 ≤ bs.length) (h8 : bs.length < 8)
    (hzero : littleEndian (octets (bs.take 4)) = 0) : parseTarget bs = 0 := by
  have h0 : load32 bs = 0 := by
    rw [← UInt32.toNat_inj, toNat_load32, hzero]
    rfl
  rw [parseTarget, if_neg (by omega), if_pos h4, h0]
  rfl

/-! ### `decode` -/

theorem isWide_spelled {s : String} {bs : List UInt8} (hs : Spells s (octets bs)) :
    isWide s = decide (8 ≤ bs.length) := by
  have hlen := hs.length
  rw [length_octets] at hlen
  unfold isWide
  rw [hlen]
  exact decide_eq_decide.mpr (by omega)

/-- The number `decode` reads is made of the first eight bytes, or of the first four. -/
theorem targetInteger_spelled {s : String} {bs : List UInt8} (hs : Spells s (octets bs))
    (h4 : 4 ≤ bs.length) : targetInteger s =
      some (littleEndian (octets (bs.take (if 8 ≤ bs.length then 8 else 4)))) := by
  have hlen := hs.length
  rw [length_octets] at hlen
  unfold targetInteger
  rw [isWide_spelled hs]
  by_cases h8 : 8 ≤ bs.length
  · rw [if_pos (decide_eq_true h8), if_pos h8, hs.take 8, octets_take, readLE_octets]
    · rw [List.drop_zero, List.take_take]
      rfl
    · rw [List.length_take]
      omega
  · rw [if_neg (by simpa using h8), if_neg h8]
    have hpad : (codeUnits s).rightpad 8 '0'.toNat = codeUnits s := by
      rw [List.rightpad, show 8 - (codeUnits s).length = 0 by omega]
      exact List.append_nil _
    rw [hpad, hs.take 4, octets_take, readLE_octets]
    · rw [List.drop_zero, List.take_take]
      rfl
    · rw [List.length_take]
      omega

/-- The difficulty the proxy reports for a target, before it becomes a double. -/
def reported (target : String) (d : Decoded) : ℕ :=
    if isWide target then U64 / d.value else d.difficulty

/-- The bound, the difficulty and the double made of it are those of the native side. -/
theorem decode_spelled {s : String} {bs : List UInt8} (hs : Spells s (octets bs))
    (h4 : 4 ≤ bs.length) (h0 : parseTarget bs ≠ 0) : ∃ d, decode s = some d ∧
      d.value = (parseTarget bs).toNat ∧ reported s d = U64 / (parseTarget bs).toNat ∧
        d.difficulty = Double.ofNat (U64 / (parseTarget bs).toNat) := by
  have hint := targetInteger_spelled hs h4
  have hwide := isWide_spelled hs
  have hnonzero : 0 < (parseTarget bs).toNat := by
    rw [Nat.pos_iff_ne_zero]
    exact fun h => h0 (UInt64.toNat_inj.mp h)
  by_cases h8 : 8 ≤ bs.length
  · rw [if_pos h8] at hint
    rw [decide_eq_true h8] at hwide
    have hparse := toNat_parseTarget_wide h8
    rw [← hparse] at hint
    refine ⟨⟨(parseTarget bs).toNat, Double.ofNat (U64 / (parseTarget bs).toNat)⟩, ?_, rfl, ?_, rfl⟩
    · rw [decode, if_pos hwide, hint, Option.map_some, if_pos hnonzero]
    · rw [reported, if_pos hwide]
  · rw [if_neg h8] at hint
    rw [decide_eq_false h8] at hwide
    have hpos : 0 < littleEndian (octets (bs.take 4)) := by
      rw [Nat.pos_iff_ne_zero]
      exact fun h => h0 (parseTarget_compact_zero h4 (by omega) h)
    have hparse := toNat_parseTarget_compact h4 (by omega) hpos
    have hlt : littleEndian (octets (bs.take 4)) < 256 ^ 4 := littleEndian_octets_lt bs 4
    set n := littleEndian (octets (bs.take 4)) with hn
    -- the quotient fits 32 bits, so dividing the 64-bit numerator twice gives it back
    have hd : 0 < U32 / n := Nat.div_pos (by unfold U32; omega) hpos
    have hd32 : U32 / n ≤ U32 := Nat.div_le_self _ _
    have hback : U64 / (parseTarget bs).toNat = U32 / n := by
      rw [hparse]
      refine Quotient.div_div_self hd ?_
      rw [Nat.le_div_iff_mul_le hd]
      exact (Nat.mul_le_mul hd32 hd32).trans (by decide)
    refine ⟨⟨U64 / (U32 / n), U32 / n⟩, ?_, hparse.symm, ?_, ?_⟩
    · rw [decode, if_neg (by simp [hwide]), hint, Option.map_some]
      dsimp only
      rw [if_pos hpos, if_pos hpos]
    · rw [reported, if_neg (by simp [hwide]), hback]
    · rw [hback, Double.ofNat_of_lt (lt_of_le_of_lt hd32 (by decide))]

/-! ### Hashes -/

theorem hashValue_spelled {r : String} {hash : List UInt8} (hr : Spells r (octets hash))
    (hlen : hash.length = 32) : hashValue r = some (load64 (hash.drop 24)).toNat := by
  have hlength := hr.length
  rw [length_octets] at hlength
  have hbytes : bytes ((codeUnits r).take 64) = octets hash := by
    rw [hr.take 32, List.take_of_length_le (by rw [length_octets, hlen])]
  unfold hashValue
  rw [if_neg (by omega)]
  dsimp only
  rw [hbytes, length_octets, if_pos hlen, readLE_octets (by omega), toNat_load64]

theorem submitShare_iff (hash : List UInt8) (target : UInt64) :
    submitShare hash target = true ↔ (load64 (hash.drop 24)).toNat ≤ target.toNat := by
  rw [submitShare, decide_eq_true_iff, gt_iff_lt, UInt64.lt_iff_toNat_lt, Nat.not_lt]

/-- The bytes of a compact target that the proxy makes. -/
def compactBytes (difficulty : ℕ) : List UInt8 := (toBytes 4 (compactOf difficulty)).map UInt8.ofNat

theorem octets_compactBytes (difficulty : ℕ) :
    octets (compactBytes difficulty) = toBytes 4 (compactOf difficulty) := by
  rw [octets, compactBytes, List.map_map]
  refine (List.map_congr_left fun b hb => ?_).trans (List.map_id _)
  exact UInt8.toNat_ofNat_of_lt' (toBytes_lt 4 _ b hb)

/-- A target of the proxy's own making is spelled from four bytes that the addon does not refuse. -/
theorem difficultyTarget_spelled (difficulty : ℕ) :
    Spells (difficultyTarget difficulty) (octets (compactBytes difficulty)) ∧
      (compactBytes difficulty).length = 4 ∧ parseTarget (compactBytes difficulty) ≠ 0 := by
  have hlen : (compactBytes difficulty).length = 4 := by
    rw [compactBytes, List.length_map, length_toBytes]
  refine ⟨?_, hlen, fun h => ?_⟩
  · rw [octets_compactBytes]
    exact spells_text _ (toBytes_lt 4 _)
  · have hlt : compactOf difficulty < 256 ^ 4 :=
      lt_of_le_of_lt (compactOf_le difficulty) (by decide)
    have hread : littleEndian (octets ((compactBytes difficulty).take 4)) =
      compactOf difficulty := by
      rw [List.take_of_length_le hlen.le, octets_compactBytes, littleEndian_toBytes 4 _ hlt]
    have hpos : 0 < littleEndian (octets ((compactBytes difficulty).take 4)) := by
      rw [hread]
      exact compactOf_pos difficulty
    have hparse := toNat_parseTarget_compact hlen.ge (by omega) hpos
    rw [h, hread] at hparse
    have hback := compactDifficulty_le difficulty
    have hquot : 0 < U64 / compactDifficulty difficulty :=
      Nat.div_pos (hback.trans (by decide)) (compactDifficulty_pos difficulty)
    exact absurd hparse hquot.ne

/-! ### What a share is -/

/-- Both sides read the same bound off a target, report the same difficulty for it and take the same
hashes for shares; the targets that the proxy makes are among these. -/
theorem share_agrees :
    (∀ (target : List UInt8) (s : String), Spells s (octets target) → 4 ≤ target.length →
      parseTarget target ≠ 0 → ∃ (d : Decoded) (diff : UInt64), decode s = some d ∧
        sendTarget target = some (parseTarget target, diff) ∧
        d.value = (parseTarget target).toNat ∧ reported s d = diff.toNat ∧
        d.difficulty = Double.ofNat diff.toNat ∧
        ∀ (hash : List UInt8) (r : String), hash.length = 32 → Spells r (octets hash) →
          (submitShare hash (parseTarget target) = true ↔ meetsValue (hashValue r) s = some true)) ∧
    ∀ difficulty, ∃ target, Spells (difficultyTarget difficulty) (octets target) ∧
      target.length = 4 ∧ parseTarget target ≠ 0 := by
  refine ⟨fun target s hs h4 h0 => ?_, fun difficulty => ⟨_, difficultyTarget_spelled difficulty⟩⟩
  obtain ⟨d, hd, hvalue, hreported, hdifficulty⟩ := decode_spelled hs h4 h0
  have hdiff : ((0xFFFFFFFFFFFFFFFF : UInt64) / parseTarget target).toNat =
      U64 / (parseTarget target).toNat := UInt64.toNat_div _ _
  refine ⟨d, 0xFFFFFFFFFFFFFFFF / parseTarget target, hd, ?_, hvalue,
    ?_, ?_, fun hash r hlen hr => ?_⟩
  · rw [sendTarget, if_neg h0]
  · rw [hdiff, hreported]
  · rw [hdiff, hdifficulty]
  · rw [submitShare_iff, hashValue_spelled hr hlen, meetsValue, hd, Option.map_some, hvalue,
      Option.some.injEq, decide_eq_true_iff]

/-- A compact pool target in mixed case, with three bytes more than are read. -/
theorem share_agrees_compact : ∃ (d : Decoded) (diff : UInt64),
    decode "B88d0600112233" = some d ∧ sendTarget [0xB8, 0x8D, 0x06, 0x00, 0x11, 0x22, 0x33] =
      some (parseTarget [0xB8, 0x8D, 0x06, 0x00, 0x11, 0x22, 0x33], diff) ∧
    d.value = (parseTarget [0xB8, 0x8D, 0x06, 0x00, 0x11, 0x22, 0x33]).toNat ∧
    reported "B88d0600112233" d = diff.toNat ∧ d.difficulty = Double.ofNat diff.toNat ∧
    ∀ (hash : List UInt8) (r : String), hash.length = 32 → Spells r (octets hash) →
      (submitShare hash (parseTarget [0xB8, 0x8D, 0x06, 0x00, 0x11, 0x22, 0x33]) = true ↔
        meetsValue (hashValue r) "B88d0600112233" = some true) :=
  share_agrees.1 _ "B88d0600112233" ⟨by decide, by decide +kernel⟩ (by decide) (by decide)

example : parseTarget [0xB8, 0x8D, 0x06, 0x00, 0x11, 0x22, 0x33] = 1844674407370955 := by decide

end NMiner
