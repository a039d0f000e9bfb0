import NMiner.Lib.Ring
import NMiner.Spec.Crypto

/-! No nonce is used twice by a process. The eight low bytes of the buffer are a counter modulo
`2 ^ 64` with its low word cached, and each call of `encrypt` that gets as far as a nonce moves the
counter by one. -/

namespace NMiner

namespace Nonce

theorem toNat_append_byte {n : ℕ} (v : BitVec n) (b : Byte) :
    (v ++ b).toNat = v.toNat * 256 + b.toNat := by
  rw [BitVec.toNat_append, ← Nat.shiftLeft_add_eq_or_of_lt b.isLt, Nat.shiftLeft_eq]

theorem readUInt32BE_writeUInt32BE (b : Nonce) (v : BitVec 32) (i : Fin 9) :
    (b.writeUInt32BE v i).readUInt32BE i = v := by
  apply BitVec.eq_of_toNat_eq
  have hv := v.isLt
  simp only [readUInt32BE, writeUInt32BE, toNat_append_byte, Vector.getElem_set,
    Nat.add_left_cancel_iff, Nat.left_eq_add, Nat.add_eq_left]
  simp
  omega

theorem getElem_writeUInt32BE (b : Nonce) (v : BitVec 32) (i : Fin 9) {m : ℕ} (hm : m < 12)
    (h : m < i.val ∨ i.val + 4 ≤ m) : (b.writeUInt32BE v i)[m] = b[m] := by
  unfold writeUInt32BE
  rw [Vector.getElem_set_ne _ _ (by omega), Vector.getElem_set_ne _ _ (by omega),
    Vector.getElem_set_ne _ _ (by omega), Vector.getElem_set_ne _ _ (by omega)]

/-- A write leaves the words apart from it as they were. -/
theorem readUInt32BE_writeUInt32BE_of_apart (b : Nonce) (v : BitVec 32) {i j : Fin 9}
    (h : i.val + 4 ≤ j.val ∨ j.val + 4 ≤ i.val) :
    (b.writeUInt32BE v i).readUInt32BE j = b.readUInt32BE j := by
  unfold readUInt32BE
  rw [getElem_writeUInt32BE b v i _ (by omega), getElem_writeUInt32BE b v i _ (by omega),
    getElem_writeUInt32BE b v i _ (by omega), getElem_writeUInt32BE b v i _ (by omega)]

end Nonce

namespace Crypto

open Nonce

variable {Key α : Type} (gcm : Gcm Key) (stringify : α → Except String (Option String))

theorem load_synced (seed : Nonce) : (load seed).Synced := rfl

theorem nextNonce_synced (s : Crypto) : s.nextNonce.Synced := by
  unfold Synced nextNonce
  dsimp only
  split_ifs
  · rw [readUInt32BE_writeUInt32BE_of_apart _ _ (by decide), readUInt32BE_writeUInt32BE]
  · rw [readUInt32BE_writeUInt32BE]

/-- The low word carries into the middle one, and the middle one wraps. -/
theorem number_nextNonce {s : Crypto} (hs : s.Synced) :
    s.nextNonce.nonce.number = (s.nonce.number + 1) % 2 ^ 64 := by
  have hlow := s.low.isLt
  have hmid := (s.nonce.readUInt32BE 4).isLt
  have hnext : s.nextNonce.nonce.readUInt32BE 8 = s.low + 1 := (nextNonce_synced s).symm
  have hadd : (s.low + 1).toNat = (s.low.toNat + 1) % 2 ^ 32 := by
    rw [BitVec.toNat_add]
    rfl
  unfold number
  rw [hnext, ← show s.low = _ from hs, hadd]
  by_cases hwrap : s.low + 1 = 0
  · have hzero : (s.low.toNat + 1) % 2 ^ 32 = 0 := by rw [← hadd, hwrap]; rfl
    have hmiddle : s.nextNonce.nonce.readUInt32BE 4 = s.nonce.readUInt32BE 4 + 1 := by
      unfold nextNonce
      dsimp only
      rw [if_pos hwrap, readUInt32BE_writeUInt32BE,
        readUInt32BE_writeUInt32BE_of_apart _ _ (by decide)]
    have hcarry : (s.nonce.readUInt32BE 4 + 1).toNat =
        ((s.nonce.readUInt32BE 4).toNat + 1) % 2 ^ 32 := by
      rw [BitVec.toNat_add]
      rfl
    rw [hmiddle, hcarry]
    omega
  · have hpos : (s.low.toNat + 1) % 2 ^ 32 ≠ 0 := by
      intro h
      exact hwrap (BitVec.eq_of_toNat_eq (hadd.trans h))
    have hmiddle : s.nextNonce.nonce.readUInt32BE 4 = s.nonce.readUInt32BE 4 := by
      unfold nextNonce
      dsimp only
      rw [if_neg hwrap, readUInt32BE_writeUInt32BE_of_apart _ _ (by decide)]
    rw [hmiddle]
    omega

/-- A frame that was returned holds the nonce it was sealed with, and what was sealed. -/
def Carries (call : Call Key α) (reply : Reply) : Prop :=
  ∀ data, reply.result = .ok data → ∃ nonce text tag encrypted,
    reply.nonce = some nonce ∧ call.data.text stringify = .ok text ∧
    gcm.cipher call.secret nonce text = .ok (tag, encrypted) ∧
    Base64.parse base64url data.toList = frame nonce tag encrypted

/-- A call leaves the counter alone or moves it to the nonce it is given. -/
theorem encrypt_cases (call : Call Key α) (s : Crypto) :
    Carries gcm stringify call (encrypt gcm stringify call s).1 ∧
    ((encrypt gcm stringify call s).1.nonce = none ∧ (encrypt gcm stringify call s).2 = s ∨
      (encrypt gcm stringify call s).1.nonce = some s.nextNonce.nonce ∧
        (encrypt gcm stringify call s).2 = s.nextNonce) := by
  unfold encrypt
  split
  next message htext =>
    refine ⟨fun data hdata => ?_, .inl ⟨rfl, rfl⟩⟩
    cases hdata
  next text htext =>
    dsimp only
    split
    next message hseal =>
      refine ⟨fun data hdata => ?_, .inr ⟨rfl, rfl⟩⟩
      cases hdata
    next tag encrypted hseal =>
      refine ⟨fun data hdata => ?_, .inr ⟨rfl, rfl⟩⟩
      refine ⟨s.nextNonce.nonce, text, tag, encrypted, rfl, htext, hseal, ?_⟩
      rw [← Except.ok.inj hdata, String.toList_ofList, Base64.parse_text _ rfl]

theorem replies_cons (call : Call Key α) (calls : List (Call Key α)) (s : Crypto) :
    replies gcm stringify s (call :: calls) =
      (encrypt gcm stringify call s).1 ::
        replies gcm stringify (encrypt gcm stringify call s).2 calls := rfl

/-- The nonces of a process are consecutive numbers of the counter. -/
theorem replies_numbers (calls : List (Call Key α)) {s : Crypto} (hs : s.Synced) :
    ∃ n ≤ calls.length, ((replies gcm stringify s calls).filterMap Reply.nonce).map number =
      (List.range n).map fun k => (s.nonce.number + (k + 1)) % 2 ^ 64 := by
  induction calls generalizing s with
  | nil => exact ⟨0, le_rfl, rfl⟩
  | cons call calls ih =>
    obtain ⟨-, ⟨hnonce, hstate⟩ | ⟨hnonce, hstate⟩⟩ := encrypt_cases gcm stringify call s
    · obtain ⟨n, hn, hmap⟩ := ih hs
      refine ⟨n, hn.trans (Nat.le_succ _), ?_⟩
      rw [replies_cons, hstate, List.filterMap_cons_none hnonce, hmap]
    · obtain ⟨n, hn, hmap⟩ := ih (nextNonce_synced s)
      refine ⟨n + 1, Nat.succ_le_succ hn, ?_⟩
      rw [replies_cons, hstate, List.filterMap_cons_some hnonce, List.map_cons, hmap,
        number_nextNonce hs, List.range_succ_eq_map, List.map_cons, List.map_map]
      have hrest : ∀ k, ((s.nonce.number + 1) % 2 ^ 64 + (k + 1)) % 2 ^ 64 =
          (s.nonce.number + (k + 1 + 1)) % 2 ^ 64 := fun k => by
        rw [Nat.mod_add_mod, Nat.add_assoc, Nat.add_comm 1]
      simp only [hrest, Nat.zero_add, Function.comp_def]

theorem numbers_nodup (c : ℕ) {n : ℕ} (hn : n ≤ 2 ^ 64) :
    ((List.range n).map fun k => (c + (k + 1)) % 2 ^ 64).Nodup := by
  refine List.Nodup.map_on (fun i hi j hj heq => ?_) List.nodup_range
  rw [List.mem_range] at hi hj
  by_contra hne
  rcases Nat.lt_or_gt_of_ne hne with hlt | hlt
  · exact Ring.mod_ne (k := 2 ^ 64) (by omega) (by omega) heq.symm
  · exact Ring.mod_ne (k := 2 ^ 64) (by omega) (by omega) heq

theorem replies_carry (calls : List (Call Key α)) (s : Crypto) :
    List.Forall₂ (Carries gcm stringify) calls (replies gcm stringify s calls) := by
  induction calls generalizing s with
  | nil => exact .nil
  | cons call calls ih => exact .cons (encrypt_cases gcm stringify call s).1 (ih _)

/-- Of up to `2 ^ 64` calls of `encrypt` in a process, over any seed and with any keys, no two are
given one nonce, and each frame carries the nonce it was sealed with. -/
theorem nonces_never_repeat (seed : Nonce) (calls : List (Call Key α))
    (hcalls : calls.length ≤ 2 ^ 64) :
    ((replies gcm stringify (load seed) calls).filterMap Reply.nonce).Nodup ∧
    List.Forall₂ (Carries gcm stringify) calls (replies gcm stringify (load seed) calls) := by
  obtain ⟨n, hn, hmap⟩ := replies_numbers gcm stringify calls (load_synced seed)
  refine ⟨List.Nodup.of_map number ?_, replies_carry gcm stringify calls (load seed)⟩
  rw [hmap]
  exact numbers_nodup _ (hn.trans hcalls)

/-- A cipher that leaves texts as they are, under an empty tag. -/
def plainGcm : Gcm Unit where
  cipher _ _ text :=
    .ok (.replicate 16 0, (text.getD "").toList.map fun c => BitVec.ofNat 8 c.toNat)
  decipher _ _ _ encrypted := .ok (String.ofList (encrypted.map fun b => Char.ofNat b.toNat))

/-- Two calls across the wrap of both words. -/
theorem nonces_never_repeat_wrapped :
    let calls : List (Call Unit Unit) := [⟨(), .string "a"⟩, ⟨(), .string "b"⟩]
    let sent := replies plainGcm (fun _ => .ok none) (load (.replicate 12 255)) calls
    calls.length ≤ 2 ^ 64 ∧ (sent.filterMap Reply.nonce).Nodup ∧
      List.Forall₂ (Carries plainGcm fun _ => .ok none) calls sent :=
  ⟨by decide, nonces_never_repeat plainGcm (fun _ => .ok none) (.replicate 12 255) _ (by decide)⟩

/-- What was encrypted is decrypted, given that the cipher opens what it seals. -/
theorem decrypt_encrypt {β : Type} (parse : String → Except String β)
    (hgcm : ∀ key nonce text tag encrypted, gcm.cipher key nonce (some text) =
      .ok (tag, encrypted) →
      gcm.decipher key nonce.toList tag.toList encrypted = .ok text)
    {call : Call Key α} {reply : Reply} (h : Carries gcm stringify call reply) {text data : String}
    (htext : call.data.text stringify = .ok (some text)) (hdata : reply.result = .ok data) :
    decrypt gcm parse call.secret data = parse text := by
  obtain ⟨nonce, text', tag, encrypted, -, htext', hseal, hparse⟩ := h data hdata
  obtain rfl : some text = text' := Except.ok.inj (htext.symm.trans htext')
  have hnonce : (frame nonce tag encrypted).take 12 = nonce.toList := by
    rw [frame, List.append_assoc, List.take_left' Vector.length_toList]
  have htag : ((frame nonce tag encrypted).drop 12).take 16 = tag.toList := by
    rw [frame, List.append_assoc, List.drop_left' Vector.length_toList,
      List.take_left' Vector.length_toList]
  have hrest : (frame nonce tag encrypted).drop 28 = encrypted := by
    refine List.drop_left' ?_
    rw [List.length_append, Vector.length_toList, Vector.length_toList]
  unfold decrypt
  dsimp only
  rw [hparse, hnonce, htag, hrest, hgcm _ _ _ _ _ hseal]

end Crypto

end NMiner
