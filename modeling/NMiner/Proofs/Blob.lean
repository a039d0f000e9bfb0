import NMiner.Spec.Loop

/-! The nonce in a blob: what `WriteNonce` leaves there and what it leaves alone. -/

namespace NMiner

theorem length_nonceBytes (nonce : UInt32) : (nonceBytes nonce).length = 4 := by
  rw [nonceBytes, List.length_map, HexText.length_toBytes]

theorem readNonce_append {front rest : List UInt8} (h : front.length = kNonceOffset)
    (nonce : UInt32) : readNonce (front ++ nonceBytes nonce ++ rest) = nonce := by
  have hdrop : (front ++ nonceBytes nonce ++ rest).drop kNonceOffset =
    nonceBytes nonce ++ rest := by
    rw [List.append_assoc, ← h, List.drop_left]
  have htake : (nonceBytes nonce ++ rest).take 4 = nonceBytes nonce := by
    rw [← length_nonceBytes nonce, List.take_left]
  have hbytes : (nonceBytes nonce).map UInt8.toNat = HexText.toBytes 4 nonce.toNat := by
    rw [nonceBytes, List.map_map]
    refine (List.map_congr_left fun b hb => ?_).trans (List.map_id _)
    exact UInt8.toNat_ofNat_of_lt' (HexText.toBytes_lt _ _ b hb)
  unfold readNonce
  rw [hdrop, htake, hbytes, HexText.littleEndian_toBytes _ _ nonce.toNat_lt]
  exact UInt32.ofNat_toNat

theorem and_mask (a b mask : UInt32) : ((a &&& mask) ||| (b &&& ~~~mask)) &&&
    mask = a &&& mask := by
  apply UInt32.toBitVec_inj.mp
  ext i hi
  simp only [UInt32.toBitVec_and, UInt32.toBitVec_or, UInt32.toBitVec_not, BitVec.getElem_and,
    BitVec.getElem_or, BitVec.getElem_not]
  cases mask.toBitVec[i] <;> simp

/-- The nonce that `WriteNonce` leaves in a blob. -/
def written (masked : Bool) (blob : List UInt8) (nonce : UInt32) : UInt32 :=
  if masked then (readNonce blob &&& kNicehashMask) ||| (nonce &&& ~~~kNicehashMask) else nonce

theorem writeNonce_eq (masked : Bool) (blob : List UInt8) (nonce : UInt32) :
    writeNonce masked blob nonce = blob.take kNonceOffset ++ nonceBytes
      (written masked blob nonce) ++
      blob.drop (kNonceOffset + 4) := rfl

theorem readNonce_writeNonce (masked : Bool) {blob : List UInt8} (h : kNonceOffset ≤ blob.length)
    (nonce : UInt32) : readNonce (writeNonce masked blob nonce) = written masked blob nonce := by
  rw [writeNonce_eq]
  exact readNonce_append (List.length_take_of_le h) _

theorem readNonce_take {blob : List UInt8} {n : ℕ} (h : kNonceOffset + 4 ≤ n) :
    readNonce (blob.take n) = readNonce blob := by
  have hmin : min 4 (n - kNonceOffset) = 4 := by omega
  unfold readNonce
  rw [List.drop_take, List.take_take, hmin]

theorem take_writeNonce (masked : Bool) {blob : List UInt8} {n : ℕ} (h : kNonceOffset + 4 ≤ n)
    (hlen : n ≤ blob.length) (nonce : UInt32) :
    (writeNonce masked blob nonce).take n = writeNonce masked (blob.take n) nonce := by
  have hfront : (blob.take kNonceOffset).length = kNonceOffset := List.length_take_of_le (by omega)
  have hmin : min kNonceOffset n = kNonceOffset := by omega
  have hrest : n - kNonceOffset - 4 = n - (kNonceOffset + 4) := by omega
  have hbytes : (nonceBytes (written masked blob nonce)).take (n - kNonceOffset) =
      nonceBytes (written masked blob nonce) := by
    refine List.take_of_length_le ?_
    rw [length_nonceBytes]
    omega
  have hwritten : written masked (blob.take n) nonce = written masked blob nonce := by
    unfold written
    rw [readNonce_take h]
  rw [writeNonce_eq, writeNonce_eq, hwritten, List.take_take, hmin, List.drop_take,
    List.append_assoc, List.append_assoc, List.take_append, hfront, List.take_take,
    min_eq_right (by omega), List.take_append, length_nonceBytes, hrest, hbytes]

/-- What was written before leaves no trace. -/
theorem writeNonce_writeNonce (masked : Bool) {blob : List UInt8}
    (h : kNonceOffset + 4 ≤ blob.length) (nonce nonce' : UInt32) :
    writeNonce masked (writeNonce masked blob nonce) nonce' = writeNonce masked blob nonce' := by
  have hfront : (blob.take kNonceOffset).length = kNonceOffset := List.length_take_of_le (by omega)
  have hhead : (blob.take kNonceOffset ++ nonceBytes (written masked blob nonce)).length =
      kNonceOffset + 4 := by
    rw [List.length_append, hfront, length_nonceBytes]
  have hwritten : written masked (writeNonce masked blob nonce) nonce' =
    written masked blob nonce' := by
    unfold written
    split_ifs with hmasked
    · rw [readNonce_writeNonce masked (by omega), written, if_pos hmasked, and_mask]
    · rfl
  rw [writeNonce_eq masked (writeNonce masked blob nonce), hwritten,
    writeNonce_eq masked blob nonce']
  congr 1
  · congr 1
    rw [writeNonce_eq, List.append_assoc, List.take_append, hfront, List.take_take, min_self,
      Nat.sub_self, List.take_zero, List.append_nil]
  · rw [writeNonce_eq, List.drop_append, hhead, Nat.sub_self, List.drop_zero,
      List.drop_of_length_le (by rw [hhead]), List.nil_append]

theorem length_writeNonce (masked : Bool) (blob : List UInt8) (nonce : UInt32) :
    blob.length ≤ (writeNonce masked blob nonce).length := by
  rw [writeNonce_eq]
  simp only [List.length_append, List.length_take, List.length_drop, length_nonceBytes]
  omega

theorem length_memcpy (buffer bytes : List UInt8) :
    (memcpy buffer bytes).length = max buffer.length bytes.length := by
  simp only [memcpy, List.length_append, List.length_drop]
  omega

theorem take_memcpy (buffer bytes : List UInt8) :
    (memcpy buffer bytes).take bytes.length = bytes := List.take_left

end NMiner
