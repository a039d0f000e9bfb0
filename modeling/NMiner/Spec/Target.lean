import NMiner.Lib.HexText

/-! The native side of a share: `ParseTarget` of `rx.h`, what `SendJob` makes of a target and the
comparison of `SubmitShare`, on the bytes of the addon's buffers and in 64-bit arithmetic. -/

namespace NMiner

open HexText

/-- `memcpy` of the first four bytes into a `uint32_t`. -/
def load32 (buffer : List UInt8) : UInt32 :=
  UInt32.ofNat (littleEndian ((buffer.take 4).map UInt8.toNat))

def load64 (buffer : List UInt8) : UInt64 :=
  UInt64.ofNat (littleEndian ((buffer.take 8).map UInt8.toNat))

def parseTarget (target : List UInt8) : UInt64 :=
  if 8 ≤ target.length then load64 target
  else if 4 ≤ target.length then
    let compact := load32 target
    if compact ≠ 0 then 0xFFFFFFFFFFFFFFFF / (0xFFFFFFFF / compact.toUInt64) else 0
  else 0

/-- The `m_target` that `SendJob` stores and the difficulty it reports; `none` when it throws. -/
def sendTarget (target : List UInt8) : Option (UInt64 × UInt64) :=
  let new_target := parseTarget target
  if new_target = 0 then none else some (new_target, 0xFFFFFFFFFFFFFFFF / new_target)

/-- `SubmitShare` does not return at its first test. -/
def submitShare (hash : List UInt8) (target : UInt64) : Bool := ¬ load64 (hash.drop 24) > target

end NMiner
