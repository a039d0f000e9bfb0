import NMiner.Lib.Base64
import NMiner.Lib.Utf8
import NMiner.Spec.Datagram

/-! The incoming side of `StratumClient` on a TCP socket: the `data` handler that cuts what arrives
into lines. A line is kept here as the text that is handed to `JSON.parse`; what is then done with
it does not touch the handler's own variables. -/

namespace NMiner

def MAX_LINE : ℕ := 1 <<< 20

def NEWLINE : Byte := 0x0a

/-- `raw.indexOf(byte, start)`; `none` is `-1`. -/
def indexOf (raw : List Byte) (byte : Byte) (start : ℕ) : Option ℕ :=
  ((raw.drop start).findIdx? (· = byte)).map (· + start)

/-- `raw.subarray(start, stop)` -/
def subarray (raw : List Byte) (start stop : ℕ) : List Byte := (raw.take stop).drop start

/-- `Buffer.concat(list, length)`, which cuts what is longer and fills up with zeros. -/
def concat (list : List (List Byte)) (length : ℕ) : List Byte := list.flatten.takeD length 0

/-- `text.trim()` -/
def trim (text : Text) : Text := (text.dropWhile isSpace).rdropWhile isSpace

structure StratumClient where
  totalLen : ℕ := 0
  chunks : List (List Byte) := []
  closeReason : String := ""
  destroyed : Bool := false
  /-- The texts handed to `JSON.parse`, in order. -/
  parsed : List Text := []

namespace StratumClient

def push (s : StratumClient) (chunk : List Byte) : StratumClient :=
  { s with chunks := s.chunks ++ [chunk], totalLen := s.totalLen + chunk.length }

/-- A line that is empty once trimmed is passed over. -/
def handle (s : StratumClient) (line : Text) : StratumClient :=
  if trim line = [] then s else { s with parsed := s.parsed ++ [trim line] }

/-- The branch on a newline, with the bytes of the packet before it. -/
def endLine (s : StratumClient) (slice : List Byte) : StratumClient :=
  if s.chunks = [] then s.handle (Utf8.decode slice)
  else
    let s := s.push slice
    let line := Utf8.decode (concat s.chunks s.totalLen)
    { s with totalLen := 0, chunks := [] }.handle line

/-- The branch without a further newline. -/
def keepTail (s : StratumClient) (raw : List Byte) (scanStart : ℕ) : StratumClient :=
  let s :=
    if scanStart = 0 then s.push raw
    else
      let tail := raw.drop scanStart
      if 0 < tail.length then s.push tail else s
  if MAX_LINE < s.totalLen then
    { s with
      totalLen := 0, chunks := [], destroyed := true
      closeReason := "pool sent more than " ++ toString MAX_LINE ++ " bytes without a newline" }
  else s

theorem le_of_indexOf {raw : List Byte} {byte : Byte} {start i : ℕ}
    (h : indexOf raw byte start = some i) : start ≤ i ∧ i < raw.length := by
  obtain ⟨j, hj, rfl⟩ := Option.map_eq_some_iff.mp h
  have hlt := (List.findIdx?_eq_some_iff_getElem.mp hj).1
  rw [List.length_drop] at hlt
  omega

/-- The loop over one packet. -/
def scan (raw : List Byte) (scanStart : ℕ) (s : StratumClient) : StratumClient :=
  match h : indexOf raw NEWLINE scanStart with
  | none => s.keepTail raw scanStart
  | some nlPos =>
    let s := s.endLine (subarray raw scanStart nlPos)
    if raw.length ≤ nlPos + 1 then s else scan raw (nlPos + 1) s
termination_by raw.length - scanStart
decreasing_by
  have := le_of_indexOf h
  omega

/-- A packet; a destroyed socket gives no more of them. -/
def data (s : StratumClient) (raw : List Byte) : StratumClient :=
  if s.destroyed then s else scan raw 0 s

end StratumClient

end NMiner
