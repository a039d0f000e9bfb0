import NMiner.Lib.Base64

/-! The frames of `crypto.ts`: a counter for the nonces, shared by every caller of the process, and
`encrypt` and `decrypt` over it. AES-256-GCM and JSON are Node's own. -/

namespace NMiner

/-- The 12-byte buffer of a nonce. -/
abbrev Nonce := Vector Byte 12

def Nonce.readUInt32BE (b : Nonce) (i : Fin 9) : BitVec 32 :=
  b[i.val] ++ b[i.val + 1] ++ b[i.val + 2] ++ b[i.val + 3]

def Nonce.writeUInt32BE (b : Nonce) (v : BitVec 32) (i : Fin 9) : Nonce :=
  (((b.set i.val (v.extractLsb' 24 8)).set (i.val + 1) (v.extractLsb' 16 8)).set
    (i.val + 2) (v.extractLsb' 8 8)).set (i.val + 3) (v.extractLsb' 0 8)

/-- The counter in a nonce. -/
def Nonce.number (n : Nonce) : ℕ := (n.readUInt32BE 4).toNat * 2 ^ 32 + (n.readUInt32BE 8).toNat

/-- Node's AES-256-GCM with a tag of 16 bytes. A key, a text or a tag it does not take is a thrown
error. -/
structure Gcm (Key : Type) where
  cipher : Key → Nonce → Option String → Except String (Vector Byte 16 × List Byte)
  decipher : Key → List Byte → List Byte → List Byte → Except String String

/-- What `encrypt` is given: a string or any other value. -/
inductive Data (α : Type)
  | string (text : String)
  | value (a : α)

/-- The text of the data; `JSON.stringify` throws on some values and has no text for others. -/
def Data.text {α : Type} (stringify : α → Except String (Option String)) :
    Data α → Except String (Option String)
  | .string text => .ok (some text)
  | .value a => stringify a

/-- The digits of `base64url`, which reads those of `base64` as well. -/
def base64url : Numeral where
  base := 64
  digit d :=
    if d < 26 then Char.ofNat ('A'.toNat + d)
    else if d < 52 then Char.ofNat ('a'.toNat + (d - 26))
    else if d < 62 then Char.ofNat ('0'.toNat + (d - 52))
    else if d = 62 then '-' else '_'
  value c :=
    if 'A' ≤ c ∧ c ≤ 'Z' then some (c.toNat - 'A'.toNat)
    else if 'a' ≤ c ∧ c ≤ 'z' then some (c.toNat - 'a'.toNat + 26)
    else if '0' ≤ c ∧ c ≤ '9' then some (c.toNat - '0'.toNat + 52)
    else if c = '-' ∨ c = '+' then some 62
    else if c = '_' ∨ c = '/' then some 63
    else none
  one_lt_base := by decide
  value_digit := by decide

/-- The variables of the module. -/
structure Crypto where
  nonce : Nonce
  low : BitVec 32

/-- A call of `encrypt`. -/
structure Crypto.Call (Key α : Type) where
  secret : Key
  data : Data α

/-- What a call leads to. The nonce is the one `nextNonce` gave it, if it got that far. -/
structure Crypto.Reply where
  nonce : Option Nonce
  result : Except String String

namespace Crypto

/-- The module as it is loaded, on 12 random bytes. -/
def load (seed : Nonce) : Crypto := { nonce := seed, low := seed.readUInt32BE 8 }

def nextNonce (s : Crypto) : Crypto :=
  let low := s.low + 1
  let nonce := s.nonce.writeUInt32BE low 8
  { low := low
    nonce := if low = 0 then nonce.writeUInt32BE (nonce.readUInt32BE 4 + 1) 4 else nonce }

/-- The cached word is the one in the buffer. -/
def Synced (s : Crypto) : Prop := s.low = s.nonce.readUInt32BE 8

variable {Key α : Type} (gcm : Gcm Key) (stringify : α → Except String (Option String))

/-- The bytes of a frame: the nonce, the tag and the text as it is sealed. -/
def frame (nonce : Nonce) (tag : Vector Byte 16) (encrypted : List Byte) : List Byte :=
  nonce.toList ++ tag.toList ++ encrypted

def encrypt (call : Call Key α) (s : Crypto) : Reply × Crypto :=
  match call.data.text stringify with
  | .error message => ({ nonce := none, result := .error message }, s)
  | .ok text =>
    let s := s.nextNonce
    match gcm.cipher call.secret s.nonce text with
    | .error message => ({ nonce := some s.nonce, result := .error message }, s)
    | .ok (tag, encrypted) =>
      ({ nonce := some s.nonce
         result := .ok (String.ofList (Base64.text base64url (frame s.nonce tag encrypted))) }, s)

def decrypt {β : Type} (parse : String → Except String β) (secret : Key) (data : String) :
    Except String β :=
  let buf := Base64.parse base64url data.toList
  match gcm.decipher secret (buf.take 12) ((buf.drop 12).take 16) (buf.drop 28) with
  | .error message => .error message
  | .ok text => parse text

/-- The replies to the calls of a process, one after another. -/
def replies (s : Crypto) : List (Call Key α) → List Reply
  | [] => []
  | call :: calls =>
    let (reply, s) := encrypt gcm stringify call s
    reply :: replies s calls

end Crypto

end NMiner
