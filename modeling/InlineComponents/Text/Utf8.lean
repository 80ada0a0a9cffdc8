import InlineComponents.Text.Cut

namespace InlineComponents

/-- A UTF-8 sequence of which the first bytes were read: how many are missing, the range of the
next one, the bits so far, and the number of bytes read. -/
structure PartialChar where
  missing : Nat
  low : Nat
  high : Nat
  bits : Nat
  read : Nat
  deriving DecidableEq, Repr

/-- What a byte can do at the start of a UTF-8 sequence. -/
inductive LeadByte where
  | whole (c : Char)
  | begins (p : PartialChar)
  | stray
  deriving DecidableEq, Repr

/-- The table of well-formed sequences: overlong forms, surrogates and values above U+10FFFF are
excluded by the range of the second byte. -/
def leadByte (b : UInt8) : LeadByte :=
  let n := b.toNat
  if n < 0x80 then .whole (Char.ofNat n)
  else if n < 0xC2 then .stray
  else if n < 0xE0 then .begins ⟨1, 0x80, 0xBF, n % 32, 1⟩
  else if n = 0xE0 then .begins ⟨2, 0xA0, 0xBF, 0, 1⟩
  else if n = 0xED then .begins ⟨2, 0x80, 0x9F, 13, 1⟩
  else if n < 0xF0 then .begins ⟨2, 0x80, 0xBF, n % 16, 1⟩
  else if n = 0xF0 then .begins ⟨3, 0x90, 0xBF, 0, 1⟩
  else if n < 0xF4 then .begins ⟨3, 0x80, 0xBF, n % 8, 1⟩
  else if n = 0xF4 then .begins ⟨3, 0x80, 0x8F, 4, 1⟩
  else .stray

/-- The sequence with one more byte read, if the byte continues it. -/
def PartialChar.push (p : PartialChar) (b : UInt8) : Option PartialChar :=
  let n := b.toNat
  if p.low ≤ n && n ≤ p.high then
    some ⟨p.missing - 1, 0x80, 0xBF, p.bits * 64 + n % 64, p.read + 1⟩
  else none

/-- The first sequence that is not UTF-8: its place, and its length unless the text ends in it. -/
structure Utf8Fault where
  index : Nat
  length : Option Nat
  deriving DecidableEq, Repr

def Utf8Fault.message (f : Utf8Fault) : String :=
  match f.length with
  | some n => "invalid utf-8 sequence of " ++ toString n ++ " bytes from index " ++ toString f.index
  | none => "incomplete utf-8 byte sequence from index " ++ toString f.index

def utf8Fault? (bytes : List UInt8) : Option Utf8Fault :=
  go 0 none bytes
where
  go (index : Nat) (pending : Option PartialChar) : List UInt8 → Option Utf8Fault
    | [] => pending.map fun _ => ⟨index, none⟩
    | b :: bs =>
      match pending with
      | none =>
        match leadByte b with
        | .whole _ => go (index + 1) none bs
        | .begins p => go index (some p) bs
        | .stray => some ⟨index, some 1⟩
      | some p =>
        match p.push b with
        | some q => if q.missing = 0 then go (index + q.read) none bs else go index (some q) bs
        | none => some ⟨index, some p.read⟩

/-- The mark that stands for bytes that are no text. -/
def replacementChar : Char := Char.ofNat 0xFFFD

/-- Bytes read as UTF-8, each maximal ill-formed subsequence as one replacement character. -/
def decodeLossy (bytes : List UInt8) : List Char :=
  go [] none bytes
where
  start (out : List Char) (b : UInt8) : List Char × Option PartialChar :=
    match leadByte b with
    | .whole c => (c :: out, none)
    | .begins p => (out, some p)
    | .stray => (replacementChar :: out, none)
  go (out : List Char) (pending : Option PartialChar) : List UInt8 → List Char
    | [] => (if pending.isSome then replacementChar :: out else out).reverse
    | b :: bs =>
      match pending with
      | none => let (out, pending) := start out b; go out pending bs
      | some p =>
        match p.push b with
        | some q =>
          if q.missing = 0 then go (Char.ofNat q.bits :: out) none bs else go out (some q) bs
        | none =>
          let (out, pending) := start (replacementChar :: out) b
          go out pending bs

/-- The bytes as text; what is not UTF-8 is replaced. -/
def textOfBytes (bytes : ByteArray) : String :=
  match String.fromUTF8? bytes with
  | some text => text
  | none => String.ofList (decodeLossy bytes.toList)

end InlineComponents
