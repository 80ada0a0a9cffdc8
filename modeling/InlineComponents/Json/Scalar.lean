import InlineComponents.Json.Fault
import InlineComponents.Text.Cut

namespace InlineComponents

def isJsonBlank (c : Char) : Bool :=
  c = ' ' || c = '\n' || c = '\t' || c = '\r'

def dropJsonBlanks (s : List Char) : List Char :=
  s.dropWhile isJsonBlank

def isDigit (c : Char) : Bool :=
  '0' ≤ c && c ≤ '9'

def digitValue (c : Char) : Nat :=
  c.toNat - '0'.toNat

def hexValue? (c : Char) : Option Nat :=
  if isDigit c then some (digitValue c)
  else if 'a' ≤ c && c ≤ 'f' then some (c.toNat - 'a'.toNat + 10)
  else if 'A' ≤ c && c ≤ 'F' then some (c.toNat - 'A'.toNat + 10)
  else none

/-- The rest of a word of which the first letter was read. -/
def readWord (letters : List Char) (s : List Char) : Except JsonFault (List Char) :=
  match letters, s with
  | [], s => .ok s
  | _ :: _, [] => .error .endInValue
  | l :: letters, c :: cs => if c = l then readWord letters cs else .error .brokenWord

/-- Four hexadecimal digits. Fewer than four bytes are an unfinished string. -/
def readHex (s : List Char) : Except JsonFault (Nat × List Char) :=
  match s with
  | a :: b :: c :: d :: rest =>
    match hexValue? a, hexValue? b, hexValue? c, hexValue? d with
    | some a, some b, some c, some d => .ok (((a * 16 + b) * 16 + c) * 16 + d, rest)
    | _, _, _, _ => .error .malformedEscape
  | s => if byteLength s < 4 then .error .endInString else .error .malformedEscape

def simpleEscape? (c : Char) : Option Char :=
  match c with
  | '"' => some '"'
  | '\\' => some '\\'
  | '/' => some '/'
  | 'b' => some '\x08'
  | 'f' => some '\x0c'
  | 'n' => some '\n'
  | 'r' => some '\r'
  | 't' => some '\t'
  | _ => none

/-- A character given by one UTF-16 unit, or by two if it lies above U+FFFF. -/
def readUnits (s : List Char) : Except JsonFault (Char × List Char) := do
  let (high, rest) ← readHex s
  if 0xDC00 ≤ high && high ≤ 0xDFFF then throw .loneSurrogate
  else if high < 0xD800 || 0xDBFF < high then pure (Char.ofNat high, rest)
  else
    match rest with
    | [] => throw .endInString
    | ['\\'] => throw .endInString
    | '\\' :: 'u' :: rest =>
      let (low, rest) ← readHex rest
      if low < 0xDC00 || 0xDFFF < low then throw .loneSurrogate
      else pure (Char.ofNat ((high - 0xD800) * 0x400 + (low - 0xDC00) + 0x10000), rest)
    | _ => throw .unpairedEscape

/-- What a backslash begins. -/
def readEscape (s : List Char) : Except JsonFault (Char × List Char) :=
  match s with
  | [] => .error .endInString
  | 'u' :: rest => readUnits rest
  | c :: rest =>
    match simpleEscape? c with
    | some e => .ok (e, rest)
    | none => .error .malformedEscape

theorem readHex_length {s rest : List Char} {n : Nat} (h : readHex s = .ok (n, rest)) :
    rest.length < s.length := by
  unfold readHex at h
  split at h
  · split at h
    · obtain ⟨-, rfl⟩ : _ ∧ _ = rest := by simpa using h
      simp only [List.length_cons]
      omega
    · simp at h
  · split at h <;> simp at h

theorem readUnits_length {s rest : List Char} {c : Char} (h : readUnits s = .ok (c, rest)) :
    rest.length < s.length := by
  unfold readUnits at h
  cases hx : readHex s with
  | error e => rw [hx] at h; exact absurd h (by simp [bind, Except.bind])
  | ok r =>
    obtain ⟨high, tail⟩ := r
    have ht := readHex_length hx
    rw [hx] at h
    simp only [bind, Except.bind] at h
    split at h
    · exact absurd h (by simp [throw, throwThe, MonadExceptOf.throw])
    · split at h
      · obtain ⟨-, rfl⟩ : _ ∧ tail = rest := by simpa [pure, Except.pure] using h
        exact ht
      · split at h
        · exact absurd h (by simp [throw, throwThe, MonadExceptOf.throw])
        · exact absurd h (by simp [throw, throwThe, MonadExceptOf.throw])
        · next more =>
          cases hy : readHex more with
          | error e => rw [hy] at h; exact absurd h (by simp)
          | ok r =>
            obtain ⟨low, last⟩ := r
            have hl := readHex_length hy
            rw [hy] at h
            simp only at h
            split at h
            · exact absurd h (by simp [throw, throwThe, MonadExceptOf.throw])
            · obtain ⟨-, rfl⟩ : _ ∧ last = rest := by simpa [pure, Except.pure] using h
              simp only [List.length_cons] at ht
              omega
        · exact absurd h (by simp [throw, throwThe, MonadExceptOf.throw])

theorem readEscape_length {s rest : List Char} {c : Char} (h : readEscape s = .ok (c, rest)) :
    rest.length < s.length := by
  unfold readEscape at h
  split at h
  · simp at h
  · have := readUnits_length h
    simp only [List.length_cons]
    omega
  · split at h
    · obtain ⟨-, rfl⟩ : _ ∧ _ = rest := by simpa using h
      simp
    · simp at h

/-- A string after its opening quote, and the text after its closing one. -/
def readString (s : List Char) : Except JsonFault (String × List Char) :=
  go [] s
where
  go (seen : List Char) (s : List Char) : Except JsonFault (String × List Char) :=
    match s with
    | [] => .error .endInString
    | '"' :: rest => .ok (String.ofList seen.reverse, rest)
    | '\\' :: rest =>
      match h : readEscape rest with
      | .ok (c, after) =>
        have := readEscape_length h
        go (c :: seen) after
      | .error fault => .error fault
    | c :: rest => if c.toNat < 32 then .error .controlCharacter else go (c :: seen) rest
  termination_by s.length

end InlineComponents
