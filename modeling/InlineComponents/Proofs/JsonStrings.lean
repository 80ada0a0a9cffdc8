import InlineComponents.Json.Reader
import InlineComponents.Json.Writer

namespace InlineComponents

theorem hexValue?_hexDigit : ∀ n, n < 16 → hexValue? (hexDigit n) = some n := by
  decide

/-- A control character is read back from the number that it is written as. -/
theorem readUnits_control {c : Char} (h : c.toNat < 32) (rest : List Char) :
    readUnits ('0' :: '0' :: hexDigit (c.toNat / 16) :: hexDigit (c.toNat % 16) :: rest) =
      .ok (c, rest) := by
  have hzero : hexValue? '0' = some 0 := by decide
  have hhigh := hexValue?_hexDigit (c.toNat / 16) (by omega)
  have hlow := hexValue?_hexDigit (c.toNat % 16) (by omega)
  have hvalue : ((0 * 16 + 0) * 16 + c.toNat / 16) * 16 + c.toNat % 16 = c.toNat := by omega
  have hhex : readHex ('0' :: '0' :: hexDigit (c.toNat / 16) :: hexDigit (c.toNat % 16) :: rest) =
      .ok (c.toNat, rest) := by
    simp only [readHex, hzero, hhigh, hlow, hvalue]
  have hsurrogate : ¬ 0xDC00 ≤ c.toNat := by omega
  have hbelow : c.toNat < 0xD800 := by omega
  rw [readUnits, hhex]
  simp [bind, Except.bind, pure, Except.pure, hsurrogate, hbelow, Char.ofNat_toNat]

theorem readString_go_plain {c : Char} (hquote : c ≠ '"') (hslash : c ≠ '\\')
    (hcontrol : ¬ c.toNat < 32) (seen rest : List Char) :
    readString.go seen (c :: rest) = readString.go (c :: seen) rest := by
  rw [readString.go.eq_def]
  split
  · next h => cases h
  · next h => exact absurd (List.cons.inj h).1 hquote
  · next h => exact absurd (List.cons.inj h).1 hslash
  · next h =>
    obtain ⟨rfl, rfl⟩ := List.cons.inj h
    exact if_neg hcontrol

theorem readString_go_escape {c : Char} {s rest : List Char}
    (h : readEscape s = .ok (c, rest)) (seen : List Char) :
    readString.go seen ('\\' :: s) = readString.go (c :: seen) rest := by
  rw [readString.go.eq_def]
  split
  · next he => cases he
  · next he => cases he
  · next tail he =>
    obtain ⟨-, rfl⟩ := List.cons.inj he
    split
    · next hread =>
      rw [h] at hread
      cases hread
      rfl
    · next hread =>
      rw [h] at hread
      cases hread
  · next hno he =>
    obtain ⟨rfl, rfl⟩ := List.cons.inj he
    exact absurd rfl hno

/-- A character that is escaped is read as itself. -/
theorem readString_go_jsonEscape (c : Char) (seen rest : List Char) :
    readString.go seen (jsonEscape c ++ rest) = readString.go (c :: seen) rest := by
  have hsimple (d : Char) (hd : simpleEscape? d = some c) (hu : d ≠ 'u') :
      readString.go seen ('\\' :: d :: rest) = readString.go (c :: seen) rest := by
    refine readString_go_escape ?_ seen
    rw [readEscape.eq_def]
    split
    · next he => cases he
    · next he => exact absurd (List.cons.inj he).1 hu
    · next he =>
      obtain ⟨rfl, rfl⟩ := List.cons.inj he
      rw [hd]
  unfold jsonEscape
  split
  · next h => exact hsimple '"' (by rw [h]; rfl) (by decide)
  split
  · next h => exact hsimple '\\' (by rw [h]; rfl) (by decide)
  split
  · next h => exact hsimple 'n' (by rw [h]; rfl) (by decide)
  split
  · next h => exact hsimple 'r' (by rw [h]; rfl) (by decide)
  split
  · next h => exact hsimple 't' (by rw [h]; rfl) (by decide)
  split
  · next h => exact hsimple 'b' (by rw [h]; rfl) (by decide)
  split
  · next h => exact hsimple 'f' (by rw [h]; rfl) (by decide)
  split
  · next h =>
    have hread : readEscape ('u' :: '0' :: '0' :: hexDigit (c.toNat / 16) ::
        hexDigit (c.toNat % 16) :: rest) = .ok (c, rest) := readUnits_control h rest
    exact readString_go_escape hread seen
  · next hquote hslash _ _ _ _ _ hcontrol =>
    exact readString_go_plain hquote hslash hcontrol seen rest

theorem readString_go_flatMap (s seen rest : List Char) :
    readString.go seen (s.flatMap jsonEscape ++ '"' :: rest) =
      .ok (String.ofList (seen.reverse ++ s), rest) := by
  induction s generalizing seen with
  | nil =>
    rw [readString.go.eq_def]
    simp
  | cons c s ih =>
    rw [List.flatMap_cons, List.append_assoc, readString_go_jsonEscape, ih]
    simp

/-- A text is read back from the JSON string that is written for it. -/
theorem read_jsonString (text : String) : Json.read (jsonString text) = .ok (.string text) := by
  have hstring : readString (text.toList.flatMap jsonEscape ++ ['"']) = .ok (text, []) := by
    rw [readString, readString_go_flatMap]
    simp
  have hvalue : readValue maxDepth (jsonString text).toList = .ok (.string text, []) := by
    have hquote : startOf '"' = .string := rfl
    have hdrop (s : List Char) : dropJsonBlanks ('"' :: s) = '"' :: s :=
      List.dropWhile_cons_of_neg (by decide)
    rw [jsonString, String.toList_ofList, List.cons_append, readValue.eq_def, hdrop]
    simp only [hquote]
    rw [hstring]
    rfl
  rw [Json.read, hvalue]
  rfl

end InlineComponents
