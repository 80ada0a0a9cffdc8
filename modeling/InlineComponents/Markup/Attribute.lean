import InlineComponents.Text.Blank
import InlineComponents.Text.Cut
import InlineComponents.Markup.Tag

namespace InlineComponents

/-- An attribute as it is written: a key, and a value if an equals sign follows. -/
structure Attribute where
  key : List Char
  value : Option (List Char)
  deriving DecidableEq, Repr

/-- What ends an attribute's key. -/
def endsKey (c : Char) : Bool :=
  isBlank c || c = '='

/-- The value that begins the text, and the text after it. A quoted value ends at its quote, or
with the text; any other value ends before a blank. -/
def readAttributeValue (s : List Char) : List Char × List Char :=
  match s with
  | [] => ([], [])
  | c :: cs =>
    if isQuote c then (cs.takeWhile (· ≠ c), (cs.dropWhile (· ≠ c)).drop 1)
    else ((c :: cs).takeWhile fun c => !isBlank c, (c :: cs).dropWhile fun c => !isBlank c)

/-- The first attribute of a text that does not begin with a blank, and the text after it. -/
def readAttribute (s : List Char) : Attribute × List Char :=
  let key := s.takeWhile fun c => !endsKey c
  match dropBlanks (s.dropWhile fun c => !endsKey c) with
  | '=' :: after =>
    let value := readAttributeValue (dropBlanks after)
    (⟨key, some value.1⟩, value.2)
  | rest => (⟨key, none⟩, rest)

private theorem dropWhile_length_le (p : Char → Bool) (s : List Char) :
    (s.dropWhile p).length ≤ s.length :=
  (List.dropWhile_suffix p).length_le

theorem readAttributeValue_length_le (s : List Char) :
    (readAttributeValue s).2.length ≤ s.length := by
  unfold readAttributeValue
  split
  · simp
  · next c cs =>
    split
    · have := dropWhile_length_le (· ≠ c) cs
      simp only [List.length_drop, List.length_cons]
      omega
    · exact dropWhile_length_le ..

theorem readAttribute_length_lt {c : Char} {cs : List Char} (hc : isBlank c = false) :
    (readAttribute (c :: cs)).2.length < (c :: cs).length := by
  unfold readAttribute
  have hk := dropWhile_length_le (fun c => !endsKey c) (c :: cs)
  have hd := dropBlanks_length_le ((c :: cs).dropWhile fun c => !endsKey c)
  simp only
  split
  · next after ha =>
    have hv := readAttributeValue_length_le (dropBlanks after)
    have hb := dropBlanks_length_le after
    rw [ha, List.length_cons] at hd
    show (readAttributeValue (dropBlanks after)).2.length < _
    omega
  · next ha =>
    by_cases he : c = '='
    · subst he
      exact absurd (by simp [endsKey, dropBlanks, isBlank]) (ha cs)
    · have hs := dropWhile_length_le (fun c => !endsKey c) cs
      rw [List.dropWhile_cons] at hd ⊢
      simp only [endsKey, hc, he, decide_false, Bool.or_self, Bool.not_false, ↓reduceIte] at hd ⊢
      simp only [List.length_cons]
      simp only [endsKey] at hs
      omega

theorem readAttribute_shorter {s cs : List Char} {c : Char} (h : dropBlanks s = c :: cs) :
    (readAttribute (c :: cs)).2.length < s.length := by
  have hc : isBlank c = false := by
    have := List.head?_dropWhile_not isBlank s
    rw [show s.dropWhile isBlank = c :: cs from h] at this
    simpa using this
  have hl := dropBlanks_length_le s
  rw [h] at hl
  exact Nat.lt_of_lt_of_le (readAttribute_length_lt hc) hl

/-- The attributes of a tag, in order. -/
def attributes (inside : List Char) : List Attribute :=
  go [] inside
where
  go (found : List Attribute) (s : List Char) : List Attribute :=
    match h : dropBlanks s with
    | [] => found.reverse
    | c :: cs =>
      have := readAttribute_shorter h
      go ((readAttribute (c :: cs)).1 :: found) (readAttribute (c :: cs)).2
  termination_by s.length

/-- The value of the first attribute with that key, if it has one. -/
def attributeValue (inside : List Char) (key : List Char) : Option (List Char) :=
  ((attributes inside).find? fun a => a.key = key).bind Attribute.value

end InlineComponents
