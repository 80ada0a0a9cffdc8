import InlineComponents.Proofs.WrittenAttributes

namespace InlineComponents

section Search

variable {key s cs : List Char} {c : Char}

/-- A search for a key in so many rounds. Each round reads one attribute: it ends the search if it
has the key, and else the search goes on behind it. Where but blanks are left, nothing is found. -/
inductive Search (key : List Char) : List Char → Option (List Char) → Nat → Prop where
  | exhausted {s : List Char} (h : dropBlanks s = []) : Search key s none 0
  | found {s cs : List Char} {c : Char} (h : dropBlanks s = c :: cs)
      (hkey : (readAttribute (c :: cs)).1.key = key) :
      Search key s (readAttribute (c :: cs)).1.value 1
  | passed {s cs : List Char} {c : Char} {value : Option (List Char)} {rounds : Nat}
      (h : dropBlanks s = c :: cs) (hkey : (readAttribute (c :: cs)).1.key ≠ key)
      (later : Search key (readAttribute (c :: cs)).2 value rounds) :
      Search key s value (rounds + 1)

theorem attributeValue_of_dropBlanks_eq_nil (h : dropBlanks s = []) :
    attributeValue s key = none := by
  rw [attributeValue, attributes_of_dropBlanks_eq_nil h]
  rfl

theorem attributeValue_of_dropBlanks_eq_cons (h : dropBlanks s = c :: cs) :
    attributeValue s key = if (readAttribute (c :: cs)).1.key = key
      then (readAttribute (c :: cs)).1.value
      else attributeValue (readAttribute (c :: cs)).2 key := by
  rw [attributeValue, attributes_of_dropBlanks_eq_cons h, List.find?_cons]
  by_cases hkey : (readAttribute (c :: cs)).1.key = key
  · simp [hkey]
  · simp [hkey, attributeValue]

/-- A search finds the value of the first attribute with the key, and nothing else. -/
theorem Search.eq_attributeValue {value : Option (List Char)} {rounds : Nat}
    (h : Search key s value rounds) : value = attributeValue s key := by
  induction h with
  | exhausted h => exact (attributeValue_of_dropBlanks_eq_nil h).symm
  | found h hkey => rw [attributeValue_of_dropBlanks_eq_cons h, if_pos hkey]
  | passed h hkey later ih => rw [attributeValue_of_dropBlanks_eq_cons h, if_neg hkey, ih]

/-- Every round leaves less of the text, so a search has no more rounds than the text has
characters. -/
theorem exists_search (key s : List Char) :
    ∃ rounds, Search key s (attributeValue s key) rounds ∧ rounds ≤ s.length := by
  cases h : dropBlanks s with
  | nil =>
    rw [attributeValue_of_dropBlanks_eq_nil h]
    exact ⟨0, .exhausted h, Nat.zero_le _⟩
  | cons c cs =>
    have hshorter := readAttribute_shorter h
    rw [attributeValue_of_dropBlanks_eq_cons h]
    split
    · next hkey => exact ⟨1, .found h hkey, by omega⟩
    · next hkey =>
      obtain ⟨rounds, hsearch, hrounds⟩ := exists_search key (readAttribute (c :: cs)).2
      exact ⟨rounds + 1, .passed h hkey hsearch, by omega⟩
termination_by s.length

end Search

/-- The value that an attribute is written with. -/
def WrittenAttribute.value? : WrittenAttribute → Option (List Char)
  | .bare _ => none
  | .valued _ _ _ value => some value.value

theorem WrittenAttribute.toAttribute_eq (a : WrittenAttribute) :
    a.toAttribute = ⟨a.key, a.value?⟩ := by
  cases a <;> rfl

/-- Looking a key up inverts writing the attributes: it gives the value of the first one that has
the key, and nothing if that one is bare or there is none. On any text the search ends. -/
theorem attributeValue_renderAttributes (key : List Char) :
    (∀ (as : List (List Char × WrittenAttribute)) (trailing : List Char), AreSeparated as →
      allBlank trailing = true →
        attributeValue (renderAttributes as ++ trailing) key =
          ((as.map Prod.snd).find? fun a => a.key = key).bind WrittenAttribute.value?) ∧
    ∀ s, (∃ rounds, Search key s (attributeValue s key) rounds ∧ rounds ≤ s.length) ∧
      ∀ value rounds, Search key s value rounds → value = attributeValue s key := by
  refine ⟨?_, fun s => ⟨exists_search key s, fun value rounds h => h.eq_attributeValue⟩⟩
  intro as trailing h htrailing
  have hattributes : attributes (renderAttributes as ++ trailing) =
      (as.map Prod.snd).map fun a => (⟨a.key, a.value?⟩ : Attribute) := by
    rw [h.attributes_render htrailing, List.map_map]
    exact List.map_congr_left fun p _ => p.2.toAttribute_eq
  rw [attributeValue, hattributes, List.find?_map, Option.bind_map]
  rfl

/-- A key that ends in the one looked for, one that stands in a value, and one given twice. -/
theorem attributeValue_renderAttributes_given_twice :
    let as : List (List Char × WrittenAttribute) :=
      [(['\t'], .bare "data-name".toList),
        ([' '], .valued "title".toList [] ['\n'] (.quoted '\'' "name=\"X\" > é".toList)),
        ([Char.ofNat 0x3000], .valued "name".toList [' '] [] (.unquoted "A='".toList)),
        ([' '], .valued "name".toList [] [] (.quoted '\x22' "B".toList))]
    AreSeparated as ∧ allBlank [' '] = true ∧
      attributeValue (renderAttributes as ++ [' ']) "name".toList = some "A='".toList := by
  intro as
  have hs : AreSeparated as := by decide
  refine ⟨hs, rfl, ?_⟩
  rw [(attributeValue_renderAttributes "name".toList).1 as [' '] hs rfl]
  decide

end InlineComponents
