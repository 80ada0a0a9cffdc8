import InlineComponents.Markup.Tokens
import InlineComponents.Proofs.Reading

namespace InlineComponents

theorem closeTag_go_append {standing : Standing} {seen s inside rest : List Char}
    (h : closeTag.go standing seen s = some (inside, rest)) (t : List Char) :
    closeTag.go standing seen (s ++ t) = some (inside, rest ++ t) := by
  induction s generalizing standing seen with
  | nil => simp [closeTag.go] at h
  | cons c s ih =>
    rw [List.cons_append]
    unfold closeTag.go at h ⊢
    split at h
    · next hc =>
      obtain ⟨rfl, rfl⟩ : seen.reverse = inside ∧ s = rest := by simpa using h
      rw [if_pos hc]
    · next hc =>
      rw [if_neg hc]
      exact ih h

theorem closeBrace_go_append {standing : Standing} {seen s said rest : List Char}
    (h : closeBrace.go standing seen s = some (said, rest)) (t : List Char) :
    closeBrace.go standing seen (s ++ t) = some (said, rest ++ t) := by
  induction s generalizing standing seen with
  | nil => simp [closeBrace.go] at h
  | cons c s ih =>
    rw [List.cons_append]
    unfold closeBrace.go at h ⊢
    split at h
    · obtain ⟨rfl, rfl⟩ : seen.reverse = said ∧ s = rest := by simpa using h
      rfl
    · exact ih h

theorem closeTag_go_seen (standing : Standing) (seen s : List Char) :
    closeTag.go standing seen s =
      (closeTag.go standing [] s).map fun closed => (seen.reverse ++ closed.1, closed.2) := by
  induction s generalizing standing seen with
  | nil => rfl
  | cons c s ih =>
    rw [closeTag.go, closeTag.go]
    split
    · simp
    · rw [ih, ih _ [c], Option.map_map]
      congr 1
      funext closed
      simp

/-- What can be the name of an element whose content is markup: it begins with a letter, and
neither ends inside nor hides what comes after it. -/
structure IsElementName (name : List Char) : Prop where
  begins : beginsWithLetter name = true
  inert : ∀ c ∈ name, isBoundary c = false ∧ isQuote c = false ∧ c ≠ '{'
  notRaw : name ≠ RawTag.script.name ∧ name ≠ RawTag.style.name

/-- What stands in an element's tag after the name: the name is at its end, and so is the tag at
its `>`. -/
structure IsElementInside (inside : List Char) : Prop where
  bounded : (inside ++ ['>']).head?.any isBoundary = true
  closed : closeTag (inside ++ ['>']) = some (inside, [])

-- The characters of the name are looked at, and not all that there are.
instance (name : List Char) : Decidable (IsElementName name) :=
  have := List.decidableBAll (fun c => isBoundary c = false ∧ isQuote c = false ∧ c ≠ '{') name
  decidable_of_iff
    (beginsWithLetter name = true ∧
      (∀ c ∈ name, isBoundary c = false ∧ isQuote c = false ∧ c ≠ '{') ∧
      name ≠ RawTag.script.name ∧ name ≠ RawTag.style.name)
    ⟨fun h => ⟨h.1, h.2.1, h.2.2⟩, fun h => ⟨h.begins, h.inert, h.notRaw⟩⟩

instance (inside : List Char) : Decidable (IsElementInside inside) :=
  decidable_of_iff
    ((inside ++ ['>']).head?.any isBoundary = true ∧
      closeTag (inside ++ ['>']) = some (inside, []))
    ⟨fun h => ⟨h.1, h.2⟩, fun h => ⟨h.bounded, h.closed⟩⟩

namespace IsElementInside

variable {inside : List Char}

theorem closeTag_eq (h : IsElementInside inside) (t : List Char) :
    closeTag (inside ++ '>' :: t) = some (inside, t) := by
  have hc := closeTag_go_append h.closed t
  rw [List.append_assoc] at hc
  exact hc

theorem head?_append (h : IsElementInside inside) (t : List Char) :
    (inside ++ '>' :: t).head?.any isBoundary = true := by
  have hb := h.bounded
  cases inside with
  | nil => rfl
  | cons c inside => exact hb

end IsElementInside

namespace IsElementName

variable {name : List Char}

theorem exists_cons (h : IsElementName name) : ∃ c cs, name = c :: cs ∧ c.isAlpha = true := by
  have hb := h.begins
  cases name with
  | nil => simp [beginsWithLetter] at hb
  | cons c cs => exact ⟨c, cs, rfl, by simpa [beginsWithLetter] using hb⟩

/-- The name ends where a boundary follows it. -/
theorem tagName_append (h : IsElementName name) {s : List Char} (hs : s = [] ∨
    s.head?.any isBoundary = true) : tagName (name ++ s) = name ∧ afterName (name ++ s) = s := by
  have hname : ∀ c ∈ name, (!isBoundary c) = true := by
    intro c hc
    rw [(h.inert c hc).1]
    rfl
  have hstop : s.head?.all (fun c => !(!isBoundary c)) = true := by
    rcases hs with rfl | hs
    · rfl
    · cases s with
      | nil => rfl
      | cons c s => simpa using hs
  exact ⟨takeWhile_append_stop hname hstop, dropWhile_append_stop hname hstop⟩

/-- A raw element's tag begins only with the raw element's own name. -/
theorem beginsTag_eq_false (h : IsElementName name) {s raw : List Char}
    (hs : s.head?.any isBoundary = true) (hne : name ≠ raw)
    (hraw : raw.any isBoundary = false) : beginsTag raw (name ++ s) = false := by
  rw [Bool.eq_false_iff]
  intro hb
  have hp := List.isPrefixOf_iff_prefix.mp (Bool.and_eq_true_iff.mp hb).1
  obtain ⟨after, ha⟩ := hp
  rw [← ha, beginsTag_append] at hb
  rcases List.append_eq_append_iff.mp ha with ⟨between, hbetween, hafter⟩ | ⟨beyond, hbeyond, hafter⟩
  · cases between with
    | nil => exact hne (by simpa using hbetween)
    | cons c between =>
      rw [hafter] at hb
      have hc : isBoundary c = false := (h.inert c (by simp [hbetween])).1
      simp [hc] at hb
  · cases beyond with
    | nil => exact hne (by simpa using hbeyond.symm)
    | cons c beyond =>
      rw [hafter] at hs
      have hc : isBoundary c = false := by simpa using List.any_eq_false.mp hraw c (by simp [hbeyond])
      simp [hc] at hs

/-- Nothing in a name opens a value or an expression. -/
theorem closeTag_append_eq (h : IsElementName name) {s inside rest : List Char}
    (hs : closeTag s = some (inside, rest)) : closeTag (name ++ s) = some (name ++ inside, rest) := by
  have hgo (seen : List Char) {text : List Char} (hn : ∀ c ∈ text, isBoundary c = false ∧
      isQuote c = false ∧ c ≠ '{') :
      closeTag.go .plain seen (text ++ s) = closeTag.go .plain (text.reverse ++ seen) s := by
    induction text generalizing seen with
    | nil => rfl
    | cons c text ih =>
      obtain ⟨hb, hq, hc⟩ := hn c List.mem_cons_self
      have ha : c ≠ '>' := by
        rintro rfl
        exact absurd hb (by decide)
      have hrest := ih (c :: seen) fun d hd => hn d (List.mem_cons_of_mem c hd)
      rw [List.cons_append, closeTag.go, if_neg (by simp [ha]), Standing.next, if_neg hc,
        if_neg (by simp [hq]), hrest]
      simp
  rw [closeTag] at hs
  rw [closeTag, hgo [] h.inert, closeTag_go_seen, hs]
  simp

/-- A name is neither the start of a comment nor that of a closing tag or of a raw element. -/
theorem angleToken_eq (h : IsElementName name) {s : List Char}
    (hs : s.head?.any isBoundary = true) :
    angleToken (name ++ s) = openingToken (name ++ s) := by
  obtain ⟨c, cs, hname, hc⟩ := h.exists_cons
  have hne {d : Char} (hd : d.isAlpha = false) : c ≠ d := by
    rintro rfl
    rw [hc] at hd
    cases hd
  have hcomment : commentStart.isPrefixOf ('<' :: (name ++ s)) = false := by
    have hd : '!' ≠ c := Ne.symm (hne rfl)
    simp [hname, commentStart, List.isPrefixOf, hd]
  have hslash : ((name ++ s).head? = some '/' && beginsWithLetter ((name ++ s).drop 1)) = false := by
    have hd : c ≠ '/' := hne rfl
    simp [hname, hd]
  have hraw : rawTag? ('<' :: (name ++ s)) = none := by
    rw [rawTag?, h.beginsTag_eq_false hs h.notRaw.1 (by decide),
      h.beginsTag_eq_false hs h.notRaw.2 (by decide)]
    rfl
  have hletter : beginsWithLetter (name ++ s) = true := by
    simp [hname, beginsWithLetter, hc]
  simp only [angleToken, hcomment, hslash, hraw, hletter, Bool.false_eq_true, ↓reduceIte]

end IsElementName

theorem nextToken_angle (cs : List Char) : nextToken ('<' :: cs) = angleToken cs :=
  rfl

theorem nextToken_opening {name inside : List Char} (hn : IsElementName name)
    (hi : IsElementInside inside) (t : List Char) :
    nextToken ('<' :: (name ++ (inside ++ '>' :: t))) = (.opening name inside, t) := by
  have hb := hi.head?_append t
  obtain ⟨hname, hafter⟩ := hn.tagName_append (.inr hb)
  rw [nextToken_angle, hn.angleToken_eq hb, openingToken, hafter, hi.closeTag_eq, hname]

theorem nextToken_closing {name ending : List Char} (hn : IsElementName name)
    (he : IsElementInside ending) (t : List Char) :
    nextToken ('<' :: '/' :: (name ++ (ending ++ '>' :: t))) = (.closing name ending, t) := by
  have hletter : beginsWithLetter (name ++ (ending ++ '>' :: t)) = true := by
    obtain ⟨c, cs, hname, hc⟩ := hn.exists_cons
    simp [hname, beginsWithLetter, hc]
  have hbounded : ending = [] ∨ ending.head?.any isBoundary = true := by
    have hb := he.bounded
    cases ending with
    | nil => exact .inl rfl
    | cons c ending => exact .inr hb
  obtain ⟨hname, hafter⟩ := hn.tagName_append hbounded
  have hcomment : commentStart.isPrefixOf ('<' :: '/' :: (name ++ (ending ++ '>' :: t))) = false :=
    rfl
  have htoken : angleToken ('/' :: (name ++ (ending ++ '>' :: t))) =
      closingToken (name ++ (ending ++ '>' :: t)) := by
    simp [angleToken, hcomment, hletter]
  rw [nextToken_angle, htoken, closingToken, hn.closeTag_append_eq (he.closeTag_eq t)]
  dsimp only
  rw [hname, hafter]

theorem nextToken_comment {said : List Char} (h : ¬ commentEnd <:+: said) (t : List Char) :
    nextToken (commentStart ++ (said ++ (commentEnd ++ t))) =
      (.text (commentStart ++ said ++ commentEnd), t) := by
  have hc := closeComment_append_eq h t
  have hs : commentStart.isPrefixOf (commentStart ++ (said ++ (commentEnd ++ t))) = true :=
    List.isPrefixOf_iff_prefix.mpr (List.prefix_append _ _)
  have hcs : commentStart ++ (said ++ (commentEnd ++ t)) =
      '<' :: (['!', '-', '-'] ++ (said ++ (commentEnd ++ t))) := rfl
  rw [hcs, nextToken_angle, angleToken]
  simp only [← hcs, hs, ↓reduceIte, List.drop_left, hc]

theorem nextToken_expression {said : List Char} (h : closeBrace (said ++ ['}']) = some (said, []))
    (t : List Char) :
    nextToken ('{' :: (said ++ '}' :: t)) = (.text ('{' :: said ++ ['}']), t) := by
  have hc : closeBrace (said ++ '}' :: t) = some (said, t) := by
    have hb := closeBrace_go_append h t
    rw [List.append_assoc] at hb
    exact hb
  simp [nextToken, hc]

/-- A script is a token of its own, and a style is text. -/
def rawElementToken (raw : RawTag) (inside content : List Char) : Token :=
  match raw with
  | .script => .script inside content
  | .style => .text (styleOpening ++ inside ++ '>' :: content)

theorem nextToken_raw {raw : RawTag} {inside content ending : List Char} (hi : IsTagInside inside)
    (hc : ∀ rest, rest <:+ content → beginsTag raw.closing rest = false)
    (he : IsTagInside ending) (t : List Char) :
    nextToken ('<' :: (raw.name ++
        (inside ++ '>' :: (content ++ (raw.closing ++ ending ++ '>' :: t))))) =
      (rawElementToken raw inside (content ++ raw.closing ++ ending ++ ['>']), t) := by
  let after := content ++ (raw.closing ++ ending ++ '>' :: t)
  have hraw : rawTag? ('<' :: (raw.name ++ (inside ++ '>' :: after))) = some raw :=
    rawTag?_append hi after
  have hclose : closeAngle (('<' :: (raw.name ++ (inside ++ '>' :: after))).drop
      ('<' :: raw.name).length) = some (inside, after) := by
    rw [← List.cons_append, List.drop_left]
    exact hi.closeAngle_eq after
  have hcontent : closeRaw raw after = (content ++ raw.closing ++ ending ++ ['>'], t) :=
    closeRaw_append_eq hc he t
  have hangle : angleToken (raw.name ++ (inside ++ '>' :: after)) =
      rawToken raw ('<' :: (raw.name ++ (inside ++ '>' :: after))) := by
    have hcomment : commentStart.isPrefixOf ('<' :: (raw.name ++ (inside ++ '>' :: after))) =
        false := by
      cases raw <;> rfl
    have hslash : ((raw.name ++ (inside ++ '>' :: after)).head? = some '/' &&
        beginsWithLetter ((raw.name ++ (inside ++ '>' :: after)).drop 1)) = false := by
      cases raw <;> rfl
    simp only [angleToken, hcomment, hslash, hraw, Bool.false_eq_true, ↓reduceIte]
  rw [nextToken_angle, hangle]
  cases raw <;> simp only [rawToken, hclose, hcontent, rawElementToken]

end InlineComponents
