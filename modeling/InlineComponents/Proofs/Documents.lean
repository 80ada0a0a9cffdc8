import InlineComponents.Proofs.TagReading
import Mathlib.Data.List.Infix

namespace InlineComponents

/-- What a source is written of. A closing tag has the text after its name, or is left out. -/
inductive Node where
  | text (chars : List Char)
  | expression (said : List Char)
  | comment (said : List Char)
  | raw (tag : RawTag) (inside content ending : List Char)
  | childless (name inside : List Char)
  | element (name inside : List Char) (children : List Node) (ending : Option (List Char))

namespace Node

def closingTag (name : List Char) : Option (List Char) → List Char
  | none => []
  | some ending => '<' :: '/' :: (name ++ (ending ++ ['>']))

mutual

def render : Node → List Char
  | .text chars => chars
  | .expression said => '{' :: (said ++ ['}'])
  | .comment said => commentStart ++ (said ++ commentEnd)
  | .raw tag inside content ending =>
    '<' :: (tag.name ++ (inside ++ '>' :: (content ++ (tag.closing ++ ending ++ ['>']))))
  | .childless name inside => '<' :: (name ++ (inside ++ ['>']))
  | .element name inside children ending =>
    '<' :: (name ++ (inside ++ '>' :: (renderAll children ++ closingTag name ending)))

/-- The nodes as they are written, one after the other. -/
def renderAll : List Node → List Char
  | [] => []
  | n :: ns => n.render ++ renderAll ns

end

def isElement : Node → Bool
  | .raw .. | .childless .. | .element .. => true
  | .text _ | .expression _ | .comment _ => false

/-- The name in an opening tag that may end an element before it. -/
def opened? : Node → Option ElementName
  | .childless name _ | .element name _ _ _ => some (String.ofList name)
  | .text _ | .expression _ | .comment _ | .raw .. => none

/-- The name of an element that leaves its closing tag out. -/
def unclosed? : Node → Option ElementName
  | .element name _ _ none => some (String.ofList name)
  | _ => none

/-- An element without a closing tag is ended by the opening tag of the next element beside it or,
if there is none, by the closing tag of its parent, which has another name. -/
def EndedBy (parent : Option ElementName) (name : ElementName) (following : List Node) : Prop :=
  match following.find? isElement with
  | some next => ∃ other ∈ next.opened?, other ∈ endedBy name
  | none => ∃ outer ∈ parent, outer ≠ name

/-- Every one of the nodes without a closing tag is ended by what follows it. -/
def AllEnded (parent : Option ElementName) : List Node → Prop
  | [] => True
  | n :: ns => (∀ name ∈ n.unclosed?, EndedBy parent name ns) ∧ AllEnded parent ns

mutual

/-- Every tag is closed at its own `>`, every raw element at its own closing tag, and no element is
ended by the opening tag of a child. -/
def WellFormed : Node → Prop
  | .text chars => ∀ c ∈ chars, isPlain c = true
  | .expression said => closeBrace (said ++ ['}']) = some (said, [])
  | .comment said => ¬ commentEnd <:+: said
  | .raw tag inside content ending =>
    IsTagInside inside ∧ (∀ rest, rest <:+ content → beginsTag tag.closing rest = false) ∧
      IsTagInside ending
  | .childless name inside =>
    IsElementName name ∧ IsElementInside inside ∧
      (endsWithSlash inside = true ∨ isVoid (String.ofList name) = true)
  | .element name inside children ending =>
    (IsElementName name ∧ IsElementInside inside ∧ ∀ e ∈ ending, IsElementInside e) ∧
      (endsWithSlash inside = false ∧ isVoid (String.ofList name) = false) ∧
      (∀ child ∈ children, ∀ other ∈ child.opened?, other ∉ endedBy (String.ofList name)) ∧
      AllEnded (ending.map fun _ => String.ofList name) children ∧ AllWellFormed children

def AllWellFormed : List Node → Prop
  | [] => True
  | n :: ns => n.WellFormed ∧ AllWellFormed ns

end

instance (parent : Option ElementName) (name : ElementName) (following : List Node) :
    Decidable (EndedBy parent name following) :=
  match hf : following.find? isElement with
  | some next =>
    decidable_of_iff (∃ other ∈ next.opened?, other ∈ endedBy name) (by rw [EndedBy, hf])
  | none => decidable_of_iff (∃ outer ∈ parent, outer ≠ name) (by rw [EndedBy, hf])

instance decideAllEnded (parent : Option ElementName) :
    (ns : List Node) → Decidable (AllEnded parent ns)
  | [] => inferInstanceAs (Decidable True)
  | n :: ns =>
    have := decideAllEnded parent ns
    inferInstanceAs
      (Decidable ((∀ name ∈ n.unclosed?, EndedBy parent name ns) ∧ AllEnded parent ns))

mutual

def decideWellFormed : (n : Node) → Decidable n.WellFormed
  | .text chars => List.decidableBAll (fun c => isPlain c = true) chars
  | .expression said => inferInstanceAs (Decidable (closeBrace (said ++ ['}']) = some (said, [])))
  | .comment said => inferInstanceAs (Decidable (¬ commentEnd <:+: said))
  | .raw tag inside content ending =>
    decidable_of_iff
      (IsTagInside inside ∧ (∀ rest ∈ content.tails, beginsTag tag.closing rest = false) ∧
        IsTagInside ending)
      (by simp only [List.mem_tails]; rfl)
  | .childless name inside =>
    inferInstanceAs (Decidable (IsElementName name ∧ IsElementInside inside ∧
      (endsWithSlash inside = true ∨ isVoid (String.ofList name) = true)))
  | .element name inside children ending =>
    have := decideAllWellFormed children
    inferInstanceAs (Decidable ((IsElementName name ∧ IsElementInside inside ∧
      ∀ e ∈ ending, IsElementInside e) ∧
      (endsWithSlash inside = false ∧ isVoid (String.ofList name) = false) ∧
      (∀ child ∈ children, ∀ other ∈ child.opened?, other ∉ endedBy (String.ofList name)) ∧
      AllEnded (ending.map fun _ => String.ofList name) children ∧ AllWellFormed children))

def decideAllWellFormed : (ns : List Node) → Decidable (AllWellFormed ns)
  | [] => inferInstanceAs (Decidable True)
  | n :: ns =>
    have := decideWellFormed n
    have := decideAllWellFormed ns
    inferInstanceAs (Decidable (n.WellFormed ∧ AllWellFormed ns))

end

instance (ns : List Node) : Decidable (AllWellFormed ns) :=
  decideAllWellFormed ns

mutual

/-- The tags that are to be read where the node is written. -/
def tags : Node → List Token
  | .text _ | .expression _ | .comment _ | .raw .style .. => []
  | .raw .script inside content ending =>
    [.script inside (content ++ RawTag.script.closing ++ ending ++ ['>'])]
  | .childless name inside => [.opening name inside]
  | .element name inside children ending =>
    .opening name inside :: (tagsAll children ++ ending.toList.map (.closing name))

def tagsAll : List Node → List Token
  | [] => []
  | n :: ns => n.tags ++ tagsAll ns

end

/-- Nodes are gone through one after the other, each element's children before what follows it. -/
theorem list_induction {motive : List Node → Prop} (nil : motive [])
    (text : ∀ chars ns, motive ns → motive (.text chars :: ns))
    (expression : ∀ said ns, motive ns → motive (.expression said :: ns))
    (comment : ∀ said ns, motive ns → motive (.comment said :: ns))
    (raw : ∀ element inside content ending ns,
      motive ns → motive (.raw element inside content ending :: ns))
    (childless : ∀ name inside ns, motive ns → motive (.childless name inside :: ns))
    (element : ∀ name inside children ending ns,
      motive children → motive ns → motive (.element name inside children ending :: ns))
    (ns : List Node) : motive ns :=
  @Node.rec_1 (fun n => ∀ ns, motive ns → motive (n :: ns)) motive text expression comment raw
    childless (fun name inside children ending ih ns => element name inside children ending ns ih)
    nil (fun _ ns ihn ihns => ihn ns ihns) ns

theorem renderAll_append (first second : List Node) :
    renderAll (first ++ second) = renderAll first ++ renderAll second := by
  induction first with
  | nil => simp [renderAll]
  | cons n first ih => simp [renderAll, ih]

theorem allWellFormed_append {first second : List Node} :
    AllWellFormed (first ++ second) ↔ AllWellFormed first ∧ AllWellFormed second := by
  induction first with
  | nil => simp [AllWellFormed]
  | cons n first ih => simp [AllWellFormed, ih, and_assoc]

end Node

def Token.isTag : Token → Bool
  | .text _ => false
  | _ => true

/-- The tokens after the plain text that a text begins with. -/
def markupTokens (s : List Char) : List Token :=
  tokens (s.dropWhile isPlain)

theorem tokens_of_ne_nil {s : List Char} (h : s ≠ []) :
    tokens s = (nextToken s).1 :: tokens (nextToken s).2 := by
  obtain ⟨c, s, rfl⟩ := List.exists_cons_of_ne_nil h
  exact tokens_cons c s

/-- The text is read as the token, whatever stands after it, and as no part of a text before it. -/
structure IsToken (s : List Char) (token : Token) : Prop where
  marked : ∃ c cs, s = c :: cs ∧ isPlain c = false
  next : ∀ t, nextToken (s ++ t) = (token, t)

namespace IsToken

variable {s : List Char} {token : Token}

theorem tokens_append (h : IsToken s token) (t : List Char) :
    tokens (s ++ t) = token :: tokens t := by
  obtain ⟨c, cs, rfl, -⟩ := h.marked
  rw [List.cons_append, tokens_cons, ← List.cons_append, h.next]

theorem markupTokens_append (h : IsToken s token) (t : List Char) :
    markupTokens (s ++ t) = token :: tokens t := by
  rw [← h.tokens_append]
  obtain ⟨c, cs, rfl, hc⟩ := h.marked
  rw [markupTokens, List.cons_append, List.dropWhile_cons_of_neg (by simp [hc])]

theorem head_append (h : IsToken s token) (t : List Char) :
    (s ++ t).head?.all (fun c => !isPlain c) = true := by
  obtain ⟨c, cs, rfl, hc⟩ := h.marked
  simp [hc]

theorem render_eq (h : IsToken s token) : token.render = s := by
  have hs := nextToken_append (s ++ [])
  rw [h.next, List.append_nil, List.append_nil] at hs
  exact hs

end IsToken

theorem isToken_opening {name inside : List Char} (hn : IsElementName name)
    (hi : IsElementInside inside) :
    IsToken ('<' :: (name ++ (inside ++ ['>']))) (.opening name inside) :=
  ⟨⟨_, _, rfl, rfl⟩, fun t => by simpa using nextToken_opening hn hi t⟩

theorem isToken_closing {name ending : List Char} (hn : IsElementName name)
    (he : IsElementInside ending) :
    IsToken (Node.closingTag name (some ending)) (.closing name ending) :=
  ⟨⟨_, _, rfl, rfl⟩, fun t => by simpa [Node.closingTag] using nextToken_closing hn he t⟩

theorem isToken_expression {said : List Char} (h : (Node.expression said).WellFormed) :
    IsToken (Node.expression said).render (.text ('{' :: said ++ ['}'])) :=
  ⟨⟨_, _, rfl, rfl⟩, fun t => by simpa [Node.render] using nextToken_expression h t⟩

theorem isToken_comment {said : List Char} (h : (Node.comment said).WellFormed) :
    IsToken (Node.comment said).render (.text (commentStart ++ said ++ commentEnd)) :=
  ⟨⟨_, _, rfl, rfl⟩, fun t => by simpa [Node.render] using nextToken_comment h t⟩

theorem isToken_raw {tag : RawTag} {inside content ending : List Char}
    (h : (Node.raw tag inside content ending).WellFormed) :
    IsToken (Node.raw tag inside content ending).render
      (rawElementToken tag inside (content ++ tag.closing ++ ending ++ ['>'])) := by
  obtain ⟨hi, hc, he⟩ := h
  exact ⟨⟨_, _, rfl, rfl⟩, fun t => by simpa [Node.render] using nextToken_raw hi hc he t⟩

/-- Plain text that a text begins with is one token. -/
theorem exists_tokens_eq (s : List Char) :
    ∃ ts, tokens s = ts ++ markupTokens s ∧ ts.filter Token.isTag = [] := by
  cases s with
  | nil => exact ⟨[], rfl, rfl⟩
  | cons c cs =>
    by_cases hc : isPlain c = true
    · refine ⟨[.text ((c :: cs).takeWhile isPlain)], ?_, rfl⟩
      have hp := hc
      simp only [isPlain, Bool.and_eq_true, decide_eq_true_eq] at hp
      rw [tokens_cons, nextToken, if_neg hp.1, if_neg hp.2]
      rfl
    · refine ⟨[], ?_, rfl⟩
      rw [markupTokens, List.dropWhile_cons_of_neg hc]
      rfl

/-- Whatever stands after it, the text is read as these tags and text between them. Text at its end
may go on after it. -/
def Reads (s : List Char) (tags : List Token) : Prop :=
  ∀ t, ∃ ts, markupTokens (s ++ t) = ts ++ markupTokens t ∧ ts.filter Token.isTag = tags

theorem reads_nil : Reads [] [] :=
  fun _ => ⟨[], rfl, rfl⟩

theorem Reads.append {s s' : List Char} {tags tags' : List Token} (h : Reads s tags)
    (h' : Reads s' tags') : Reads (s ++ s') (tags ++ tags') := by
  intro t
  obtain ⟨ts, hs, htags⟩ := h (s' ++ t)
  obtain ⟨ts', hs', htags'⟩ := h' t
  refine ⟨ts ++ ts', ?_, ?_⟩
  · rw [List.append_assoc, hs, hs', List.append_assoc]
  · rw [List.filter_append, htags, htags']

theorem reads_plain {s : List Char} (h : ∀ c ∈ s, isPlain c = true) : Reads s [] := by
  intro t
  refine ⟨[], ?_, rfl⟩
  rw [markupTokens, List.dropWhile_append_of_pos h]
  rfl

theorem IsToken.reads {s : List Char} {token : Token} (h : IsToken s token) :
    Reads s ([token].filter Token.isTag) := by
  intro t
  obtain ⟨ts, hrest, htags⟩ := exists_tokens_eq t
  refine ⟨token :: ts, ?_, ?_⟩
  · rw [h.markupTokens_append, hrest]
    rfl
  · rw [← List.singleton_append, List.filter_append, htags, List.append_nil]

theorem reads_opening {name inside : List Char} (hn : IsElementName name)
    (hi : IsElementInside inside) :
    Reads ('<' :: (name ++ (inside ++ ['>']))) [.opening name inside] :=
  (isToken_opening hn hi).reads

theorem reads_closingTag {name : List Char} {ending : Option (List Char)} (hn : IsElementName name)
    (he : ∀ e ∈ ending, IsElementInside e) :
    Reads (Node.closingTag name ending) (ending.toList.map (.closing name)) := by
  cases ending with
  | none => exact reads_nil
  | some ending => exact (isToken_closing hn (he ending rfl)).reads

theorem reads_raw {tag : RawTag} {inside content ending : List Char}
    (h : (Node.raw tag inside content ending).WellFormed) :
    Reads (Node.raw tag inside content ending).render (Node.raw tag inside content ending).tags := by
  cases tag with
  | script => exact (isToken_raw h).reads
  | style => exact (isToken_raw h).reads

/-- Nodes are read as their tags. -/
theorem reads_renderAll (ns : List Node) (h : Node.AllWellFormed ns) :
    Reads (Node.renderAll ns) (Node.tagsAll ns) := by
  induction ns using Node.list_induction with
  | nil => exact reads_nil
  | text chars ns ih =>
    obtain ⟨hn, hns⟩ := h
    exact (reads_plain hn).append (ih hns)
  | expression said ns ih => exact (isToken_expression h.1).reads.append (ih h.2)
  | comment said ns ih => exact (isToken_comment h.1).reads.append (ih h.2)
  | raw tag inside content ending ns ih => exact (reads_raw h.1).append (ih h.2)
  | childless name inside ns ih =>
    obtain ⟨⟨hname, hinside, -⟩, hns⟩ := h
    exact (reads_opening hname hinside).append (ih hns)
  | element name inside children ending ns ihchildren ih =>
    obtain ⟨⟨⟨hname, hinside, hending⟩, -, -, -, hchildren⟩, hns⟩ := h
    have hread := (reads_opening hname hinside).append
      ((ihchildren hchildren).append (reads_closingTag hname hending))
    have hrender : (Node.element name inside children ending).render =
        '<' :: (name ++ (inside ++ ['>'])) ++
          (Node.renderAll children ++ Node.closingTag name ending) := by
      simp [Node.render]
    rw [← hrender] at hread
    exact hread.append (ih hns)

end InlineComponents
