import InlineComponents.Markup.Attribute
import InlineComponents.Proofs.Reading
import Mathlib.Data.List.Infix

namespace InlineComponents

theorem dropBlanks_append {blanks : List Char} (h : allBlank blanks = true) (s : List Char) :
    dropBlanks (blanks ++ s) = dropBlanks s :=
  List.dropWhile_append_of_pos (List.all_eq_true.mp h)

theorem dropBlanks_of_allBlank {blanks : List Char} (h : allBlank blanks = true) :
    dropBlanks blanks = [] := by
  have hnil := dropBlanks_append h []
  rwa [List.append_nil] at hnil

theorem dropBlanks_of_head {s : List Char} (h : s.head?.all (fun c => !isBlank c) = true) :
    dropBlanks s = s :=
  dropWhile_append_stop (l := []) (by simp) h

theorem dropBlanks_dropBlanks (s : List Char) : dropBlanks (dropBlanks s) = dropBlanks s := by
  apply dropBlanks_of_head
  have hhead := List.head?_dropWhile_not isBlank s
  rw [dropBlanks]
  cases hd : (s.dropWhile isBlank).head? with
  | none => rfl
  | some c =>
    rw [hd] at hhead
    simpa using hhead

theorem attributes_of_dropBlanks_eq_nil {s : List Char} (h : dropBlanks s = []) :
    attributes s = [] := by
  rw [attributes, attributes.go]
  split
  · rfl
  · next c cs hc => rw [h] at hc; cases hc

theorem attributes_go_eq (found : List Attribute) (s : List Char) :
    attributes.go found s = found.reverse ++ attributes s := by
  rw [attributes, attributes.go, attributes.go]
  split
  · simp
  · next c cs hc =>
    have hshorter := readAttribute_shorter hc
    rw [attributes_go_eq (_ :: found), attributes_go_eq [_]]
    simp
termination_by s.length

theorem attributes_of_dropBlanks_eq_cons {s cs : List Char} {c : Char}
    (h : dropBlanks s = c :: cs) :
    attributes s = (readAttribute (c :: cs)).1 :: attributes (readAttribute (c :: cs)).2 := by
  rw [attributes, attributes.go]
  split
  · next hnil => rw [h] at hnil; cases hnil
  · next c' cs' hc =>
    obtain ⟨rfl, rfl⟩ : c' = c ∧ cs' = cs := by simpa [h] using hc.symm
    rw [attributes_go_eq]
    rfl

/-- Blanks in front of the attributes say nothing. -/
theorem attributes_congr {s t : List Char} (h : dropBlanks s = dropBlanks t) :
    attributes s = attributes t := by
  cases hs : dropBlanks s with
  | nil =>
    have ht : dropBlanks t = [] := h.symm.trans hs
    rw [attributes_of_dropBlanks_eq_nil hs, attributes_of_dropBlanks_eq_nil ht]
  | cons c cs =>
    have ht : dropBlanks t = c :: cs := h.symm.trans hs
    rw [attributes_of_dropBlanks_eq_cons hs, attributes_of_dropBlanks_eq_cons ht]

/-- A value as it is written after an equals sign. -/
inductive WrittenValue where
  | quoted (quote : Char) (value : List Char)
  | unquoted (value : List Char)
  deriving DecidableEq

/-- An attribute as it is written. The equals sign of one with a value may stand between blanks. -/
inductive WrittenAttribute where
  | bare (key : List Char)
  | valued (key before after : List Char) (value : WrittenValue)
  deriving DecidableEq

namespace WrittenValue

def render : WrittenValue → List Char
  | .quoted quote value => quote :: (value ++ [quote])
  | .unquoted value => value

def value : WrittenValue → List Char
  | .quoted _ value | .unquoted value => value

/-- A value ends where it is meant to. -/
def WellFormed : WrittenValue → Prop
  | .quoted quote value => isQuote quote = true ∧ quote ∉ value
  | .unquoted value =>
    value ≠ [] ∧ (∀ c ∈ value, isBlank c = false) ∧ value.head?.all (fun c => !isQuote c) = true

instance : DecidablePred WellFormed
  | .quoted quote value => inferInstanceAs (Decidable (isQuote quote = true ∧ quote ∉ value))
  | .unquoted value =>
    have := List.decidableBAll (fun c => isBlank c = false) value
    inferInstanceAs (Decidable (value ≠ [] ∧ (∀ c ∈ value, isBlank c = false) ∧
      value.head?.all (fun c => !isQuote c) = true))

theorem isBlank_of_isQuote {c : Char} (h : isQuote c = true) : isBlank c = false := by
  simp only [isQuote, Bool.or_eq_true, decide_eq_true_eq] at h
  rcases h with rfl | rfl <;> rfl

theorem head_render {v : WrittenValue} (h : v.WellFormed) (t : List Char) :
    (v.render ++ t).head?.all (fun c => !isBlank c) = true := by
  cases v with
  | quoted quote value => simp [render, isBlank_of_isQuote h.1]
  | unquoted value =>
    obtain ⟨hne, hblank, -⟩ := h
    obtain ⟨c, cs, rfl⟩ := List.exists_cons_of_ne_nil hne
    simp [render, hblank c]

/-- The value is read to its end if a blank or nothing follows it. -/
theorem readAttributeValue_render {v : WrittenValue} (h : v.WellFormed) {t : List Char}
    (ht : t.head?.all isBlank = true) : readAttributeValue (v.render ++ t) = (v.value, t) := by
  cases v with
  | quoted quote value =>
    obtain ⟨hquote, hvalue⟩ := h
    have hinside : ∀ c ∈ value, decide (c ≠ quote) = true := by
      intro c hc
      simpa using fun he : c = quote => hvalue (he ▸ hc)
    have hshape : (WrittenValue.quoted quote value).render ++ t =
        quote :: (value ++ quote :: t) := by
      simp [render]
    rw [hshape, readAttributeValue, if_pos hquote, takeWhile_append_stop hinside (by simp),
      dropWhile_append_stop hinside (by simp)]
    rfl
  | unquoted value =>
    obtain ⟨hne, hblank, hquote⟩ := h
    have hstop : t.head?.all (fun c => !(!isBlank c)) = true := by simpa using ht
    have hvalue : ∀ c ∈ value, (!isBlank c) = true := by simpa using hblank
    obtain ⟨c, cs, rfl⟩ := List.exists_cons_of_ne_nil hne
    have hc : ¬ isQuote c = true := by simpa using hquote
    change readAttributeValue (c :: (cs ++ t)) = _
    rw [readAttributeValue, if_neg hc, ← List.cons_append, takeWhile_append_stop hvalue hstop,
      dropWhile_append_stop hvalue hstop]
    rfl

end WrittenValue

namespace WrittenAttribute

def key : WrittenAttribute → List Char
  | .bare key | .valued key .. => key

def render : WrittenAttribute → List Char
  | .bare key => key
  | .valued key before after value => key ++ (before ++ '=' :: (after ++ value.render))

/-- What the attribute says. -/
def toAttribute : WrittenAttribute → Attribute
  | .bare key => ⟨key, none⟩
  | .valued key _ _ value => ⟨key, some value.value⟩

def IsKey (key : List Char) : Prop :=
  key ≠ [] ∧ ∀ c ∈ key, endsKey c = false

instance : DecidablePred IsKey := fun key =>
  have := List.decidableBAll (fun c => endsKey c = false) key
  inferInstanceAs (Decidable (key ≠ [] ∧ ∀ c ∈ key, endsKey c = false))

/-- Key and value end where they are meant to, and there are but blanks beside the equals sign. -/
def WellFormed : WrittenAttribute → Prop
  | .bare key => IsKey key
  | .valued key before after value =>
    IsKey key ∧ (allBlank before = true ∧ allBlank after = true) ∧ value.WellFormed

instance : DecidablePred WellFormed
  | .bare key => inferInstanceAs (Decidable (IsKey key))
  | .valued key before after value =>
    inferInstanceAs (Decidable (IsKey key ∧ (allBlank before = true ∧ allBlank after = true) ∧
      value.WellFormed))

variable {a : WrittenAttribute}

theorem WellFormed.isKey (h : a.WellFormed) : IsKey a.key := by
  cases a with
  | bare key => exact h
  | valued => exact h.1

theorem exists_render_eq (a : WrittenAttribute) : ∃ tail, a.render = a.key ++ tail := by
  cases a with
  | bare key => exact ⟨[], (List.append_nil key).symm⟩
  | valued key before after value => exact ⟨_, rfl⟩

/-- An attribute begins with neither a blank nor an equals sign. -/
theorem head_render (h : a.WellFormed) (t : List Char) :
    ∃ c cs, a.render ++ t = c :: cs ∧ endsKey c = false := by
  obtain ⟨hne, hends⟩ := h.isKey
  obtain ⟨tail, htail⟩ := a.exists_render_eq
  obtain ⟨c, cs, hkey⟩ := List.exists_cons_of_ne_nil hne
  refine ⟨c, cs ++ tail ++ t, by rw [htail, hkey]; simp, hends c (hkey ▸ List.mem_cons_self)⟩

theorem dropBlanks_render (h : a.WellFormed) (t : List Char) :
    dropBlanks (a.render ++ t) = a.render ++ t := by
  obtain ⟨c, cs, hcons, hc⟩ := head_render h t
  apply dropBlanks_of_head
  have hblank : isBlank c = false := by
    simp only [endsKey, Bool.or_eq_false_iff] at hc
    exact hc.1
  simp [hcons, hblank]

theorem readAttribute_bare {key t : List Char} (hkey : IsKey key)
    (ht : t.head?.all isBlank = true) (hsign : (dropBlanks t).head? ≠ some '=') :
    readAttribute (key ++ t) = (⟨key, none⟩, dropBlanks t) := by
  have hinside : ∀ c ∈ key, (!endsKey c) = true := by simpa using hkey.2
  have hstop : t.head?.all (fun c => !(!endsKey c)) = true := by
    cases t with
    | nil => rfl
    | cons c t =>
      have hc : isBlank c = true := by simpa using ht
      simp [endsKey, hc]
  unfold readAttribute
  rw [takeWhile_append_stop hinside hstop, dropWhile_append_stop hinside hstop]
  split
  · next after heq => exact absurd (by rw [heq]; rfl) hsign
  · rfl

theorem readAttribute_valued {key before after : List Char} {value : WrittenValue}
    (h : (WrittenAttribute.valued key before after value).WellFormed) {t : List Char}
    (ht : t.head?.all isBlank = true) :
    readAttribute ((WrittenAttribute.valued key before after value).render ++ t) =
      (⟨key, some value.value⟩, t) := by
  obtain ⟨hkey, ⟨hbefore, hafter⟩, hvalue⟩ := h
  have hinside : ∀ c ∈ key, (!endsKey c) = true := by simpa using hkey.2
  have hshape : (WrittenAttribute.valued key before after value).render ++ t =
      key ++ (before ++ '=' :: (after ++ (value.render ++ t))) := by
    simp [render]
  have hstop : (before ++ '=' :: (after ++ (value.render ++ t))).head?.all
      (fun c => !(!endsKey c)) = true := by
    cases before with
    | nil => simp [endsKey]
    | cons c before =>
      have hc : isBlank c = true := List.all_eq_true.mp hbefore c List.mem_cons_self
      simp [endsKey, hc]
  have hequals : dropBlanks (before ++ '=' :: (after ++ (value.render ++ t))) =
      '=' :: (after ++ (value.render ++ t)) := by
    rw [dropBlanks_append hbefore]
    exact dropBlanks_of_head rfl
  have hread : readAttributeValue (dropBlanks (after ++ (value.render ++ t))) =
      (value.value, t) := by
    rw [dropBlanks_append hafter, dropBlanks_of_head (WrittenValue.head_render hvalue t),
      WrittenValue.readAttributeValue_render hvalue ht]
  rw [hshape]
  unfold readAttribute
  simp only [takeWhile_append_stop hinside hstop, dropWhile_append_stop hinside hstop, hequals,
    hread]

/-- The attribute is read as what it says if a blank or nothing follows it, and no equals sign
after that. -/
theorem readAttribute_render (h : a.WellFormed) {t : List Char} (ht : t.head?.all isBlank = true)
    (hsign : (dropBlanks t).head? ≠ some '=') :
    (readAttribute (a.render ++ t)).1 = a.toAttribute ∧
      dropBlanks (readAttribute (a.render ++ t)).2 = dropBlanks t := by
  cases a with
  | bare key =>
    rw [render, readAttribute_bare h ht hsign]
    exact ⟨rfl, dropBlanks_dropBlanks t⟩
  | valued key before after value =>
    rw [readAttribute_valued h ht]
    exact ⟨rfl, rfl⟩

end WrittenAttribute

/-- Attributes as they are written one after the other, each after its blanks. -/
def renderAttributes : List (List Char × WrittenAttribute) → List Char
  | [] => []
  | (blanks, a) :: as => blanks ++ (a.render ++ renderAttributes as)

/-- There are blanks, and nothing else, between two attributes; before the first there may be
some. -/
structure AreSeparated (as : List (List Char × WrittenAttribute)) : Prop where
  wellFormed : ∀ p ∈ as, p.2.WellFormed
  blank : ∀ p ∈ as, allBlank p.1 = true
  apart : ∀ p ∈ as.tail, p.1 ≠ []

instance (as : List (List Char × WrittenAttribute)) : Decidable (AreSeparated as) :=
  decidable_of_iff ((∀ p ∈ as, p.2.WellFormed) ∧ (∀ p ∈ as, allBlank p.1 = true) ∧
    ∀ p ∈ as.tail, p.1 ≠ []) ⟨fun h => ⟨h.1, h.2.1, h.2.2⟩, fun h => ⟨h.1, h.2, h.3⟩⟩

namespace AreSeparated

variable {p : List Char × WrittenAttribute} {as : List (List Char × WrittenAttribute)}
  {trailing : List Char}

theorem tail (h : AreSeparated (p :: as)) : AreSeparated as where
  wellFormed q hq := h.wellFormed q (List.mem_cons_of_mem p hq)
  blank q hq := h.blank q (List.mem_cons_of_mem p hq)
  apart q hq := h.apart q (List.mem_of_mem_tail hq)

/-- After an attribute come blanks, or nothing. -/
theorem head_rest (h : AreSeparated (p :: as)) (htrailing : allBlank trailing = true) :
    (renderAttributes as ++ trailing).head?.all isBlank = true := by
  cases as with
  | nil =>
    cases trailing with
    | nil => rfl
    | cons c trailing => simpa [renderAttributes] using List.all_eq_true.mp htrailing c (by simp)
  | cons q as =>
    obtain ⟨c, cs, hcons⟩ := List.exists_cons_of_ne_nil (h.apart q (by simp))
    have hc : isBlank c = true :=
      List.all_eq_true.mp (h.blank q (by simp)) c (by simp [hcons])
    simp [renderAttributes, hcons, hc]

theorem dropBlanks_cons (h : AreSeparated (p :: as)) (t : List Char) :
    dropBlanks (renderAttributes (p :: as) ++ t) =
      p.2.render ++ (renderAttributes as ++ t) := by
  have hp := h.wellFormed p List.mem_cons_self
  have hshape : renderAttributes (p :: as) ++ t =
      p.1 ++ (p.2.render ++ (renderAttributes as ++ t)) := by
    simp [renderAttributes]
  rw [hshape, dropBlanks_append (h.blank p List.mem_cons_self),
    WrittenAttribute.dropBlanks_render hp]

/-- No equals sign begins what comes after the blanks. -/
theorem head_dropBlanks (h : AreSeparated as) (htrailing : allBlank trailing = true) :
    (dropBlanks (renderAttributes as ++ trailing)).head? ≠ some '=' := by
  cases as with
  | nil => simp [renderAttributes, dropBlanks_of_allBlank htrailing]
  | cons p as =>
    rw [h.dropBlanks_cons]
    obtain ⟨c, cs, hcons, hc⟩ :=
      WrittenAttribute.head_render (h.wellFormed p List.mem_cons_self)
        (renderAttributes as ++ trailing)
    rw [hcons]
    rintro ⟨⟩
    simp [endsKey] at hc

/-- Reading the attributes of a tag inverts writing them. -/
theorem attributes_render (h : AreSeparated as) (htrailing : allBlank trailing = true) :
    attributes (renderAttributes as ++ trailing) = as.map fun p => p.2.toAttribute := by
  induction as with
  | nil => exact attributes_of_dropBlanks_eq_nil (dropBlanks_of_allBlank htrailing)
  | cons p as ih =>
    have hp := h.wellFormed p List.mem_cons_self
    obtain ⟨hread, hrest⟩ := WrittenAttribute.readAttribute_render hp (h.head_rest htrailing)
      (h.tail.head_dropBlanks htrailing)
    obtain ⟨c, cs, hcons, -⟩ :=
      WrittenAttribute.head_render hp (renderAttributes as ++ trailing)
    rw [attributes_of_dropBlanks_eq_cons ((h.dropBlanks_cons trailing).trans hcons), ← hcons,
      hread, attributes_congr hrest, ih h.tail]
    rfl

end AreSeparated

end InlineComponents
