import InlineComponents.Json.Scalar
import Mathlib.Data.List.Basic

namespace InlineComponents

/-- The UTF-16 code units of a code point. -/
def utf16Units (n : Nat) : List Nat :=
  if n < 0x10000 then [n]
  else [0xD800 + (n - 0x10000) / 0x400, 0xDC00 + (n - 0x10000) % 0x400]

/-- The code units of a text, which are what a script's string is made of. -/
def textUnits (s : List Char) : List Nat :=
  s.flatMap fun c => utf16Units c.toNat

/-- The number that hexadecimal digits stand for. -/
def hexNumber? (digits : List Char) : Option Nat :=
  digits.foldlM (fun n c => (hexValue? c).map (n * 16 + ·)) 0

/-- The code unit that so many hexadecimal digits give. -/
def readHexUnit (count : Nat) (s : List Char) : Option (List Nat × List Char) :=
  if s.length < count then none
  else (hexNumber? (s.take count)).map fun n => ([n], s.drop count)

/-- The code point between braces, or the code unit of four digits. -/
def readUnicodeEscape (s : List Char) : Option (List Nat × List Char) :=
  match s with
  | '{' :: s =>
    match breakAt (['}'].isPrefixOf ·) s with
    | none => none
    | some (digits, rest) =>
      if digits = [] then none
      else (hexNumber? digits).bind fun n =>
        if n ≤ 0x10FFFF then some (utf16Units n, rest.drop 1) else none
  | s => readHexUnit 4 s

/-- What ends a line of a script. -/
def isLineEnd (c : Char) : Bool :=
  c = '\n' || c = '\r' || c = '\u2028' || c = '\u2029'

/-- The character that a letter after a backslash stands for; all others stand for themselves. -/
def escapedChar (c : Char) : Char :=
  match c with
  | 'b' => '\x08'
  | 'f' => '\x0c'
  | 'n' => '\n'
  | 'r' => '\r'
  | 't' => '\t'
  | 'v' => '\x0b'
  | c => c

/-- What a backslash begins in a script's string. A line that goes on gives nothing, and of the
digits only a zero is an escape, if no digit comes after it. -/
def readScriptEscape (s : List Char) : Option (List Nat × List Char) :=
  match s with
  | [] => none
  | c :: s =>
    if c = 'x' then readHexUnit 2 s
    else if c = 'u' then readUnicodeEscape s
    else if isLineEnd c then some ([], if c = '\r' ∧ s.head? = some '\n' then s.drop 1 else s)
    else if isDigit c then
      if c = '0' ∧ s.head?.all (fun d => !isDigit d) then some ([0], s) else none
    else some (utf16Units (escapedChar c).toNat, s)

theorem utf16Units_length (n : Nat) : 0 < (utf16Units n).length ∧ (utf16Units n).length ≤ 2 := by
  unfold utf16Units
  split <;> simp

theorem textUnits_cons (c : Char) (s : List Char) :
    textUnits (c :: s) = utf16Units c.toNat ++ textUnits s :=
  rfl

theorem textUnits_append (s t : List Char) : textUnits (s ++ t) = textUnits s ++ textUnits t :=
  List.flatMap_append

theorem length_le_textUnits (s : List Char) : s.length ≤ (textUnits s).length := by
  induction s with
  | nil => exact Nat.le_refl 0
  | cons c s ih =>
    have hc := (utf16Units_length c.toNat).1
    rw [textUnits_cons, List.length_append, List.length_cons]
    omega

/-- A quote is no digit. -/
theorem quote_notMem_of_hexNumber? {digits : List Char} {n : Nat} (h : hexNumber? digits = some n) :
    '\'' ∉ digits := by
  unfold hexNumber? at h
  generalize 0 = start at h
  induction digits generalizing start with
  | nil => exact List.not_mem_nil
  | cons c digits ih =>
    rw [List.foldlM_cons] at h
    obtain ⟨next, hnext, hrest⟩ := Option.bind_eq_some_iff.mp h
    obtain ⟨value, hvalue, -⟩ := Option.map_eq_some_iff.mp hnext
    intro hm
    rcases List.mem_cons.mp hm with rfl | hm
    · cases hvalue
    · exact ih next hrest hm

/-- Some of a text is eaten, in which there is no quote, and which is written with as many code
units as it stands for, or more. -/
def EatsUnquoted (s rest : List Char) (units : List Nat) : Prop :=
  ∃ eaten, s = eaten ++ rest ∧ eaten ≠ [] ∧ '\'' ∉ eaten ∧
    units.length ≤ (textUnits eaten).length

theorem EatsUnquoted.cons {s rest : List Char} {units : List Nat} (h : EatsUnquoted s rest units)
    {c : Char} (hc : c ≠ '\'') : EatsUnquoted (c :: s) rest units := by
  obtain ⟨eaten, rfl, -, hq, hl⟩ := h
  refine ⟨c :: eaten, rfl, List.cons_ne_nil c eaten, ?_, ?_⟩
  · simpa [Ne.symm hc] using hq
  · rw [textUnits_cons, List.length_append]
    omega

theorem eatsUnquoted_readHexUnit {count : Nat} (hcount : 0 < count) {s rest : List Char}
    {units : List Nat} (h : readHexUnit count s = some (units, rest)) :
    EatsUnquoted s rest units := by
  unfold readHexUnit at h
  split at h
  · cases h
  · next hlength =>
    obtain ⟨n, hn, he⟩ := Option.map_eq_some_iff.mp h
    obtain ⟨rfl, rfl⟩ := Prod.mk.inj he
    have htaken : 0 < (s.take count).length := by
      rw [List.length_take]
      omega
    exact ⟨s.take count, (List.take_append_drop count s).symm, List.length_pos_iff.mp htaken,
      quote_notMem_of_hexNumber? hn, Nat.le_trans htaken (length_le_textUnits _)⟩

theorem eatsUnquoted_readUnicodeEscape {s rest : List Char} {units : List Nat}
    (h : readUnicodeEscape s = some (units, rest)) : EatsUnquoted s rest units := by
  unfold readUnicodeEscape at h
  split at h
  · next s =>
    split at h
    · cases h
    · next digits after hbreak =>
      obtain ⟨hs, hclosed⟩ := breakAt_append hbreak
      obtain ⟨rest', rfl⟩ := List.isPrefixOf_iff_prefix.mp hclosed
      split at h
      · cases h
      · obtain ⟨n, hn, he⟩ := Option.bind_eq_some_iff.mp h
        split at he
        · obtain ⟨rfl, rfl⟩ := Prod.mk.inj (Option.some.inj he)
          refine ⟨'{' :: digits ++ ['}'], by simp [hs], by simp, ?_, ?_⟩
          · simpa using quote_notMem_of_hexNumber? hn
          · have heaten := length_le_textUnits ('{' :: digits ++ ['}'])
            have hunits := (utf16Units_length n).2
            simp only [List.length_append, List.length_cons] at heaten
            omega
        · cases he
  · exact eatsUnquoted_readHexUnit (by decide) h

theorem length_utf16Units_escapedChar (c : Char) :
    (utf16Units (escapedChar c).toNat).length ≤ (utf16Units c.toNat).length := by
  unfold escapedChar
  split <;> first | decide | exact Nat.le_refl _

/-- An escape has no quote in it, unless it is that of a quote. -/
theorem readScriptEscape_eq_some {s rest : List Char} {units : List Nat}
    (h : readScriptEscape s = some (units, rest)) :
    EatsUnquoted s rest units ∨ s = '\'' :: rest ∧ units = ['\''.toNat] := by
  unfold readScriptEscape at h
  split at h
  · cases h
  · next c s =>
    by_cases hquote : c = '\''
    · subst hquote
      obtain ⟨rfl, rfl⟩ := Prod.mk.inj (Option.some.inj h)
      exact .inr ⟨rfl, rfl⟩
    have hbare : '\'' ∉ [c] := by simpa using Ne.symm hquote
    refine .inl ?_
    split at h
    · exact (eatsUnquoted_readHexUnit (by decide) h).cons hquote
    · split at h
      · exact (eatsUnquoted_readUnicodeEscape h).cons hquote
      · split at h
        · obtain ⟨rfl, rfl⟩ := Prod.mk.inj (Option.some.inj h)
          split
          · next hreturn =>
            obtain ⟨t, rfl⟩ := List.head?_eq_some_iff.mp hreturn.2
            exact ⟨[c, '\n'], rfl, by simp, by simpa using Ne.symm hquote, Nat.zero_le _⟩
          · exact ⟨[c], rfl, by simp, hbare, Nat.zero_le _⟩
        · split at h
          · split at h
            · obtain ⟨rfl, rfl⟩ := Prod.mk.inj (Option.some.inj h)
              exact ⟨[c], rfl, by simp, hbare, length_le_textUnits [c]⟩
            · cases h
          · obtain ⟨rfl, rfl⟩ := Prod.mk.inj (Option.some.inj h)
            refine ⟨[c], rfl, by simp, hbare, ?_⟩
            simpa [textUnits] using length_utf16Units_escapedChar c

theorem readScriptEscape_length {s rest : List Char} {units : List Nat}
    (h : readScriptEscape s = some (units, rest)) : rest.length < s.length := by
  rcases readScriptEscape_eq_some h with ⟨eaten, rfl, hne, -⟩ | ⟨rfl, -⟩
  · have := List.length_pos_iff.mpr hne
    rw [List.length_append]
    omega
  · exact Nat.lt_succ_self _

/-- A string in single quotes after its opening quote, and the text after its closing one. It ends
at the first quote that is not escaped, and no line ends in it. -/
def readLiteral (s : List Char) : Option (List Nat × List Char) :=
  match s with
  | [] => none
  | c :: s =>
    if c = '\'' then some ([], s)
    else if c = '\n' || c = '\r' then none
    else if c = '\\' then
      match h : readScriptEscape s with
      | none => none
      | some (units, rest) =>
        have := readScriptEscape_length h
        (readLiteral rest).map fun read => (units ++ read.1, read.2)
    else (readLiteral s).map fun read => (utf16Units c.toNat ++ read.1, read.2)
termination_by s.length

/-- A character that stands for itself in a string in single quotes. -/
def IsBare (c : Char) : Prop :=
  c ≠ '\'' ∧ c ≠ '\\' ∧ c ≠ '\n' ∧ c ≠ '\r'

instance (c : Char) : Decidable (IsBare c) :=
  inferInstanceAs (Decidable (c ≠ '\'' ∧ c ≠ '\\' ∧ c ≠ '\n' ∧ c ≠ '\r'))

theorem readLiteral_cons_of_isBare {c : Char} (h : IsBare c) (s : List Char) :
    readLiteral (c :: s) =
      (readLiteral s).map fun read => (utf16Units c.toNat ++ read.1, read.2) := by
  rw [readLiteral, if_neg h.1, if_neg (by simp [h.2.2.1, h.2.2.2]), if_neg h.2.1]

theorem readLiteral_of_isBare {text : List Char} (h : ∀ c ∈ text, IsBare c) (rest : List Char) :
    readLiteral (text ++ '\'' :: rest) = some (textUnits text, rest) := by
  induction text with
  | nil => rw [List.nil_append, readLiteral, if_pos rfl]; rfl
  | cons c text ih =>
    rw [List.cons_append, readLiteral_cons_of_isBare (h c List.mem_cons_self),
      ih fun d hd => h d (List.mem_cons_of_mem c hd)]
    rfl

/-- What is eaten in front of the first quote is eaten of the text before it. -/
theorem exists_left_of_append_eq {text eaten rest rest' : List Char}
    (h : text ++ '\'' :: rest = eaten ++ rest') (hq : '\'' ∉ eaten) :
    ∃ left, text = eaten ++ left ∧ rest' = left ++ '\'' :: rest := by
  rcases List.append_eq_append_iff.mp h with ⟨beyond, rfl, hb⟩ | ⟨left, rfl, rfl⟩
  · cases beyond with
    | nil => exact ⟨[], by simp, hb.symm⟩
    | cons c beyond =>
      obtain ⟨rfl, -⟩ := List.cons.inj hb
      simp at hq
  · exact ⟨left, rfl, rfl⟩

/-- What can be read of a text without a quote: as many units as are written, if all of it stands
for itself, or fewer; or else a quote that the text does not hold. -/
def IsReadOf (text : List Char) (units : List Nat) : Prop :=
  (units.length ≤ (textUnits text).length ∧
    (units.length = (textUnits text).length → ∀ c ∈ text, IsBare c)) ∨
  ∃ early late, units = early ++ '\''.toNat :: late ∧ early.length < (textUnits text).length

theorem IsReadOf.cons {c : Char} {text : List Char} {units : List Nat} (hc : IsBare c)
    (h : IsReadOf text units) : IsReadOf (c :: text) (utf16Units c.toNat ++ units) := by
  unfold IsReadOf
  rw [textUnits_cons, List.length_append, List.length_append]
  rcases h with ⟨hle, hall⟩ | ⟨early, late, rfl, hlt⟩
  · refine .inl ⟨by omega, fun heq => ?_⟩
    exact List.forall_mem_cons.mpr ⟨hc, hall (by omega)⟩
  · refine .inr ⟨utf16Units c.toNat ++ early, late, by rw [List.append_assoc], ?_⟩
    rw [List.length_append]
    omega

/-- An escape takes a unit more than it gives, that of the backslash. -/
theorem IsReadOf.escape {eaten left : List Char} {units more : List Nat}
    (hle : units.length ≤ (textUnits eaten).length) (h : IsReadOf left more) :
    IsReadOf ('\\' :: (eaten ++ left)) (units ++ more) := by
  have hbackslash : (utf16Units '\\'.toNat).length = 1 := rfl
  unfold IsReadOf
  rw [textUnits_cons, textUnits_append, List.length_append, List.length_append, List.length_append]
  rcases h with ⟨hmore, -⟩ | ⟨early, late, rfl, hlt⟩
  · exact .inl ⟨by omega, fun heq => by omega⟩
  · refine .inr ⟨units ++ early, late, by rw [List.append_assoc], ?_⟩
    rw [List.length_append]
    omega

theorem readLiteral_of_notMem {text rest after : List Char} {units : List Nat} (hq : '\'' ∉ text)
    (h : readLiteral (text ++ '\'' :: rest) = some (units, after)) : IsReadOf text units := by
  induction hn : text.length using Nat.strongRecOn generalizing text units after with
  | ind n ih =>
  subst hn
  cases text with
  | nil =>
    rw [List.nil_append, readLiteral, if_pos rfl] at h
    obtain ⟨rfl, -⟩ := Prod.mk.inj (Option.some.inj h)
    exact .inl ⟨Nat.le_refl _, fun _ => List.forall_mem_nil IsBare⟩
  | cons c text =>
    have hc : c ≠ '\'' := fun he => hq (he ▸ List.mem_cons_self)
    have htext : '\'' ∉ text := fun hm => hq (List.mem_cons_of_mem c hm)
    rw [List.cons_append, readLiteral, if_neg hc] at h
    split at h
    · cases h
    · next hline =>
      split at h
      · next hescape =>
        subst hescape
        split at h
        · cases h
        · next units' rest' he =>
          obtain ⟨⟨more, after'⟩, hmore, hunits⟩ := Option.map_eq_some_iff.mp h
          obtain ⟨rfl, rfl⟩ := Prod.mk.inj hunits
          rcases readScriptEscape_eq_some he with ⟨eaten, heaten, -, hbare, hle⟩ | ⟨hquote, rfl⟩
          -- the escape is within the text, and what is left of that is read on
          · obtain ⟨left, rfl, rfl⟩ := exists_left_of_append_eq heaten hbare
            have hleft : '\'' ∉ left := fun hm => htext (List.mem_append_right _ hm)
            have hless : left.length < ('\\' :: (eaten ++ left)).length := by
              rw [List.length_cons, List.length_append]
              omega
            exact .escape hle (ih left.length hless hleft hmore rfl)
          · cases text with
            | nil => exact .inr ⟨[], more, rfl, by decide⟩
            | cons d text =>
              obtain ⟨rfl, -⟩ := List.cons.inj hquote
              exact absurd List.mem_cons_self htext
      · next hescape =>
        obtain ⟨⟨more, after'⟩, hmore, hunits⟩ := Option.map_eq_some_iff.mp h
        obtain ⟨rfl, rfl⟩ := Prod.mk.inj hunits
        have hhere : IsBare c := by
          simp only [Bool.or_eq_true, decide_eq_true_eq, not_or] at hline
          exact ⟨hc, hescape, hline⟩
        exact .cons hhere (ih text.length (Nat.lt_succ_self _) htext hmore rfl)

theorem quote_mem_of_textUnits {s : List Char} (h : '\''.toNat ∈ textUnits s) : '\'' ∈ s := by
  obtain ⟨c, hc, hm⟩ := List.mem_flatMap.mp h
  unfold utf16Units at hm
  split at hm
  · obtain rfl : '\'' = c := Char.toNat_inj.mp (List.mem_singleton.mp hm)
    exact hc
  · have hquote : '\''.toNat = 0x27 := rfl
    simp only [hquote, List.mem_cons, List.not_mem_nil, or_false] at hm
    omega

theorem mem_of_append_cons_eq {α : Type} {early late a b : List α} {q : α}
    (h : early ++ q :: late = a ++ b) (hl : early.length < a.length) : q ∈ a := by
  rcases List.append_eq_append_iff.mp h with ⟨more, rfl, hm⟩ | ⟨more, rfl, -⟩
  · cases more with
    | nil => simp at hl
    | cons r more =>
      obtain ⟨rfl, -⟩ := List.cons.inj hm
      simp
  · rw [List.length_append] at hl
    omega

/-- A text between single quotes is read as it is written just if all of it stands for itself. -/
theorem readLiteral_eq_text_iff {text rest : List Char} :
    (readLiteral (text ++ '\'' :: rest)).map Prod.fst = some (textUnits text) ↔
      ∀ c ∈ text, IsBare c := by
  constructor
  · intro h
    obtain ⟨⟨units, after⟩, hread, rfl⟩ := Option.map_eq_some_iff.mp h
    by_cases hq : '\'' ∈ text
    -- the string would end at the first quote, or that one is read again at an earlier place
    · obtain ⟨first, later, rfl, hfirst⟩ := List.eq_append_cons_of_mem hq
      rw [List.append_assoc] at hread
      rw [textUnits_append] at hread
      rcases readLiteral_of_notMem hfirst hread with ⟨hle, -⟩ | ⟨early, late, he, hlt⟩
      · have hpos := length_le_textUnits ('\'' :: later)
        simp only [List.length_append, List.length_cons] at hle hpos
        omega
      · exact absurd (quote_mem_of_textUnits (mem_of_append_cons_eq he.symm hlt)) hfirst
    · rcases readLiteral_of_notMem hq hread with ⟨-, heq⟩ | ⟨early, late, he, -⟩
      · exact heq rfl
      · refine absurd (quote_mem_of_textUnits ?_) hq
        have he : textUnits text = early ++ '\''.toNat :: late := he
        rw [he]
        simp
  · intro h
    rw [readLiteral_of_isBare h]
    rfl

end InlineComponents
