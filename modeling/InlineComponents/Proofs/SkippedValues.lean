import Mathlib.Data.List.DropRight
import InlineComponents.Json.Record
import InlineComponents.Proofs.RecordFields

namespace InlineComponents

theorem dropJsonBlanks_idem (s : List Char) :
    dropJsonBlanks (dropJsonBlanks s) = dropJsonBlanks s :=
  List.dropWhile_idempotent isJsonBlank s

theorem dropJsonBlanks_of_eq_cons {s cs : List Char} {c : Char}
    (h : dropJsonBlanks s = c :: cs) : dropJsonBlanks (c :: cs) = c :: cs := by
  rw [← h, dropJsonBlanks_idem]

theorem eq_of_startOf_eq_list {c : Char} (h : startOf c = .list) : c = '[' := by
  unfold startOf at h
  split_ifs at h with hn ht hf hminus hdigit hquote hlist hobject
  exact hlist

theorem eq_of_startOf_eq_object {c : Char} (h : startOf c = .object) : c = '{' := by
  unfold startOf at h
  split_ifs at h with hn ht hf hminus hdigit hquote hlist hobject
  exact hobject

section Marks

variable {first : Bool} {s t : List Char}

theorem nextItem_eq_none (h : nextItem first s = .ok none) :
    ∃ cs, dropJsonBlanks s = ']' :: cs := by
  unfold nextItem at h
  split at h
  · cases h
  · next c cs hs =>
    split at h
    · next hc => exact ⟨cs, hc ▸ hs⟩
    · split at h
      · cases h
      · split at h
        · split at h
          · cases h
          · split at h <;> cases h
        · cases h

/-- An item begins where the text is, or after a comma. -/
theorem nextItem_eq_some (h : nextItem first s = .ok (some t)) :
    ∃ c cs, t = c :: cs ∧ c ≠ ']' ∧ (first = true ∧ dropJsonBlanks s = c :: cs ∨
      first = false ∧ ∃ ds, dropJsonBlanks s = ',' :: ds ∧ dropJsonBlanks ds = c :: cs) := by
  unfold nextItem at h
  split at h
  · cases h
  · next c cs hs =>
    split at h
    · cases h
    · next hend =>
      split at h
      · next hfirst =>
        cases h
        exact ⟨c, cs, rfl, hend, .inl ⟨hfirst, hs⟩⟩
      · next hfirst =>
        split at h
        · next hcomma =>
          subst hcomma
          split at h
          · cases h
          · next d ds hd =>
            split at h
            · cases h
            · next hend =>
              cases h
              exact ⟨d, ds, rfl, hend, .inr ⟨by simpa using hfirst, cs, hs, hd⟩⟩
        · cases h

theorem nextKey_eq_none (h : nextKey first s = .ok none) :
    ∃ cs, dropJsonBlanks s = '}' :: cs := by
  unfold nextKey at h
  split at h
  · cases h
  · next c cs hs =>
    split at h
    · next hc => exact ⟨cs, hc ▸ hs⟩
    · split at h
      · split at h <;> cases h
      · split at h
        · split at h
          · cases h
          · split at h
            · cases h
            · split at h <;> cases h
        · cases h

/-- A key begins where the text is, or after a comma. -/
theorem nextKey_eq_some (h : nextKey first s = .ok (some t)) :
    first = true ∧ dropJsonBlanks s = '"' :: t ∨
      first = false ∧ ∃ ds, dropJsonBlanks s = ',' :: ds ∧ dropJsonBlanks ds = '"' :: t := by
  unfold nextKey at h
  split at h
  · cases h
  · next c cs hs =>
    split at h
    · cases h
    · split at h
      · next hfirst =>
        split at h
        · next hc =>
          cases h
          exact .inl ⟨hfirst, hc ▸ hs⟩
        · cases h
      · next hfirst =>
        split at h
        · next hcomma =>
          subst hcomma
          split at h
          · cases h
          · next d ds hd =>
            split at h
            · next hquote =>
              cases h
              exact .inr ⟨by simpa using hfirst, cs, hs, hquote ▸ hd⟩
            · split at h <;> cases h
        · cases h

end Marks

section Scalars

variable {s rest : List Char} {n : Number}

theorem skipExponent_of_readExponent {below : Bool} {digits : List Char}
    (h : readExponent s = .ok (below, digits, rest)) : skipNumber.exponent s = .ok rest := by
  unfold readExponent at h
  split at h
  next below unsigned hsign =>
    have hunsigned : dropSign s = unsigned := by
      split at hsign
      · cases hsign
        simp [dropSign]
      · cases hsign
        simp [dropSign]
      · next hplus hminus =>
        cases hsign
        cases s <;> simp_all [dropSign]
    split at h
    · cases h
    · next c cs =>
      split at h
      · next hc =>
        cases h
        rw [skipNumber.exponent, hunsigned]
        simp [hc]
      · cases h

theorem skipExponent_of_withExponent {negative : Bool} {significand : Nat} {exponent : Int}
    (h : withExponent negative significand exponent s = .ok (n, rest)) :
    skipNumber.exponent s = .ok rest := by
  obtain ⟨⟨below, digits, after⟩, hread, hscaled⟩ := Except.bind_eq_ok_iff.mp h
  dsimp only at hscaled
  rw [skipExponent_of_readExponent hread]
  split at hscaled
  · obtain ⟨number, -, hresult⟩ := Except.bind_eq_ok_iff.mp hscaled
    cases hresult
    rfl
  · split at hscaled
    · cases hscaled
    · cases hscaled
      rfl

theorem skipFraction_of_readFraction {negative : Bool} {whole : Nat} {exponent : Int}
    (h : readFraction negative whole exponent s = .ok (n, rest)) :
    skipNumber.fraction s = .ok rest := by
  have hscaled {w : Nat} {e : Int} {t : List Char}
      (h : (do pure (← scaled negative w e, t)) = Except.ok (n, rest)) : t = rest := by
    obtain ⟨number, -, hresult⟩ := Except.bind_eq_ok_iff.mp h
    cases hresult
    rfl
  unfold readFraction at h
  split at h
  · next digits =>
    dsimp only at h
    split at h
    · cases h
    · next hdigits =>
      have hhead : digits.head?.any isDigit = true := by
        cases digits with
        | nil => exact absurd rfl hdigits
        | cons d ds =>
          by_contra hd
          exact hdigits (List.takeWhile_cons_of_neg (by simpa using hd))
      rw [skipNumber.fraction, if_pos rfl, if_pos hhead]
      split at h
      · next c after hafter =>
        rw [hafter]
        dsimp only
        split at h
        · next hc => rw [if_pos hc, skipExponent_of_withExponent h]
        · next hc => rw [if_neg hc, ← hafter, hscaled h]
      · next hafter =>
        rw [hafter]
        exact congrArg Except.ok (hscaled h)
  · next c after hpoint =>
    rw [skipNumber.fraction, if_neg hpoint]
    split at h
    · next hc => rw [if_pos hc, skipExponent_of_withExponent h]
    · next hc => rw [if_neg hc, hscaled h]
  · rw [skipNumber.fraction, hscaled h]

theorem skipFraction_of_whole (h : ¬ beginsFraction s) : skipNumber.fraction s = .ok s := by
  unfold skipNumber.fraction
  split
  · rfl
  · next c cs =>
    simp only [beginsFraction, List.head?_cons, Option.any_some, Bool.or_eq_true,
      decide_eq_true_eq, not_or] at h
    rw [if_neg h.1, if_neg h.2]

/-- A number that is read is skipped alike. -/
theorem skipNumber_of_readNumber {negative : Bool}
    (h : readNumber negative s = .ok (n, rest)) : skipNumber s = .ok rest := by
  unfold readNumber at h
  split at h
  · cases h
  · next c cs =>
    split at h
    · cases h
    · next hdigit =>
      have hc : isDigit c = true := by simpa using hdigit
      split at h
      · cases h
      · next hzero =>
        have hdrop : (c :: cs).dropWhile isDigit = cs.dropWhile isDigit :=
          List.dropWhile_cons_of_pos hc
        rw [skipNumber, if_neg (by simp [hc, hzero]), ← hdrop]
        dsimp only at h
        split at h
        · exact skipFraction_of_readFraction h
        · next hwhole =>
          cases h
          rw [Bool.not_eq_true, Bool.or_eq_false_iff] at hwhole
          exact skipFraction_of_whole (by simp [hwhole.2])

/-- Of a character given by two units the second one is skipped as an escape of its own. -/
theorem skipString_of_readUnits {c : Char} (h : readUnits s = .ok (c, rest)) :
    skipString ('\\' :: 'u' :: s) = skipString rest := by
  have hskip {digits after : List Char} {n : Nat} (hx : readHex digits = .ok (n, after)) :
      skipString ('\\' :: 'u' :: digits) = skipString after := by
    rw [skipString]
    split
    · next hread =>
      cases hx.symm.trans hread
      rfl
    · next hread => cases hx.symm.trans hread
  obtain ⟨⟨high, after⟩, hx, hlow⟩ := Except.bind_eq_ok_iff.mp h
  rw [hskip hx]
  dsimp only at hlow
  split at hlow
  · cases hlow
  · split at hlow
    · cases hlow
      rfl
    · split at hlow
      · cases hlow
      · cases hlow
      · next low =>
        obtain ⟨⟨low, last⟩, hy, hchar⟩ := Except.bind_eq_ok_iff.mp hlow
        dsimp only at hchar
        split at hchar
        · cases hchar
        · obtain ⟨-, rfl⟩ : _ ∧ last = rest := by simpa [pure, Except.pure] using hchar
          exact hskip hy
      · cases hlow

theorem skipString_of_readEscape {c : Char} (h : readEscape s = .ok (c, rest)) :
    skipString ('\\' :: s) = skipString rest := by
  unfold readEscape at h
  split at h
  · cases h
  · exact skipString_of_readUnits h
  · next d after hu =>
    split at h
    · next e he =>
      cases h
      simp [skipString, he]
    · cases h

theorem skipString_of_readString_go {seen : List Char} {text : String}
    (h : readString.go seen s = .ok (text, rest)) : skipString s = .ok rest := by
  fun_induction readString.go seen s with
  | case1 => cases h
  | case2 seen after =>
    cases h
    rw [skipString]
  | case3 seen s c after hescape hlength ih =>
    rw [skipString_of_readEscape hescape]
    exact ih h
  | case4 => cases h
  | case5 => cases h
  | case6 seen c s hquote hslash hcontrol ih =>
    rw [← ih h]
    simp [skipString, hcontrol]

theorem skipString_of_readString {text : String} (h : readString s = .ok (text, rest)) :
    skipString s = .ok rest :=
  skipString_of_readString_go h

end Scalars

namespace skipValue

theorem go_after_nil (s : List Char) : go .after [] s = .ok s := by
  rw [go]
  rfl

theorem go_of_step {state next : SkipState} {opened inner : List Open} {s rest : List Char}
    (h : skipStep state opened s = .ok (next, inner, rest)) :
    go state opened s = go next inner rest := by
  rw [go]
  split
  · next hend =>
    simp only [Bool.and_eq_true, decide_eq_true_eq, List.isEmpty_iff] at hend
    obtain ⟨rfl, rfl⟩ := hend
    cases h
  · split
    · next heq =>
      cases h.symm.trans heq
      rfl
    · next heq => cases h.symm.trans heq

/-- Blanks in front of a value count for nothing. -/
theorem go_value_congr {s t : List Char} (h : dropJsonBlanks s = dropJsonBlanks t)
    (opened : List Open) : go .value opened s = go .value opened t := by
  -- A step looks at a text past its blanks only, so both take the same one or fail alike.
  have hstep : skipStep .value opened s = skipStep .value opened t := by
    unfold skipStep
    rw [h]
  cases hs : skipStep .value opened s with
  | ok next => rw [go_of_step hs, go_of_step (hstep.symm.trans hs)]
  | error fault =>
    have ht := hstep.symm.trans hs
    rw [go, go, if_neg (by simp), if_neg (by simp)]
    split
    · next heq => cases hs.symm.trans heq
    · split
      · next heq => cases ht.symm.trans heq
      · next hfault _ hfault' =>
        cases hs.symm.trans hfault
        cases ht.symm.trans hfault'
        rfl

end skipValue

/-- What is read here is also passed over, whatever is open around it. -/
def SkipsAlike {α : Type} (read : List Char → Except JsonFault (α × List Char)) : Prop :=
  ∀ ⦃s rest : List Char⦄ ⦃a : α⦄, read s = .ok (a, rest) →
    ∀ opened, skipValue.go .value opened s = skipValue.go .after opened rest

theorem SkipsAlike.skipValue_eq {α : Type} {read : List Char → Except JsonFault (α × List Char)}
    (hread : SkipsAlike read) {s rest : List Char} {a : α} (h : read s = .ok (a, rest)) :
    skipValue s = .ok rest := by
  rw [skipValue, hread h, skipValue.go_after_nil]

section Containers

variable {read : List Char → Except JsonFault (Json × List Char)} {s rest room : List Char}

theorem SkipsAlike.moreItems (hread : SkipsAlike read) {items result : List Json}
    (hitems : items ≠ []) (h : readItems read items s room = .ok (result, rest))
    (opened : List Open) :
    skipValue.go .after (.list :: opened) s = skipValue.go .after opened rest := by
  -- After an item both stand at a comma or at the end; the room only bounds the items to come.
  induction room generalizing items s with
  | nil => cases h
  | cons _ room ih =>
    obtain ⟨next, hnext, hrest⟩ := Except.bind_eq_ok_iff.mp h
    cases next with
    | none =>
      obtain ⟨cs, hs⟩ := nextItem_eq_none hnext
      cases hrest
      rw [hs]
      exact skipValue.go_of_step (by simp [skipStep, hs])
    | some t =>
      obtain ⟨⟨item, after⟩, hitem, hmore⟩ := Except.bind_eq_ok_iff.mp hrest
      obtain ⟨c, cs, rfl, -, ⟨hfirst, -⟩ | ⟨-, ds, hs, hd⟩⟩ := nextItem_eq_some hnext
      · exact absurd (List.isEmpty_iff.mp hfirst) hitems
      · calc skipValue.go .after (.list :: opened) s
            = skipValue.go .value (.list :: opened) ds :=
              skipValue.go_of_step (by simp [skipStep, hs])
          _ = skipValue.go .value (.list :: opened) (c :: cs) :=
              skipValue.go_value_congr (hd.trans (dropJsonBlanks_of_eq_cons hd).symm) _
          _ = skipValue.go .after (.list :: opened) after := hread hitem _
          _ = skipValue.go .after opened rest := ih (List.cons_ne_nil _ _) hmore

/-- A key with its colon, where one is wanted. -/
theorem skipValue.go_key {t after colon : List Char} {key : String}
    (hs : dropJsonBlanks s = '"' :: t) (hkey : readString t = .ok (key, after))
    (hcolon : readColon after = .ok colon) (opened : List Open) :
    skipValue.go .key opened s = skipValue.go .value opened colon := by
  refine skipValue.go_of_step ?_
  simp [skipStep, hs, skipString_of_readString hkey, Except.bind, hcolon, Except.map]

theorem SkipsAlike.moreFields (hread : SkipsAlike read) {fields result : Fields}
    (h : readFields read false fields s room = .ok (result, rest)) (opened : List Open) :
    skipValue.go .after (.object :: opened) s = skipValue.go .after opened rest := by
  induction room generalizing fields s with
  | nil => cases h
  | cons _ room ih =>
    obtain ⟨next, hnext, hrest⟩ := Except.bind_eq_ok_iff.mp h
    cases next with
    | none =>
      obtain ⟨cs, hs⟩ := nextKey_eq_none hnext
      cases hrest
      rw [hs]
      exact skipValue.go_of_step (by simp [skipStep, hs])
    | some t =>
      obtain ⟨⟨key, after⟩, hkey, hrest⟩ := Except.bind_eq_ok_iff.mp hrest
      obtain ⟨colon, hcolon, hrest⟩ := Except.bind_eq_ok_iff.mp hrest
      obtain ⟨⟨value, last⟩, hvalue, hmore⟩ := Except.bind_eq_ok_iff.mp hrest
      obtain ⟨hfirst, -⟩ | ⟨-, ds, hs, hd⟩ := nextKey_eq_some hnext
      · cases hfirst
      · calc skipValue.go .after (.object :: opened) s
            = skipValue.go .key (.object :: opened) ds :=
              skipValue.go_of_step (by simp [skipStep, hs])
          _ = skipValue.go .value (.object :: opened) colon :=
              skipValue.go_key hd hkey hcolon _
          _ = skipValue.go .after (.object :: opened) last := hread hvalue _
          _ = skipValue.go .after opened rest := ih hmore

variable {text : List Char}

theorem SkipsAlike.list (hread : SkipsAlike read) {items : List Json}
    (htext : dropJsonBlanks text = '[' :: s)
    (h : readItems read [] s room = .ok (items, rest)) (opened : List Open) :
    skipValue.go .value opened text = skipValue.go .after opened rest := by
  cases room with
  | nil => cases h
  | cons _ room =>
    obtain ⟨next, hnext, hrest⟩ := Except.bind_eq_ok_iff.mp h
    cases next with
    | none =>
      obtain ⟨cs, hs⟩ := nextItem_eq_none hnext
      cases hrest
      rw [hs]
      exact skipValue.go_of_step (by simp [skipStep, htext, startOf, isDigit, hs])
    | some t =>
      obtain ⟨⟨item, after⟩, hitem, hmore⟩ := Except.bind_eq_ok_iff.mp hrest
      obtain ⟨c, cs, rfl, hend, ⟨-, hs⟩ | ⟨hfirst, -⟩⟩ := nextItem_eq_some hnext
      · calc skipValue.go .value opened text
            = skipValue.go .value (.list :: opened) (c :: cs) :=
              skipValue.go_of_step (by simp [skipStep, htext, startOf, isDigit, hs, hend])
          _ = skipValue.go .after (.list :: opened) after := hread hitem _
          _ = skipValue.go .after opened rest :=
              hread.moreItems (List.cons_ne_nil _ _) hmore opened
      · cases hfirst

theorem SkipsAlike.object (hread : SkipsAlike read) {fields : Fields}
    (htext : dropJsonBlanks text = '{' :: s)
    (h : readFields read true [] s room = .ok (fields, rest))
    (opened : List Open) :
    skipValue.go .value opened text = skipValue.go .after opened rest := by
  cases room with
  | nil => cases h
  | cons _ room =>
    obtain ⟨next, hnext, hrest⟩ := Except.bind_eq_ok_iff.mp h
    cases next with
    | none =>
      obtain ⟨cs, hs⟩ := nextKey_eq_none hnext
      cases hrest
      rw [hs]
      exact skipValue.go_of_step (by simp [skipStep, htext, startOf, isDigit, hs])
    | some t =>
      obtain ⟨⟨key, after⟩, hkey, hrest⟩ := Except.bind_eq_ok_iff.mp hrest
      obtain ⟨colon, hcolon, hrest⟩ := Except.bind_eq_ok_iff.mp hrest
      obtain ⟨⟨value, last⟩, hvalue, hmore⟩ := Except.bind_eq_ok_iff.mp hrest
      obtain ⟨-, hs⟩ | ⟨hfirst, -⟩ := nextKey_eq_some hnext
      · calc skipValue.go .value opened text
            = skipValue.go .key (.object :: opened) ('"' :: t) :=
              skipValue.go_of_step (by simp [skipStep, htext, startOf, isDigit, hs])
          _ = skipValue.go .value (.object :: opened) colon :=
              skipValue.go_key (dropJsonBlanks_of_eq_cons hs) hkey hcolon _
          _ = skipValue.go .after (.object :: opened) last := hread hvalue _
          _ = skipValue.go .after opened rest := hread.moreFields hmore opened
      · cases hfirst

end Containers

/-- A value that is read is passed over to where reading it ends. -/
theorem skipsAlike_readValue (depth : Nat) : SkipsAlike (readValue depth) := by
  -- For every stack at once, since the items of a list are read with the list on it.
  induction depth using Nat.strongRecOn with
  | ind depth ih =>
    intro s rest value h opened
    unfold readValue at h
    split at h
    · cases h
    · next c cs hs =>
      split at h
      · next letters word _ hc =>
        obtain ⟨after, hword, hrest⟩ := Except.bind_eq_ok_iff.mp h
        cases hrest
        exact skipValue.go_of_step (by simp [skipStep, hs, hc, hword, Except.map])
      · next hc =>
        obtain ⟨⟨n, after⟩, hnumber, hrest⟩ := Except.bind_eq_ok_iff.mp h
        cases hrest
        refine skipValue.go_of_step ?_
        simp [skipStep, hs, hc, skipNumber_of_readNumber hnumber, Except.map]
      · next hc =>
        obtain ⟨⟨n, after⟩, hnumber, hrest⟩ := Except.bind_eq_ok_iff.mp h
        cases hrest
        refine skipValue.go_of_step ?_
        simp [skipStep, hs, hc, skipNumber_of_readNumber hnumber, Except.map]
      · next hc =>
        obtain ⟨⟨text, after⟩, hstring, hrest⟩ := Except.bind_eq_ok_iff.mp h
        cases hrest
        refine skipValue.go_of_step ?_
        simp [skipStep, hs, hc, skipString_of_readString hstring, Except.map]
      · next depth hc =>
        obtain ⟨⟨items, after⟩, hitems, hrest⟩ := Except.bind_eq_ok_iff.mp h
        cases hrest
        obtain rfl := eq_of_startOf_eq_list hc
        exact (ih (depth + 1) (by omega)).list hs hitems opened
      · next depth hc =>
        obtain ⟨⟨fields, after⟩, hfields, hrest⟩ := Except.bind_eq_ok_iff.mp h
        cases hrest
        obtain rfl := eq_of_startOf_eq_object hc
        exact (ih (depth + 1) (by omega)).object hs hfields opened
      · cases h
      · cases h
      · cases h

end InlineComponents
