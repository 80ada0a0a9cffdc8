import InlineComponents.Json.Reader

namespace InlineComponents

def dropSign (s : List Char) : List Char :=
  if s.head?.any fun c => c = '+' || c = '-' then s.drop 1 else s

/-- A number that nobody asked for: only its form is checked. -/
def skipNumber (s : List Char) : Except JsonFault (List Char) :=
  match s with
  | [] => .error .malformedNumber
  | c :: cs =>
    if !isDigit c || (c = '0' && cs.head?.any isDigit) then .error .malformedNumber
    else fraction (cs.dropWhile isDigit)
where
  exponent (s : List Char) : Except JsonFault (List Char) :=
    let digits := dropSign s
    if digits.head?.any isDigit then .ok (digits.dropWhile isDigit) else .error .malformedNumber
  fraction (s : List Char) : Except JsonFault (List Char) :=
    match s with
    | [] => .ok []
    | c :: cs =>
      if c = '.' then
        if cs.head?.any isDigit then
          match cs.dropWhile isDigit with
          | [] => .ok []
          | d :: ds => if isExponentMark d then exponent ds else .ok (d :: ds)
        else .error .malformedNumber
      else if isExponentMark c then exponent cs
      else .ok (c :: cs)

/-- A string that nobody asked for; its surrogates need no partner. -/
def skipString (s : List Char) : Except JsonFault (List Char) :=
  match s with
  | [] => .error .endInString
  | '"' :: rest => .ok rest
  | '\\' :: rest =>
    match rest with
    | [] => .error .endInString
    | 'u' :: digits =>
      match h : readHex digits with
      | .ok (_, after) =>
        have := readHex_length h
        skipString after
      | .error fault => .error fault
    | c :: rest => if (simpleEscape? c).isSome then skipString rest else .error .malformedEscape
  | c :: rest => if c.toNat < 32 then .error .controlCharacter else skipString rest
termination_by s.length

/-- What is still open around a skipped value. -/
inductive Open where
  | list
  | object
  deriving DecidableEq, Repr

/-- Where a skipped value stands: before a value, before a key, or after a value. -/
inductive SkipState where
  | value
  | key
  | after
  deriving DecidableEq, Repr

/-- One step over a skipped value: over a word, a number, a string, a key with its colon, or a
mark. What is open is kept from the inside out. -/
def skipStep (state : SkipState) (opened : List Open) (s : List Char) :
    Except JsonFault (SkipState × List Open × List Char) :=
  match state, opened, dropJsonBlanks s with
  | .value, _, [] => .error .endInValue
  | .value, opened, c :: cs =>
    match startOf c with
    | .word letters _ => (readWord letters cs).map (.after, opened, ·)
    | .numeral true => (skipNumber cs).map (.after, opened, ·)
    | .numeral false => (skipNumber (c :: cs)).map (.after, opened, ·)
    | .string => (skipString cs).map (.after, opened, ·)
    | .list =>
      match dropJsonBlanks cs with
      | [] => .error .endInList
      | d :: ds =>
        if d = ']' then .ok (.after, opened, ds) else .ok (.value, .list :: opened, d :: ds)
    | .object =>
      match dropJsonBlanks cs with
      | [] => .error .endInObject
      | d :: ds =>
        if d = '}' then .ok (.after, opened, ds) else .ok (.key, .object :: opened, d :: ds)
    | .nothing => .error .noValue
  | .key, _, [] => .error .endInObject
  | .key, opened, c :: cs =>
    if c = '"' then ((skipString cs).bind readColon).map (.value, opened, ·)
    else .error .keyNotString
  | .after, [], _ => .error .trailingCharacters
  | .after, .list :: _, [] => .error .endInList
  | .after, .list :: outer, c :: cs =>
    if c = ',' then .ok (.value, .list :: outer, cs)
    else if c = ']' then .ok (.after, outer, cs)
    else .error .noCommaInList
  | .after, .object :: _, [] => .error .endInObject
  | .after, .object :: outer, c :: cs =>
    if c = ',' then .ok (.key, .object :: outer, cs)
    else if c = '}' then .ok (.after, outer, cs)
    else .error .noCommaInObject

private theorem dropJsonBlanks_cons_length {c : Char} {s cs : List Char}
    (h : dropJsonBlanks s = c :: cs) : cs.length < s.length := by
  have := (List.dropWhile_suffix isJsonBlank (l := s)).length_le
  rw [← dropJsonBlanks, h, List.length_cons] at this
  omega

private theorem dropDigits_length_le (s : List Char) :
    (s.dropWhile isDigit).length ≤ s.length :=
  (List.dropWhile_suffix isDigit).length_le

theorem readWord_length_le {letters s rest : List Char} (h : readWord letters s = .ok rest) :
    rest.length ≤ s.length := by
  fun_induction readWord letters s with
  | case1 s => simp_all
  | case2 => simp at h
  | case3 letters c cs ih =>
    have := ih h
    simp only [List.length_cons]
    omega
  | case4 => simp at h

theorem readColon_length_lt {s rest : List Char} (h : readColon s = .ok rest) :
    rest.length < s.length := by
  unfold readColon at h
  split at h
  · simp at h
  · next hs =>
    split at h
    · obtain rfl : _ = rest := by simpa using h
      exact dropJsonBlanks_cons_length hs
    · simp at h

private theorem dropSign_length_le (s : List Char) : (dropSign s).length ≤ s.length := by
  unfold dropSign
  split <;> simp

private theorem skipExponent_length_le {s rest : List Char}
    (h : skipNumber.exponent s = .ok rest) : rest.length ≤ s.length := by
  unfold skipNumber.exponent at h
  simp only at h
  split at h
  · obtain rfl := Except.ok.inj h
    exact Nat.le_trans (dropDigits_length_le _) (dropSign_length_le s)
  · simp at h

private theorem skipFraction_length_le {s rest : List Char}
    (h : skipNumber.fraction s = .ok rest) : rest.length ≤ s.length := by
  unfold skipNumber.fraction at h
  split at h
  · simp_all
  · next c cs =>
    have hd := dropDigits_length_le cs
    simp only [List.length_cons]
    split at h
    · split at h
      · split at h
        · simp_all
        · next ds hds =>
          rw [hds, List.length_cons] at hd
          split at h
          · have := skipExponent_length_le h
            omega
          · obtain rfl : _ = rest := by simpa using h
            simp only [List.length_cons]
            omega
      · simp at h
    · split at h
      · have := skipExponent_length_le h
        omega
      · obtain rfl : _ = rest := by simpa using h
        simp

theorem skipNumber_length_lt {s rest : List Char} (h : skipNumber s = .ok rest) :
    rest.length < s.length := by
  unfold skipNumber at h
  split at h
  · simp at h
  · next c cs =>
    split at h
    · simp at h
    · have := skipFraction_length_le h
      have := dropDigits_length_le cs
      simp only [List.length_cons]
      omega

theorem skipString_length_lt {s rest : List Char} (h : skipString s = .ok rest) :
    rest.length < s.length := by
  fun_induction skipString s with
  | case1 => simp at h
  | case2 => simp_all
  | case3 => simp at h
  | case4 digits n after hx hl ih =>
    have := ih h
    simp only [List.length_cons]
    omega
  | case5 => simp at h
  | case6 c rest _ _ ih =>
    have := ih h
    simp only [List.length_cons]
    omega
  | case7 => simp at h
  | case8 => simp at h
  | case9 c rest _ _ _ ih =>
    have := ih h
    simp only [List.length_cons]
    omega

private theorem ok_of_map {α β : Type} {x : Except JsonFault α} {f : α → β} {b : β}
    (h : x.map f = .ok b) : ∃ a, x = .ok a ∧ f a = b := by
  cases x with
  | error fault => simp [Except.map] at h
  | ok a => exact ⟨a, rfl, Except.ok.inj h⟩

private theorem ok_of_bind {α β : Type} {x : Except JsonFault α} {f : α → Except JsonFault β}
    {b : β} (h : x.bind f = .ok b) : ∃ a, x = .ok a ∧ f a = .ok b := by
  cases x with
  | error fault => simp [Except.bind] at h
  | ok a => exact ⟨a, rfl, h⟩

theorem skipStep_length_lt {state next : SkipState} {opened inner : List Open}
    {s rest : List Char} (h : skipStep state opened s = .ok (next, inner, rest)) :
    rest.length < s.length := by
  unfold skipStep at h
  split at h
  · simp at h
  · next hs =>
    have hc := dropJsonBlanks_cons_length hs
    split at h
    · obtain ⟨_, hr, he⟩ := ok_of_map h
      obtain ⟨-, -, rfl⟩ := by simpa using he
      have := readWord_length_le hr
      omega
    · obtain ⟨_, hr, he⟩ := ok_of_map h
      obtain ⟨-, -, rfl⟩ := by simpa using he
      have := skipNumber_length_lt hr
      omega
    · obtain ⟨_, hr, he⟩ := ok_of_map h
      obtain ⟨-, -, rfl⟩ := by simpa using he
      have := skipNumber_length_lt hr
      simp only [List.length_cons] at this
      omega
    · obtain ⟨_, hr, he⟩ := ok_of_map h
      obtain ⟨-, -, rfl⟩ := by simpa using he
      have := skipString_length_lt hr
      omega
    · split at h
      · simp at h
      · next hd =>
        have := dropJsonBlanks_cons_length hd
        split at h
        · obtain ⟨-, -, rfl⟩ := by simpa using h
          omega
        · obtain ⟨-, -, rfl⟩ := by simpa using h
          simp only [List.length_cons]
          omega
    · split at h
      · simp at h
      · next hd =>
        have := dropJsonBlanks_cons_length hd
        split at h
        · obtain ⟨-, -, rfl⟩ := by simpa using h
          omega
        · obtain ⟨-, -, rfl⟩ := by simpa using h
          simp only [List.length_cons]
          omega
    · simp at h
  · simp at h
  · next hs =>
    have hc := dropJsonBlanks_cons_length hs
    split at h
    · obtain ⟨after, hr, he⟩ := ok_of_map h
      obtain ⟨-, -, rfl⟩ := by simpa using he
      obtain ⟨_, hq, hr⟩ := ok_of_bind hr
      have := skipString_length_lt hq
      have := readColon_length_lt hr
      omega
    · simp at h
  · simp at h
  · simp at h
  · next hs =>
    have hc := dropJsonBlanks_cons_length hs
    split at h
    · obtain ⟨-, -, rfl⟩ := by simpa using h
      exact hc
    · split at h
      · obtain ⟨-, -, rfl⟩ := by simpa using h
        exact hc
      · simp at h
  · simp at h
  · next hs =>
    have hc := dropJsonBlanks_cons_length hs
    split at h
    · obtain ⟨-, -, rfl⟩ := by simpa using h
      exact hc
    · split at h
      · obtain ⟨-, -, rfl⟩ := by simpa using h
        exact hc
      · simp at h

/-- A value that nobody asked for, however deep. -/
def skipValue (s : List Char) : Except JsonFault (List Char) :=
  go .value [] s
where
  go (state : SkipState) (opened : List Open) (s : List Char) : Except JsonFault (List Char) :=
    if state = .after && opened.isEmpty then .ok s
    else
      match h : skipStep state opened s with
      | .ok (state, opened, rest) =>
        have := skipStep_length_lt h
        go state opened rest
      | .error fault => .error fault
  termination_by s.length

end InlineComponents
