import InlineComponents.Markup.Tag

namespace InlineComponents

/-- Where a reader stands in a tag: outside values, in a quoted value, or in an expression, there
so many braces deeper than its first, in a string of its own, or after a backslash in one. -/
inductive Standing where
  | plain
  | quoted (quote : Char)
  | braces (depth : Nat)
  | literal (depth : Nat) (quote : Char)
  | escaped (depth : Nat) (quote : Char)
  deriving DecidableEq, Repr

/-- What begins a string inside an expression. -/
def beginsLiteral (c : Char) : Bool :=
  isQuote c || c = '\x60'

/-- One character further. -/
def Standing.next : Standing → Char → Standing
  | .plain, c => if c = '{' then .braces 0 else if isQuote c then .quoted c else .plain
  | .quoted q, c => if c = q then .plain else .quoted q
  | .braces 0, c =>
    if c = '{' then .braces 1 else if c = '}' then .plain
    else if beginsLiteral c then .literal 0 c else .braces 0
  | .braces (d + 1), c =>
    if c = '{' then .braces (d + 2) else if c = '}' then .braces d
    else if beginsLiteral c then .literal (d + 1) c else .braces (d + 1)
  | .literal d q, c => if c = '\\' then .escaped d q else if c = q then .braces d else .literal d q
  | .escaped d q, _ => .literal d q

/-- An expression and the text after it, given the text after its first brace. -/
def closeBrace (s : List Char) : Option (List Char × List Char) :=
  go (.braces 0) [] s
where
  go (standing : Standing) (seen : List Char) : List Char → Option (List Char × List Char)
    | [] => none
    | c :: cs =>
      match standing.next c with
      | .plain => some (seen.reverse, cs)
      | standing => go standing (c :: seen) cs

/-- The inside of a tag and the text after the `>` that closes it; a `>` in a quoted value or in
an expression closes nothing. -/
def closeTag (s : List Char) : Option (List Char × List Char) :=
  go .plain [] s
where
  go (standing : Standing) (seen : List Char) : List Char → Option (List Char × List Char)
    | [] => none
    | c :: cs =>
      if standing = .plain && c = '>' then some (seen.reverse, cs)
      else go (standing.next c) (c :: seen) cs

theorem closeTag_go_eq {standing : Standing} {seen s inside rest : List Char}
    (h : closeTag.go standing seen s = some (inside, rest)) :
    ∃ m, inside = seen.reverse ++ m ∧ s = m ++ '>' :: rest := by
  induction s generalizing standing seen with
  | nil => simp [closeTag.go] at h
  | cons c cs ih =>
    unfold closeTag.go at h
    split at h
    · next hc =>
      obtain ⟨rfl, rfl⟩ : seen.reverse = inside ∧ cs = rest := by simpa using h
      have : c = '>' := by simpa using (Bool.and_eq_true_iff.mp hc).2
      exact ⟨[], by simp, by simp [this]⟩
    · obtain ⟨m, rfl, rfl⟩ := ih h
      exact ⟨c :: m, by simp, rfl⟩

/-- The inside, the `>` and the rest are the text again. -/
theorem closeTag_append {s inside rest : List Char} (h : closeTag s = some (inside, rest)) :
    s = inside ++ '>' :: rest := by
  obtain ⟨m, rfl, rfl⟩ := closeTag_go_eq h
  simp

/-- Inside an expression, however deep. -/
def Standing.isWithin : Standing → Bool
  | .plain | .quoted _ => false
  | .braces _ | .literal .. | .escaped .. => true

/-- Only a closing brace leads out of an expression. -/
theorem Standing.next_isWithin {standing : Standing} {c : Char} (hs : standing.isWithin = true) :
    (standing.next c).isWithin = true ∨ standing.next c = .plain ∧ c = '}' := by
  match standing with
  | .braces 0 =>
    simp only [Standing.next]
    split
    · exact .inl rfl
    · split
      · next hc => exact .inr ⟨rfl, hc⟩
      · split <;> exact .inl rfl
  | .braces (_ + 1) =>
    simp only [Standing.next]
    split
    · exact .inl rfl
    · split
      · exact .inl rfl
      · split <;> exact .inl rfl
  | .literal .. =>
    simp only [Standing.next]
    split
    · exact .inl rfl
    · split <;> exact .inl rfl
  | .escaped .. => exact .inl rfl

theorem closeBrace_go_eq {standing : Standing} {seen s said rest : List Char}
    (hs : standing.isWithin = true) (h : closeBrace.go standing seen s = some (said, rest)) :
    ∃ m, said = seen.reverse ++ m ∧ s = m ++ '}' :: rest := by
  induction s generalizing standing seen with
  | nil => simp [closeBrace.go] at h
  | cons c cs ih =>
    unfold closeBrace.go at h
    rcases Standing.next_isWithin (c := c) hs with hn | ⟨hn, rfl⟩
    · split at h
      · next hp => simp [hp, Standing.isWithin] at hn
      · obtain ⟨m, rfl, rfl⟩ := ih hn h
        exact ⟨c :: m, by simp, rfl⟩
    · rw [hn] at h
      obtain ⟨rfl, rfl⟩ : seen.reverse = said ∧ cs = rest := by simpa using h
      exact ⟨[], by simp, rfl⟩

/-- The expression, its last brace and the rest are the text again. -/
theorem closeBrace_append {s said rest : List Char} (h : closeBrace s = some (said, rest)) :
    s = said ++ '}' :: rest := by
  obtain ⟨m, rfl, rfl⟩ := closeBrace_go_eq rfl h
  simp

end InlineComponents
