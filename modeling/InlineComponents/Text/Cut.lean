namespace InlineComponents

/-- The text up to the first place where the rest satisfies `p`, and that rest. -/
def breakAt (p : List Char → Bool) (s : List Char) : Option (List Char × List Char) :=
  go [] s
where
  go (seen : List Char) : List Char → Option (List Char × List Char)
    | [] => none
    | c :: cs => if p (c :: cs) then some (seen.reverse, c :: cs) else go (c :: seen) cs

/-- The parts between the separators; one more than there are separators. -/
def splitAll (sep : Char) (s : List Char) : List (List Char) :=
  go [] [] s
where
  go (part : List Char) (parts : List (List Char)) : List Char → List (List Char)
    | [] => (part.reverse :: parts).reverse
    | c :: cs =>
      if c = sep then go [] (part.reverse :: parts) cs else go (c :: part) parts cs

/-- The parts joined again, a separator between neighbours. -/
def joinAll (sep : Char) : List (List Char) → List Char
  | [] => []
  | part :: parts => part ++ parts.flatMap (sep :: ·)

/-- The maximal runs without blanks. -/
def words (blank : Char → Bool) (s : List Char) : List (List Char) :=
  go [] [] s
where
  go (word : List Char) (found : List (List Char)) : List Char → List (List Char)
    | [] => (if word = [] then found else word.reverse :: found).reverse
    | c :: cs =>
      if blank c then go [] (if word = [] then found else word.reverse :: found) cs
      else go (c :: word) found cs

/-- The text before and after the last occurrence of `needle`. -/
def splitLast (needle s : List Char) : Option (List Char × List Char) :=
  (breakAt (needle.reverse.isPrefixOf ·) s.reverse).map fun (after, rest) =>
    ((rest.drop needle.length).reverse, after.reverse)

/-- Whether `needle` occurs in the text; the empty text occurs everywhere. -/
def occursIn (needle s : List Char) : Bool :=
  needle.isEmpty || (breakAt (needle.isPrefixOf ·) s).isSome

theorem splitAll_go_eq (sep : Char) (part : List Char) (parts : List (List Char)) (s : List Char) :
    splitAll.go sep part parts s = parts.reverse ++ splitAll.go sep part [] s := by
  induction s generalizing part parts with
  | nil => simp [splitAll.go]
  | cons c cs ih =>
    unfold splitAll.go
    split
    · rw [ih, ih _ [_]]; simp
    · exact ih ..

/-- A separator ends the part before it. -/
theorem splitAll_go_cons (sep : Char) (part : List Char) (c : Char) (cs : List Char) :
    splitAll.go sep part [] (c :: cs) =
      if c = sep then part.reverse :: splitAll.go sep [] [] cs
      else splitAll.go sep (c :: part) [] cs := by
  rw [splitAll.go]
  split
  · rw [splitAll_go_eq]; rfl
  · rfl

theorem flatMap_splitAll_go (sep : Char) (part s : List Char) :
    (splitAll.go sep part [] s).flatMap (sep :: ·) = sep :: (part.reverse ++ s) := by
  induction s generalizing part with
  | nil => simp [splitAll.go]
  | cons c cs ih =>
    rw [splitAll_go_cons]
    split
    · next h => simp [ih, h]
    · simp [ih]

/-- The parts joined again are the text. -/
theorem joinAll_splitAll (sep : Char) (s : List Char) : joinAll sep (splitAll sep s) = s := by
  have h := flatMap_splitAll_go sep [] s
  rw [splitAll]
  cases hs : splitAll.go sep [] [] s with
  | nil => rw [hs] at h; simp at h
  | cons part parts => rw [hs] at h; simpa [joinAll] using h

/-- Parts joined one after the other have a separator between them. -/
theorem joinAll_append (sep : Char) {first second : List (List Char)} (hf : first ≠ [])
    (hs : second ≠ []) :
    joinAll sep (first ++ second) = joinAll sep first ++ sep :: joinAll sep second := by
  obtain ⟨a, as, rfl⟩ := List.exists_cons_of_ne_nil hf
  obtain ⟨b, bs, rfl⟩ := List.exists_cons_of_ne_nil hs
  simp [joinAll]

theorem length_joinAll (sep : Char) (parts : List (List Char)) :
    (joinAll sep parts).length = parts.flatten.length + (parts.length - 1) := by
  have h (l : List (List Char)) :
      (l.flatMap (sep :: ·)).length = l.flatten.length + l.length := by
    induction l with
    | nil => rfl
    | cons a l ih => simp [ih]; omega
  cases parts with
  | nil => rfl
  | cons a l => simp [joinAll, h]; omega

/-- The number of bytes that the characters take in UTF-8. -/
def byteLength (s : List Char) : Nat :=
  s.foldl (fun n c => n + c.utf8Size) 0

private theorem byteLength_foldl (n : Nat) (s : List Char) :
    s.foldl (fun n c => n + c.utf8Size) n = n + byteLength s := by
  induction s generalizing n with
  | nil => simp [byteLength]
  | cons c s ih => simp only [byteLength, List.foldl_cons]; rw [ih, ih (0 + _)]; omega

@[simp] theorem byteLength_nil : byteLength [] = 0 := rfl

@[simp] theorem byteLength_cons (c : Char) (s : List Char) :
    byteLength (c :: s) = c.utf8Size + byteLength s := by
  simp only [byteLength, List.foldl_cons]; rw [byteLength_foldl]; simp [byteLength]

@[simp] theorem byteLength_append (s t : List Char) :
    byteLength (s ++ t) = byteLength s + byteLength t := by
  induction s with
  | nil => simp
  | cons c s ih => simp [ih, Nat.add_assoc]

theorem breakAt_go_eq {p : List Char → Bool} {seen s a b : List Char}
    (h : breakAt.go p seen s = some (a, b)) :
    ∃ m, a = seen.reverse ++ m ∧ s = m ++ b ∧ p b = true ∧ b ≠ [] := by
  induction s generalizing seen with
  | nil => simp [breakAt.go] at h
  | cons c cs ih =>
    unfold breakAt.go at h
    split at h
    · next hp =>
      obtain ⟨rfl, rfl⟩ : seen.reverse = a ∧ c :: cs = b := by simpa using h
      exact ⟨[], by simp, rfl, hp, by simp⟩
    · obtain ⟨m, rfl, rfl, hb⟩ := ih h
      exact ⟨c :: m, by simp, rfl, hb⟩

/-- What lies before the break and the rest after it are the text again. -/
theorem breakAt_append {p : List Char → Bool} {s a b : List Char}
    (h : breakAt p s = some (a, b)) : s = a ++ b ∧ p b = true := by
  obtain ⟨m, rfl, hs, hp, -⟩ := breakAt_go_eq h
  exact ⟨by simpa using hs, hp⟩

end InlineComponents
