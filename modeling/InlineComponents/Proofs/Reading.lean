import InlineComponents.Markup.Tag

namespace InlineComponents

theorem toOption_eq_some_iff {ε α : Type} {x : Except ε α} {a : α} :
    x.toOption = some a ↔ x = .ok a := by
  cases x with
  | error e => simp [Except.toOption]
  | ok b => simp [Except.toOption]

theorem takeWhile_append_stop {α : Type} {p : α → Bool} {l t : List α} (hl : ∀ a ∈ l, p a = true)
    (ht : t.head?.all (fun a => !p a) = true) : (l ++ t).takeWhile p = l := by
  rw [List.takeWhile_append_of_pos hl]
  cases t with
  | nil => simp
  | cons a t =>
    have ha : ¬ p a = true := by simpa using ht
    rw [List.takeWhile_cons_of_neg ha, List.append_nil]

theorem dropWhile_append_stop {α : Type} {p : α → Bool} {l t : List α} (hl : ∀ a ∈ l, p a = true)
    (ht : t.head?.all (fun a => !p a) = true) : (l ++ t).dropWhile p = t := by
  rw [List.dropWhile_append_of_pos hl]
  cases t with
  | nil => rfl
  | cons a t =>
    have ha : ¬ p a = true := by simpa using ht
    rw [List.dropWhile_cons_of_neg ha]

theorem breakAt_go_append {p : List Char → Bool} {s t : List Char} (seen : List Char)
    (h : ∀ rest, rest <:+ s → rest ≠ [] → p (rest ++ t) = false) :
    breakAt.go p seen (s ++ t) = breakAt.go p (s.reverse ++ seen) t := by
  induction s generalizing seen with
  | nil => rfl
  | cons c s ih =>
    have hc : p (c :: (s ++ t)) = false := h (c :: s) List.suffix_rfl (List.cons_ne_nil c s)
    have hs := ih (c :: seen) fun rest hr => h rest (hr.trans (List.suffix_cons c s))
    rw [List.cons_append, breakAt.go, if_neg (by simp [hc]), hs]
    simp

theorem breakAt_go_seen {p : List Char → Bool} (seen s : List Char) :
    breakAt.go p seen s = (breakAt p s).map fun broken => (seen.reverse ++ broken.1, broken.2) := by
  rw [breakAt]
  induction s generalizing seen with
  | nil => rfl
  | cons c s ih =>
    rw [breakAt.go, breakAt.go]
    split
    · simp
    · rw [ih, ih [c], Option.map_map]
      congr 1
      funext broken
      simp

/-- A text of which no place satisfies `p` is passed over. -/
theorem breakAt_append_left {p : List Char → Bool} {s t : List Char}
    (h : ∀ rest, rest <:+ s → rest ≠ [] → p (rest ++ t) = false) :
    breakAt p (s ++ t) = (breakAt p t).map fun broken => (s ++ broken.1, broken.2) := by
  rw [breakAt, breakAt_go_append [] h, breakAt_go_seen]
  simp

theorem breakAt_of_pos {p : List Char → Bool} {s : List Char} (hs : s ≠ []) (h : p s = true) :
    breakAt p s = some ([], s) := by
  cases s with
  | nil => exact absurd rfl hs
  | cons c s => simp [breakAt, breakAt.go, h]

/-- The text is broken at the first place that satisfies `p`. -/
theorem breakAt_append_eq_some {p : List Char → Bool} {s t : List Char} (ht : t ≠ [])
    (hp : p t = true) (h : ∀ rest, rest <:+ s → rest ≠ [] → p (rest ++ t) = false) :
    breakAt p (s ++ t) = some (s, t) := by
  rw [breakAt_append_left h, breakAt_of_pos ht hp]
  simp

theorem breakAt_cons (p : List Char → Bool) (c : Char) (s : List Char) :
    breakAt p (c :: s) = if p (c :: s) then some ([], c :: s)
      else (breakAt p s).map fun broken => (c :: broken.1, broken.2) := by
  rw [breakAt, breakAt.go]
  split
  · rfl
  · rw [breakAt_go_seen]
    rfl

theorem breakAt_eq_none {p : List Char → Bool} {s : List Char} (h : breakAt p s = none) :
    ∀ rest, rest <:+ s → rest ≠ [] → p rest = false := by
  induction s with
  | nil => exact fun rest hs hr => absurd (List.suffix_nil.mp hs) hr
  | cons c s ih =>
    rw [breakAt_cons] at h
    split at h
    · simp at h
    · next hc =>
      intro rest hs hr
      rcases List.suffix_cons_iff.mp hs with rfl | hs
      · simpa using hc
      · exact ih (by simpa using h) rest hs hr

theorem closeAngle_go_append {quote : Option Char} {seen s inside rest : List Char}
    (h : closeAngle.go quote seen s = some (inside, rest)) (t : List Char) :
    closeAngle.go quote seen (s ++ t) = some (inside, rest ++ t) := by
  induction s generalizing quote seen with
  | nil => simp [closeAngle.go] at h
  | cons c s ih =>
    rw [List.cons_append]
    unfold closeAngle.go at h ⊢
    split at h
    · exact ih h
    · split at h
      · next hc =>
        obtain ⟨rfl, rfl⟩ : seen.reverse = inside ∧ s = rest := by simpa using h
        rw [if_pos hc]
      · next hc =>
        rw [if_neg hc]
        exact ih h

theorem beginsTag_append (name s : List Char) :
    beginsTag name (name ++ s) = s.head?.any isBoundary := by
  have hp : name.isPrefixOf (name ++ s) = true :=
    List.isPrefixOf_iff_prefix.mpr (List.prefix_append name s)
  rw [beginsTag, hp, List.drop_left, Bool.true_and]

/-- What stands in a tag after its name: the name is at its end, and so is the tag at its `>`. -/
structure IsTagInside (inside : List Char) : Prop where
  bounded : (inside ++ ['>']).head?.any isBoundary = true
  closed : closeAngle (inside ++ ['>']) = some (inside, [])

instance (inside : List Char) : Decidable (IsTagInside inside) :=
  decidable_of_iff
    ((inside ++ ['>']).head?.any isBoundary = true ∧
      closeAngle (inside ++ ['>']) = some (inside, []))
    ⟨fun h => ⟨h.1, h.2⟩, fun h => ⟨h.bounded, h.closed⟩⟩

theorem IsTagInside.closeAngle_eq {inside : List Char} (h : IsTagInside inside)
    (t : List Char) : closeAngle (inside ++ '>' :: t) = some (inside, t) := by
  have hc := closeAngle_go_append h.closed t
  rw [List.append_assoc] at hc
  exact hc

theorem IsTagInside.beginsTag_eq {inside : List Char} (h : IsTagInside inside)
    (name t : List Char) : beginsTag name (name ++ inside ++ '>' :: t) = true := by
  have hb := h.bounded
  rw [List.append_assoc, beginsTag_append]
  cases inside with
  | nil => exact hb
  | cons c inside => exact hb

theorem rawTag?_append {raw : RawTag} {inside : List Char} (h : IsTagInside inside)
    (t : List Char) : rawTag? ('<' :: (raw.name ++ (inside ++ '>' :: t))) = some raw := by
  have hb := h.beginsTag_eq raw.name t
  rw [List.append_assoc] at hb
  cases raw with
  | script => rw [rawTag?, if_pos hb]
  | style =>
    have hs : beginsTag RawTag.script.name (RawTag.style.name ++ (inside ++ '>' :: t)) = false := rfl
    rw [rawTag?, hs, if_neg Bool.false_ne_true, if_pos hb]

theorem RawTag.notMem_closing (tag : RawTag) : ∃ name, tag.closing = '<' :: name ∧ '<' ∉ name := by
  refine ⟨'/' :: tag.name, rfl, ?_⟩
  cases tag <;> decide

theorem beginsTag_cons (a : Char) (name : List Char) (c : Char) (s : List Char) :
    beginsTag (a :: name) (c :: s) = (a == c && beginsTag name s) := by
  simp [beginsTag, List.isPrefixOf, Bool.and_assoc]

/-- No tag's name goes on past a character that is not in it. -/
theorem beginsTag_append_cons {name : List Char} {c : Char} (hc : c ∉ name) (s t : List Char) :
    beginsTag name (s ++ c :: t) = beginsTag name (s ++ [c]) := by
  induction name generalizing s with
  | nil =>
    cases s with
    | nil => rfl
    | cons d s => rfl
  | cons a name ih =>
    cases s with
    | nil =>
      have ha : a ≠ c := fun he => hc (he ▸ List.mem_cons_self)
      rw [List.nil_append, List.nil_append, beginsTag_cons, beginsTag_cons, beq_false_of_ne ha]
      rfl
    | cons d s =>
      rw [List.cons_append, List.cons_append, beginsTag_cons, beginsTag_cons,
        ih fun hm => hc (List.mem_cons_of_mem a hm)]

/-- No tag's name goes on past a `<`, and none ends there. -/
theorem beginsTag_append_lt {name : List Char} (hn : '<' ∉ name) (s t : List Char) :
    beginsTag name (s ++ '<' :: t) = beginsTag name s := by
  induction name generalizing s with
  | nil =>
    cases s with
    | nil => rfl
    | cons c s => rfl
  | cons a name ih =>
    cases s with
    | nil =>
      have ha : a ≠ '<' := fun he => hn (he ▸ List.mem_cons_self)
      rw [List.nil_append, beginsTag_cons, beq_false_of_ne ha]
      rfl
    | cons c s =>
      rw [List.cons_append, beginsTag_cons, beginsTag_cons,
        ih fun hm => hn (List.mem_cons_of_mem a hm)]

theorem beginsTag_lt_append_lt {name : List Char} (hn : '<' ∉ name) {s : List Char} (hs : s ≠ [])
    (t : List Char) : beginsTag ('<' :: name) (s ++ '<' :: t) = beginsTag ('<' :: name) s := by
  obtain ⟨c, s, rfl⟩ := List.exists_cons_of_ne_nil hs
  rw [List.cons_append, beginsTag_cons, beginsTag_cons, beginsTag_append_lt hn]

/-- No closing tag lies across a place where one begins. -/
theorem beginsTag_closing_append {tag : RawTag} {rest : List Char} (hr : rest ≠ [])
    (h : beginsTag tag.closing rest = false) (t : List Char) :
    beginsTag tag.closing (rest ++ '<' :: t) = false := by
  obtain ⟨name, hname, hn⟩ := tag.notMem_closing
  rw [hname] at h ⊢
  rw [beginsTag_lt_append_lt hn hr, h]

/-- The closing tag of a raw element ends it, if nothing in the content is one. -/
theorem closeRaw_append_eq {tag : RawTag} {content ending : List Char}
    (hc : ∀ rest, rest <:+ content → beginsTag tag.closing rest = false)
    (he : IsTagInside ending) (t : List Char) :
    closeRaw tag (content ++ (tag.closing ++ ending ++ '>' :: t)) =
      (content ++ tag.closing ++ ending ++ ['>'], t) := by
  have hb : breakAt (beginsTag tag.closing) (content ++ (tag.closing ++ ending ++ '>' :: t)) =
      some (content, tag.closing ++ ending ++ '>' :: t) := by
    apply breakAt_append_eq_some
    · simp
    · exact he.beginsTag_eq tag.closing t
    · intro rest hs hr
      exact beginsTag_closing_append hr (hc rest hs) _
  rw [closeRaw, hb]
  simp [he.closeAngle_eq]

/-- No end of a comment lies across a place where one begins. -/
theorem commentEnd_isPrefixOf_append {rest : List Char} (hr : rest ≠ [])
    (h : commentEnd.isPrefixOf rest = false) (t : List Char) :
    commentEnd.isPrefixOf (rest ++ (commentEnd ++ t)) = false := by
  match rest with
  | [] => exact absurd rfl hr
  | [a] => simp [commentEnd, List.isPrefixOf]
  | [a, b] => simp [commentEnd, List.isPrefixOf]
  | a :: b :: c :: rest => simpa [commentEnd, List.isPrefixOf] using h

theorem closeComment_append_eq {said : List Char} (h : ¬ commentEnd <:+: said) (t : List Char) :
    closeComment (said ++ (commentEnd ++ t)) = some (said, t) := by
  have hb : breakAt (commentEnd.isPrefixOf ·) (said ++ (commentEnd ++ t)) =
      some (said, commentEnd ++ t) := by
    apply breakAt_append_eq_some
    · simp [commentEnd]
    · exact List.isPrefixOf_iff_prefix.mpr (List.prefix_append commentEnd t)
    · intro rest hs hr
      refine commentEnd_isPrefixOf_append hr ?_ t
      rw [Bool.eq_false_iff]
      intro hp
      exact h ((List.isPrefixOf_iff_prefix.mp hp).isInfix.trans hs.isInfix)
  rw [closeComment, hb]
  simp

end InlineComponents
