import InlineComponents.Proofs.Fragments

namespace InlineComponents

theorem commentStart_append_lt {s : List Char} (hs : s ≠ []) (t : List Char) :
    commentStart.isPrefixOf (s ++ '<' :: t) = commentStart.isPrefixOf s := by
  obtain ⟨c, s, rfl⟩ := List.exists_cons_of_ne_nil hs
  rw [Bool.eq_iff_iff, List.isPrefixOf_iff_prefix, List.isPrefixOf_iff_prefix, List.cons_append,
    commentStart, List.cons_prefix_cons, List.cons_prefix_cons]
  refine and_congr_right fun _ => ⟨prefix_of_prefix_append_cons (by decide), ?_⟩
  exact fun h => h.trans (List.prefix_append s _)

/-- What begins at a place is known before the next `<`. -/
theorem markup?_append_lt {s : List Char} (hs : s ≠ []) (t : List Char) :
    markup? (s ++ '<' :: t) = markup? s := by
  obtain ⟨c, s, rfl⟩ := List.exists_cons_of_ne_nil hs
  by_cases hc : c = '<'
  · subst hc
    have hcomment := commentStart_append_lt hs t
    have hraw : rawTag? ('<' :: (s ++ '<' :: t)) = rawTag? ('<' :: s) := by
      rw [rawTag?, rawTag?, beginsTag_append_lt (by decide), beginsTag_append_lt (by decide)]
    have hclosing : beginsTag templateClosing ('<' :: s ++ '<' :: t) =
        beginsTag templateClosing ('<' :: s) := beginsTag_lt_append_lt (by decide) hs t
    have hopening : beginsTag templateOpening ('<' :: s ++ '<' :: t) =
        beginsTag templateOpening ('<' :: s) := beginsTag_lt_append_lt (by decide) hs t
    rw [List.cons_append] at hcomment hclosing hopening ⊢
    unfold markup?
    rw [hcomment, hraw, hclosing, hopening]
    rfl
  · rw [List.cons_append, markup?_of_ne hc, markup?_of_ne hc]

theorem breakAt_before {p : List Char → Bool} {s before rest : List Char}
    (h : breakAt p s = some (before, rest)) :
    ∀ later, later <:+ before → later ≠ [] → p (later ++ rest) = false := by
  induction s generalizing before with
  | nil => simp [breakAt, breakAt.go] at h
  | cons c s ih =>
    rw [breakAt_cons] at h
    split at h
    · obtain ⟨rfl, -⟩ := Prod.mk.inj (Option.some.inj h)
      exact fun later hl hne => absurd (List.suffix_nil.mp hl) hne
    · next hc =>
      obtain ⟨⟨seen, after⟩, hb, he⟩ := Option.map_eq_some_iff.mp h
      obtain ⟨rfl, rfl⟩ := Prod.mk.inj he
      intro later hl hne
      rcases List.suffix_cons_iff.mp hl with rfl | hl
      · rw [List.cons_append, ← (breakAt_append hb).1]
        simpa using hc
      · exact ih hb later hl hne

theorem closeAngle_go_replace {quote : Option Char} {seen s inside rest : List Char}
    (h : closeAngle.go quote seen s = some (inside, rest)) :
    ∃ m, inside = seen.reverse ++ m ∧ s = m ++ '>' :: rest ∧
      ∀ t, closeAngle.go quote seen (m ++ '>' :: t) = some (inside, t) := by
  induction s generalizing quote seen with
  | nil => simp [closeAngle.go] at h
  | cons c s ih =>
    unfold closeAngle.go at h
    split at h
    · next q =>
      obtain ⟨m, rfl, rfl, hm⟩ := ih h
      exact ⟨c :: m, by simp, rfl, hm⟩
    · split at h
      · next hc =>
        obtain ⟨rfl, rfl⟩ := Prod.mk.inj (Option.some.inj h)
        exact ⟨[], by simp, by simp [hc], fun t => by simp [closeAngle.go]⟩
      · next hc =>
        obtain ⟨m, rfl, rfl, hm⟩ := ih h
        refine ⟨c :: m, by simp, rfl, fun t => ?_⟩
        rw [List.cons_append, closeAngle.go, if_neg hc]
        exact hm t

/-- A tag that a name begins and a `>` closes is a tag whatever comes after it. -/
theorem isTagInside_of_closeAngle {name s inside rest : List Char}
    (hb : beginsTag name (name ++ s) = true) (h : closeAngle s = some (inside, rest)) :
    IsTagInside inside := by
  obtain ⟨m, rfl, rfl, hm⟩ := closeAngle_go_replace h
  rw [beginsTag_append] at hb
  refine ⟨?_, hm []⟩
  cases inside <;> simpa using hb

theorem exists_of_rawTag? {s : List Char} {tag : RawTag} (h : rawTag? s = some tag) :
    ∃ rest, s = '<' :: (tag.name ++ rest) ∧ beginsTag tag.name (tag.name ++ rest) = true := by
  have hs := rawTag?_prefix h
  generalize s.drop ('<' :: tag.name).length = rest at hs
  subst hs
  refine ⟨rest, rfl, ?_⟩
  rw [List.cons_append, rawTag?] at h
  split at h
  · next hb =>
    obtain rfl := Option.some.inj h
    exact hb
  · split at h
    · next hb =>
      obtain rfl := Option.some.inj h
      exact hb
    · cases h

/-- A comment that is closed does not hold its end. -/
theorem wellFormed_comment {s said rest : List Char} (h : closeComment s = some (said, rest)) :
    Fragment.WellFormed (.comment said) := by
  obtain ⟨⟨before, after⟩, hb, he⟩ := Option.map_eq_some_iff.mp h
  obtain ⟨rfl, -⟩ := Prod.mk.inj he
  rintro ⟨early, late, he⟩
  have hp := breakAt_before hb (commentEnd ++ late) ⟨early, by rw [← he, List.append_assoc]⟩
    (by simp [commentEnd])
  rw [List.append_assoc, List.isPrefixOf_iff_prefix.mpr (List.prefix_append _ _)] at hp
  cases hp

/-- A raw element that is closed before the end of the text has its closing tag last. -/
theorem closeRaw_of_ne_nil {tag : RawTag} {s : List Char} (h : (closeRaw tag s).2 ≠ []) :
    ∃ content ending, (closeRaw tag s).1 = content ++ tag.closing ++ ending ++ ['>'] ∧
      (∀ rest, rest <:+ content → beginsTag tag.closing rest = false) ∧ IsTagInside ending := by
  unfold closeRaw at h ⊢
  split at h
  · exact absurd rfl h
  · next content rest hb =>
    obtain ⟨-, hbegins⟩ := breakAt_append hb
    have hrest := beginsTag_prefix hbegins
    split at h
    · exact absurd rfl h
    · next ending after ha =>
      refine ⟨content, ending, rfl, ?_, ?_⟩
      · intro later hl
        by_cases hne : later = []
        · subst hne
          rfl
        · have hno := breakAt_before hb later hl hne
          rw [hrest] at hno
          rw [← hno]
          exact (beginsTag_lt_append_lt (by cases tag <;> decide) hne _).symm
      · rw [hrest] at hbegins
        exact isTagInside_of_closeAngle hbegins ha

theorem read_template_of_ne_nil {name s : List Char} {piece : List Char → Piece}
    (hb : beginsTag name s = true) (hr : ((Markup.template name piece).read s).2 ≠ []) :
    ∃ inside, ((Markup.template name piece).read s).1 = piece inside ∧ IsTagInside inside := by
  unfold Markup.read at hr ⊢
  dsimp only at hr ⊢
  split at hr
  · exact absurd rfl hr
  · next inside rest hc =>
    have hname := beginsTag_prefix hb
    rw [hname] at hb
    exact ⟨inside, rfl, isTagInside_of_closeAngle hb hc⟩

theorem read_raw_of_ne_nil {tag : RawTag} {s : List Char} (ht : rawTag? s = some tag)
    (hr : ((Markup.raw tag).read s).2 ≠ []) : ∃ inside content ending,
      ((Markup.raw tag).read s).1 = Fragment.piece (.raw tag inside content ending) ∧
        Fragment.WellFormed (.raw tag inside content ending) := by
  obtain ⟨rest, rfl, hb⟩ := exists_of_rawTag? ht
  unfold Markup.read at hr ⊢
  simp only [List.length_cons, List.drop_succ_cons, List.drop_left] at hr ⊢
  split at hr
  · exact absurd rfl hr
  · next inside after hc =>
    obtain ⟨content, ending, he, hno, hending⟩ := closeRaw_of_ne_nil hr
    refine ⟨inside, content, ending, ?_, isTagInside_of_closeAngle hb hc, hno, hending⟩
    rw [he]
    rfl

/-- Markup that is closed before the end of the text is that of a fragment. -/
theorem exists_fragment {s : List Char} {m : Markup} (h : markup? s = some m)
    (hr : (m.read s).2 ≠ []) :
    ∃ f : Fragment, (m.read s).1 = f.piece ∧ f.WellFormed ∧ f.isMarkup = true := by
  unfold markup? at h
  split at h
  · split at h
    · obtain rfl := Option.some.inj h
      unfold Markup.read at hr ⊢
      dsimp only at hr ⊢
      split at hr
      · exact absurd rfl hr
      · next said rest hc => exact ⟨.comment said, rfl, wellFormed_comment hc, rfl⟩
    · split at h
      · next tag ht =>
        obtain rfl := Option.some.inj h
        obtain ⟨inside, content, ending, hp, hf⟩ := read_raw_of_ne_nil ht hr
        exact ⟨_, hp, hf, rfl⟩
      · split at h
        · next hb =>
          obtain rfl := Option.some.inj h
          obtain ⟨inside, hp, hi⟩ := read_template_of_ne_nil hb hr
          exact ⟨.closing inside, hp, hi, rfl⟩
        · split at h
          · next hb =>
            obtain rfl := Option.some.inj h
            obtain ⟨inside, hp, hi⟩ := read_template_of_ne_nil hb hr
            exact ⟨.opening inside, hp, hi, rfl⟩
          · cases h
  · cases h

theorem exists_of_markup? {s : List Char} (h : (markup? s).isSome = true) :
    ∃ t, s = '<' :: t := by
  cases s with
  | nil => cases h
  | cons c t =>
    by_cases hc : c = '<'
    · exact ⟨t, hc ▸ rfl⟩
    · rw [markup?_of_ne hc] at h
      cases h

/-- A piece of markup that is not the last one is that of a fragment. -/
theorem exists_fragment_of_nextPiece {s t : List Char} {p : Piece} (h : nextPiece s = (p, t))
    (ht : t ≠ []) (hm : (markup? s).isSome = true) :
    ∃ f : Fragment, p = f.piece ∧ f.WellFormed ∧ f.isMarkup = true := by
  obtain ⟨m, hm⟩ := Option.isSome_iff_exists.mp hm
  rw [nextPiece_eq_read hm] at h
  obtain ⟨f, hp, hf⟩ := exists_fragment hm (by rw [h]; exact ht)
  exact ⟨f, by rw [← hp, h], hf⟩

/-- Text without markup goes up to the markup that comes after it. -/
theorem nextPiece_text_append {chars u : List Char} (hne : chars ≠ [])
    (h : ∀ rest, rest <:+ chars → rest ≠ [] → markup? rest = none)
    (hu : u = [] ∨ (markup? u).isSome = true) : nextPiece (chars ++ u) = (.text chars, u) := by
  have hchars := h chars List.suffix_rfl hne
  rcases hu with rfl | hu
  · have hnone : breakAt (fun s => (markup? s).isSome) (chars ++ []) = none := by
      refine (breakAt_append_left ?_).trans rfl
      intro rest hr hrne
      rw [List.append_nil, h rest hr hrne]
      rfl
    rw [nextPiece, hnone, List.append_nil, hchars]
  · obtain ⟨other, rfl⟩ := exists_of_markup? hu
    have hsome : breakAt (fun s => (markup? s).isSome) (chars ++ '<' :: other) =
        some (chars, '<' :: other) := by
      refine breakAt_append_eq_some (List.cons_ne_nil _ _) hu ?_
      intro rest hr hrne
      rw [markup?_append_lt hrne, h rest hr hrne]
      rfl
    rw [nextPiece, hsome, markup?_append_lt hne, hchars]

/-- A piece that is not the last one is that of a fragment of markup, or it is text at which no
markup begins before the next one. -/
theorem nextPiece_cases {s t : List Char} {p : Piece} (h : nextPiece s = (p, t)) (ht : t ≠ []) :
    (∃ f : Fragment, p = f.piece ∧ f.WellFormed ∧ f.isMarkup = true) ∨
      ∃ chars, p = .text chars ∧ chars ≠ [] ∧ (markup? t).isSome = true ∧
        ∀ rest, rest <:+ chars → rest ≠ [] → markup? (rest ++ t) = none := by
  by_cases hm : (markup? s).isSome = true
  · exact .inl (exists_fragment_of_nextPiece h ht hm)
  · have hm : markup? s = none := by simpa using hm
    rw [nextPiece, hm] at h
    dsimp only at h
    split at h
    · obtain ⟨-, rfl⟩ := Prod.mk.inj h
      exact absurd rfl ht
    · next before rest hb =>
      obtain ⟨rfl, rfl⟩ := Prod.mk.inj h
      obtain ⟨rfl, hmarkup⟩ := breakAt_append hb
      refine .inr ⟨before, rfl, ?_, hmarkup, ?_⟩
      · rintro rfl
        rw [List.nil_append] at hm
        rw [hm] at hmarkup
        cases hmarkup
      · intro later hl hne
        simpa using breakAt_before hb later hl hne

/-- A piece is read again in front of another text, if markup comes after it where it did before or
nothing comes after it. -/
theorem nextPiece_render_append {s t u : List Char} {p : Piece} (h : nextPiece s = (p, t))
    (ht : t ≠ []) (hu : u = [] ∨ ((markup? t).isSome = true → (markup? u).isSome = true)) :
    nextPiece (p.render ++ u) = (p, u) := by
  rcases nextPiece_cases h ht with ⟨f, rfl, hf, hmarkup⟩ | ⟨chars, rfl, hne, hmarkup, hnone⟩
  · exact nextPiece_markup hf hmarkup u
  · obtain ⟨after, rfl⟩ := exists_of_markup? hmarkup
    refine nextPiece_text_append hne ?_ (hu.imp_right fun hu => hu hmarkup)
    intro later hl hlne
    rw [← markup?_append_lt hlne after]
    exact hnone later hl hlne

/-- The first pieces of a text are read again in front of another text that begins with markup, or
in front of nothing. -/
theorem pieces_render_append {s u : List Char} {ps qs : List Piece} (h : pieces s = ps ++ qs)
    (hqs : qs ≠ []) (hu : u = [] ∨ (markup? u).isSome = true) :
    pieces (render ps ++ u) = ps ++ pieces u := by
  -- a piece with others after it is not cut off by the end of the text
  have hrest {s : List Char} {ps : List Piece} (h : pieces s = ps ++ qs) : s ≠ [] := by
    rintro rfl
    rw [pieces_nil] at h
    exact hqs (List.append_eq_nil_iff.mp h.symm).2
  induction ps generalizing s with
  | nil => rfl
  | cons p ps ih =>
    have hs := hrest h
    rw [pieces_of_ne_nil hs, List.cons_append] at h
    obtain ⟨hp, h⟩ := List.cons.inj h
    have hnext : nextPiece s = (p, (nextPiece s).2) := Prod.ext hp rfl
    have hmarkup : render ps ++ u = [] ∨ ((markup? (nextPiece s).2).isSome = true →
        (markup? (render ps ++ u)).isSome = true) := by
      cases ps with
      | nil => exact hu.imp_right fun hu _ => hu
      | cons q ps =>
        have ht := hrest h
        rw [pieces_of_ne_nil ht, List.cons_append] at h
        obtain ⟨hq, h⟩ := List.cons.inj h
        refine .inr fun hm => ?_
        obtain ⟨f, rfl, hf, hfm⟩ := exists_fragment_of_nextPiece (Prod.ext hq rfl) (hrest h) hm
        obtain ⟨m, hmarkup, -⟩ := exists_markup?_fragment hf hfm (render ps ++ u)
        rw [render_cons, List.append_assoc]
        exact Option.isSome_iff_exists.mpr ⟨m, hmarkup⟩
    have hread := nextPiece_render_append hnext (hrest h) hmarkup
    have hne : p.render ++ (render ps ++ u) ≠ [] := by
      rw [← hp]
      exact List.append_ne_nil_of_left_ne_nil (nextPiece_ne_nil hs) _
    rw [render_cons, List.append_assoc, pieces_of_ne_nil hne, hread, ih h, List.cons_append]

/-- The first pieces of a text are the pieces of the text that they were read from. -/
theorem pieces_render_front {s : List Char} {ps qs : List Piece} (h : pieces s = ps ++ qs) :
    pieces (render ps) = ps := by
  by_cases hqs : qs = []
  · rw [hqs, List.append_nil] at h
    rw [← h, render_pieces]
  · simpa using pieces_render_append h hqs (.inl rfl)

end InlineComponents
