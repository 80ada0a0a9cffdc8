import InlineComponents.Proofs.Nesting
import InlineComponents.Proofs.Reading
import Mathlib.Data.List.Infix

namespace InlineComponents

/-- What a source is written of. -/
inductive Fragment where
  | text (chars : List Char)
  | comment (said : List Char)
  | raw (element : RawTag) (inside content ending : List Char)
  | tag (inside : List Char)
  | opening (inside : List Char)
  | closing (inside : List Char)

namespace Fragment

/-- The piece that is to be read where the fragment is written. -/
def piece : Fragment → Piece
  | .text chars => .text chars
  | .comment said => .text (commentStart ++ said ++ commentEnd)
  | .raw element inside content ending =>
    .text ('<' :: element.name ++ inside ++ '>' :: (content ++ element.closing ++ ending ++ ['>']))
  | .tag inside => .text ('<' :: inside ++ ['>'])
  | .opening inside => .opening inside
  | .closing inside => .closing inside

def render (f : Fragment) : List Char :=
  f.piece.render

/-- Text holds no `<`, a comment not its end, and a raw element not its closing tag; any other tag
is on its own what it is to be. -/
def WellFormed : Fragment → Prop
  | .text chars => '<' ∉ chars
  | .comment said => ¬ commentEnd <:+: said
  | .raw element inside content ending =>
    IsTagInside inside ∧ (∀ rest, rest <:+ content → beginsTag element.closing rest = false) ∧
      IsTagInside ending
  | .tag inside =>
    '<' ∉ inside ∧ '>' ∉ inside ∧ ¬ ['!', '-', '-'] <+: inside ∧
      ∀ name ∈ ["template", "/template", "script", "style"],
        beginsTag name.toList (inside ++ ['>']) = false
  | .opening inside | .closing inside => IsTagInside inside

end Fragment

instance : (f : Fragment) → Decidable f.WellFormed
  | .text chars => inferInstanceAs (Decidable ('<' ∉ chars))
  | .comment said => inferInstanceAs (Decidable (¬ commentEnd <:+: said))
  | .raw element inside content ending =>
    decidable_of_iff
      (IsTagInside inside ∧ (∀ rest ∈ content.tails, beginsTag element.closing rest = false) ∧
        IsTagInside ending)
      (by simp [Fragment.WellFormed, List.mem_tails])
  | .tag inside =>
    inferInstanceAs (Decidable ('<' ∉ inside ∧ '>' ∉ inside ∧ ¬ ['!', '-', '-'] <+: inside ∧
      ∀ name ∈ ["template", "/template", "script", "style"],
        beginsTag name.toList (inside ++ ['>']) = false))
  | .opening inside | .closing inside => inferInstanceAs (Decidable (IsTagInside inside))

theorem markup?_comment (t : List Char) : markup? (commentStart ++ t) = some .comment := by
  simp [markup?, commentStart, List.isPrefixOf]

theorem markup?_raw {element : RawTag} {inside : List Char} (h : IsTagInside inside)
    (t : List Char) :
    markup? ('<' :: element.name ++ inside ++ '>' :: t) = some (.raw element) := by
  have hc : commentStart.isPrefixOf ('<' :: element.name ++ inside ++ '>' :: t) = false := by
    cases element <;> rfl
  have hr : rawTag? ('<' :: element.name ++ inside ++ '>' :: t) = some element := by
    rw [List.append_assoc]
    exact rawTag?_append h t
  unfold markup?
  simp only [List.cons_append] at hc hr ⊢
  rw [hc, hr]
  rfl

/-- A text that begins with neither a comment nor a raw element begins with a template tag, or
with no markup. -/
theorem markup?_cons_of_ne {s : List Char} (hc : commentStart.isPrefixOf ('<' :: s) = false)
    (hr : rawTag? ('<' :: s) = none) :
    markup? ('<' :: s) =
      if beginsTag templateClosing ('<' :: s) then some (.template templateClosing .closing)
      else if beginsTag templateOpening ('<' :: s) then some (.template templateOpening .opening)
      else none := by
  rw [markup?, hc, hr]
  rfl

theorem markup?_opening {inside : List Char} (h : IsTagInside inside) (t : List Char) :
    markup? (templateOpening ++ inside ++ '>' :: t) =
      some (.template templateOpening .opening) := by
  have hb := h.beginsTag_eq templateOpening t
  have hc : beginsTag templateClosing (templateOpening ++ inside ++ '>' :: t) = false := rfl
  refine (markup?_cons_of_ne rfl rfl).trans ?_
  exact (if_neg (Bool.eq_false_iff.mp hc)).trans (if_pos hb)

theorem markup?_closing {inside : List Char} (h : IsTagInside inside) (t : List Char) :
    markup? (templateClosing ++ inside ++ '>' :: t) =
      some (.template templateClosing .closing) :=
  (markup?_cons_of_ne rfl rfl).trans (if_pos (h.beginsTag_eq templateClosing t))

theorem nextPiece_eq_read {s : List Char} {m : Markup} (h : markup? s = some m) :
    nextPiece s = m.read s := by
  rw [nextPiece, h]

/-- Comments, raw elements and template tags are each read as a piece of their own. -/
def Fragment.isMarkup : Fragment → Bool
  | .text _ | .tag _ => false
  | .comment _ | .raw .. | .opening _ | .closing _ => true

/-- Where a fragment of markup is written, markup begins that is read as its piece, whatever comes
after it. -/
theorem exists_markup?_fragment {f : Fragment} (hf : f.WellFormed) (hm : f.isMarkup = true)
    (t : List Char) : ∃ m, markup? (f.render ++ t) = some m ∧ m.read (f.render ++ t) = (f.piece, t) := by
  cases f with
  | text chars => simp [Fragment.isMarkup] at hm
  | tag inside => simp [Fragment.isMarkup] at hm
  | comment said =>
    have hr : Fragment.render (.comment said) ++ t = commentStart ++ (said ++ (commentEnd ++ t)) := by
      simp [Fragment.render, Fragment.piece, Piece.render]
    refine ⟨.comment, by rw [hr, markup?_comment], ?_⟩
    rw [hr, Markup.read, List.drop_left, closeComment_append_eq hf]
    rfl
  | raw element inside content ending =>
    obtain ⟨hi, hc, he⟩ := hf
    have hr : Fragment.render (.raw element inside content ending) ++ t =
        '<' :: element.name ++ inside ++
          '>' :: (content ++ (element.closing ++ ending ++ '>' :: t)) := by
      simp [Fragment.render, Fragment.piece, Piece.render]
    refine ⟨.raw element, by rw [hr, markup?_raw hi], ?_⟩
    rw [hr, Markup.read, List.append_assoc]
    simp only [List.drop_left, hi.closeAngle_eq, closeRaw_append_eq hc he]
    simp [Fragment.piece]
  | opening inside =>
    have hr : Fragment.render (.opening inside) ++ t = templateOpening ++ inside ++ '>' :: t := by
      simp [Fragment.render, Fragment.piece, Piece.render]
    refine ⟨.template templateOpening .opening, by rw [hr, markup?_opening hf], ?_⟩
    rw [hr, Markup.read, List.append_assoc, List.drop_left, hf.closeAngle_eq]
    rfl
  | closing inside =>
    have hr : Fragment.render (.closing inside) ++ t = templateClosing ++ inside ++ '>' :: t := by
      simp [Fragment.render, Fragment.piece, Piece.render]
    refine ⟨.template templateClosing .closing, by rw [hr, markup?_closing hf], ?_⟩
    rw [hr, Markup.read, List.append_assoc, List.drop_left, hf.closeAngle_eq]
    rfl

theorem nextPiece_markup {f : Fragment} (hf : f.WellFormed) (hm : f.isMarkup = true)
    (t : List Char) : nextPiece (f.render ++ t) = (f.piece, t) := by
  obtain ⟨m, hmarkup, hread⟩ := exists_markup?_fragment hf hm t
  rw [nextPiece_eq_read hmarkup, hread]

/-- No markup begins at any place of the text, whatever comes after it. -/
def IsInert (chars : List Char) : Prop :=
  ∀ rest, rest <:+ chars → rest ≠ [] → ∀ t, markup? (rest ++ t) = none

theorem markup?_of_ne {c : Char} (h : c ≠ '<') (s : List Char) : markup? (c :: s) = none := by
  unfold markup?
  split
  · next he => exact absurd (List.cons.inj he).1 h
  · rfl

theorem isInert_of_notMem {chars : List Char} (h : '<' ∉ chars) : IsInert chars := by
  intro rest hs hr t
  obtain ⟨c, rest, rfl⟩ := List.exists_cons_of_ne_nil hr
  refine markup?_of_ne ?_ (rest ++ t)
  rintro rfl
  exact h (hs.subset List.mem_cons_self)

theorem prefix_of_prefix_append_cons {name inside t : List Char} {c : Char} (hc : c ∉ name)
    (h : name <+: inside ++ c :: t) : name <+: inside := by
  obtain ⟨after, he⟩ := h
  rcases List.append_eq_append_iff.mp he with ⟨between, rfl, -⟩ | ⟨beyond, rfl, ht⟩
  · exact List.prefix_append name between
  · cases beyond with
    | nil => simp
    | cons d beyond =>
      obtain ⟨rfl, -⟩ := List.cons.inj ht
      simp at hc

theorem markup?_tag {inside : List Char} (h : Fragment.WellFormed (.tag inside))
    (t : List Char) : markup? ('<' :: inside ++ '>' :: t) = none := by
  obtain ⟨-, -, hc, hn⟩ := h
  have hb (name : String) (hm : name ∈ ["template", "/template", "script", "style"]) :
      beginsTag name.toList (inside ++ '>' :: t) = false := by
    have hangle : '>' ∉ name.toList := by
      simp only [List.mem_cons, List.not_mem_nil, or_false] at hm
      rcases hm with rfl | rfl | rfl | rfl <;> decide
    rw [beginsTag_append_cons hangle]
    exact hn name hm
  have hcomment : commentStart.isPrefixOf ('<' :: inside ++ '>' :: t) = false := by
    rw [Bool.eq_false_iff]
    intro hp
    have hp := List.cons_prefix_cons.mp (List.isPrefixOf_iff_prefix.mp hp)
    exact hc (prefix_of_prefix_append_cons (by decide) hp.2)
  have hraw : rawTag? ('<' :: inside ++ '>' :: t) = none := by
    have hscript : beginsTag RawTag.script.name (inside ++ '>' :: t) = false :=
      hb "script" (by simp)
    have hstyle : beginsTag RawTag.style.name (inside ++ '>' :: t) = false := hb "style" (by simp)
    rw [List.cons_append, rawTag?, hscript, hstyle]
    rfl
  have hopening : beginsTag templateOpening ('<' :: inside ++ '>' :: t) = false :=
    hb "template" (by simp)
  have hclosing : beginsTag templateClosing ('<' :: inside ++ '>' :: t) = false :=
    hb "/template" (by simp)
  refine (markup?_cons_of_ne hcomment hraw).trans ?_
  exact (if_neg (Bool.eq_false_iff.mp hclosing)).trans (if_neg (Bool.eq_false_iff.mp hopening))

theorem isInert_render {f : Fragment} (hf : f.WellFormed) (hm : f.isMarkup = false) :
    IsInert f.render ∧ f.piece = .text f.render := by
  cases f with
  | text chars => exact ⟨isInert_of_notMem hf, rfl⟩
  | tag inside =>
    refine ⟨?_, rfl⟩
    intro rest hs hr t
    rcases List.suffix_cons_iff.mp hs with rfl | hs
    · simpa using markup?_tag hf t
    · have hn : '<' ∉ inside ++ ['>'] := by simp [hf.1]
      exact isInert_of_notMem hn rest hs hr t
  | comment said => simp [Fragment.isMarkup] at hm
  | raw element inside content ending => simp [Fragment.isMarkup] at hm
  | opening inside => simp [Fragment.isMarkup] at hm
  | closing inside => simp [Fragment.isMarkup] at hm

theorem pieces_of_ne_nil {s : List Char} (h : s ≠ []) :
    pieces s = (nextPiece s).1 :: pieces (nextPiece s).2 := by
  obtain ⟨c, s, rfl⟩ := List.exists_cons_of_ne_nil h
  exact pieces_cons c s

/-- Text at which no markup begins is a piece of its own, or goes on in the text that is read after
it. -/
theorem pieces_append_of_markup?_none {chars t : List Char}
    (h : ∀ rest, rest <:+ chars → rest ≠ [] → markup? (rest ++ t) = none) (hne : chars ≠ []) :
    pieces (chars ++ t) = .text chars :: pieces t ∨
      ∃ more ps, pieces t = .text more :: ps ∧ pieces (chars ++ t) = .text (chars ++ more) :: ps := by
  have hnone : markup? (chars ++ t) = none := h chars List.suffix_rfl hne
  have hbreak : breakAt (fun s => (markup? s).isSome) (chars ++ t) =
      (breakAt (fun s => (markup? s).isSome) t).map
        fun broken => (chars ++ broken.1, broken.2) := by
    apply breakAt_append_left
    intro rest hs hr
    rw [h rest hs hr]
    rfl
  have hread := pieces_of_ne_nil (List.append_ne_nil_of_left_ne_nil hne t)
  rw [nextPiece, hnone, hbreak] at hread
  by_cases ht : t = []
  · subst ht
    exact .inl (by simpa [breakAt, breakAt.go] using hread)
  by_cases hm : (markup? t).isSome = true
  · rw [breakAt_of_pos ht hm] at hread
    exact .inl (by simpa using hread)
  -- the text goes on, up to the place where the text after it would have ended
  · refine .inr ?_
    have hm : markup? t = none := by simpa using hm
    have hrest := pieces_of_ne_nil ht
    rw [nextPiece, hm] at hrest
    cases hb : breakAt (fun s => (markup? s).isSome) t with
    | none =>
      rw [hb] at hread hrest
      exact ⟨t, [], by simpa using hrest, by simpa using hread⟩
    | some broken =>
      rw [hb] at hread hrest
      exact ⟨broken.1, pieces broken.2, hrest, hread⟩

theorem Fragment.render_ne_nil {f : Fragment} (h : f.isMarkup = true) : f.render ≠ [] := by
  cases f <;>
    simp_all [Fragment.isMarkup, Fragment.render, Fragment.piece, Piece.render, commentStart,
      templateOpening, templateClosing]

theorem pieces_markup_append {f : Fragment} (hf : f.WellFormed) (hm : f.isMarkup = true)
    (t : List Char) : pieces (f.render ++ t) = f.piece :: pieces t := by
  rw [pieces_of_ne_nil (List.append_ne_nil_of_left_ne_nil (Fragment.render_ne_nil hm) t),
    nextPiece_markup hf hm t]

/-- A fragment is read as its piece, or it is text that goes on in what is read after it. -/
theorem pieces_fragment_append {f : Fragment} (hf : f.WellFormed) (t : List Char) :
    pieces (f.render ++ t) = f.piece :: pieces t ∨ f.piece = .text f.render ∧
      (f.render = [] ∨ ∃ more ps, pieces t = .text more :: ps ∧
        pieces (f.render ++ t) = .text (f.render ++ more) :: ps) := by
  by_cases hm : f.isMarkup = true
  · exact .inl (pieces_markup_append hf hm t)
  · obtain ⟨hi, hp⟩ := isInert_render hf (Bool.eq_false_iff.mpr hm)
    by_cases hne : f.render = []
    · exact .inr ⟨hp, .inl hne⟩
    · rcases pieces_append_of_markup?_none (fun rest hs hr => hi rest hs hr t) hne with h | h
      · exact .inl (hp ▸ h)
      · exact .inr ⟨hp, .inr h⟩

/-- Fragments one after the other. -/
def written (fs : List Fragment) : List Char :=
  fs.flatMap Fragment.render

theorem written_cons (f : Fragment) (fs : List Fragment) :
    written (f :: fs) = f.render ++ written fs :=
  rfl

/-- Up to a template tag, fragments are read as pieces with the same tags and the same text. -/
theorem pieces_written_append {fs : List Fragment} (h : ∀ f ∈ fs, f.WellFormed) {t : List Char}
    {p : Piece} {qs : List Piece} (ht : pieces t = p :: qs) (hp : p.isTag = true) :
    ∃ ps, pieces (written fs ++ t) = ps ++ p :: qs ∧ render ps = written fs ∧
      ps.filter Piece.isTag = (fs.map Fragment.piece).filter Piece.isTag := by
  induction fs with
  | nil => exact ⟨[], ht, rfl, rfl⟩
  | cons f fs ih =>
    obtain ⟨ps, hread, hrender, htags⟩ := ih fun g hg => h g (List.mem_cons_of_mem f hg)
    have hw : written (f :: fs) ++ t = f.render ++ (written fs ++ t) := by
      rw [written_cons, List.append_assoc]
    have hf := h f List.mem_cons_self
    rcases pieces_fragment_append hf (written fs ++ t) with hown | ⟨htext, hgoes⟩
    · refine ⟨f.piece :: ps, ?_, ?_, ?_⟩
      · rw [hw, hown, hread, List.cons_append]
      · rw [render_cons, hrender, written_cons, Fragment.render]
      · rw [List.map_cons, List.filter_cons, List.filter_cons, htags]
    have htag : ((f :: fs).map Fragment.piece).filter Piece.isTag =
        (fs.map Fragment.piece).filter Piece.isTag := by
      rw [List.map_cons, htext]
      rfl
    rcases hgoes with hnil | ⟨more, after, hmore, hgoes⟩
    · refine ⟨ps, ?_, ?_, ?_⟩
      · rw [hw, hnil, List.nil_append, hread]
      · rw [hrender, written_cons, hnil, List.nil_append]
      · rw [htag, htags]
    · rw [hread] at hmore
      cases ps with
      | nil =>
        obtain ⟨rfl, -⟩ := List.cons.inj hmore
        simp [Piece.isTag] at hp
      | cons q ps =>
        obtain ⟨rfl, rfl⟩ := List.cons.inj hmore
        refine ⟨.text (f.render ++ more) :: ps, ?_, ?_, ?_⟩
        · rw [hw, hgoes]
          rfl
        · rw [render_cons] at hrender ⊢
          rw [written_cons, ← hrender, Piece.render, List.append_assoc]
          rfl
        · rw [htag, ← htags]
          rfl

end InlineComponents
