import InlineComponents.Markup.Braces
import InlineComponents.Proofs.Bodies
import InlineComponents.Proofs.Components
import InlineComponents.Proofs.Rereading
import InlineComponents.Proofs.TagReading
import Mathlib.Data.List.Nodup

namespace InlineComponents

/-- A character that stands in nothing that markup begins with. -/
def IsNeutral (c : Char) : Prop :=
  ∀ name ∈ [commentStart, RawTag.script.name, RawTag.style.name, templateClosing, templateOpening],
    c ∉ name

instance (c : Char) : Decidable (IsNeutral c) :=
  inferInstanceAs (Decidable (∀ name ∈ [commentStart, RawTag.script.name, RawTag.style.name,
    templateClosing, templateOpening], c ∉ name))

/-- What begins at a place is known before a neutral character. -/
theorem markup?_append_cons {c : Char} (hc : IsNeutral c) (s t : List Char) :
    markup? (s ++ c :: t) = markup? (s ++ [c]) := by
  have hcomment : c ∉ commentStart := hc _ (by simp)
  have hscript : c ∉ RawTag.script.name := hc _ (by simp)
  have hstyle : c ∉ RawTag.style.name := hc _ (by simp)
  have hclosing : c ∉ templateClosing := hc _ (by simp)
  have hopening : c ∉ templateOpening := hc _ (by simp)
  have hlt : c ≠ '<' := by
    rintro rfl
    exact hcomment (by decide)
  cases s with
  | nil => rw [List.nil_append, List.nil_append, markup?_of_ne hlt, markup?_of_ne hlt]
  | cons d s =>
    by_cases hd : d = '<'
    · subst hd
      have hp (t : List Char) : commentStart.isPrefixOf ('<' :: (s ++ c :: t)) =
          commentStart.isPrefixOf ('<' :: s) := by
        rw [Bool.eq_iff_iff, List.isPrefixOf_iff_prefix, List.isPrefixOf_iff_prefix]
        constructor
        · exact @prefix_of_prefix_append_cons _ ('<' :: s) t c hcomment
        · exact fun h => h.trans (List.prefix_append ('<' :: s) (c :: t))
      have hr : rawTag? ('<' :: (s ++ c :: t)) = rawTag? ('<' :: (s ++ [c])) := by
        rw [rawTag?, rawTag?, beginsTag_append_cons hscript, beginsTag_append_cons hstyle]
      have hc := beginsTag_append_cons hclosing ('<' :: s) t
      have ho := beginsTag_append_cons hopening ('<' :: s) t
      rw [List.cons_append, List.cons_append] at hc ho ⊢
      unfold markup?
      rw [hp t, hp [], hr, hc, ho]
      rfl
    · rw [List.cons_append, List.cons_append, markup?_of_ne hd, markup?_of_ne hd]

/-- Text at which no markup begins hides no tag of what comes after it. -/
theorem placeTags_pieces_append {chars t : List Char}
    (h : ∀ rest, rest <:+ chars → rest ≠ [] → markup? (rest ++ t) = none) (offset : Nat) :
    placeTags offset (pieces (chars ++ t)) = placeTags (offset + byteLength chars) (pieces t) := by
  by_cases hne : chars = []
  · subst hne
    rfl
  rcases pieces_append_of_markup?_none h hne with hown | ⟨more, ps, hmore, hgoes⟩
  · rw [hown]
    rfl
  · rw [hmore, hgoes]
    simp [placeTags, Piece.isTag, Piece.render, Nat.add_assoc]

/-- The first pieces of a text have their tags where they had them, also in front of another text,
if that text lets no markup begin in them that did not begin before. -/
theorem placeTags_render_append {s t : List Char} {ps qs : List Piece} (h : pieces s = ps ++ qs)
    (hqs : qs ≠ []) (ht : ∀ rest, rest <:+ render ps → rest ≠ [] →
      markup? (rest ++ render qs) = none → markup? (rest ++ t) = none) (offset : Nat) :
    placeTags offset (pieces (render ps ++ t)) =
      placeTags offset ps ++ placeTags (offset + byteLength (render ps)) (pieces t) := by
  induction ps generalizing s offset with
  | nil => rfl
  | cons p ps ih =>
    have hne : s ≠ [] := by
      rintro rfl
      simp at h
    rw [pieces_of_ne_nil hne, List.cons_append] at h
    obtain ⟨hp, hrest⟩ := List.cons.inj h
    have hread : nextPiece s = (p, (nextPiece s).2) := Prod.ext hp rfl
    have hleft : (nextPiece s).2 = render ps ++ render qs := by
      rw [← render_pieces (nextPiece s).2, hrest, render_append]
    have hmore : (nextPiece s).2 ≠ [] := by
      intro hnil
      rw [hnil, pieces_nil] at hrest
      exact hqs (List.append_eq_nil_iff.mp hrest.symm).2
    have hlater (offset : Nat) := ih hrest
      (fun rest hs hr => ht rest (hs.trans (List.suffix_append _ _)) hr) offset
    have hcons (qs : List Piece) : placeTags offset (p :: qs) =
        placeTags offset [p] ++ placeTags (offset + byteLength p.render) qs := by
      rw [← List.singleton_append, placeTags_append]
      simp
    have hskip : placeTags offset (pieces (render (p :: ps) ++ t)) =
        placeTags offset [p] ++
          placeTags (offset + byteLength p.render) (pieces (render ps ++ t)) := by
      rw [render_cons, List.append_assoc]
      rcases nextPiece_cases hread hmore with
        ⟨f, rfl, hf, hmarkup⟩ | ⟨chars, rfl, hne, hmarkup, hnone⟩
      · have hpieces := pieces_markup_append hf hmarkup (render ps ++ t)
        rw [Fragment.render] at hpieces
        rw [hpieces, hcons]
      · -- no markup begins in the text, wherever it goes on
        refine placeTags_pieces_append ?_ offset
        intro rest hs hr
        rw [← List.append_assoc]
        refine ht (rest ++ render ps) ?_ (by simp [hr]) ?_
        · obtain ⟨before, rfl⟩ := hs
          exact ⟨before, by simp [Piece.render]⟩
        · rw [List.append_assoc, ← hleft]
          exact hnone rest hs hr
    rw [hskip, hlater, hcons ps, List.append_assoc]
    simp [Nat.add_assoc]

/-- Whatever comes after the text, the template tags of the pieces are met in it, each at its
place, and none else. -/
structure Settles (s : List Char) (ps : List Piece) : Prop where
  written : render ps = s
  met : ∀ offset t, placeTags offset (pieces (s ++ t)) = placeTags offset (ps ++ pieces t)

theorem settles_nil : Settles [] [] :=
  ⟨rfl, fun _ _ => rfl⟩

theorem Settles.append {s s' : List Char} {ps ps' : List Piece} (h : Settles s ps)
    (h' : Settles s' ps') : Settles (s ++ s') (ps ++ ps') := by
  refine ⟨by rw [render_append, h.written, h'.written], fun offset t => ?_⟩
  calc placeTags offset (pieces (s ++ s' ++ t))
      = placeTags offset (ps ++ pieces (s' ++ t)) := by rw [List.append_assoc, h.met]
    _ = placeTags offset ps ++ placeTags (offset + byteLength (render ps)) (ps' ++ pieces t) := by
      rw [placeTags_append, h'.met]
    _ = placeTags offset (ps ++ ps' ++ pieces t) := by
      rw [List.append_assoc, placeTags_append offset ps]

theorem settles_fragment {f : Fragment} (hf : f.WellFormed) : Settles f.render [f.piece] := by
  refine ⟨List.append_nil _, fun offset t => ?_⟩
  rcases pieces_fragment_append hf t with hown | ⟨htext, hnil | ⟨more, ps, hmore, hgoes⟩⟩
  · rw [hown, List.singleton_append]
  · rw [hnil, htext, hnil]
    rfl
  · rw [hgoes, hmore, htext]
    simp [placeTags, Piece.isTag, Piece.render, Nat.add_assoc]

/-- A block whose body begins with the text, and that is closed right after it, is closed by no tag
before that. -/
def IsWhole (s : List Char) : Prop :=
  ∃ body, closeBlock (pieces (s ++ (Piece.closing []).render)) = some (body, [], [])

instance (s : List Char) : Decidable (IsWhole s) :=
  decidable_of_iff
    ((closeBlock (pieces (s ++ (Piece.closing []).render))).map Prod.snd = some ([], []))
    (by simp [IsWhole])

theorem isWhole_iff {s : List Char} : IsWhole s ↔ ∃ ps,
    pieces (s ++ (Piece.closing []).render) = ps ++ [.closing []] ∧ Balanced ps := by
  simp [IsWhole, closeBlock_eq_some_iff]

theorem render_of_pieces_closing {s : List Char} {ps : List Piece}
    (h : pieces (s ++ (Piece.closing []).render) = ps ++ [.closing []]) : render ps = s := by
  have hs := render_pieces (s ++ (Piece.closing []).render)
  rw [h, render_append, render_cons, render_nil, List.append_nil] at hs
  exact List.append_cancel_right hs

/-- What is read up to a closing tag is read so in front of any closing tag. -/
theorem pieces_closing_append {s inside : List Char} {ps : List Piece}
    (h : pieces (s ++ (Piece.closing []).render) = ps ++ [.closing []])
    (hi : IsTagInside inside) (t : List Char) :
    pieces (s ++ ((Piece.closing inside).render ++ t)) = ps ++ .closing inside :: pieces t := by
  have hf : Fragment.WellFormed (.closing inside) := hi
  obtain ⟨m, hm, -⟩ := exists_markup?_fragment hf rfl t
  have happend := pieces_render_append h (List.cons_ne_nil _ _)
    (.inr (Option.isSome_iff_exists.mpr ⟨m, hm⟩))
  rw [render_of_pieces_closing h] at happend
  exact happend.trans (congrArg (ps ++ ·) (pieces_markup_append hf rfl t))

/-- A whole text whose last character is neutral is read alike in front of any text. -/
theorem settles_of_isWhole {c : Char} (hc : IsNeutral c) {s : List Char}
    (h : IsWhole (s ++ [c])) : ∃ ps, Settles (s ++ [c]) ps ∧ Balanced ps := by
  obtain ⟨ps, hread, hbalanced⟩ := isWhole_iff.mp h
  have hrender := render_of_pieces_closing hread
  refine ⟨ps, ⟨hrender, fun offset t => ?_⟩, hbalanced⟩
  have hsame : ∀ rest, rest <:+ render ps → rest ≠ [] →
      markup? (rest ++ render [.closing []]) = none → markup? (rest ++ t) = none := by
    intro rest hs hne hnone
    rw [hrender] at hs
    rcases List.suffix_concat_iff.mp hs with rfl | ⟨front, rfl, -⟩
    · exact absurd rfl hne
    · rw [List.append_assoc, List.singleton_append, markup?_append_cons hc] at hnone ⊢
      exact hnone
  have hmet := placeTags_render_append hread (by simp) hsame offset
  rw [placeTags_append, ← hmet, hrender]

/-- Two beginnings of one text that have as many bytes are one beginning. -/
theorem eq_of_byteLength_eq {s t s' t' : List Char} (h : s ++ t = s' ++ t')
    (hlength : byteLength s = byteLength s') : s = s' := by
  have hnil {more : List Char} (hm : byteLength more = 0) : more = [] := by
    cases more with
    | nil => rfl
    | cons c more =>
      have := c.utf8Size_pos
      rw [byteLength_cons] at hm
      omega
  rcases List.append_eq_append_iff.mp h with ⟨more, rfl, -⟩ | ⟨more, rfl, -⟩ <;>
  · rw [byteLength_append] at hlength
    obtain rfl := @hnil more (by omega)
    simp

theorem pieces_closing : pieces (Piece.closing []).render = [.closing []] := by
  have hown := @pieces_markup_append (.closing []) (by decide) rfl []
  rwa [List.append_nil, pieces_nil] at hown

/-- A text that has the tags of balanced pieces is whole. -/
theorem Settles.isWhole {s : List Char} {ps : List Piece} (h : Settles s ps) (hb : Balanced ps) :
    IsWhole s := by
  have hmet := h.met 0 (Piece.closing []).render
  rw [pieces_closing, placeTags_append, placeTags_cons_of_isTag _ rfl] at hmet
  obtain ⟨qs, rs, hread, htags, hstart, -⟩ := exists_of_placeTags_eq hmet
  have hs := render_pieces (s ++ (Piece.closing []).render)
  rw [hread, render_append, render_cons] at hs
  have hlength : byteLength (render qs) = byteLength s := by
    rw [h.written] at hstart
    omega
  have hqs := eq_of_byteLength_eq hs hlength
  rw [hqs] at hs
  have hrest : render rs = [] := by
    have hs := List.append_cancel_left hs
    simpa using hs
  have hrs : rs = [] := by
    rw [← List.singleton_append, ← List.append_assoc] at hread
    rw [← pieces_render_suffix hread, hrest, pieces_nil]
  rw [hrs] at hread
  refine isWhole_iff.mpr ⟨qs, hread, ?_⟩
  rw [Balanced, ← unwinds_filter_isTag, ← map_tag_placeTags 0, htags, map_tag_placeTags,
    unwinds_filter_isTag]
  exact hb

/-- A part of a body: a fragment, an expression in braces, or an element's tag, in which there may
be expressions too. -/
inductive BodyPart where
  | fragment (f : Fragment)
  | expression (said : List Char)
  | tag (name inside : List Char)

namespace BodyPart

/-- The piece that the part is meant to be. -/
def piece : BodyPart → Piece
  | .fragment f => f.piece
  | .expression said => .text ('{' :: said ++ ['}'])
  | .tag name inside => .text ('<' :: name ++ inside ++ ['>'])

def render (part : BodyPart) : List Char :=
  part.piece.render

/-- Expressions and the tags that hold them are for the reader of tokens to pass over. -/
def isOpaque : BodyPart → Bool
  | .fragment _ => false
  | .expression _ | .tag .. => true

/-- An expression is passed over up to its last brace, and a tag of another element up to its
`>`. -/
def WellFormed : BodyPart → Prop
  | .fragment f => f.WellFormed
  | .expression said => closeBrace (said ++ ['}']) = some (said, [])
  | .tag name inside => IsElementName name ∧ name ≠ "template".toList ∧ IsElementInside inside

instance : (part : BodyPart) → Decidable part.WellFormed
  | .fragment f => inferInstanceAs (Decidable f.WellFormed)
  | .expression said => inferInstanceAs (Decidable (closeBrace (said ++ ['}']) = some (said, [])))
  | .tag name inside =>
    inferInstanceAs (Decidable (IsElementName name ∧ name ≠ "template".toList ∧
      IsElementInside inside))

end BodyPart

theorem exists_settles_of_isWhole {part : BodyPart} (ho : part.isOpaque = true)
    (h : IsWhole part.render) : ∃ ps, Settles part.render ps ∧ Balanced ps := by
  cases part with
  | fragment f => cases ho
  | expression said => exact @settles_of_isWhole '}' (by decide) ('{' :: said) h
  | tag name inside => exact @settles_of_isWhole '>' (by decide) ('<' :: name ++ inside) h

/-- Parts of which the opaque ones are whole have the levels that they are meant to have. -/
theorem exists_settles {parts : List BodyPart} (hw : ∀ part ∈ parts, part.WellFormed)
    (ho : ∀ part ∈ parts, part.isOpaque = true → IsWhole part.render) {depth : Nat}
    (hb : Unwinds depth (parts.map BodyPart.piece)) :
    ∃ ps, Settles (parts.flatMap BodyPart.render) ps ∧ Unwinds depth ps := by
  induction parts generalizing depth with
  | nil => exact ⟨[], settles_nil, hb⟩
  | cons part parts ih =>
    have hrest {depth : Nat} := @ih (fun other hm => hw other (List.mem_cons_of_mem part hm))
      (fun other hm => ho other (List.mem_cons_of_mem part hm)) depth
    have hpart := hw part List.mem_cons_self
    have hwhole := ho part List.mem_cons_self
    by_cases hopaque : part.isOpaque = true
    · have htext : part.piece = .text part.render := by
        cases part with
        | fragment f => cases hopaque
        | expression said => rfl
        | tag name inside => rfl
      rw [List.map_cons, htext] at hb
      obtain ⟨ps, hps, hlevels⟩ := hrest (unwinds_text.mp hb)
      obtain ⟨own, hown, hbalanced⟩ := exists_settles_of_isWhole hopaque (hwhole hopaque)
      have happend := Unwinds.append hbalanced hlevels
      rw [Nat.zero_add] at happend
      exact ⟨own ++ ps, hown.append hps, happend⟩
    · obtain ⟨f, rfl⟩ : ∃ f, part = .fragment f := by
        cases part with
        | fragment f => exact ⟨f, rfl⟩
        | expression said => exact absurd rfl hopaque
        | tag name inside => exact absurd rfl hopaque
      obtain ⟨level, hl, hb⟩ := unwinds_cons.mp hb
      obtain ⟨ps, hps, hlevels⟩ := hrest hb
      exact ⟨[f.piece] ++ ps, (settles_fragment hpart).append hps,
        unwinds_cons.mpr ⟨level, hl, hlevels⟩⟩

/-- Text at which no markup begins is text on its own, and opens no block. -/
theorem pieces_append_of_isInert {s u : List Char} (hs : IsInert s)
    (hu : u = [] ∨ (markup? u).isSome = true) : ∃ kept, pieces (s ++ u) = kept ++ pieces u ∧
      render kept = s ∧ Balanced kept ∧ ∀ p ∈ kept, blockName? p = none := by
  by_cases hne : s = []
  · subst hne
    exact ⟨[], rfl, rfl, unwinds_nil.mpr rfl, by simp⟩
  · have hnone : ∀ rest, rest <:+ s → rest ≠ [] → markup? rest = none := by
      intro rest hr hrest
      simpa using hs rest hr hrest []
    refine ⟨[.text s], ?_, List.append_nil s, unwinds_text.mpr (unwinds_nil.mpr rfl), ?_⟩
    · rw [pieces_of_ne_nil (List.append_ne_nil_of_left_ne_nil hne u),
        nextPiece_text_append hne hnone hu]
      rfl
    · simp [blockName?]

/-- A block with parts in its body, in a source without other markup. -/
structure LoneBlock where
  before : List Char
  name : String
  opening : List Char
  body : List BodyPart
  closing : List Char
  after : List Char

namespace LoneBlock

/-- The opening tag declares the name, and the templates in the body are balanced, if its
expressions are no markup. -/
structure WellFormed (b : LoneBlock) : Prop where
  alone : IsInert b.before ∧ IsInert b.after
  opened : IsTagInside b.opening
  named : blockName? (.opening b.opening) = some b.name
  declared : isDeclaredName b.name = true
  parts : ∀ part ∈ b.body, part.WellFormed
  balanced : Balanced (b.body.map BodyPart.piece)
  closed : IsTagInside b.closing

def bodyText (b : LoneBlock) : List Char :=
  b.body.flatMap BodyPart.render

def source (b : LoneBlock) : String :=
  String.ofList (b.before ++ ((Piece.opening b.opening).render ++
    (b.bodyText ++ ((Piece.closing b.closing).render ++ b.after))))

/-- The block's whole body, and the source without the block. -/
def extraction (b : LoneBlock) (file : Path) : Extraction :=
  ⟨String.ofList (b.before ++ b.after), [.declared file b.name (String.ofList b.bodyText)]⟩

variable {b : LoneBlock}

/-- How the source is read up to the body. -/
theorem pieces_source (h : b.WellFormed) : ∃ kept,
    pieces b.source.toList = kept ++ .opening b.opening ::
      pieces (b.bodyText ++ ((Piece.closing b.closing).render ++ b.after)) ∧
      render kept = b.before ∧ ∀ p ∈ kept, blockName? p = none := by
  let rest := b.bodyText ++ ((Piece.closing b.closing).render ++ b.after)
  have hf : Fragment.WellFormed (.opening b.opening) := h.opened
  obtain ⟨m, hmarkup, -⟩ := exists_markup?_fragment hf rfl rest
  obtain ⟨kept, hkept, hrender, -, hnone⟩ := pieces_append_of_isInert h.alone.1
    (.inr (Option.isSome_iff_exists.mpr ⟨m, hmarkup⟩))
  refine ⟨kept, ?_, hrender, hnone⟩
  rw [source, String.toList_ofList]
  exact hkept.trans (congrArg (kept ++ ·) (pieces_markup_append hf rfl rest))

/-- What is extracted whole is read whole. -/
theorem isWhole_of_extract (h : b.WellFormed) {file : Path} {policy : DuplicatePolicy}
    (he : extract b.source file policy = ([], .ok (b.extraction file))) : IsWhole b.bodyText := by
  obtain ⟨-, hstop, hnodup, hextraction⟩ := extract_eq_quiet_iff.mp he
  obtain ⟨kept, hread, -, hkept⟩ := pieces_source h
  obtain ⟨first, others, hfirst, -, hrest⟩ := exists_first_block (fun s => sound_of_mem_outline) hkept
    h.named ((flatMap_segments_of_stop hstop).trans hread)
  have hcomponents : (outline (pieces b.source.toList)).components file =
      [.declared file b.name (String.ofList b.bodyText)] :=
    (congrArg Extraction.components hextraction).symm
  have hmem : first ∈ (outline (pieces b.source.toList)).blocks := by
    rw [Outline.blocks, hfirst]
    simp [Segment.asBlock]
  -- the component's body is that of a block of its name, and there is only one
  obtain ⟨block, hblock, hentry⟩ := Outline.exists_entry_of_mem_components
    (hcomponents ▸ List.mem_singleton_self _)
  have hname : first.name = b.name := by
    obtain ⟨c, hc, hname⟩ := Outline.exists_component_of_mem_blocks hmem file
    rw [hcomponents, List.mem_singleton] at hc
    rw [← hname, hc]
    rfl
  have hsame : first.name = block.name := hname.trans (congrArg Prod.fst hentry).symm
  obtain rfl : first = block := List.inj_on_of_nodup_map hnodup hmem hblock hsame
  have hbody : render first.body = b.bodyText :=
    String.ofList_injective (congrArg Prod.snd hentry)
  have hclosing : (markup? (Piece.closing []).render).isSome = true := by decide
  have hwhole := pieces_render_append hrest (List.cons_ne_nil _ _) (.inr hclosing)
  rw [hbody, pieces_closing] at hwhole
  exact isWhole_iff.mpr ⟨first.body, hwhole, (sound_of_mem_blocks hmem).balanced⟩

/-- How the source is read from the body on, if the body is whole. -/
theorem pieces_bodyText (h : b.WellFormed) {body : List Piece}
    (hbody : pieces (b.bodyText ++ (Piece.closing []).render) = body ++ [.closing []]) :
    ∃ left, pieces (b.bodyText ++ ((Piece.closing b.closing).render ++ b.after)) =
      body ++ .closing b.closing :: left ∧
      render left = b.after ∧ ∀ p ∈ left, blockName? p = none := by
  obtain ⟨left, hleft, hrender, -, hnone⟩ := pieces_append_of_isInert h.alone.2 (.inl rfl)
  rw [List.append_nil, pieces_nil, List.append_nil] at hleft
  refine ⟨left, ?_, hrender, hnone⟩
  rw [pieces_closing_append hbody h.closed, hleft]

/-- What is read whole is extracted whole. -/
theorem extract_of_isWhole (h : b.WellFormed) (hsize : b.source.utf8ByteSize ≤ maxSourceSize)
    (hw : IsWhole b.bodyText) (file : Path) (policy : DuplicatePolicy) :
    extract b.source file policy = ([], .ok (b.extraction file)) := by
  obtain ⟨body, hbody, hbalanced⟩ := isWhole_iff.mp hw
  obtain ⟨kept, hread, hrender, hkept⟩ := pieces_source h
  obtain ⟨left, hafter, hleftRender, hleft⟩ := pieces_bodyText h hbody
  let block : Block := ⟨b.name, b.opening, body, b.closing⟩
  have hsound : block.Sound := ⟨h.named, h.declared, hbalanced⟩
  have hpieces : pieces b.source.toList = kept ++ (block.pieces ++ left) := by
    rw [hread, hafter]
    simp [block, Block.pieces]
  let segments := kept.map Segment.kept ++ .block block :: left.map Segment.kept
  have hblocks : segments.filterMap Segment.asBlock = [block] := by
    simp [segments, Segment.asBlock, List.filterMap_map, Function.comp_def]
  have hkeptPieces : segments.filterMap Segment.keptPiece = kept ++ left := by
    simp [segments, Segment.keptPiece, List.filterMap_cons, List.filterMap_map, Function.comp_def]
  have hcomponents : Outline.components ⟨segments, none, []⟩ file =
      [.declared file b.name (String.ofList b.bodyText)] := by
    rw [Outline.components, Outline.blocks, hblocks]
    simp only [block, List.foldl_cons, List.foldl_nil, putComponent, Block.component,
      render_of_pieces_closing hbody]
    rfl
  rw [extract_eq_quiet_iff, hpieces, outline_lone_block hkept hleft hsound, Outline.blocks, hblocks,
    Outline.extraction, Outline.kept, hkeptPieces, hcomponents, render_append, hrender, hleftRender]
  exact ⟨hsize, rfl, List.nodup_singleton _, rfl⟩

/-- Extraction takes the body of a block exactly if the body is whole, which it is if each of its
expressions, and of the tags that may hold some, is whole on its own. -/
theorem extract_eq_iff_isWhole (h : b.WellFormed) (hsize : b.source.utf8ByteSize ≤ maxSourceSize)
    (file : Path) (policy : DuplicatePolicy) :
    (extract b.source file policy = ([], .ok (b.extraction file)) ↔ IsWhole b.bodyText) ∧
      ((∀ part ∈ b.body, part.isOpaque = true → IsWhole part.render) →
        extract b.source file policy = ([], .ok (b.extraction file))) := by
  refine ⟨⟨isWhole_of_extract h, fun hw => extract_of_isWhole h hsize hw file policy⟩, ?_⟩
  intro hparts
  obtain ⟨ps, hsettles, hbalanced⟩ := exists_settles h.parts hparts h.balanced
  exact extract_of_isWhole h hsize (hsettles.isWhole hbalanced) file policy

/-- Expressions with a comment and with a whole template in their strings, in a template that has
an expression in its tag. -/
theorem extract_eq_iff_isWhole_whole_strings :
    let b : LoneBlock := ⟨['a'], "A", " name=A".toList,
      [.fragment (.opening []), .expression "\"<!--</template>-->\"".toList,
        .tag ['p'] " title=\x7ba > '<template/>'\x7d".toList,
        .fragment (.closing []), .expression "a < b".toList], [], ['b']⟩
    let file : Path := ⟨"/P.svelte"⟩
    (b.WellFormed ∧ b.source.utf8ByteSize ≤ maxSourceSize) ∧
      extract b.source file .lastWins = ([], .ok (b.extraction file)) := by
  intro b file
  have hname : blockName? (.opening " name=A".toList) = some "A" := by decide +kernel
  have hparts : ∀ part ∈ b.body, part.WellFormed := by decide
  have h : b.WellFormed :=
    ⟨⟨isInert_of_notMem (by decide), isInert_of_notMem (by decide)⟩, by decide, hname, by decide,
      hparts, by decide, by decide⟩
  have hsize : b.source.utf8ByteSize ≤ maxSourceSize := by decide +kernel
  have hwhole : ∀ part ∈ b.body, part.isOpaque = true → IsWhole part.render := by
    apply of_decide_eq_true
    decide +kernel
  exact ⟨⟨h, hsize⟩, (extract_eq_iff_isWhole h hsize file .lastWins).2 hwhole⟩

/-- A closing tag in a string ends the body before its end, and the rest stays in the parent. -/
theorem extract_cut_short_of_closing_in_string :
    let b : LoneBlock :=
      ⟨[], "A", " name=A".toList, [.expression "\"</template>\"".toList], [], []⟩
    let file : Path := ⟨"/P.svelte"⟩
    b.WellFormed ∧ b.source.utf8ByteSize ≤ maxSourceSize ∧
      (b.extraction file).components = [.declared file "A" "\x7b\"</template>\"\x7d"] ∧
      extract b.source file .lastWins =
        ([], .ok ⟨"\"\x7d</template>", [.declared file "A" "\x7b\""]⟩) := by
  intro b file
  have hname : blockName? (.opening " name=A".toList) = some "A" := by decide +kernel
  have h : b.WellFormed :=
    ⟨⟨isInert_of_notMem (by decide), isInert_of_notMem (by decide)⟩, by decide, hname, by decide,
      by decide, by decide, by decide⟩
  have hsize : b.source.utf8ByteSize ≤ maxSourceSize := by decide +kernel
  have hcomponents :
      (b.extraction file).components = [.declared file "A" "\x7b\"</template>\"\x7d"] := by
    decide +kernel
  have hextract : extract b.source file .lastWins =
      ([], .ok ⟨"\"\x7d</template>", [.declared file "A" "\x7b\""]⟩) :=
    extract_eq_quiet_iff.mpr ⟨hsize, by decide +kernel, by decide +kernel, by decide +kernel⟩
  exact ⟨h, hsize, hcomponents, hextract⟩

end LoneBlock

end InlineComponents
