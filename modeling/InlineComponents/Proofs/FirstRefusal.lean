import InlineComponents.Proofs.BracedBodies
import InlineComponents.Proofs.Rendering

namespace InlineComponents

/-- Fragments with balanced templates are whole. -/
theorem isWhole_written {fs : List Fragment} (h : ∀ f ∈ fs, f.WellFormed)
    (hb : Balanced (fs.map Fragment.piece)) : IsWhole (written fs) := by
  obtain ⟨ps, hread, -, htags⟩ := pieces_written_append h pieces_closing rfl
  refine isWhole_iff.mpr ⟨ps, hread, ?_⟩
  rw [Balanced, ← unwinds_filter_isTag, htags, unwinds_filter_isTag]
  exact hb

/-- A block as it is written, with any text as its body. -/
structure ClosedBlock where
  name : String
  opening : List Char
  body : List Char
  closing : List Char

namespace ClosedBlock

/-- The opening tag does not close itself and declares the name, and the body ends where the block's
own closing tag begins. -/
structure WellFormed (b : ClosedBlock) : Prop where
  opened : IsTagInside b.opening
  named : blockName? (.opening b.opening) = some b.name
  declared : isDeclaredName b.name = true
  whole : IsWhole b.body
  closed : IsTagInside b.closing

def render (b : ClosedBlock) : List Char :=
  (Piece.opening b.opening).render ++ (b.body ++ (Piece.closing b.closing).render)

/-- In front of any text, a block is read as a block. -/
theorem WellFormed.exists_pieces_append {b : ClosedBlock} (h : b.WellFormed) (t : List Char) :
    ∃ block : Block, block.Sound ∧ block.name = b.name ∧
      pieces (b.render ++ t) = block.pieces ++ pieces t := by
  obtain ⟨body, hbody, hbalanced⟩ := isWhole_iff.mp h.whole
  have hopened : Fragment.WellFormed (.opening b.opening) := h.opened
  have hopening := pieces_markup_append hopened rfl
    (b.body ++ ((Piece.closing b.closing).render ++ t))
  rw [pieces_closing_append hbody h.closed] at hopening
  have hwritten : b.render ++ t = Fragment.render (.opening b.opening) ++
      (b.body ++ ((Piece.closing b.closing).render ++ t)) := by
    simp [render, Fragment.render, Fragment.piece]
  refine ⟨⟨b.name, b.opening, body, b.closing⟩, ⟨h.named, h.declared, hbalanced⟩, rfl, ?_⟩
  rw [hwritten, hopening]
  simp [Block.pieces, Fragment.piece]

end ClosedBlock

/-- What stands in a source in front of a block that is refused. -/
inductive Passage where
  | loose (fragment : Fragment)
  | block (block : ClosedBlock)

namespace Passage

def WellFormed : Passage → Prop
  | .loose f => f.WellFormed ∧ blockName? f.piece = none
  | .block b => b.WellFormed

def render : Passage → List Char
  | .loose f => f.render
  | .block b => b.render

def name? : Passage → Option String
  | .loose _ => none
  | .block b => some b.name

end Passage

/-- Passages in front of a tag are read as segments of which the blocks are those of the
passages. -/
theorem exists_segments_passages {passages : List Passage} (h : ∀ p ∈ passages, p.WellFormed)
    {t : List Char} (ht : ∀ chars others, pieces t ≠ .text chars :: others) :
    ∃ segments : List Segment, (∀ s ∈ segments, s.Sound) ∧
      pieces (passages.flatMap Passage.render ++ t) =
        segments.flatMap Segment.pieces ++ pieces t ∧
      (segments.filterMap Segment.asBlock).map Block.name = passages.filterMap Passage.name? := by
  induction passages with
  | nil => exact ⟨[], by simp, rfl, rfl⟩
  | cons passage passages ih =>
    obtain ⟨segments, hsound, hread, hnames⟩ := ih (List.forall_mem_cons.mp h).2
    have hpassage := (List.forall_mem_cons.mp h).1
    rw [List.flatMap_cons, List.append_assoc]
    cases passage with
    | loose f =>
      obtain ⟨longer, hlonger, hreadLonger, hblocks, -⟩ :=
        exists_segments_loose hpassage.1 hpassage.2 hsound hread ht
      exact ⟨longer, hlonger, hreadLonger, by rw [hblocks, hnames]; rfl⟩
    | block b =>
      have hb : b.WellFormed := hpassage
      obtain ⟨block, hblock, hname, hpieces⟩ :=
        hb.exists_pieces_append (passages.flatMap Passage.render ++ t)
      refine ⟨.block block :: segments, List.forall_mem_cons.mpr ⟨hblock, hsound⟩, ?_, ?_⟩
      · rw [Passage.render, hpieces, hread]
        simp [Segment.pieces]
      · show block.name :: _ = b.name :: _
        rw [hname, hnames]

/-- Without a closing tag in the text nothing closes a block in front of it. -/
theorem closeBlock_pieces_eq_none {s : List Char} (h : ¬ templateClosing <:+: s) :
    closeBlock (pieces s) = none := by
  rw [Option.eq_none_iff_forall_ne_some]
  rintro ⟨body, inside, rest⟩ hclose
  have hs := render_pieces s
  rw [closeBlock_append hclose, render_append, render_cons] at hs
  apply h
  refine ⟨render body, inside ++ ['>'] ++ render rest, ?_⟩
  rw [← hs]
  simp [Piece.render]

/-- The outline of a source stops at the tag of a block that is refused. -/
theorem outline_stop {segments : List Segment} (hs : ∀ s ∈ segments, s.Sound) {inside : List Char}
    {name : String} (hn : blockName? (.opening inside) = some name) (ps : List Piece) :
    let o := outline (segments.flatMap Segment.pieces ++ .opening inside :: ps)
    (isDeclaredName name = false →
      o = ⟨segments, some (.invalidName name), .opening inside :: ps⟩) ∧
    (isDeclaredName name = true → closeBlock ps = none →
      o = ⟨segments, some (.unclosed name), .opening inside :: ps⟩) := by
  intro o
  have hfront : o = outline.go segments.reverse (.opening inside :: ps) := by
    have hgo := outline_go_append hs [] (.opening inside :: ps)
    rw [List.append_nil] at hgo
    exact hgo
  rw [hfront, outline.go]
  split
  · next hnone => simp [hn] at hnone
  · next other hother =>
    obtain rfl : name = other := Option.some.inj (hn.symm.trans hother)
    constructor
    · intro hinvalid
      rw [if_neg (by simp [hinvalid]), List.reverse_reverse]
    · intro hdeclared hopen
      rw [if_pos hdeclared]
      split
      · rw [List.reverse_reverse]
      · next hclosed => simp [hopen] at hclosed

/-- A block that is refused after blocks with distinct names fails the extraction without a word,
whichever policy there is. -/
theorem extract_of_failure {source : String} {file : Path} {failure : Failure}
    (hsize : source.utf8ByteSize ≤ maxSourceSize)
    (hnodup : ((outline (pieces source.toList)).blocks.map Block.name).Nodup)
    (hf : (outline (pieces source.toList)).failure? file = some failure)
    (policy : DuplicatePolicy) : extract source file policy = ([], .error failure) := by
  have hrepeated : (outline (pieces source.toList)).repeated = [] := repeats_eq_nil_iff.mpr hnodup
  rw [extract_of_le hsize]
  cases policy <;> simp only [Outline.extract, hrepeated, hf, List.map_nil]

/-- A source in which the tag of a block is opened behind passages, with any text after it. -/
structure OpenedSource where
  passages : List Passage
  name : String
  opening : List Char
  tail : List Char

namespace OpenedSource

/-- The passages are closed and name no block again, and the tag does not close itself. -/
structure WellFormed (s : OpenedSource) : Prop where
  passages : ∀ p ∈ s.passages, p.WellFormed
  distinct : (s.passages.filterMap Passage.name?).Nodup
  opened : IsTagInside s.opening
  named : blockName? (.opening s.opening) = some s.name

def front (s : OpenedSource) : List Char :=
  s.passages.flatMap Passage.render

def source (s : OpenedSource) : String :=
  String.ofList (s.front ++ ((Piece.opening s.opening).render ++ s.tail))

variable {s : OpenedSource}

/-- The source is read as segments up to the tag that is opened, and they are the text in front of
it. -/
theorem WellFormed.exists_segments (h : s.WellFormed) : ∃ segments : List Segment,
    (∀ segment ∈ segments, segment.Sound) ∧
      pieces s.source.toList =
        segments.flatMap Segment.pieces ++ .opening s.opening :: pieces s.tail ∧
      render (segments.flatMap Segment.pieces) = s.front ∧
      ((segments.filterMap Segment.asBlock).map Block.name).Nodup := by
  have hf : Fragment.WellFormed (.opening s.opening) := h.opened
  have htag : pieces ((Piece.opening s.opening).render ++ s.tail) =
      .opening s.opening :: pieces s.tail := pieces_markup_append hf rfl s.tail
  obtain ⟨segments, hsound, hread, hnames⟩ := exists_segments_passages h.passages
    (t := (Piece.opening s.opening).render ++ s.tail) (by simp [htag])
  have hsource : s.source.toList = s.front ++ ((Piece.opening s.opening).render ++ s.tail) :=
    String.toList_ofList
  have hpieces : pieces s.source.toList = segments.flatMap Segment.pieces ++
      pieces ((Piece.opening s.opening).render ++ s.tail) := by
    rw [hsource]
    exact hread
  refine ⟨segments, hsound, by rw [hpieces, htag], ?_, hnames ▸ h.distinct⟩
  have hrender := render_pieces s.source.toList
  rw [hpieces, render_append, render_pieces, hsource] at hrender
  exact List.append_cancel_right hrender

/-- Extraction reports the first block that it refuses. A name that is no declared name is reported
whatever comes after the tag, and a block that no closing tag comes after is reported with the byte
at which it is opened. -/
theorem extract_refuses (h : s.WellFormed) (hsize : s.source.utf8ByteSize ≤ maxSourceSize)
    (file : Path) (policy : DuplicatePolicy) :
    (isDeclaredName s.name = false →
      extract s.source file policy = ([], .error (.invalidName file s.name))) ∧
    (isDeclaredName s.name = true → ¬ templateClosing <:+: s.tail →
      extract s.source file policy =
        ([], .error (.unclosedBlock file s.name (byteLength s.front)))) := by
  obtain ⟨segments, hsound, hread, hfront, hnodup⟩ := h.exists_segments
  obtain ⟨hinvalid, hunclosed⟩ := outline_stop hsound h.named (pieces s.tail)
  constructor
  · intro hname
    apply extract_of_failure hsize
    · rw [hread, hinvalid hname]
      exact hnodup
    · rw [hread, hinvalid hname]
      rfl
  · intro hname htail
    have houtline := hunclosed hname (closeBlock_pieces_eq_none htail)
    apply extract_of_failure hsize
    · rw [hread, houtline]
      exact hnodup
    · rw [hread, houtline, ← hfront]
      rfl

/-- After a name in a comment, one in a script and a block in a block, and in front of more that is
not closed. -/
theorem extract_refuses_first :
    let body : List Fragment := [.opening " name=b".toList, .text ['é'], .closing []]
    let passages : List Passage :=
      [.loose (.comment "<template name=b>".toList), .loose (.text "→ ".toList),
        .block ⟨"A", " name=A".toList, written body, []⟩,
        .loose (.raw .script [] "'<template name=b>'".toList []),
        .block ⟨"C", " name=C".toList, "<p title='>'>\x7ba < b\x7d</p>".toList, [' ']⟩]
    let invalid : OpenedSource :=
      ⟨passages, "b", " name=b".toList, "</template><template name=A><!--".toList⟩
    let unclosed : OpenedSource :=
      ⟨passages, "A", " name=A".toList, "<template name=b><script '".toList⟩
    let file : Path := ⟨"/P.svelte"⟩
    (invalid.WellFormed ∧ invalid.source.utf8ByteSize ≤ maxSourceSize) ∧
      (unclosed.WellFormed ∧ unclosed.source.utf8ByteSize ≤ maxSourceSize) ∧
      extract invalid.source file .error = ([], .error (.invalidName file "b")) ∧
      extract unclosed.source file .error = ([], .error (.unclosedBlock file "A" 175)) := by
  intro body passages invalid unclosed file
  have hbody : IsWhole (written body) := isWhole_written (by decide) (by decide)
  have hpassages : ∀ p ∈ passages, p.WellFormed := by
    simp only [passages, List.mem_cons, List.not_mem_nil, or_false, forall_eq_or_imp, forall_eq]
    refine ⟨⟨by decide, rfl⟩, ⟨by decide, rfl⟩, ?_, ⟨by decide, rfl⟩, ?_⟩
    · exact ⟨by decide, by decide +kernel, by decide, hbody, by decide⟩
    · refine ⟨by decide, by decide +kernel, by decide, ?_, by decide⟩
      apply of_decide_eq_true
      decide +kernel
  have hinvalid : invalid.WellFormed := ⟨hpassages, by decide, by decide, by decide +kernel⟩
  have hunclosed : unclosed.WellFormed := ⟨hpassages, by decide, by decide, by decide +kernel⟩
  have hsizes : invalid.source.utf8ByteSize ≤ maxSourceSize ∧
      unclosed.source.utf8ByteSize ≤ maxSourceSize := by decide +kernel
  refine ⟨⟨hinvalid, hsizes.1⟩, ⟨hunclosed, hsizes.2⟩, ?_, ?_⟩
  · exact (extract_refuses hinvalid hsizes.1 file .error).1 (by decide)
  · have hoffset : byteLength unclosed.front = 175 := by decide +kernel
    rw [← hoffset]
    exact (extract_refuses hunclosed hsizes.2 file .error).2 (by decide) (by decide)

end OpenedSource

end InlineComponents
