import InlineComponents.Proofs.Components
import InlineComponents.Proofs.Scan

namespace InlineComponents

/-- A block that is lifted out: its name, and the byte offsets of its opening tag, of its body, of
its closing tag, and of what follows that. -/
structure Cut where
  name : String
  start : Nat
  bodyStart : Nat
  bodyEnd : Nat
  stop : Nat

/-- A cut is the first block met from an offset on: its opening tag is the first there that opens
a block, and it is closed where the closing tags outnumber for the first time the templates that
were opened in between. -/
structure Cut.IsNext (source : String) (offset : Nat) (cut : Cut) : Prop where
  ordered : offset ≤ cut.start ∧ cut.start < cut.bodyStart ∧ cut.bodyStart ≤ cut.bodyEnd ∧
    cut.bodyEnd < cut.stop ∧ cut.stop ≤ source.utf8ByteSize
  boundaries : ∀ n ∈ [cut.start, cut.bodyStart, cut.bodyEnd, cut.stop], IsBoundary source n
  opened : ∃ tag, (scanFrom source offset).find? (fun placed => (blockName? placed.tag).isSome) =
      some ⟨tag, cut.start, cut.bodyStart⟩ ∧ blockName? tag = some cut.name ∧
    slice source cut.start cut.bodyStart = String.ofList tag.render
  closed : ∃ inside before after, scanFrom source cut.bodyStart =
      before ++ ⟨.closing inside, cut.bodyEnd, cut.stop⟩ :: after ∧
    Balanced (before.map PlacedTag.tag) ∧
    slice source cut.bodyEnd cut.stop = String.ofList (Piece.closing inside).render

/-- The cuts are all the blocks from an offset on. -/
def CutsFrom (source : String) (offset : Nat) : List Cut → Prop
  | [] => offset ≤ source.utf8ByteSize ∧
    ∀ placed ∈ scanFrom source offset, blockName? placed.tag = none
  | cut :: cuts => cut.IsNext source offset ∧ CutsFrom source cut.stop cuts

/-- What a source holds outside the cuts. -/
def gaps (source : String) (offset : Nat) : List Cut → String
  | [] => slice source offset source.utf8ByteSize
  | cut :: cuts => slice source offset cut.start ++ gaps source cut.stop cuts

/-- The cut of a block that begins at an offset. -/
def Block.cut (b : Block) (offset : Nat) : Cut :=
  let bodyStart := offset + byteLength (Piece.opening b.opening).render
  let bodyEnd := bodyStart + byteLength (render b.body)
  ⟨b.name, offset, bodyStart, bodyEnd, bodyEnd + byteLength (Piece.closing b.closing).render⟩

/-- The cuts that segments from an offset on give. -/
def cutsOf (offset : Nat) : List Segment → List Cut
  | [] => []
  | .kept piece :: segments => cutsOf (offset + byteLength piece.render) segments
  | .block b :: segments => b.cut offset :: cutsOf (b.cut offset).stop segments

theorem byteLength_render_pos {p : Piece} (h : p.isTag = true) : 0 < byteLength p.render := by
  have hl : '<'.utf8Size = 1 := by decide
  cases p with
  | text chars => simp [Piece.isTag] at h
  | opening inside =>
    simp only [Piece.render, templateOpening, List.cons_append, byteLength_cons, hl]
    omega
  | closing inside =>
    simp only [Piece.render, templateClosing, List.cons_append, byteLength_cons, hl]
    omega

/-- No tag is met that opens a block just if no piece opens one. -/
theorem find?_placeTags_eq_none_iff (offset : Nat) {ps : List Piece} :
    (placeTags offset ps).find? (fun placed => (blockName? placed.tag).isSome) = none ↔
      ∀ p ∈ ps, blockName? p = none := by
  rw [List.find?_eq_none]
  constructor
  · intro h p hp
    cases hb : blockName? p with
    | none => rfl
    | some name =>
      have htag : p ∈ ps.filter Piece.isTag := by
        rw [opening_of_blockName? hb] at hp ⊢
        exact List.mem_filter.mpr ⟨hp, rfl⟩
      rw [← map_tag_placeTags offset] at htag
      obtain ⟨placed, hplaced, rfl⟩ := List.mem_map.mp htag
      exact absurd (by rw [hb]; rfl) (h placed hplaced)
  · intro h placed hp
    have hm : placed.tag ∈ ps.filter Piece.isTag := by
      rw [← map_tag_placeTags offset]
      exact List.mem_map_of_mem hp
    simp [h _ (List.mem_filter.mp hm).1]

theorem stop_cut (b : Block) (offset : Nat) :
    (b.cut offset).stop = offset + byteLength (render b.pieces) := by
  simp [Block.cut, Block.pieces, Nat.add_assoc]

/-- The first tag that opens a block is the one after pieces that open none. -/
theorem find?_scanFrom {source : String} {before inside : List Char} {kept rest : List Piece}
    {name : String} (hk : ∀ p ∈ kept, blockName? p = none)
    (hn : blockName? (.opening inside) = some name)
    (hs : source.toList = before ++ render (kept ++ .opening inside :: rest))
    (hp : pieces (render (kept ++ .opening inside :: rest)) = kept ++ .opening inside :: rest) :
    (scanFrom source (byteLength before)).find? (fun placed => (blockName? placed.tag).isSome) =
      some ⟨.opening inside, byteLength (before ++ render kept),
        byteLength (before ++ render kept ++ (Piece.opening inside).render)⟩ := by
  rw [scanFrom_eq hs hp, placeTags_append, List.find?_append,
    (find?_placeTags_eq_none_iff _).mpr hk, placeTags_cons_of_isTag _ rfl, List.find?_cons]
  simp [hn, Nat.add_assoc]

/-- From where a body begins, its tags are met, and then the one that closes it. -/
theorem scanFrom_body {source : String} {before inside : List Char} {body rest : List Piece}
    (hs : source.toList = before ++ render (body ++ .closing inside :: rest))
    (hp : pieces (render (body ++ .closing inside :: rest)) = body ++ .closing inside :: rest) :
    ∃ after, scanFrom source (byteLength before) = placeTags (byteLength before) body ++
      ⟨.closing inside, byteLength (before ++ render body),
        byteLength (before ++ render body ++ (Piece.closing inside).render)⟩ :: after := by
  have hscan := scanFrom_eq hs hp
  rw [placeTags_append, placeTags_cons_of_isTag _ rfl] at hscan
  simp only [byteLength_append]
  exact ⟨_, hscan⟩

/-- A closed block after pieces that open none is the next cut. -/
theorem isNext_cut {source : String} {before : List Char} {kept rest : List Piece} {b : Block}
    (hn : blockName? (.opening b.opening) = some b.name) (hb : Balanced b.body)
    (hk : ∀ p ∈ kept, blockName? p = none)
    (hs : source.toList = before ++ render (kept ++ b.pieces ++ rest))
    (hp : pieces (render (kept ++ b.pieces ++ rest)) = kept ++ b.pieces ++ rest) :
    (b.cut (byteLength (before ++ render kept))).IsNext source (byteLength before) := by
  have hopen : 0 < byteLength (Piece.opening b.opening).render := byteLength_render_pos rfl
  have hclose : 0 < byteLength (Piece.closing b.closing).render := byteLength_render_pos rfl
  -- what stands before the opening tag, the body, the closing tag, and the rest
  let toStart := before ++ render kept
  let toBody := toStart ++ (Piece.opening b.opening).render
  let toEnd := toBody ++ render b.body
  let toStop := toEnd ++ (Piece.closing b.closing).render
  have hbodyStart : (b.cut (byteLength toStart)).bodyStart = byteLength toBody := by
    simp [Block.cut, toBody]
  have hbodyEnd : (b.cut (byteLength toStart)).bodyEnd = byteLength toEnd := by
    simp [Block.cut, toBody, toEnd, Nat.add_assoc]
  have hstop : (b.cut (byteLength toStart)).stop = byteLength toStop := by
    simp [Block.cut, toBody, toEnd, toStop, Nat.add_assoc]
  have hstart : source.toList = toStart ++ (Piece.opening b.opening).render ++
      render (b.body ++ .closing b.closing :: rest) := by
    simp [hs, Block.pieces, toStart]
  have hbody : source.toList = toBody ++ render (b.body ++ .closing b.closing :: rest) := hstart
  have hend : source.toList = toEnd ++ (Piece.closing b.closing).render ++ render rest := by
    simp [hs, Block.pieces, toEnd, toBody, toStart]
  have hsuffix : pieces (render (kept ++ b.pieces ++ rest)) =
      (kept ++ [.opening b.opening]) ++ (b.body ++ .closing b.closing :: rest) := by
    rw [hp]
    simp [Block.pieces]
  have hread := pieces_render_suffix hsuffix
  have hfirst : kept ++ b.pieces ++ rest =
      kept ++ .opening b.opening :: (b.body ++ .closing b.closing :: rest) := by
    simp [Block.pieces]
  rw [hfirst] at hs hp
  obtain ⟨after, hscan⟩ := scanFrom_body hbody hread
  change (b.cut (byteLength toStart)).IsNext source (byteLength before)
  refine ⟨?_, ?_, ?_, ?_⟩
  · have hsize := utf8ByteSize_eq_byteLength source
    rw [hend] at hsize
    rw [hbodyStart, hbodyEnd, hstop, hsize]
    simp only [Block.cut, byteLength_append, toStop, toEnd, toBody, toStart]
    omega
  · rw [hbodyStart, hbodyEnd, hstop]
    simp only [List.mem_cons, List.not_mem_nil, or_false, forall_eq_or_imp, forall_eq]
    exact ⟨isBoundary_byteLength (hstart.trans (List.append_assoc ..)),
      isBoundary_byteLength hbody,
      isBoundary_byteLength (hend.trans (List.append_assoc ..)), isBoundary_byteLength hend⟩
  · rw [hbodyStart]
    refine ⟨.opening b.opening, find?_scanFrom hk hn hs hp, hn, ?_⟩
    have hslice := slice_eq hstart
    rwa [← byteLength_append] at hslice
  · rw [hbodyStart, hbodyEnd, hstop]
    refine ⟨b.closing, _, after, hscan, ?_, ?_⟩
    · rw [map_tag_placeTags]
      exact unwinds_filter_isTag.mpr hb
    · have hslice := slice_eq hend
      rwa [← byteLength_append] at hslice

/-- Behind a sound block the text is read on as the pieces that are left. -/
theorem read_behind_cut {source : String} {b : Block} {before : List Char} {kept more : List Piece}
    (hs : source.toList = before ++ render (kept ++ b.pieces ++ more))
    (hp : pieces (render (kept ++ b.pieces ++ more)) = kept ++ b.pieces ++ more) :
    (b.cut (byteLength (before ++ render kept))).stop =
        byteLength (before ++ render (kept ++ b.pieces)) ∧
      source.toList = (before ++ render (kept ++ b.pieces)) ++ render ([] ++ more) ∧
      pieces (render ([] ++ more)) = [] ++ more := by
  refine ⟨?_, ?_, pieces_render_suffix hp⟩
  · rw [stop_cut, ← byteLength_append, List.append_assoc, ← render_append]
  · simp [hs]

/-- The cuts of sound segments are all the blocks of the text that the segments are read from, and
the gaps between them hold what is kept. -/
theorem cutsFrom_cutsOf {source : String} {segments : List Segment} {before : List Char}
    {kept : List Piece} (hsound : ∀ s ∈ segments, s.Sound) (hk : ∀ p ∈ kept, blockName? p = none)
    (hs : source.toList = before ++ render (kept ++ segments.flatMap Segment.pieces))
    (hp : pieces (render (kept ++ segments.flatMap Segment.pieces)) =
      kept ++ segments.flatMap Segment.pieces) :
    CutsFrom source (byteLength before) (cutsOf (byteLength (before ++ render kept)) segments) ∧
      gaps source (byteLength before) (cutsOf (byteLength (before ++ render kept)) segments) =
        String.ofList (render (kept ++ segments.filterMap Segment.keptPiece)) := by
  induction segments generalizing before kept with
  | nil =>
    simp only [List.flatMap_nil, List.append_nil] at hs hp
    refine ⟨⟨?_, ?_⟩, ?_⟩
    · rw [utf8ByteSize_eq_byteLength, hs, byteLength_append]
      exact Nat.le_add_right ..
    · have hf := (find?_placeTags_eq_none_iff (byteLength before)).mpr hk
      rw [← scanFrom_eq hs hp, List.find?_eq_none] at hf
      intro placed hm
      simpa using hf placed hm
    · simpa [gaps, cutsOf] using slice_rest hs
  | cons s segments ih =>
    have hrest := fun t ht => hsound t (List.mem_cons_of_mem s ht)
    cases s with
    | kept piece =>
      have hpiece : blockName? piece = none := hsound _ List.mem_cons_self
      have hk' : ∀ p ∈ kept ++ [piece], blockName? p = none :=
        List.forall_mem_append.mpr ⟨hk, List.forall_mem_singleton.mpr hpiece⟩
      have hs' : source.toList =
          before ++ render (kept ++ [piece] ++ segments.flatMap Segment.pieces) := by
        simpa [Segment.pieces] using hs
      have h := ih hrest hk' hs' (by simpa [Segment.pieces] using hp)
      simpa [cutsOf, Segment.keptPiece, Nat.add_assoc] using h
    | block b =>
      have hb : b.Sound := hsound _ List.mem_cons_self
      simp only [List.flatMap_cons, Segment.pieces, ← List.append_assoc] at hs hp
      have hnext := isNext_cut hb.named hb.balanced hk hs hp
      obtain ⟨hstop, hs', hread⟩ := read_behind_cut hs hp
      have hsplit : source.toList = before ++ render kept ++
          render (b.pieces ++ segments.flatMap Segment.pieces) := by
        simp [hs]
      have hgap : slice source (byteLength before) (byteLength (before ++ render kept)) =
          String.ofList (render kept) := by
        rw [byteLength_append]
        exact slice_eq hsplit
      have h := ih hrest (by simp) hs' hread
      simp only [render_nil, List.append_nil, List.nil_append, ← hstop] at h
      refine ⟨⟨hnext, h.1⟩, ?_⟩
      rw [cutsOf, gaps, h.2]
      simp only [List.filterMap_cons, Segment.keptPiece, render_append, String.ofList_append]
      rw [← hgap]
      rfl

/-- The name of a block that is cut out, and what it holds. -/
def Cut.entry (source : String) (cut : Cut) : String × String :=
  (cut.name, slice source cut.bodyStart cut.bodyEnd)

/-- The cut of a block holds what the block holds. -/
theorem entry_cut {source : String} {before : List Char} {b : Block} {rest : List Piece}
    (hs : source.toList = before ++ render (b.pieces ++ rest)) :
    (b.cut (byteLength before)).entry source = b.entry := by
  have hsplit : source.toList = (before ++ (Piece.opening b.opening).render) ++
      render b.body ++ render (.closing b.closing :: rest) := by
    simp [hs, Block.pieces]
  have hbody := slice_eq hsplit
  rw [byteLength_append] at hbody
  exact Prod.ext rfl hbody

theorem map_entry_cutsOf {source : String} {segments : List Segment} {before : List Char}
    (hs : source.toList = before ++ render (segments.flatMap Segment.pieces)) :
    (cutsOf (byteLength before) segments).map (Cut.entry source) =
      (segments.filterMap Segment.asBlock).map Block.entry := by
  induction segments generalizing before with
  | nil => rfl
  | cons s segments ih =>
    have hs' : source.toList =
        (before ++ render s.pieces) ++ render (segments.flatMap Segment.pieces) := by
      simp [hs]
    have h := ih hs'
    cases s with
    | kept piece =>
      simpa [cutsOf, List.filterMap_cons, Segment.asBlock, Segment.pieces] using h
    | block b =>
      have hstop : (b.cut (byteLength before)).stop = byteLength (before ++ render b.pieces) := by
        rw [stop_cut, ← byteLength_append]
      have hthere : source.toList =
          before ++ render (b.pieces ++ segments.flatMap Segment.pieces) := by
        simp [hs, Segment.pieces]
      have hentry := entry_cut hthere
      simp only [cutsOf, List.map_cons, List.filterMap_cons, Segment.asBlock, hstop]
      exact congrArg₂ List.cons hentry h

/-- A source whose extraction succeeds is told apart by its blocks without loss: the residual is
what lies between them, and the components are those of the blocks, one for each name in the order
in which the names come, with the body of the last block of its name. -/
theorem extract_decomposes {source : String} {file : Path} {policy : DuplicatePolicy}
    {e : Extraction} (h : (extract source file policy).2 = .ok e) :
    ∃ cuts, CutsFrom source 0 cuts ∧ e.residual = gaps source 0 cuts ∧
      (cuts = [] → e.residual = source) ∧
      e.components.map SubComponent.name = (cuts.map Cut.name).eraseDups ∧
      ∀ c ∈ e.components, isDeclaredName c.name = true ∧ c.path = artifactPath file c.name ∧
        (cuts.map (Cut.entry source)).reverse.lookup c.name = some c.body := by
  obtain ⟨hstop, rfl⟩ := extract_eq_ok h
  let o := outline (pieces source.toList)
  have hpieces : o.segments.flatMap Segment.pieces = pieces source.toList :=
    flatMap_segments_of_stop hstop
  have hs : source.toList = [] ++ render (o.segments.flatMap Segment.pieces) := by
    rw [hpieces, render_pieces, List.nil_append]
  have hread : pieces (render (o.segments.flatMap Segment.pieces)) =
      o.segments.flatMap Segment.pieces := by
    rw [hpieces, render_pieces]
  have hs' : source.toList = [] ++ render ([] ++ o.segments.flatMap Segment.pieces) := hs
  obtain ⟨hcuts, hgaps⟩ := cutsFrom_cutsOf (fun s => sound_of_mem_outline) (by simp) hs' hread
  have hentries : (cutsOf 0 o.segments).map (Cut.entry source) = o.entries := map_entry_cutsOf hs
  have hnames : (cutsOf 0 o.segments).map Cut.name = o.entries.map Prod.fst := by
    rw [← hentries, List.map_map]
    rfl
  have hres : (o.extraction file).residual = gaps source 0 (cutsOf 0 o.segments) := hgaps.symm
  refine ⟨cutsOf 0 o.segments, hcuts, hres, ?_, ?_, ?_⟩
  · intro hnil
    rw [hres, hnil]
    exact (slice_rest hs).trans (by rw [hpieces, render_pieces, String.ofList_toList])
  · rw [hnames]
    exact o.components_names file
  · intro c hc
    obtain ⟨hpath, hbody⟩ := Outline.mem_components_iff.mp hc
    exact ⟨isDeclaredName_of_mem_components hc, hpath, hentries ▸ hbody⟩

/-- A comment, a template in a block, and a name given again. -/
theorem extract_decomposes_name_given_again :
    let source := "<!---->é<template name=A><template></template></template>-" ++
      "<template name=A>ü</template>"
    let file : Path := ⟨"/A.svelte"⟩
    let e : Extraction := ⟨"<!---->é-", [⟨"A", ⟨"/A__A.svelte"⟩, "ü"⟩]⟩
    (extract source file .lastWins).2 = .ok e ∧
    ∃ cuts, CutsFrom source 0 cuts ∧ e.residual = gaps source 0 cuts ∧
      (cuts = [] → e.residual = source) ∧
      e.components.map SubComponent.name = (cuts.map Cut.name).eraseDups ∧
      ∀ c ∈ e.components, isDeclaredName c.name = true ∧ c.path = artifactPath file c.name ∧
        (cuts.map (Cut.entry source)).reverse.lookup c.name = some c.body := by
  intro source file e
  let read : List Piece := [.text "<!---->".toList, .text ['é'], .opening " name=A".toList,
    .opening [], .closing [], .closing [], .text ['-'], .opening " name=A".toList, .text ['ü'],
    .closing []]
  have hsize : source.utf8ByteSize ≤ maxSourceSize := by decide +kernel
  have hread : pieces source.toList = read := by decide +kernel
  have houtline : ((outline read).extract file .lastWins).2 = .ok e :=
    toOption_eq_some_iff.mp (by decide +kernel)
  have h : (extract source file .lastWins).2 = .ok e := by
    rw [extract_of_le hsize, hread, houtline]
  exact ⟨h, extract_decomposes h⟩

end InlineComponents
