import InlineComponents.Proofs.Decomposition
import InlineComponents.Proofs.Rereading

namespace InlineComponents

/-- The body of a block ends where the level goes below the one that the block was opened at. -/
theorem closeBlock_go_of_unwinds {depth level : Nat} {seen ps : List Piece}
    (h : Unwinds (depth + 1 + level) ps) : ∃ body inside rest,
      closeBlock.go level seen ps = some (body, inside, rest) ∧ Unwinds depth rest := by
  induction ps generalizing level seen with
  | nil =>
    have := unwinds_nil.mp h
    omega
  | cons p ps ih =>
    cases p with
    | text chars => exact ih (unwinds_text.mp h)
    | opening inside =>
      have hrest := unwinds_opening.mp h
      rw [closeBlock.go]
      split at hrest
      · next hs =>
        rw [if_pos hs]
        exact ih hrest
      · next hs =>
        rw [if_neg hs]
        exact ih hrest
    | closing inside =>
      obtain ⟨lower, hl, hrest⟩ := unwinds_closing.mp h
      cases level with
      | zero =>
        obtain rfl : lower = depth := by omega
        exact ⟨seen.reverse, inside, ps, rfl, hrest⟩
      | succ level =>
        obtain rfl : lower = depth + 1 + level := by omega
        exact ih hrest

/-- A block opened where all templates are closed in the end is closed too. -/
theorem exists_closeBlock {depth : Nat} {p : Piece} {ps : List Piece} {name : String}
    (hn : blockName? p = some name) (h : Unwinds depth (p :: ps)) :
    ∃ body inside rest, closeBlock ps = some (body, inside, rest) ∧ Unwinds depth rest := by
  obtain ⟨inside, rfl⟩ : ∃ inside, p = .opening inside := ⟨_, opening_of_blockName? hn⟩
  have hopen : isSelfClosing inside = false := by
    rw [blockName?] at hn
    split at hn
    · cases hn
    · next hs => simpa using hs
  have hrest := unwinds_opening.mp h
  rw [hopen, if_neg Bool.false_ne_true] at hrest
  exact closeBlock_go_of_unwinds hrest

/-- Where all templates are closed, no block is left open. -/
theorem stop_go_ne_unclosed {depth : Nat} {found : List Segment} {ps : List Piece}
    (h : Unwinds depth ps) (name : String) :
    (outline.go found ps).stop ≠ some (.unclosed name) := by
  fun_induction outline.go found ps generalizing depth with
  | case1 => simp
  | case2 found p ps hn ih =>
    obtain ⟨level, -, hrest⟩ := unwinds_cons.mp h
    exact ih hrest
  | case3 found p ps blockName hn hd hc =>
    obtain ⟨body, inside, rest, hclosed, -⟩ := exists_closeBlock hn h
    rw [hc] at hclosed
    cases hclosed
  | case4 found p ps blockName hn hd body inside rest hc _ ih =>
    obtain ⟨body', inside', rest', hclosed, hrest⟩ := exists_closeBlock hn h
    rw [hc] at hclosed
    cases hclosed
    exact ih hrest
  | case5 => simp

/-- A body whose templates are all closed is not refused but for a name in it. -/
theorem extract_error_of_balanced {source : String} {file : Path} {policy : DuplicatePolicy}
    {failure : Failure} (hb : Balanced (pieces source.toList))
    (hsize : source.utf8ByteSize ≤ maxSourceSize)
    (h : (extract source file policy).2 = .error failure) :
    ∃ name, failure = .invalidName file name ∨ failure = .duplicateName file name := by
  rw [extract_of_le hsize] at h
  unfold Outline.extract at h
  split at h
  · next name others _ => exact ⟨name, .inr (Except.error.inj h).symm⟩
  · dsimp only at h
    split at h
    · next failure' hf =>
      obtain ⟨stop, hstop, hf⟩ := Option.map_eq_some_iff.mp hf
      obtain rfl := Except.error.inj h
      cases stop with
      | invalidName name => exact ⟨name, .inl hf.symm⟩
      | unclosed name => exact absurd hstop (stop_go_ne_unclosed hb name)
    · cases h

/-- A tag that is met is one of the pieces, and those before it are met before it. -/
theorem exists_of_placeTags_eq {offset start stop : Nat} {ps : List Piece} {tag : Piece}
    {before after : List PlacedTag}
    (h : placeTags offset ps = before ++ ⟨tag, start, stop⟩ :: after) :
    ∃ qs rs, ps = qs ++ tag :: rs ∧ placeTags offset qs = before ∧
      start = offset + byteLength (render qs) ∧ stop = start + byteLength tag.render := by
  induction ps generalizing offset before with
  | nil => simp at h
  | cons p ps ih =>
    rw [placeTags] at h
    split at h
    · next hp =>
      cases before with
      | nil =>
        obtain ⟨rfl, rfl, rfl⟩ := PlacedTag.mk.inj (List.cons.inj h).1
        exact ⟨[], ps, rfl, rfl, by simp, rfl⟩
      | cons first before =>
        rw [List.cons_append] at h
        obtain ⟨rfl, hrest⟩ := List.cons.inj h
        obtain ⟨qs, rs, rfl, hbefore, hstart, hstop⟩ := ih hrest
        refine ⟨p :: qs, rs, rfl, ?_, ?_, hstop⟩
        · rw [placeTags_cons_of_isTag _ hp, hbefore]
        · rw [hstart, render_cons, byteLength_append, Nat.add_assoc]
    · next hp =>
      obtain ⟨qs, rs, rfl, hbefore, hstart, hstop⟩ := ih h
      refine ⟨p :: qs, rs, rfl, ?_, ?_, hstop⟩
      · rw [placeTags, if_neg hp, hbefore]
      · rw [hstart, render_cons, byteLength_append, Nat.add_assoc]

/-- The next cut is that of a block among the pieces, after pieces that open none. -/
theorem exists_block_of_isNext {source : String} {before : List Char} {ps : List Piece} {cut : Cut}
    (hs : source.toList = before ++ render ps) (hp : pieces (render ps) = ps)
    (h : cut.IsNext source (byteLength before)) :
    ∃ (kept : List Piece) (b : Block) (rest : List Piece), ps = kept ++ b.pieces ++ rest ∧
      (∀ p ∈ kept, blockName? p = none) ∧ blockName? (.opening b.opening) = some b.name ∧
      Balanced b.body ∧ cut = b.cut (byteLength (before ++ render kept)) := by
  obtain ⟨tag, hfind, hname, -⟩ := h.opened
  rw [scanFrom_eq hs hp] at hfind
  obtain ⟨-, passed, later, hplaced, hpassed⟩ := List.find?_eq_some_iff_append.mp hfind
  obtain ⟨kept, rs, rfl, rfl, hstart, hbodyStart⟩ := exists_of_placeTags_eq hplaced
  obtain ⟨opening, rfl⟩ : ∃ opening, tag = .opening opening := ⟨_, opening_of_blockName? hname⟩
  -- the body is what the scan from its start meets before the tag that closes it
  have hbody : source.toList = before ++ render kept ++ (Piece.opening opening).render ++
      render rs := by simp [hs]
  have hsplit : pieces (render (kept ++ .opening opening :: rs)) =
      (kept ++ [.opening opening]) ++ rs := by
    rw [hp]
    simp
  have hread : pieces (render rs) = rs := pieces_render_suffix hsplit
  have hoffset : cut.bodyStart =
      byteLength (before ++ render kept ++ (Piece.opening opening).render) := by
    rw [hbodyStart, hstart, byteLength_append, byteLength_append]
  obtain ⟨closing, between, after, hclosed, hbalanced, -⟩ := h.closed
  rw [hoffset, scanFrom_eq hbody hread] at hclosed
  obtain ⟨body, rest, rfl, rfl, hbodyEnd, hstop⟩ := exists_of_placeTags_eq hclosed
  rw [map_tag_placeTags] at hbalanced
  refine ⟨kept, ⟨cut.name, opening, body, closing⟩, rest, ?_, ?_, hname,
    unwinds_filter_isTag.mp hbalanced, ?_⟩
  · simp [Block.pieces]
  · rw [← find?_placeTags_eq_none_iff (byteLength before), List.find?_eq_none]
    intro placed hm
    simpa using hpassed placed hm
  · rw [← byteLength_append] at hstart
    rw [← hoffset] at hbodyEnd
    simp only [Block.cut, ← hstart, ← hbodyStart, ← hbodyEnd, ← hstop]

/-- A cut that is met when the blocks are cut out one after the other from an offset on. -/
inductive Cut.IsMet (source : String) : Nat → Cut → Prop where
  | first {offset : Nat} {cut : Cut} (h : cut.IsNext source offset) : IsMet source offset cut
  | later {offset : Nat} {earlier cut : Cut} (h : earlier.IsNext source offset)
      (hl : IsMet source earlier.stop cut) : IsMet source offset cut

theorem isMet_of_mem {source : String} {offset : Nat} {cuts : List Cut}
    (h : CutsFrom source offset cuts) {cut : Cut} (hm : cut ∈ cuts) : cut.IsMet source offset := by
  induction cuts generalizing offset with
  | nil => cases hm
  | cons first cuts ih =>
    rcases List.mem_cons.mp hm with rfl | hm
    · exact .first h.1
    · exact .later h.1 (ih h.2 hm)

/-- The same cut in a text that begins so many bytes before. -/
def Cut.shift (offset : Nat) (cut : Cut) : Cut :=
  ⟨cut.name, offset + cut.start, offset + cut.bodyStart, offset + cut.bodyEnd, offset + cut.stop⟩

def PlacedTag.shift (offset : Nat) (placed : PlacedTag) : PlacedTag :=
  ⟨placed.tag, offset + placed.start, offset + placed.stop⟩

theorem cut_add (b : Block) (offset more : Nat) :
    b.cut (offset + more) = (b.cut more).shift offset := by
  simp [Block.cut, Cut.shift, Nat.add_assoc]

theorem placeTags_add (offset more : Nat) (ps : List Piece) :
    placeTags (offset + more) ps = (placeTags more ps).map (PlacedTag.shift offset) := by
  induction ps generalizing more with
  | nil => rfl
  | cons p ps ih =>
    rw [placeTags, placeTags, Nat.add_assoc, ih]
    split <;> rfl

section Standing

variable {source : String} {before : List Char} {ps after : List Piece}

/-- Pieces are scanned on their own as they are scanned in front of others. -/
theorem scanFrom_append (hs : source.toList = before ++ render (ps ++ after))
    (hp : pieces (render (ps ++ after)) = ps ++ after) :
    scanFrom source (byteLength before) =
      (scanFrom (String.ofList (render ps)) 0).map (PlacedTag.shift (byteLength before)) ++
        placeTags (byteLength before + byteLength (render ps)) after := by
  have hown : scanFrom (String.ofList (render ps)) 0 = placeTags 0 ps :=
    @scanFrom_eq _ [] ps String.toList_ofList (pieces_render_front hp)
  rw [scanFrom_eq hs hp, placeTags_append, hown, ← placeTags_add, Nat.add_zero]

/-- The next cut of a text is the next one where the text stands in a source, and it holds the
same there. -/
theorem Cut.IsNext.shift (hs : source.toList = before ++ render (ps ++ after))
    (hp : pieces (render (ps ++ after)) = ps ++ after) {cut : Cut} {seen left : List Piece}
    (h : cut.IsNext (String.ofList (render ps)) (byteLength (render seen)))
    (hps : ps = seen ++ left) :
    (cut.shift (byteLength before)).IsNext source (byteLength before + byteLength (render seen)) ∧
      (cut.shift (byteLength before)).entry source = cut.entry (String.ofList (render ps)) ∧
      ∃ passed rest, left = passed ++ rest ∧ cut.stop = byteLength (render (seen ++ passed)) := by
  subst hps
  have hread : pieces (render left) = left := pieces_render_suffix (pieces_render_front hp)
  have hown : (String.ofList (render (seen ++ left))).toList = render seen ++ render left := by
    rw [String.toList_ofList, render_append]
  obtain ⟨kept, b, rest, rfl, hk, hn, hb, rfl⟩ := exists_block_of_isNext hown hread h
  have hthere : source.toList = before ++ render seen ++
      render (kept ++ b.pieces ++ (rest ++ after)) := by simp [hs]
  have hsplit : pieces (render (seen ++ (kept ++ b.pieces ++ rest) ++ after)) =
      seen ++ (kept ++ b.pieces ++ (rest ++ after)) := by
    rw [hp]
    simp
  have hreadThere := pieces_render_suffix hsplit
  have hcut : (b.cut (byteLength (render seen ++ render kept))).shift (byteLength before) =
      b.cut (byteLength (before ++ render seen ++ render kept)) := by
    rw [List.append_assoc, byteLength_append before, cut_add]
  refine ⟨?_, ?_, kept ++ b.pieces, rest, rfl, ?_⟩
  · rw [hcut, ← byteLength_append]
    exact isNext_cut hn hb hk hthere hreadThere
  · have hentry : source.toList = before ++ render seen ++ render kept ++
        render (b.pieces ++ (rest ++ after)) := by simp [hs]
    have hentryOwn : (String.ofList (render (seen ++ (kept ++ b.pieces ++ rest)))).toList =
        render seen ++ render kept ++ render (b.pieces ++ rest) := by simp
    rw [hcut, entry_cut hentry, entry_cut hentryOwn]
  · rw [stop_cut, ← byteLength_append, render_append, render_append, List.append_assoc]

/-- A cut of a text is one of the source where the text stands in it, and it holds the same
there. -/
theorem Cut.IsMet.shift (hs : source.toList = before ++ render (ps ++ after))
    (hp : pieces (render (ps ++ after)) = ps ++ after) {offset : Nat} {cut : Cut}
    (h : cut.IsMet (String.ofList (render ps)) offset) {seen left : List Piece}
    (hps : ps = seen ++ left) (ho : offset = byteLength (render seen)) :
    (cut.shift (byteLength before)).IsMet source (byteLength before + offset) ∧
      (cut.shift (byteLength before)).entry source = cut.entry (String.ofList (render ps)) ∧
      cut.stop ≤ byteLength (render ps) := by
  induction h generalizing seen left with
  | first h =>
    subst ho
    obtain ⟨hnext, hentry, passed, rest, rfl, hstop⟩ := h.shift hs hp hps
    refine ⟨.first hnext, hentry, ?_⟩
    rw [hstop, hps]
    simp only [render_append, byteLength_append]
    omega
  | later h hl ih =>
    subst ho
    obtain ⟨hnext, -, passed, rest, rfl, hstop⟩ := h.shift hs hp hps
    obtain ⟨hmet, hrest⟩ := @ih (seen ++ passed) rest (by rw [hps, List.append_assoc]) hstop
    exact ⟨.later hnext hmet, hrest⟩

end Standing

theorem cutsOf_append (offset : Nat) (segments segments' : List Segment) :
    cutsOf offset (segments ++ segments') = cutsOf offset segments ++
      cutsOf (offset + byteLength (render (segments.flatMap Segment.pieces))) segments' := by
  induction segments generalizing offset with
  | nil => simp [cutsOf]
  | cons s segments ih =>
    cases s with
    | kept piece =>
      simp only [List.cons_append, cutsOf, ih, List.flatMap_cons, Segment.pieces, render_cons,
        byteLength_append, Nat.add_assoc, List.nil_append]
    | block b =>
      simp only [List.cons_append, cutsOf, ih, List.flatMap_cons, Segment.pieces, stop_cut,
        render_append, byteLength_append, Nat.add_assoc]

/-- A component is that of a block, which is one of the cuts of its source. -/
theorem exists_block_of_mem_components {source : String} {file : Path} {policy : DuplicatePolicy}
    {e : Extraction} (h : (extract source file policy).2 = .ok e) {c : SubComponent}
    (hc : c ∈ e.components) : ∃ (before : List Char) (b : Block) (after : List Piece),
      source.toList = before ++ render (b.pieces ++ after) ∧
      pieces (render (b.pieces ++ after)) = b.pieces ++ after ∧ b.Sound ∧
      b.entry = (c.name, c.body) ∧ (b.cut (byteLength before)).IsMet source 0 := by
  obtain ⟨hstop, rfl⟩ := extract_eq_ok h
  have hpieces := flatMap_segments_of_stop hstop
  have hsound : ∀ s ∈ (outline (pieces source.toList)).segments, s.Sound :=
    fun s => sound_of_mem_outline
  obtain ⟨b, hb, hentry⟩ := Outline.exists_entry_of_mem_components hc
  obtain ⟨s, hs, hb⟩ := List.mem_filterMap.mp hb
  generalize (outline (pieces source.toList)).segments = segments at hpieces hsound hs
  obtain ⟨front, back, rfl⟩ := List.append_of_mem hs
  obtain rfl : s = .block b := by
    cases s with
    | kept piece => cases hb
    | block other => rw [Option.some.inj hb]
  have hread : pieces (render ((front ++ .block b :: back).flatMap Segment.pieces)) =
      (front ++ .block b :: back).flatMap Segment.pieces := by
    rw [hpieces, render_pieces]
  have htext : source.toList =
      [] ++ render ([] ++ (front ++ .block b :: back).flatMap Segment.pieces) := by
    rw [hpieces, List.nil_append, List.nil_append, render_pieces]
  have hsplit : pieces (render ((front ++ .block b :: back).flatMap Segment.pieces)) =
      front.flatMap Segment.pieces ++ (b.pieces ++ back.flatMap Segment.pieces) := by
    rw [hread]
    simp [Segment.pieces]
  obtain ⟨hcuts, -⟩ := cutsFrom_cutsOf hsound (by simp) htext hread
  refine ⟨render (front.flatMap Segment.pieces), b, back.flatMap Segment.pieces, ?_, ?_,
    hsound _ hs, hentry, isMet_of_mem hcuts ?_⟩
  · simpa [Segment.pieces] using htext
  · exact pieces_render_suffix hsplit
  · simp [cutsOf_append, cutsOf]

theorem Block.toList_body (b : Block) {c : SubComponent} (h : b.entry = (c.name, c.body)) :
    c.body.toList = render b.body := by
  have hbody : c.body = String.ofList (render b.body) := (congrArg Prod.snd h).symm
  rw [hbody, String.toList_ofList]

/-- A body is shorter than the source that it is cut out of. -/
theorem body_lt_of_extract {source : String} {file : Path} {policy : DuplicatePolicy}
    {e : Extraction} (h : (extract source file policy).2 = .ok e) {c : SubComponent}
    (hc : c ∈ e.components) : c.body.utf8ByteSize < source.utf8ByteSize := by
  obtain ⟨before, b, after, hs, -, -, hentry, -⟩ := exists_block_of_mem_components h hc
  have hopen : 0 < byteLength (Piece.opening b.opening).render := byteLength_render_pos rfl
  rw [utf8ByteSize_eq_byteLength, utf8ByteSize_eq_byteLength, b.toList_body hentry, hs]
  simp only [Block.pieces, render_append, render_cons, byteLength_append, List.cons_append]
  omega

theorem utf8ByteSize_le_of_extract {source : String} {file : Path} {policy : DuplicatePolicy}
    {e : Extraction} (h : (extract source file policy).2 = .ok e) :
    source.utf8ByteSize ≤ maxSourceSize := by
  unfold extract at h
  split at h
  · cases h
  · omega

/-- What a component holds is read on its own as it is read where it is cut out of a source. -/
structure SubComponent.StandsAlone (c : SubComponent) (source : String) (cut : Cut) : Prop where
  taken : cut.entry source = (c.name, c.body)
  scanned : ∃ inside after, scanFrom source cut.bodyStart =
    (scanFrom c.body 0).map (PlacedTag.shift cut.bodyStart) ++
      ⟨.closing inside, cut.bodyEnd, cut.stop⟩ :: after
  within : ∀ nested : Cut, nested.IsMet c.body 0 →
    (nested.shift cut.bodyStart).IsMet source cut.bodyStart ∧
      (nested.shift cut.bodyStart).stop ≤ cut.bodyEnd ∧
      (nested.shift cut.bodyStart).entry source = nested.entry c.body
  found : ∀ policy e, (extract c.body c.path policy).2 = .ok e → ∀ d ∈ e.components,
    ∃ nested : Cut, nested.IsMet c.body 0 ∧ nested.entry c.body = (d.name, d.body)
  closed : ∀ policy failure, (extract c.body c.path policy).2 = .error failure →
    ∃ name, failure = .invalidName c.path name ∨ failure = .duplicateName c.path name

/-- Every component that is extracted stands alone. -/
theorem standsAlone_of_extract {source : String} {file : Path} {policy : DuplicatePolicy}
    {e : Extraction} (h : (extract source file policy).2 = .ok e) {c : SubComponent}
    (hc : c ∈ e.components) : ∃ cut : Cut, cut.IsMet source 0 ∧ c.StandsAlone source cut := by
  obtain ⟨before, b, after, hs, hp, hsound, hentry, hmet⟩ := exists_block_of_mem_components h hc
  have hbody : c.body = String.ofList (render b.body) := (congrArg Prod.snd hentry).symm
  have hthere : source.toList = before ++ (Piece.opening b.opening).render ++
      render (b.body ++ .closing b.closing :: after) := by
    simp [hs, Block.pieces]
  have hsplit : pieces (render (b.pieces ++ after)) =
      [.opening b.opening] ++ (b.body ++ .closing b.closing :: after) := by
    rw [hp]
    simp [Block.pieces]
  have hread := pieces_render_suffix hsplit
  have hown : pieces c.body.toList = b.body := by
    rw [b.toList_body hentry]
    exact pieces_render_front hread
  have hstart : (b.cut (byteLength before)).bodyStart =
      byteLength (before ++ (Piece.opening b.opening).render) := by
    rw [byteLength_append]
    rfl
  refine ⟨b.cut (byteLength before), hmet, ?_, ?_, ?_, ?_, ?_⟩
  · rw [entry_cut hs, hentry]
  · have hscan := scanFrom_append hthere hread
    rw [placeTags_cons_of_isTag _ rfl, ← hbody, ← hstart] at hscan
    exact ⟨b.closing, _, hscan⟩
  · intro nested hn
    rw [hbody] at hn
    obtain ⟨hshift, hsame, hstop⟩ := hn.shift hthere hread (List.nil_append b.body).symm rfl
    rw [← hstart, ← hbody] at hsame
    rw [← hstart] at hshift
    refine ⟨hshift, ?_, hsame⟩
    exact Nat.add_le_add_left hstop _
  · intro policy e he d hd
    obtain ⟨before, b, after, hs, -, -, hentry, hmet⟩ := exists_block_of_mem_components he hd
    exact ⟨_, hmet, (entry_cut hs).trans hentry⟩
  · intro policy failure hf
    have hsize : c.body.utf8ByteSize ≤ maxSourceSize :=
      Nat.le_trans (Nat.le_of_lt (body_lt_of_extract h hc)) (utf8ByteSize_le_of_extract h)
    exact extract_error_of_balanced (hown ▸ hsound.balanced) hsize hf

/-- A closing tag in a comment, and a block in a block. -/
theorem standsAlone_of_extract_nested :
    let source := "<template name=A><!--</template>--><template name=B>ü</template></template>"
    let file : Path := ⟨"/A.svelte"⟩
    let c : SubComponent :=
      ⟨"A", ⟨"/A__A.svelte"⟩, "<!--</template>--><template name=B>ü</template>"⟩
    let e : Extraction := ⟨"", [c]⟩
    (extract source file .lastWins).2 = .ok e ∧ c ∈ e.components ∧
      ∃ cut : Cut, cut.IsMet source 0 ∧ c.StandsAlone source cut := by
  intro source file c e
  let read : List Piece := [.opening " name=A".toList, .text "<!--</template>-->".toList,
    .opening " name=B".toList, .text ['ü'], .closing [], .closing []]
  have hsize : source.utf8ByteSize ≤ maxSourceSize := by decide +kernel
  have hread : pieces source.toList = read := by decide +kernel
  have houtline : ((outline read).extract file .lastWins).2 = .ok e :=
    toOption_eq_some_iff.mp (by decide +kernel)
  have h : (extract source file .lastWins).2 = .ok e := by
    rw [extract_of_le hsize, hread, houtline]
  have hc : c ∈ e.components := List.mem_cons_self
  exact ⟨h, hc, standsAlone_of_extract h hc⟩

end InlineComponents
