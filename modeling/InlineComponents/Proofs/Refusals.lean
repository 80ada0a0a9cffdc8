import InlineComponents.Proofs.Bodies

namespace InlineComponents

/-- The cuts are the first blocks from an offset on. -/
def FirstCuts (source : String) (offset : Nat) : List Cut → Prop
  | [] => True
  | cut :: cuts => cut.IsNext source offset ∧ FirstCuts source cut.stop cuts

/-- Where the last of some cuts ends, or where they were to begin. -/
def endOfCuts (offset : Nat) : List Cut → Nat
  | [] => offset
  | cut :: cuts => endOfCuts cut.stop cuts

theorem firstCuts_append {source : String} {offset : Nat} {cuts others : List Cut} :
    FirstCuts source offset (cuts ++ others) ↔
      FirstCuts source offset cuts ∧ FirstCuts source (endOfCuts offset cuts) others := by
  induction cuts generalizing offset with
  | nil => simp [FirstCuts, endOfCuts]
  | cons cut cuts ih => simp [FirstCuts, endOfCuts, ih, and_assoc]

theorem endOfCuts_append (offset : Nat) (cuts others : List Cut) :
    endOfCuts offset (cuts ++ others) = endOfCuts (endOfCuts offset cuts) others := by
  induction cuts generalizing offset with
  | nil => rfl
  | cons cut cuts ih => exact ih cut.stop

/-- The first opening tag of a block that is met from an offset on. -/
structure OpensNext (source : String) (offset : Nat) (name : String) (start stop : Nat) : Prop where
  behind : offset ≤ start
  met : ∃ tag, (scanFrom source offset).find? (fun placed => (blockName? placed.tag).isSome) =
    some ⟨tag, start, stop⟩ ∧ blockName? tag = some name

/-- No closing tag from an offset on closes what is open there. -/
def NeverCloses (source : String) (offset : Nat) : Prop :=
  ∀ before inside start stop after,
    scanFrom source offset = before ++ ⟨.closing inside, start, stop⟩ :: after →
      ¬ Balanced (before.map PlacedTag.tag)

/-- The next block from an offset on is refused: its name is not a declared name, or nothing closes
it. -/
inductive RefusesNext (source : String) (offset : Nat) (file : Path) : Failure → Prop where
  | invalidName {name : String} {start stop : Nat} (opens : OpensNext source offset name start stop)
      (invalid : isDeclaredName name = false) :
      RefusesNext source offset file (.invalidName file name)
  | unclosed {name : String} {start stop : Nat} (opens : OpensNext source offset name start stop)
      (declared : isDeclaredName name = true) (open_ : NeverCloses source stop) :
      RefusesNext source offset file (.unclosedBlock file name start)

/-- The rest of an outline begins with the tag of the block that is refused. -/
theorem outline_go_stop {found : List Segment} {ps : List Piece} {stop : Stop}
    (h : (outline.go found ps).stop = some stop) : ∃ inside name rest,
      (outline.go found ps).rest = .opening inside :: rest ∧
      blockName? (.opening inside) = some name ∧
      (isDeclaredName name = false ∧ stop = .invalidName name ∨
        isDeclaredName name = true ∧ closeBlock rest = none ∧ stop = .unclosed name) := by
  fun_induction outline.go found ps with
  | case1 => cases h
  | case2 found p ps hn ih => exact ih h
  | case3 found p ps name hn hd hc =>
    have hp := opening_of_blockName? hn
    rw [hp] at hn
    exact ⟨p.inside, name, ps, by rw [← hp], hn, .inr ⟨hd, hc, (Option.some.inj h).symm⟩⟩
  | case4 found p ps name hn hd body inside rest hc _ ih => exact ih h
  | case5 found p ps name hn hd =>
    have hp := opening_of_blockName? hn
    rw [hp] at hn
    exact ⟨p.inside, name, ps, by rw [← hp], hn,
      .inl ⟨by simpa using hd, (Option.some.inj h).symm⟩⟩

/-- The cuts of sound segments are the first blocks of the text that the segments are read from, and
behind the last of them are pieces that open none. -/
theorem firstCuts_cutsOf {source : String} {segments : List Segment} {before : List Char}
    {kept rest : List Piece} (hsound : ∀ s ∈ segments, s.Sound) (hk : ∀ p ∈ kept, blockName? p = none)
    (hs : source.toList = before ++ render (kept ++ (segments.flatMap Segment.pieces ++ rest)))
    (hp : pieces (render (kept ++ (segments.flatMap Segment.pieces ++ rest))) =
      kept ++ (segments.flatMap Segment.pieces ++ rest)) :
    let cuts := cutsOf (byteLength (before ++ render kept)) segments
    FirstCuts source (byteLength before) cuts ∧
      ∃ front left, endOfCuts (byteLength before) cuts = byteLength front ∧
        (∀ p ∈ left, blockName? p = none) ∧ source.toList = front ++ render (left ++ rest) ∧
        pieces (render (left ++ rest)) = left ++ rest ∧
        front ++ render left = before ++ render (kept ++ segments.flatMap Segment.pieces) := by
  intro cuts
  induction segments generalizing before kept with
  | nil => exact ⟨trivial, before, kept, rfl, hk, hs, hp, by simp⟩
  | cons s segments ih =>
    have hrest := fun t ht => hsound t (List.mem_cons_of_mem s ht)
    cases s with
    | kept piece =>
      have hpiece : blockName? piece = none := hsound _ List.mem_cons_self
      have hk' : ∀ p ∈ kept ++ [piece], blockName? p = none :=
        List.forall_mem_append.mpr ⟨hk, List.forall_mem_singleton.mpr hpiece⟩
      have hs' : source.toList = before ++
          render (kept ++ [piece] ++ (segments.flatMap Segment.pieces ++ rest)) := by
        simpa [Segment.pieces] using hs
      have h := ih hrest hk' hs' (by simpa [Segment.pieces] using hp)
      simpa [cuts, cutsOf, Segment.pieces, Nat.add_assoc] using h
    | block b =>
      have hb : b.Sound := hsound _ List.mem_cons_self
      simp only [List.flatMap_cons, Segment.pieces, List.append_assoc] at hs hp
      rw [← List.append_assoc kept] at hs hp
      have hnext := isNext_cut hb.named hb.balanced hk hs hp
      obtain ⟨hstop, hs', hread⟩ := read_behind_cut hs hp
      have h := ih hrest (by simp) hs' hread
      simp only [render_nil, List.append_nil, List.nil_append, ← hstop] at h
      obtain ⟨hfirst, front, left, hend, hleft, hsource, hpieces, hfront⟩ := h
      refine ⟨⟨hnext, hfirst⟩, front, left, hend, hleft, hsource, hpieces, ?_⟩
      rw [hfront]
      simp [Segment.pieces]

/-- A block that nothing closes is never closed by what is scanned from its body on. -/
theorem neverCloses_of_closeBlock {source : String} {before : List Char} {ps : List Piece}
    (hs : source.toList = before ++ render ps) (hp : pieces (render ps) = ps)
    (h : closeBlock ps = none) : NeverCloses source (byteLength before) := by
  intro passed inside start stop after hscan hb
  rw [scanFrom_eq hs hp] at hscan
  obtain ⟨body, rest, rfl, rfl, -, -⟩ := exists_of_placeTags_eq hscan
  rw [map_tag_placeTags] at hb
  have hclosed : closeBlock (body ++ .closing inside :: rest) = some (body, inside, rest) :=
    closeBlock_eq_some_iff.mpr ⟨rfl, unwinds_filter_isTag.mp hb⟩
  rw [hclosed] at h
  cases h

/-- The opening tag behind pieces that open no block is the next one. -/
theorem opensNext_of_pieces {source : String} {before inside : List Char} {kept rest : List Piece}
    {name : String} (hk : ∀ p ∈ kept, blockName? p = none)
    (hn : blockName? (.opening inside) = some name)
    (hs : source.toList = before ++ render (kept ++ .opening inside :: rest))
    (hp : pieces (render (kept ++ .opening inside :: rest)) = kept ++ .opening inside :: rest) :
    OpensNext source (byteLength before) name (byteLength (before ++ render kept))
      (byteLength (before ++ render kept ++ (Piece.opening inside).render)) := by
  refine ⟨?_, .opening inside, find?_scanFrom hk hn hs hp, hn⟩
  rw [byteLength_append]
  exact Nat.le_add_right ..

theorem map_name_cutsOf (offset : Nat) (segments : List Segment) :
    (cutsOf offset segments).map Cut.name =
      (segments.filterMap Segment.asBlock).map Block.name := by
  induction segments generalizing offset with
  | nil => rfl
  | cons s segments ih =>
    cases s with
    | kept piece => exact ih _
    | block b => exact congrArg (b.name :: ·) (ih _)

namespace Outline

/-- The cuts of the blocks that are closed before one that is refused, if one is. -/
def cuts (o : Outline) : List Cut :=
  cutsOf 0 o.segments

theorem map_name_cuts (o : Outline) : o.cuts.map Cut.name = o.blocks.map Block.name :=
  map_name_cutsOf 0 o.segments

end Outline

/-- The blocks of an outline are the first of its source, and the one that is refused comes next. -/
theorem firstCuts_outline (source : String) :
    FirstCuts source 0 (outline (pieces source.toList)).cuts ∧
      (∀ cut ∈ (outline (pieces source.toList)).cuts, isDeclaredName cut.name = true) ∧
      ∀ file failure, (outline (pieces source.toList)).failure? file = some failure →
        RefusesNext source (endOfCuts 0 (outline (pieces source.toList)).cuts) file failure := by
  let o := outline (pieces source.toList)
  have hpieces : [] ++ (o.segments.flatMap Segment.pieces ++ o.rest) = pieces source.toList :=
    outline_pieces (pieces source.toList)
  have hs : source.toList =
      [] ++ render ([] ++ (o.segments.flatMap Segment.pieces ++ o.rest)) := by
    rw [hpieces, render_pieces, List.nil_append]
  have hread : pieces (render ([] ++ (o.segments.flatMap Segment.pieces ++ o.rest))) =
      [] ++ (o.segments.flatMap Segment.pieces ++ o.rest) := by
    rw [hpieces, render_pieces]
  obtain ⟨hfirst, front, left, hend, hleft, hsource, hreadLeft, hfront⟩ :=
    firstCuts_cutsOf (fun s => sound_of_mem_outline) (by simp) hs hread
  refine ⟨hfirst, ?_, ?_⟩
  · intro cut hcut
    have hname : cut.name ∈ o.cuts.map Cut.name := List.mem_map_of_mem hcut
    rw [o.map_name_cuts] at hname
    obtain ⟨b, hb, hbname⟩ := List.mem_map.mp hname
    rw [← hbname]
    exact (sound_of_mem_blocks hb).declared
  · intro file failure hfailure
    obtain ⟨stop, hstop, hf⟩ := Option.map_eq_some_iff.mp hfailure
    obtain ⟨inside, name, rest, hrest, hname, hcase⟩ := outline_go_stop hstop
    have hends : endOfCuts 0 o.cuts = byteLength front := hend
    have hrest : o.rest = .opening inside :: rest := hrest
    rw [hrest] at hsource hreadLeft
    have hopens := opensNext_of_pieces hleft hname hsource hreadLeft
    rw [hends]
    rcases hcase with ⟨hinvalid, rfl⟩ | ⟨hdeclared, hopen, rfl⟩
    · subst hf
      exact .invalidName hopens hinvalid
    · have hbody : source.toList = front ++ render left ++ (Piece.opening inside).render ++
          render rest := by simp [hsource]
      have hsplit : pieces (render (left ++ .opening inside :: rest)) =
          (left ++ [.opening inside]) ++ rest := by
        rw [hreadLeft]
        simp
      have hstart : byteLength (render o.pieces) = byteLength (front ++ render left) := by
        rw [hfront]
        rfl
      subst hf
      dsimp only
      rw [hstart]
      exact .unclosed hopens hdeclared
        (neverCloses_of_closeBlock hbody (pieces_render_suffix hsplit) hopen)

end InlineComponents
