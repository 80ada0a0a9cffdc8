import InlineComponents.Proofs.DuplicateNames
import InlineComponents.Proofs.Offsets.Blocks
import InlineComponents.Table

namespace InlineComponents.Offsets

/-- The components found so far, where each name has its one, and what was worth an event. -/
structure Found where
  components : List SubComponent
  byName : Table String Nat
  events : List Event

/-- Where an extraction is: what it keeps of the source, what it has found, and the offsets behind
the last block and of the next search. -/
structure ExtractPlace where
  residual : String
  found : Found
  copied : Nat
  offset : Nat

abbrev Extracted : Type :=
  List Event × Except Failure Extraction

/-- The name of the block that a tag opens. -/
def TagKind.blockName? : TagKind → Option String
  | .opening name false => name
  | _ => none

/-- One component more; of a name given again the last one is kept, or none. -/
def Found.keep (found : Found) (file : Path) (policy : DuplicatePolicy) (c : SubComponent) :
    Reading (Except Failure Found) :=
  match found.byName.find? c.name with
  | some index =>
    match policy with
    | .lastWins => do
      let components ← putAt found.components index c
      .ok (.ok { found with components, events := found.events ++ [.nameRepeated file c.name] })
    | .error => .ok (.error (.duplicateName file c.name))
  | none =>
    .ok (.ok { found with
      components := found.components ++ [c]
      byName := found.byName.put c.name found.components.length })

/-- The end of an extraction: the source is as it was if nothing was found in it. -/
def ExtractPlace.finish (p : ExtractPlace) (source : String) : Reading Extracted :=
  if p.found.components.isEmpty then .ok (p.found.events, .ok ⟨source, p.found.components⟩)
  else do
    let rest ← cut source p.copied source.utf8ByteSize
    .ok (p.found.events, .ok ⟨p.residual ++ rest, p.found.components⟩)

/-- One tag further, or one block. -/
def extractRound (source : String) (file : Path) (policy : DuplicatePolicy) (p : ExtractPlace) :
    Reading (Round ExtractPlace Extracted) := do
  match ← nextTag source p.offset with
  | none => do
    let result ← p.finish source
    .ok (.done result)
  | some tag =>
    match tag.kind.blockName? with
    | none => .ok (.again { p with offset := tag.stop })
    | some name =>
      match checkName file name with
      | .error failure => .ok (.done (p.found.events, .error failure))
      | .ok () => do
        match ← matchingClose source tag.stop with
        | none => .ok (.done (p.found.events, .error (.unclosedBlock file name tag.start)))
        | some (closeStart, closeStop) => do
          let body ← cut source tag.stop closeStart
          match ← p.found.keep file policy (.declared file name body) with
          | .error failure => .ok (.done (p.found.events, .error failure))
          | .ok found => do
            let between ← cut source p.copied tag.start
            .ok (.again ⟨p.residual ++ between, found, closeStop, closeStop⟩)

theorem extractRound_advances (source : String) (file : Path) (policy : DuplicatePolicy)
    (p : ExtractPlace) :
    Yields (extractRound source file policy p) fun
      | .again next => p.offset < next.offset ∧ next.offset ≤ (utf8 source.toList).length
      | .done _ => True := by
  refine (nextTag_within source p.offset).bind fun found hfound => ?_
  cases found with
  | none => exact (yields_true _).bind fun result _ => yields_ok trivial
  | some tag =>
    have htag := hfound tag rfl
    have hnext : p.offset < tag.stop := Nat.lt_of_le_of_lt htag.behind htag.forward
    dsimp only
    split
    · exact yields_ok ⟨hnext, htag.inside⟩
    split
    · exact yields_ok trivial
    refine (matchingClose_within source tag.stop).bind fun bounds hbounds => ?_
    cases bounds with
    | none => exact yields_ok trivial
    | some bounds =>
      obtain ⟨closeStart, closeStop⟩ := bounds
      obtain ⟨hstart, hstop, hinside⟩ := hbounds _ rfl
      refine (yields_true _).bind fun body _ => (yields_true _).bind fun kept _ => ?_
      split
      · exact yields_ok trivial
      · refine (yields_true _).bind fun between _ => yields_ok ⟨?_, hinside⟩
        dsimp only at hstart hstop ⊢
        omega

def extractLoop (source : String) (file : Path) (policy : DuplicatePolicy) :
    Loop ExtractPlace Extracted where
  round := extractRound source file policy
  left p := (utf8 source.toList).length - p.offset
  advances p := (extractRound_advances source file policy p).imp fun
    | .again _, h => by dsimp only at h ⊢; omega
    | .done _, _ => trivial

/-- Every named block lifted out of a source, by the offsets at which its tags are found. -/
def extract (source : String) (file : Path) (policy : DuplicatePolicy) : Reading Extracted :=
  if maxSourceSize < source.utf8ByteSize then
    .ok ([], .error (.sourceTooLarge file source.utf8ByteSize maxSourceSize))
  else (extractLoop source file policy).run ⟨"", ⟨[], [], []⟩, 0, 0⟩

section Names

theorem repeats_go_concat (seen names : List String) (name : String) :
    repeats.go seen [] (names ++ [name]) =
      repeats.go seen [] names ++ if name ∈ seen ∨ name ∈ names then [name] else [] := by
  induction names generalizing seen with
  | nil => by_cases h : name ∈ seen <;> simp [repeats.go, h]
  | cons first names ih =>
    rw [List.cons_append, repeats.go, repeats.go]
    split
    · next hs =>
      have hfirst : first ∈ seen := by simpa using hs
      rw [repeats_go_found, ih, repeats_go_found seen [first] names, List.append_assoc]
      by_cases hname : name = first
      · simp [hname, hfirst]
      · simp [hname]
    · rw [ih]
      by_cases hname : name = first <;> simp [hname]

theorem repeats_concat (names : List String) (name : String) :
    repeats (names ++ [name]) = repeats names ++ if name ∈ names then [name] else [] := by
  have h := repeats_go_concat [] names name
  simpa [repeats] using h

theorem repeats_prefix (names more : List String) : repeats names <+: repeats (names ++ more) := by
  induction more using List.reverseRecOn with
  | nil => rw [List.append_nil]
  | append_singleton more name ih =>
    rw [← List.append_assoc, repeats_concat]
    exact ih.trans (List.prefix_append _ _)

/-- Among distinct names the first that is given again is the first repeated one. -/
theorem exists_repeats {names : List String} {name : String} (hnodup : names.Nodup)
    (hname : name ∈ names) (more : List String) :
    ∃ others, repeats (names ++ [name] ++ more) = name :: others := by
  obtain ⟨others, hothers⟩ := repeats_prefix (names ++ [name]) more
  rw [repeats_concat, repeats_eq_nil_iff.mpr hnodup, if_pos hname] at hothers
  exact ⟨others, hothers.symm⟩

theorem putComponent_of_findIdx? {cs : List SubComponent} {c : SubComponent} {index : Nat}
    (h : (cs.map SubComponent.name).findIdx? (· = c.name) = some index) :
    putAt cs index c = .ok (putComponent c cs) := by
  induction cs generalizing index with
  | nil => cases h
  | cons old others ih =>
    rw [List.map_cons, List.findIdx?_cons] at h
    by_cases hold : old.name = c.name
    · rw [if_pos (by simpa using hold)] at h
      obtain rfl := Option.some.inj h
      have hin : 0 < (old :: others).length := Nat.succ_pos _
      rw [putAt, if_pos hin, putComponent, if_pos hold]
      rfl
    · rw [if_neg (by simpa using hold)] at h
      obtain ⟨later, hlater, rfl⟩ := Option.map_eq_some_iff.mp h
      have hput := ih hlater
      rw [putAt] at hput
      split at hput
      · next hin =>
        have hrest := Except.ok.inj hput
        have hin : later + 1 < (old :: others).length := Nat.succ_lt_succ hin
        rw [putAt, if_pos hin, putComponent, if_neg hold, ← hrest]
        rfl
      · cases hput

theorem putComponent_of_notMem {cs : List SubComponent} {c : SubComponent}
    (h : c.name ∉ cs.map SubComponent.name) : putComponent c cs = cs ++ [c] := by
  induction cs with
  | nil => rfl
  | cons old others ih =>
    rw [List.map_cons, List.mem_cons, not_or] at h
    rw [putComponent, if_neg (Ne.symm h.1), ih h.2]
    rfl

end Names

section Blocks

variable {file : Path} {policy : DuplicatePolicy} {blocks : List Block} {found : Found}

/-- The components of blocks, one for each name. -/
def componentsOf (file : Path) (blocks : List Block) : List SubComponent :=
  blocks.foldl (fun cs b => putComponent (b.component (.ofParent file)) cs) []

/-- What is found are the components of these blocks. -/
structure Found.Holds (found : Found) (file : Path) (policy : DuplicatePolicy)
    (blocks : List Block) : Prop where
  components : found.components = componentsOf file blocks
  byName : ∀ name, found.byName.find? name =
    (found.components.map SubComponent.name).findIdx? (· = name)
  events : found.events = (repeats (blocks.map Block.name)).map (.nameRepeated file)
  distinct : policy = .error → (blocks.map Block.name).Nodup

theorem Found.Holds.mem_names (h : found.Holds file policy blocks) {name : String} :
    name ∈ found.components.map SubComponent.name ↔ name ∈ blocks.map Block.name := by
  obtain ⟨hnames, -⟩ := foldl_putComponent (.ofParent file) blocks
  rw [h.components, componentsOf, hnames, List.mem_eraseDups]

theorem componentsOf_concat (b : Block) :
    componentsOf file (blocks ++ [b]) =
      putComponent (b.component (.ofParent file)) (componentsOf file blocks) := by
  rw [componentsOf, List.foldl_append]
  rfl

/-- The component of a block whose name is a new one. -/
theorem Found.Holds.keep_fresh (h : found.Holds file policy blocks) {b : Block}
    (hname : b.name ∉ blocks.map Block.name) :
    Gives (found.keep file policy (b.component (.ofParent file))) fun kept =>
      ∃ next, kept = .ok next ∧ next.Holds file policy (blocks ++ [b]) := by
  have hcomponent : (b.component (.ofParent file)).name = b.name := rfl
  have hfresh : b.name ∉ found.components.map SubComponent.name :=
    fun hm => hname (h.mem_names.mp hm)
  have hnone : found.byName.find? b.name = none := by
    rw [h.byName, List.findIdx?_eq_none_iff]
    exact fun name hm => decide_eq_false fun he => hfresh (he ▸ hm)
  rw [Found.keep, hcomponent, hnone]
  refine gives_ok ⟨_, rfl, ?_, ?_, ?_, ?_⟩
  · rw [componentsOf_concat, ← h.components, putComponent_of_notMem hfresh]
  · intro name
    dsimp only
    rw [List.map_append, List.findIdx?_append, ← h.byName, List.map_singleton, hcomponent]
    by_cases he : b.name = name
    · subst he
      simp [hnone]
    · rw [Table.find?_put_of_ne _ _ (Ne.symm he)]
      simp [he]
  · rw [List.map_append, List.map_singleton, repeats_concat, if_neg hname, List.append_nil]
    exact h.events
  · intro hp
    rw [List.map_append, List.map_singleton, List.nodup_append]
    refine ⟨h.distinct hp, by simp, ?_⟩
    intro a ha c hc hac
    obtain rfl := List.mem_singleton.mp hc
    exact hname (hac ▸ ha)

theorem Found.Holds.exists_index (h : found.Holds file policy blocks) {name : String}
    (hname : name ∈ blocks.map Block.name) : ∃ index, found.byName.find? name = some index := by
  rw [h.byName, ← Option.isSome_iff_exists, List.findIdx?_isSome, List.any_eq_true]
  exact ⟨name, h.mem_names.mpr hname, by simp⟩

/-- The component of a block whose name is given again takes the place of the one before. -/
theorem Found.Holds.keep_again (h : found.Holds file .lastWins blocks) {b : Block}
    (hname : b.name ∈ blocks.map Block.name) :
    Gives (found.keep file .lastWins (b.component (.ofParent file))) fun kept =>
      ∃ next, kept = .ok next ∧ next.Holds file .lastWins (blocks ++ [b]) := by
  have hcomponent : (b.component (.ofParent file)).name = b.name := rfl
  obtain ⟨index, hindex⟩ := h.exists_index hname
  have hput := putComponent_of_findIdx? (c := b.component (.ofParent file)) (h.byName _ ▸ hindex)
  rw [Found.keep, hcomponent, hindex]
  dsimp only
  rw [hput, ok_bind]
  refine gives_ok ⟨_, rfl, ?_, ?_, ?_, fun hp => by cases hp⟩
  · rw [componentsOf_concat, ← h.components]
  · intro name
    dsimp only
    rw [map_name_putComponent, hcomponent, if_pos (h.mem_names.mpr hname), h.byName]
  · rw [List.map_append, List.map_singleton, repeats_concat, if_pos hname, List.map_append,
      ← h.events]
    rfl

theorem Found.Holds.keep_error (h : found.Holds file .error blocks) {b : Block}
    (hname : b.name ∈ blocks.map Block.name) :
    found.keep file .error (b.component (.ofParent file)) =
      .ok (.error (.duplicateName file b.name)) := by
  have hcomponent : (b.component (.ofParent file)).name = b.name := rfl
  obtain ⟨index, hindex⟩ := h.exists_index hname
  rw [Found.keep, hcomponent, hindex]

end Blocks

section Outlines

variable {source : String} {file : Path} {policy : DuplicatePolicy} {segments : List Segment}
  {ps : List Piece} {p : ExtractPlace}

def keptOf (segments : List Segment) : List Piece :=
  segments.filterMap Segment.keptPiece

def blocksOf (segments : List Segment) : List Block :=
  segments.filterMap Segment.asBlock

theorem blocksOf_concat_kept (segments : List Segment) (piece : Piece) :
    blocksOf (segments ++ [.kept piece]) = blocksOf segments := by
  rw [blocksOf, List.filterMap_append]
  exact List.append_nil _

theorem blocksOf_concat_block (b : Block) :
    blocksOf (segments ++ [.block b]) = blocksOf segments ++ [b] := by
  rw [blocksOf, List.filterMap_append]
  rfl

theorem keptOf_concat_kept (piece : Piece) :
    keptOf (segments ++ [.kept piece]) = keptOf segments ++ [piece] := by
  rw [keptOf, List.filterMap_append]
  rfl

theorem keptOf_concat_block (b : Block) : keptOf (segments ++ [.block b]) = keptOf segments := by
  rw [keptOf, List.filterMap_append]
  exact List.append_nil _

/-- An extraction by offsets is where an outline has these segments behind it and these pieces
before it. What it has not copied yet is kept. -/
structure ExtractPlace.Reads (p : ExtractPlace) (source : String) (file : Path)
    (policy : DuplicatePolicy) (segments : List Segment) (ps : List Piece) : Prop where
  pieces : PiecesAt source p.offset ps
  found : p.found.Holds file policy (blocksOf segments)
  text : ∃ front between, source.toList = front ++ (between ++ render ps) ∧
    p.copied = byteLength front ∧ p.offset = p.copied + byteLength between ∧
    p.residual.toList ++ between = render (keptOf segments) ∧
    (p.found.components = [] → front = [] ∧ p.residual = "")
  offset : p.offset = byteLength (render (segments.flatMap Segment.pieces))

theorem reads_start (source : String) (file : Path) (policy : DuplicatePolicy) :
    ExtractPlace.Reads ⟨"", ⟨[], [], []⟩, 0, 0⟩ source file policy [] (pieces source.toList) where
  pieces := PiecesAt.start source
  found := ⟨rfl, fun _ => rfl, rfl, fun _ => List.nodup_nil⟩
  text := ⟨[], [], by rw [render_pieces]; rfl, rfl, rfl, rfl, fun _ => ⟨rfl, rfl⟩⟩
  offset := rfl

/-- What an outline is extracted to if none of its names is refused. -/
theorem extract_of_holds {found : Found} {o : Outline}
    (h : found.Holds file policy (blocksOf o.segments)) :
    o.extract file policy =
      (found.events, match o.failure? file with
        | some failure => .error failure
        | none => .ok (o.extraction file)) := by
  have hevents : found.events = o.repeated.map (.nameRepeated file) := h.events
  cases policy with
  | lastWins => rw [hevents]; rfl
  | error =>
    have hnone : o.repeated = [] := repeats_eq_nil_iff.mpr (h.distinct rfl)
    rw [hevents, hnone]
    cases hfailure : o.failure? file with
    | none => simp only [Outline.extract, hnone, hfailure, List.map_nil]
    | some failure => simp only [Outline.extract, hnone, hfailure, List.map_nil]

theorem ExtractPlace.Reads.finish_eq {o : Outline} (h : p.Reads source file policy o.segments [])
    (hstop : o.stop = none) : p.finish source = .ok (o.extract file policy) := by
  obtain ⟨front, between, hsource, hcopied, -, hkept, hempty⟩ := h.text
  rw [render_nil, List.append_nil] at hsource
  have hfailure : o.failure? file = none := by rw [Outline.failure?, hstop]; rfl
  have hcomponents : p.found.components = o.components file := h.found.components
  rw [extract_of_holds h.found, hfailure, Outline.extraction, Outline.kept, ← keptOf, ← hkept,
    ← hcomponents, ExtractPlace.finish]
  split
  · next hnil =>
    obtain ⟨rfl, hresidual⟩ := hempty (List.isEmpty_iff.mp hnil)
    rw [hresidual, String.toList_empty, ← hsource, String.ofList_toList]
  · have hrest : RestAt source.toList p.copied between := ⟨front, hsource, hcopied⟩
    rw [hrest.cut_rest, ok_bind, String.ofList_append, String.ofList_toList]

/-- A piece that opens no block is kept. -/
theorem ExtractPlace.Reads.pass {piece : Piece}
    (h : p.Reads source file policy segments (piece :: ps)) :
    ExtractPlace.Reads { p with offset := p.offset + byteLength piece.render } source file policy
      (segments ++ [.kept piece]) ps := by
  obtain ⟨front, between, hsource, hcopied, hoffset, hkept, hempty⟩ := h.text
  refine ⟨h.pieces.tail, ?_, ⟨front, between ++ piece.render, ?_, hcopied, ?_, ?_, hempty⟩, ?_⟩
  · exact blocksOf_concat_kept segments piece ▸ h.found
  · rw [hsource, render_cons, List.append_assoc]
  · dsimp only
    rw [hoffset, byteLength_append, Nat.add_assoc]
  · rw [← List.append_assoc, hkept, keptOf_concat_kept, render_append]
    simp
  · dsimp only
    rw [h.offset, List.flatMap_append, render_append, byteLength_append]
    simp [Segment.pieces]

/-- A block is found, and what is kept before it is copied. -/
theorem ExtractPlace.Reads.take {b : Block} {rest : List Piece} {found : Found}
    (h : p.Reads source file policy segments (b.pieces ++ rest))
    (hfound : found.Holds file policy (blocksOf segments ++ [b])) :
    ∃ between, cut source p.copied p.offset = .ok between ∧
      ExtractPlace.Reads ⟨p.residual ++ between, found, p.offset + byteLength (render b.pieces),
        p.offset + byteLength (render b.pieces)⟩ source file policy (segments ++ [.block b])
        rest := by
  obtain ⟨front, between, hsource, hcopied, hoffset, hkept, hempty⟩ := h.text
  have hrest : RestAt source.toList p.copied (between ++ render (b.pieces ++ rest)) :=
    ⟨front, hsource, hcopied⟩
  have hnames : found.components ≠ [] := by
    rw [hfound.components, componentsOf_concat]
    intro hnil
    have hmem : (b.component (.ofParent file)).name ∈
        (putComponent (b.component (.ofParent file)) (componentsOf file (blocksOf segments))).map
          SubComponent.name := by
      rw [map_name_putComponent]
      split <;> simp_all
    rw [hnil] at hmem
    cases hmem
  refine ⟨String.ofList between, by rw [hoffset]; exact hrest.cut_eq, ?_⟩
  refine ⟨h.pieces.append, ?_, ⟨front ++ between ++ render b.pieces, [], ?_, ?_, rfl, ?_, ?_⟩, ?_⟩
  · exact (blocksOf_concat_block b).symm ▸ hfound
  · rw [hsource, render_append]
    simp
  · dsimp only
    rw [hoffset, hcopied, byteLength_append, byteLength_append]
  · dsimp only
    rw [String.toList_append, String.toList_ofList, List.append_nil, hkept, keptOf_concat_block]
  · exact fun hnil => absurd hnil hnames
  · dsimp only
    rw [h.offset, List.flatMap_append, render_append, byteLength_append]
    simp [Segment.pieces]

theorem outline_go_segments (found : List Segment) (ps : List Piece) :
    found.reverse <+: (outline.go found ps).segments := by
  fun_induction outline.go found ps with
  | case1 found => exact List.prefix_rfl
  | case2 found p ps hn ih => exact (List.reverse_cons ▸ List.prefix_append _ _).trans ih
  | case3 => exact List.prefix_rfl
  | case4 found p ps name hn hd body inside rest hc _ ih =>
    exact (List.reverse_cons ▸ List.prefix_append _ _).trans ih
  | case5 => exact List.prefix_rfl

/-- A name given again is refused, whatever comes after it. -/
theorem extract_of_given_again {found : List Segment} {b : Block}
    (hnodup : ((blocksOf found.reverse).map Block.name).Nodup)
    (hname : b.name ∈ (blocksOf found.reverse).map Block.name) (rest : List Piece) :
    (outline.go (.block b :: found) rest).extract file .error =
      ([], .error (.duplicateName file b.name)) := by
  obtain ⟨more, hmore⟩ := outline_go_segments (.block b :: found) rest
  have hblocks : (outline.go (.block b :: found) rest).blocks.map Block.name =
      (blocksOf found.reverse).map Block.name ++ [b.name] ++ (blocksOf more).map Block.name := by
    rw [Outline.blocks, ← hmore, List.reverse_cons, List.filterMap_append, ← blocksOf,
      blocksOf_concat_block, List.map_append, List.map_append]
    rfl
  obtain ⟨others, hothers⟩ := exists_repeats hnodup hname ((blocksOf more).map Block.name)
  have hrepeated : (outline.go (.block b :: found) rest).repeated = b.name :: others := by
    rw [Outline.repeated, hblocks, hothers]
  simp only [Outline.extract, hrepeated]

theorem blockName?_opening (inside : List Char) :
    (TagKind.opening (declaredIn inside) (isSelfClosing inside)).blockName? =
      blockName? (.opening inside) := by
  rw [blockName?]
  cases isSelfClosing inside <;> rfl

/-- A piece that opens no block is passed over. -/
theorem extractLoop_pass {piece : Piece} (h : PiecesAt source p.offset (piece :: ps))
    (hn : blockName? piece = none) :
    (extractLoop source file policy).run p =
      (extractLoop source file policy).run
        { p with offset := p.offset + byteLength piece.render } := by
  cases piece with
  | text chars =>
    refine Loop.run_congr (show extractRound source file policy p =
      extractRound source file policy _ from ?_)
    rw [extractRound, extractRound, h.nextTag_eq, firstTag_text]
    dsimp only
    rw [h.tail.nextTag_eq]
    rfl
  | opening inside =>
    refine Loop.run_of_again (show extractRound source file policy p = _ from ?_)
    rw [extractRound, h.nextTag_eq, firstTag_opening, ok_bind]
    dsimp only
    rw [blockName?_opening, hn]
  | closing inside =>
    refine Loop.run_of_again (show extractRound source file policy p = _ from ?_)
    rw [extractRound, h.nextTag_eq, firstTag_closing]
    rfl

/-- At the opening tag of a block its name is looked at first, and then its end. -/
theorem extractRound_opening (file : Path) (policy : DuplicatePolicy) {piece : Piece}
    {name : String} (h : PiecesAt source p.offset (piece :: ps))
    (hn : blockName? piece = some name) :
    extractRound source file policy p =
      if isDeclaredName name then
        match closeBlock ps with
        | none => .ok (.done (p.found.events, .error (.unclosedBlock file name p.offset)))
        | some (body, inside, _) => do
          let b : Block := ⟨name, piece.inside, body, inside⟩
          match ← p.found.keep file policy (b.component (.ofParent file)) with
          | .error failure => .ok (.done (p.found.events, .error failure))
          | .ok found => do
            let between ← cut source p.copied p.offset
            .ok (.again ⟨p.residual ++ between, found, p.offset + byteLength (render b.pieces),
              p.offset + byteLength (render b.pieces)⟩)
      else .ok (.done (p.found.events, .error (.invalidName file name))) := by
  have hpiece := opening_of_blockName? hn
  generalize piece.inside = inner at hpiece
  subst hpiece
  rw [extractRound, h.nextTag_eq, firstTag_opening, ok_bind]
  dsimp only
  rw [blockName?_opening, hn]
  dsimp only
  rw [checkName]
  cases isDeclaredName name with
  | false => rfl
  | true =>
    rw [if_pos rfl, if_pos rfl]
    dsimp only
    rw [h.tail.matchingClose_eq, ok_bind]
    cases hclose : closeBlock ps with
    | none => rfl
    | some closed =>
      obtain ⟨body, inside, rest⟩ := closed
      have hbody : RestAt source.toList (p.offset + byteLength (Piece.opening inner).render)
          (render body ++ render (.closing inside :: rest)) := by
        rw [← render_append, ← closeBlock_append hclose]
        exact h.tail.rest
      have hstop : p.offset + byteLength (Piece.opening inner).render + byteLength (render body) +
          byteLength (Piece.closing inside).render =
            p.offset + byteLength (render (Block.pieces ⟨name, inner, body, inside⟩)) := by
        simp [Block.pieces, Nat.add_assoc]
      dsimp only [Option.map_some]
      rw [hbody.cut_eq, ok_bind, hstop]
      rfl

/-- The loop over offsets extracts what the outline of the pieces gives. -/
theorem extractLoop_run {found : List Segment}
    (h : p.Reads source file policy found.reverse ps) :
    (extractLoop source file policy).run p = .ok ((outline.go found ps).extract file policy) := by
  fun_induction outline.go found ps generalizing p with
  | case1 found =>
    have hfinish := h.finish_eq (o := ⟨found.reverse, none, []⟩) rfl
    refine Loop.run_of_done (show extractRound source file policy p = _ from ?_)
    rw [extractRound, h.pieces.nextTag_eq]
    have hnone : firstTag p.offset [] = none := rfl
    rw [hnone, ok_bind]
    dsimp only
    rw [hfinish, ok_bind]
  | case2 found piece ps hn ih =>
    rw [extractLoop_pass h.pieces hn]
    refine ih ?_
    rw [List.reverse_cons]
    exact h.pass
  | case3 found piece ps name hn hd hc =>
    have hround := extractRound_opening file policy h.pieces hn
    rw [if_pos hd, hc] at hround
    rw [extract_of_holds h.found, Outline.failure?, Outline.pieces, ← h.offset]
    exact Loop.run_of_done hround
  | case4 found piece ps name hn hd body inside rest hc _ ih =>
    let b : Block := ⟨name, piece.inside, body, inside⟩
    have hround := extractRound_opening file policy h.pieces hn
    rw [if_pos hd, hc] at hround
    dsimp only at hround
    have hpieces : piece :: ps = b.pieces ++ rest := by
      rw [closeBlock_append hc, opening_of_blockName? hn]
      simp [b, Block.pieces, Piece.inside]
    have hstep {next : Found} (hnext : next.Holds file policy (blocksOf found.reverse ++ [b]))
        (hkeep : p.found.keep file policy (b.component (.ofParent file)) = .ok (.ok next)) :
        (extractLoop source file policy).run p =
          .ok ((outline.go (.block b :: found) rest).extract file policy) := by
      obtain ⟨between, hcut, hreads⟩ := (hpieces ▸ h).take hnext
      rw [hkeep, ok_bind] at hround
      dsimp only at hround
      rw [hcut, ok_bind] at hround
      refine (Loop.run_of_again hround).trans (ih ?_)
      rw [List.reverse_cons]
      exact hreads
    by_cases hname : b.name ∈ (blocksOf found.reverse).map Block.name
    · cases policy with
      | lastWins =>
        obtain ⟨kept, hkeep, next, rfl, hnext⟩ := h.found.keep_again hname
        exact hstep hnext hkeep
      | error =>
        have hnodup := h.found.distinct rfl
        have hevents : p.found.events = [] := by
          rw [h.found.events, repeats_eq_nil_iff.mpr hnodup, List.map_nil]
        rw [h.found.keep_error hname, ok_bind, hevents] at hround
        rw [extract_of_given_again hnodup hname]
        exact Loop.run_of_done hround
    · obtain ⟨kept, hkeep, next, rfl, hnext⟩ := h.found.keep_fresh hname
      exact hstep hnext hkeep
  | case5 found piece ps name hn hd =>
    have hround := extractRound_opening file policy h.pieces hn
    rw [if_neg hd] at hround
    rw [extract_of_holds h.found, Outline.failure?]
    exact Loop.run_of_done hround

/-- The extraction by offsets makes no misstep and comes to what the pieces are extracted to. -/
theorem extract_eq (source : String) (file : Path) (policy : DuplicatePolicy) :
    extract source file policy = .ok (InlineComponents.extract source file policy) := by
  rw [extract, InlineComponents.extract]
  split
  · rfl
  · exact @extractLoop_run source file policy _ _ [] (reads_start source file policy)

end Outlines

end InlineComponents.Offsets
