import InlineComponents.Proofs.Components
import InlineComponents.Proofs.Fragments

namespace InlineComponents

/-- A block as it is written, and the name that its opening tag declares. -/
structure WrittenBlock where
  name : String
  opening : List Char
  body : List Fragment
  closing : List Char

/-- The opening tag does not close itself and declares the name, and the templates in the body are
balanced, named or not. -/
structure WrittenBlock.WellFormed (b : WrittenBlock) : Prop where
  opened : IsTagInside b.opening
  named : blockName? (.opening b.opening) = some b.name
  declared : isDeclaredName b.name = true
  written : ∀ f ∈ b.body, f.WellFormed
  balanced : Balanced (b.body.map Fragment.piece)
  closed : IsTagInside b.closing

def WrittenBlock.render (b : WrittenBlock) : List Char :=
  (Fragment.opening b.opening).render ++ written b.body ++ (Fragment.closing b.closing).render

/-- A fragment that stays, or a block that is to be lifted out. -/
inductive Item where
  | loose (fragment : Fragment)
  | block (block : WrittenBlock)

namespace Item

def WellFormed : Item → Prop
  | .loose f => f.WellFormed ∧ blockName? f.piece = none
  | .block b => b.WellFormed

def render : Item → List Char
  | .loose f => f.render
  | .block b => b.render

def fragment? : Item → Option Fragment
  | .loose f => some f
  | .block _ => none

/-- What is declared, by name, and how its body is written. -/
def entry? : Item → Option (String × String)
  | .loose _ => none
  | .block b => some (b.name, String.ofList (written b.body))

end Item

/-- What the items are read as. -/
structure IsReading (items : List Item) (segments : List Segment) : Prop where
  sound : ∀ s ∈ segments, s.Sound
  read : pieces (items.flatMap Item.render) = segments.flatMap Segment.pieces
  kept : render (segments.filterMap Segment.keptPiece) =
    written (items.filterMap Item.fragment?)
  entries : (segments.filterMap Segment.asBlock).map Block.entry = items.filterMap Item.entry?

theorem isReading_nil : IsReading [] [] :=
  ⟨by simp, by simp, rfl, rfl⟩

/-- A fragment that stays is read as a segment of its own, or goes on in the first one. -/
theorem exists_segments_loose {f : Fragment} (hf : f.WellFormed) (hn : blockName? f.piece = none)
    {segments : List Segment} {t : List Char} {ps : List Piece} (hs : ∀ s ∈ segments, s.Sound)
    (ht : pieces t = segments.flatMap Segment.pieces ++ ps)
    (hps : ∀ chars others, ps ≠ .text chars :: others) :
    ∃ longer : List Segment, (∀ s ∈ longer, s.Sound) ∧
      pieces (f.render ++ t) = longer.flatMap Segment.pieces ++ ps ∧
      longer.filterMap Segment.asBlock = segments.filterMap Segment.asBlock ∧
      render (longer.filterMap Segment.keptPiece) =
        f.render ++ render (segments.filterMap Segment.keptPiece) := by
  rcases pieces_fragment_append hf t with hown | ⟨htext, hgoes⟩
  · exact ⟨.kept f.piece :: segments, List.forall_mem_cons.mpr ⟨hn, hs⟩, by rw [hown, ht]; rfl,
      rfl, rfl⟩
  rcases hgoes with hnil | ⟨more, after, hmore, hgoes⟩
  · exact ⟨segments, hs, by rw [hnil, List.nil_append, ht], rfl, by rw [hnil, List.nil_append]⟩
  -- the text that follows is kept as well, as a block begins with a tag
  · rw [ht] at hmore
    cases segments with
    | nil => exact absurd hmore (hps more after)
    | cons s segments =>
      cases s with
      | block b => simp [Segment.pieces, Block.pieces] at hmore
      | kept piece =>
        obtain ⟨rfl, rfl⟩ := List.cons.inj hmore
        have hrest := (List.forall_mem_cons.mp hs).2
        refine ⟨.kept (.text (f.render ++ more)) :: segments,
          List.forall_mem_cons.mpr ⟨rfl, hrest⟩, hgoes, rfl, ?_⟩
        exact List.append_assoc ..

theorem IsReading.loose {items : List Item} {segments : List Segment} {f : Fragment}
    (h : IsReading items segments) (hf : f.WellFormed) (hn : blockName? f.piece = none) :
    ∃ segments, IsReading (.loose f :: items) segments := by
  obtain ⟨longer, hsound, hread, hblocks, hkept⟩ := exists_segments_loose hf hn h.sound
    (h.read.trans (List.append_nil _).symm) (fun _ _ => (List.cons_ne_nil _ _).symm)
  refine ⟨longer, hsound, ?_, ?_, ?_⟩
  · rw [List.append_nil] at hread
    exact hread
  · rw [hkept, h.kept]
    rfl
  · rw [hblocks]
    exact h.entries

theorem IsReading.block {items : List Item} {segments : List Segment} {b : WrittenBlock}
    (h : IsReading items segments) (hb : b.WellFormed) :
    ∃ segments, IsReading (.block b :: items) segments := by
  let opening := Fragment.opening b.opening
  let closing := Fragment.closing b.closing
  let after := closing.render ++ items.flatMap Item.render
  have hopened : opening.WellFormed := hb.opened
  have hclosed : closing.WellFormed := hb.closed
  have hw : (Item.block b :: items).flatMap Item.render =
      opening.render ++ (written b.body ++ after) := by
    simp [Item.render, WrittenBlock.render, after, opening, closing]
  have hopening := pieces_markup_append hopened rfl (written b.body ++ after)
  have hclosing := pieces_markup_append hclosed rfl (items.flatMap Item.render)
  obtain ⟨ps, hread, hrender, htags⟩ := pieces_written_append hb.written hclosing rfl
  refine ⟨.block ⟨b.name, b.opening, ps, b.closing⟩ :: segments, ?_, ?_, h.kept, ?_⟩
  · intro s hs
    rcases List.mem_cons.mp hs with rfl | hs
    · refine ⟨hb.named, hb.declared, ?_⟩
      apply unwinds_filter_isTag.mp
      rw [htags]
      exact unwinds_filter_isTag.mpr hb.balanced
    · exact h.sound s hs
  · rw [hw, hopening, hread, h.read]
    simp [Segment.pieces, Block.pieces, Fragment.piece, opening, closing]
  · have he : Block.entry ⟨b.name, b.opening, ps, b.closing⟩ =
        (b.name, String.ofList (written b.body)) := by
      rw [Block.entry, hrender]
    exact congrArg₂ List.cons he h.entries

theorem exists_isReading {items : List Item} (h : ∀ item ∈ items, item.WellFormed) :
    ∃ segments, IsReading items segments := by
  induction items with
  | nil => exact ⟨[], isReading_nil⟩
  | cons item items ih =>
    obtain ⟨segments, hread⟩ := ih fun other ho => h other (List.mem_cons_of_mem item ho)
    have hitem := h item List.mem_cons_self
    cases item with
    | loose f => exact hread.loose hitem.1 hitem.2
    | block b => exact hread.block hitem

/-- Extraction takes back what was written: what stays is the residual, and of each name that is
declared the last body is given, in the order in which the names come. -/
theorem extract_written {items : List Item} {file : Path} (h : ∀ item ∈ items, item.WellFormed)
    (hsize : (String.ofList (items.flatMap Item.render)).utf8ByteSize ≤ maxSourceSize) :
    ∃ e, (extract (String.ofList (items.flatMap Item.render)) file .lastWins).2 = .ok e ∧
      e.residual = String.ofList (written (items.filterMap Item.fragment?)) ∧
      e.components.map SubComponent.name =
        ((items.filterMap Item.entry?).map Prod.fst).eraseDups ∧
      ∀ c ∈ e.components, c.path = artifactPath file c.name ∧
        (items.filterMap Item.entry?).reverse.lookup c.name = some c.body := by
  obtain ⟨segments, hread⟩ := exists_isReading h
  let o : Outline := ⟨segments, none, []⟩
  have houtline : outline (pieces (String.ofList (items.flatMap Item.render)).toList) = o := by
    rw [String.toList_ofList, hread.read, outline_flatMap hread.sound]
  have hextract : (extract (String.ofList (items.flatMap Item.render)) file .lastWins).2 =
      .ok (o.extraction file) := by
    rw [← houtline]
    exact extract_lastWins hsize (by rw [houtline])
  have hentries : o.entries = items.filterMap Item.entry? := hread.entries
  refine ⟨_, hextract, ?_, ?_, ?_⟩
  · exact congrArg String.ofList hread.kept
  · rw [← hentries]
    exact o.components_names file
  · intro c hc
    rw [← hentries]
    exact Outline.mem_components_iff.mp hc

/-- With tags in a comment and in a script, a template in a block, and a name given again. -/
theorem extract_written_hidden_tags :
    let a := [' ', 'n', 'a', 'm', 'e', '=', 'A']
    let body : List Fragment := [.opening a, .text ['x'], .closing []]
    let items : List Item :=
      [.loose (.comment (templateOpening ++ a ++ ['>'])), .loose (.text ['é']),
        .loose (.tag ['p']), .block ⟨"A", a, body, []⟩,
        .loose (.raw .script [' ', '\'', '>', '\''] templateClosing []), .loose (.closing []),
        .block ⟨"A", a, [], []⟩]
    let file : Path := ⟨"/A.svelte"⟩
    ((∀ item ∈ items, item.WellFormed) ∧
      (String.ofList (items.flatMap Item.render)).utf8ByteSize ≤ maxSourceSize) ∧
    ∃ e, (extract (String.ofList (items.flatMap Item.render)) file .lastWins).2 = .ok e ∧
      e.residual = String.ofList (written (items.filterMap Item.fragment?)) ∧
      e.components.map SubComponent.name =
        ((items.filterMap Item.entry?).map Prod.fst).eraseDups ∧
      ∀ c ∈ e.components, c.path = artifactPath file c.name ∧
        (items.filterMap Item.entry?).reverse.lookup c.name = some c.body := by
  intro a body items file
  have hname : blockName? (.opening a) = some "A" := by decide +kernel
  have ha : IsTagInside a := by decide
  have hbody : ∀ f ∈ body, f.WellFormed := by decide
  have hitems : ∀ item ∈ items, item.WellFormed := by
    simp only [items, List.mem_cons, List.not_mem_nil, or_false, forall_eq_or_imp, forall_eq]
    refine ⟨⟨by decide, rfl⟩, ⟨by decide, rfl⟩, ⟨by decide, rfl⟩, ?_, ⟨by decide, rfl⟩,
      ⟨by decide, rfl⟩, ?_⟩
    · exact ⟨ha, hname, by decide, hbody, by decide, by decide⟩
    · exact ⟨ha, hname, by decide, by simp, by decide, by decide⟩
  have hsize : (String.ofList (items.flatMap Item.render)).utf8ByteSize ≤ maxSourceSize := by
    decide +kernel
  exact ⟨⟨hitems, hsize⟩, extract_written hitems hsize⟩

end InlineComponents
