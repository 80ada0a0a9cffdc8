import InlineComponents.Proofs.Nesting

namespace InlineComponents

/-- The opening tag declares the block's name, and the body is closed by the closing tag. -/
structure Block.Sound (b : Block) : Prop where
  named : blockName? (.opening b.opening) = some b.name
  declared : isDeclaredName b.name = true
  balanced : Balanced b.body

/-- A piece that is kept opens no block. -/
def Segment.Sound : Segment → Prop
  | .kept piece => blockName? piece = none
  | .block b => b.Sound

theorem opening_of_blockName? {p : Piece} {name : String} (h : blockName? p = some name) :
    p = .opening p.inside := by
  cases p with
  | opening inside => rfl
  | text chars => simp [blockName?] at h
  | closing inside => simp [blockName?] at h

/-- Segments in front of a text are found as they are. -/
theorem outline_go_append {segments : List Segment} (h : ∀ s ∈ segments, s.Sound)
    (found : List Segment) (ps : List Piece) :
    outline.go found (segments.flatMap Segment.pieces ++ ps) =
      outline.go (segments.reverse ++ found) ps := by
  induction segments generalizing found with
  | nil => rfl
  | cons s segments ih =>
    have hs := h s List.mem_cons_self
    have hrest := fun found => ih (fun t ht => h t (List.mem_cons_of_mem s ht)) found
    rw [List.flatMap_cons, List.append_assoc, List.reverse_cons, List.append_assoc]
    cases s with
    | kept piece =>
      have hn : blockName? piece = none := hs
      rw [Segment.pieces, List.singleton_append, outline.go]
      split
      · exact hrest _
      · next name he => simp [hn] at he
    | block b =>
      have hc : closeBlock (b.body ++ .closing b.closing :: (segments.flatMap Segment.pieces ++ ps)) =
          some (b.body, b.closing, segments.flatMap Segment.pieces ++ ps) :=
        closeBlock_eq_some_iff.mpr ⟨rfl, hs.balanced⟩
      simp only [Segment.pieces, Block.pieces, List.cons_append, List.append_assoc,
        List.nil_append]
      rw [outline.go]
      split
      · next he => simp [hs.named] at he
      · next name he =>
        obtain rfl : b.name = name := Option.some.inj (hs.named.symm.trans he)
        rw [if_pos hs.declared]
        split
        · next hn => simp [hc] at hn
        · next body inside rest hb =>
          rw [hc] at hb
          obtain ⟨rfl, rfl, rfl⟩ : b.body = body ∧ b.closing = inside ∧
              segments.flatMap Segment.pieces ++ ps = rest := by simpa using hb
          exact hrest _

/-- Every segment of an outline is sound. -/
theorem sound_of_mem_outline_go {found : List Segment} {ps : List Piece}
    (h : ∀ s ∈ found, s.Sound) : ∀ s ∈ (outline.go found ps).segments, s.Sound := by
  fun_induction outline.go found ps with
  | case1 found => simpa using h
  | case2 found p ps hn ih =>
    apply ih
    intro s hs
    rcases List.mem_cons.mp hs with rfl | hs
    · exact hn
    · exact h s hs
  | case3 found p ps name hn hd hc => simpa using h
  | case4 found p ps name hn hd body inside rest hc _ ih =>
    apply ih
    intro s hs
    rcases List.mem_cons.mp hs with rfl | hs
    · refine ⟨?_, hd, (closeBlock_eq_some_iff.mp hc).2⟩
      rw [← opening_of_blockName? hn, hn]
    · exact h s hs
  | case5 found p ps name hn hd => simpa using h

theorem sound_of_mem_outline {ps : List Piece} {s : Segment} (h : s ∈ (outline ps).segments) :
    s.Sound :=
  sound_of_mem_outline_go (by simp) s h

theorem sound_of_mem_blocks {ps : List Piece} {b : Block} (h : b ∈ (outline ps).blocks) :
    b.Sound := by
  obtain ⟨s, hs, hb⟩ := List.mem_filterMap.mp h
  cases s with
  | kept piece => simp [Segment.asBlock] at hb
  | block block =>
    obtain rfl : block = b := Option.some.inj hb
    exact sound_of_mem_outline hs

theorem outline_go_rest {found : List Segment} {ps : List Piece}
    (h : (outline.go found ps).stop = none) : (outline.go found ps).rest = [] := by
  fun_induction outline.go found ps with
  | case1 => rfl
  | case2 found p ps hn ih => exact ih h
  | case3 => simp at h
  | case4 found p ps name hn hd body inside rest hc _ ih => exact ih h
  | case5 => simp at h

/-- An outline without a stop has all pieces in its segments. -/
theorem flatMap_segments_of_stop {ps : List Piece} (h : (outline ps).stop = none) :
    (outline ps).segments.flatMap Segment.pieces = ps := by
  have hp := outline_pieces ps
  rw [outline, outline_go_rest h, List.append_nil] at hp
  exact hp

/-- Sound segments are the outline of their pieces. -/
theorem outline_flatMap {segments : List Segment} (h : ∀ s ∈ segments, s.Sound) :
    outline (segments.flatMap Segment.pieces) = ⟨segments, none, []⟩ := by
  have hg := outline_go_append h [] []
  simp only [List.append_nil] at hg
  rw [outline, hg, outline.go, List.reverse_reverse]

/-- The first block of sound segments is the one that the first such tag opens. -/
theorem exists_first_block {segments : List Segment} {kept ps : List Piece} {inside : List Char}
    {name : String} (hs : ∀ s ∈ segments, s.Sound) (hk : ∀ p ∈ kept, blockName? p = none)
    (hn : blockName? (.opening inside) = some name)
    (h : segments.flatMap Segment.pieces = kept ++ .opening inside :: ps) :
    ∃ b others, segments = kept.map Segment.kept ++ .block b :: others ∧ b.opening = inside ∧
      ps = b.body ++ .closing b.closing :: others.flatMap Segment.pieces := by
  induction kept generalizing segments with
  | nil =>
    cases segments with
    | nil => cases h
    | cons s segments =>
      cases s with
      | kept piece =>
        have hkept : blockName? piece = none := hs _ List.mem_cons_self
        obtain ⟨rfl, -⟩ := List.cons.inj h
        rw [hn] at hkept
        cases hkept
      | block b =>
        rw [List.flatMap_cons, Segment.pieces, Block.pieces] at h
        obtain ⟨hopening, hps⟩ := List.cons.inj h
        refine ⟨b, segments, rfl, Piece.opening.inj hopening, ?_⟩
        rw [← hps]
        simp
  | cons p kept ih =>
    have hp := hk p List.mem_cons_self
    cases segments with
    | nil => cases h
    | cons s segments =>
      cases s with
      | kept piece =>
        obtain ⟨rfl, hrest⟩ := List.cons.inj h
        obtain ⟨b, others, rfl, hb⟩ := ih (fun s hm => hs s (List.mem_cons_of_mem _ hm))
          (fun q hq => hk q (List.mem_cons_of_mem _ hq)) hrest
        exact ⟨b, others, rfl, hb⟩
      | block b =>
        have hsound : b.Sound := hs _ List.mem_cons_self
        rw [List.flatMap_cons, Segment.pieces, Block.pieces] at h
        obtain ⟨rfl, -⟩ := List.cons.inj h
        rw [hsound.named] at hp
        cases hp

/-- A block among pieces that open none is the only one of their outline. -/
theorem outline_lone_block {kept left : List Piece} {b : Block}
    (hk : ∀ p ∈ kept, blockName? p = none) (hl : ∀ p ∈ left, blockName? p = none)
    (hb : b.Sound) : outline (kept ++ (b.pieces ++ left)) =
      ⟨kept.map Segment.kept ++ .block b :: left.map Segment.kept, none, []⟩ := by
  let segments := kept.map Segment.kept ++ .block b :: left.map Segment.kept
  have hsound : ∀ s ∈ segments, s.Sound := by
    intro s hs
    rcases List.mem_append.mp hs with hs | hs
    · obtain ⟨p, hp, rfl⟩ := List.mem_map.mp hs
      exact hk p hp
    rcases List.mem_cons.mp hs with rfl | hs
    · exact hb
    · obtain ⟨p, hp, rfl⟩ := List.mem_map.mp hs
      exact hl p hp
  have hpieces : kept ++ (b.pieces ++ left) = segments.flatMap Segment.pieces := by
    simp [segments, Segment.pieces, List.flatMap_map]
  rw [hpieces, outline_flatMap hsound]

end InlineComponents
