import InlineComponents.Proofs.Nesting
import InlineComponents.Proofs.Slices

namespace InlineComponents

/-- A template tag, with the byte offsets of its `<` and of what follows its `>`. -/
structure PlacedTag where
  tag : Piece
  start : Nat
  stop : Nat

/-- The template tags among pieces that begin at an offset. -/
def placeTags (offset : Nat) : List Piece → List PlacedTag
  | [] => []
  | p :: ps =>
    let rest := placeTags (offset + byteLength p.render) ps
    if p.isTag then ⟨p, offset, offset + byteLength p.render⟩ :: rest else rest

/-- The template tags that are met from an offset on. -/
def scanFrom (source : String) (offset : Nat) : List PlacedTag :=
  placeTags offset (pieces (slice source offset source.utf8ByteSize).toList)

@[simp] theorem placeTags_nil (offset : Nat) : placeTags offset [] = [] := rfl

theorem placeTags_append (offset : Nat) (ps qs : List Piece) :
    placeTags offset (ps ++ qs) =
      placeTags offset ps ++ placeTags (offset + byteLength (render ps)) qs := by
  induction ps generalizing offset with
  | nil => simp [placeTags]
  | cons p ps ih =>
    simp only [List.cons_append, placeTags, ih, render_cons, byteLength_append, Nat.add_assoc]
    split <;> rfl

theorem placeTags_cons_of_isTag (offset : Nat) {p : Piece} (hp : p.isTag = true)
    (ps : List Piece) :
    placeTags offset (p :: ps) =
      ⟨p, offset, offset + byteLength p.render⟩ ::
        placeTags (offset + byteLength p.render) ps := by
  simp [placeTags, hp]

theorem map_tag_placeTags (offset : Nat) (ps : List Piece) :
    (placeTags offset ps).map PlacedTag.tag = ps.filter Piece.isTag := by
  induction ps generalizing offset with
  | nil => rfl
  | cons p ps ih =>
    rw [placeTags, List.filter_cons]
    split
    · rw [List.map_cons, ih]
    · exact ih _

/-- Reading again what is left after some pieces gives the pieces that are left. -/
theorem pieces_render_suffix {s : List Char} {ps qs : List Piece} (h : pieces s = ps ++ qs) :
    pieces (render qs) = qs := by
  induction ps generalizing s with
  | nil =>
    rw [List.nil_append] at h
    rw [← h, render_pieces]
  | cons p ps ih =>
    cases s with
    | nil => simp at h
    | cons c cs =>
      rw [pieces_cons, List.cons_append] at h
      exact ih (List.cons.inj h).2

/-- The scan from where some pieces begin meets the tags among them. -/
theorem scanFrom_eq {source : String} {before : List Char} {ps : List Piece}
    (hs : source.toList = before ++ render ps) (hp : pieces (render ps) = ps) :
    scanFrom source (byteLength before) = placeTags (byteLength before) ps := by
  rw [scanFrom, slice_rest hs, String.toList_ofList, hp]

end InlineComponents
