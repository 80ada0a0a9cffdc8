import InlineComponents.Proofs.Offsets.Templates

namespace InlineComponents.Offsets

/-- Where a search for the end of a block is, and how many templates are open there. -/
structure BlockPlace where
  depth : Nat
  offset : Nat

/-- One tag further: an opening tag goes a level down unless it closes itself, a closing tag goes a
level up, and the last one ends the block. -/
def closeRound (source : String) (p : BlockPlace) :
    Reading (Round BlockPlace (Option (Nat × Nat))) := do
  match ← nextTag source p.offset with
  | none => .ok (.done none)
  | some tag =>
    match tag.kind with
    | .opening _ selfClosing =>
      .ok (.again ⟨if selfClosing then p.depth else p.depth + 1, tag.stop⟩)
    | .closing => do
      let depth ← countDown p.depth
      if depth = 0 then .ok (.done (some (tag.start, tag.stop)))
      else .ok (.again ⟨depth, tag.stop⟩)

theorem closeRound_advances (source : String) (p : BlockPlace) :
    Yields (closeRound source p) fun
      | .again next => p.offset < next.offset ∧ next.offset ≤ (utf8 source.toList).length
      | .done found => ∀ bounds ∈ found, p.offset ≤ bounds.1 ∧ bounds.1 < bounds.2 ∧
          bounds.2 ≤ (utf8 source.toList).length := by
  refine (nextTag_within source p.offset).bind fun found hfound => ?_
  cases found with
  | none => exact yields_ok (by simp)
  | some tag =>
    have htag := hfound tag rfl
    have hnext : p.offset < tag.stop := Nat.lt_of_le_of_lt htag.behind htag.forward
    dsimp only
    split
    · exact yields_ok ⟨hnext, htag.inside⟩
    · refine (yields_true _).bind fun depth _ => ?_
      split
      · refine yields_ok fun bounds hbounds => ?_
        obtain rfl := Option.some.inj hbounds
        exact ⟨htag.behind, htag.forward, htag.inside⟩
      · exact yields_ok ⟨hnext, htag.inside⟩

def closeLoop (source : String) : Loop BlockPlace (Option (Nat × Nat)) where
  round := closeRound source
  left p := (utf8 source.toList).length - p.offset
  advances p := (closeRound_advances source p).imp fun
    | .again _, h => by dsimp only at h ⊢; omega
    | .done _, _ => trivial

/-- The offsets of the closing tag of a block and of what follows it, from where its body begins. -/
def matchingClose (source : String) (start : Nat) : Reading (Option (Nat × Nat)) :=
  (closeLoop source).run ⟨1, start⟩

theorem matchingClose_within (source : String) (start : Nat) :
    Yields (matchingClose source start) fun found => ∀ bounds ∈ found,
      start ≤ bounds.1 ∧ bounds.1 < bounds.2 ∧ bounds.2 ≤ (utf8 source.toList).length := by
  let inv (p : BlockPlace) : Prop := start ≤ p.offset
  refine Loop.yields_run inv (fun p hp => ?_) (Nat.le_refl start)
  refine (closeRound_advances source p).imp ?_
  rintro (next | found) hround
  · exact Nat.le_trans hp (Nat.le_of_lt hround.1)
  · intro bounds hbounds
    obtain ⟨hle, hbounds⟩ := hround bounds hbounds
    exact ⟨Nat.le_trans hp hle, hbounds⟩

/-- The levels are never counted down below the first one. -/
theorem gives_matchingClose {source : String} {start : Nat}
    (h : start ≤ (utf8 source.toList).length) :
    Gives (matchingClose source start) fun _ => True := by
  let inv (p : BlockPlace) : Prop := 0 < p.depth ∧ p.offset ≤ (utf8 source.toList).length
  refine Loop.gives_run inv (fun p hp => ?_) ⟨Nat.one_pos, h⟩
  refine (gives_nextTag hp.2).bind fun found hfound => ?_
  cases found with
  | none => exact gives_ok trivial
  | some tag =>
    have hinside := (hfound tag rfl).inside
    dsimp only
    split
    · next selfClosing _ =>
      refine gives_ok ⟨?_, hinside⟩
      dsimp only
      split
      · exact hp.1
      · exact Nat.succ_pos _
    · obtain ⟨depth, hdepth⟩ := Nat.exists_eq_succ_of_ne_zero (Nat.ne_of_gt hp.1)
      rw [hdepth, countDown, ok_bind]
      split
      · exact gives_ok trivial
      · next hopen => exact gives_ok ⟨Nat.pos_of_ne_zero hopen, hinside⟩

section Pieces

variable {source : String} {front : List Char} {ps : List Piece} {p : Piece} {offset : Nat}

/-- The source goes on with these pieces from an offset on. -/
structure PiecesAt (source : String) (offset : Nat) (ps : List Piece) : Prop where
  rest : RestAt source.toList offset (render ps)
  read : pieces (render ps) = ps

theorem PiecesAt.start (source : String) : PiecesAt source 0 (pieces source.toList) where
  rest := by rw [render_pieces]; exact RestAt.start _
  read := by rw [render_pieces]

theorem PiecesAt.append {qs : List Piece} (h : PiecesAt source offset (ps ++ qs)) :
    PiecesAt source (offset + byteLength (render ps)) qs where
  rest := by
    have hrest := h.rest
    rw [render_append] at hrest
    exact hrest.append
  read := pieces_render_suffix h.read

theorem PiecesAt.tail (h : PiecesAt source offset (p :: ps)) :
    PiecesAt source (offset + byteLength p.render) ps where
  rest := h.rest.append
  read := @pieces_render_suffix _ [p] _ h.read

theorem PiecesAt.nextTag_eq (h : PiecesAt source offset ps) :
    nextTag source offset = .ok (firstTag offset ps) := by
  rw [h.rest.nextTag_eq, h.read]

/-- The search by offsets ends where the reader of the pieces closes the block. -/
theorem closeLoop_run (start depth : Nat) (seen : List Piece)
    (h : PiecesAt source (start + byteLength (render seen.reverse)) ps) :
    (closeLoop source).run ⟨depth + 1, start + byteLength (render seen.reverse)⟩ =
      .ok ((closeBlock.go depth seen ps).map fun (body, inside, _) =>
        (start + byteLength (render body),
          start + byteLength (render body) + byteLength (Piece.closing inside).render)) := by
  induction ps generalizing depth seen with
  | nil =>
    have hround : closeRound source ⟨depth + 1, start + byteLength (render seen.reverse)⟩ =
        .ok (.done none) := by
      rw [closeRound, h.nextTag_eq]
      rfl
    exact Loop.run_of_done hround
  | cons p ps ih =>
    have hseen : start + byteLength (render seen.reverse) + byteLength p.render =
        start + byteLength (render (p :: seen).reverse) := by
      simp [Nat.add_assoc]
    have htail := h.tail
    have hrest (depth : Nat) := ih depth (p :: seen) (hseen ▸ htail)
    rw [← hseen] at hrest
    cases p with
    | text chars =>
      have hsame : closeRound source ⟨depth + 1, start + byteLength (render seen.reverse)⟩ =
          closeRound source ⟨depth + 1, start + byteLength (render seen.reverse) +
            byteLength (Piece.text chars).render⟩ := by
        rw [closeRound, closeRound, h.nextTag_eq, htail.nextTag_eq, firstTag_text]
        rfl
      exact (Loop.run_congr hsame).trans (hrest depth)
    | opening inside =>
      have hround : closeRound source ⟨depth + 1, start + byteLength (render seen.reverse)⟩ =
          .ok (.again ⟨(if isSelfClosing inside then depth else depth + 1) + 1,
            start + byteLength (render seen.reverse) +
              byteLength (Piece.opening inside).render⟩) := by
        rw [closeRound, h.nextTag_eq, firstTag_opening, ok_bind]
        dsimp only
        cases isSelfClosing inside <;> rfl
      rw [Loop.run_of_again hround, hrest]
      rfl
    | closing inside =>
      cases depth with
      | zero =>
        have hround : closeRound source ⟨0 + 1, start + byteLength (render seen.reverse)⟩ =
            .ok (.done (some (start + byteLength (render seen.reverse),
              start + byteLength (render seen.reverse) +
                byteLength (Piece.closing inside).render))) := by
          rw [closeRound, h.nextTag_eq, firstTag_closing]
          rfl
        exact Loop.run_of_done hround
      | succ depth =>
        have hround : closeRound source ⟨depth + 1 + 1, start + byteLength (render seen.reverse)⟩ =
            .ok (.again ⟨depth + 1, start + byteLength (render seen.reverse) +
              byteLength (Piece.closing inside).render⟩) := by
          rw [closeRound, h.nextTag_eq, firstTag_closing]
          rfl
        exact (Loop.run_of_again hround).trans (hrest depth)

theorem PiecesAt.matchingClose_eq (h : PiecesAt source offset ps) :
    matchingClose source offset =
      .ok ((closeBlock ps).map fun (body, inside, _) =>
        (offset + byteLength (render body),
          offset + byteLength (render body) + byteLength (Piece.closing inside).render)) :=
  closeLoop_run offset 0 [] h

end Pieces

end InlineComponents.Offsets
