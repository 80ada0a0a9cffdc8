import InlineComponents.Markup.Attribute

namespace InlineComponents

/-- What a source is made of for extraction: template tags, each with the inside after its name,
and everything else as text. Comments and raw elements are text. -/
inductive Piece where
  | text (chars : List Char)
  | opening (inside : List Char)
  | closing (inside : List Char)
  deriving DecidableEq, Repr

def templateOpening : List Char := ['<', 't', 'e', 'm', 'p', 'l', 'a', 't', 'e']

def templateClosing : List Char := ['<', '/', 't', 'e', 'm', 'p', 'l', 'a', 't', 'e']

/-- The piece as it is written. -/
def Piece.render : Piece → List Char
  | .text chars => chars
  | .opening inside => templateOpening ++ inside ++ ['>']
  | .closing inside => templateClosing ++ inside ++ ['>']

/-- What stands between a tag's name and its end, or the text. -/
def Piece.inside : Piece → List Char
  | .text chars | .opening chars | .closing chars => chars

/-- The pieces as they are written, one after the other. -/
def render (pieces : List Piece) : List Char :=
  pieces.foldr (fun piece rest => piece.render ++ rest) []

@[simp] theorem render_nil : render [] = [] := rfl

@[simp] theorem render_cons (p : Piece) (ps : List Piece) :
    render (p :: ps) = p.render ++ render ps := rfl

@[simp] theorem render_append (ps qs : List Piece) :
    render (ps ++ qs) = render ps ++ render qs := by
  induction ps with
  | nil => rfl
  | cons p ps ih => simp [ih]

/-- A slash before the end of the tag, blanks aside. -/
def isSelfClosing (inside : List Char) : Bool :=
  (dropTail isBlank inside).getLast? = some '/'

/-- The name that a template's opening tag declares. -/
def declaredIn (inside : List Char) : Option String :=
  (attributeValue (dropTail (· = '/') inside) ['n', 'a', 'm', 'e']).map String.ofList

/-- What can begin at a `<`; a template tag is given by its piece. -/
inductive Markup where
  | comment
  | raw (tag : RawTag)
  | template (name : List Char) (piece : List Char → Piece)

/-- The markup that begins a text. -/
def markup? (s : List Char) : Option Markup :=
  match s with
  | '<' :: _ =>
    if commentStart.isPrefixOf s then some .comment
    else
      match rawTag? s with
      | some tag => some (.raw tag)
      | none =>
        if beginsTag templateClosing s then some (.template templateClosing .closing)
        else if beginsTag templateOpening s then some (.template templateOpening .opening)
        else none
  | _ => none

/-- The piece of a markup that begins a text, and the text after it. A comment, a raw element or a
template tag that is not closed ends the markup: the rest is text. -/
def Markup.read (m : Markup) (s : List Char) : Piece × List Char :=
  match m with
  | .comment =>
    match closeComment (s.drop commentStart.length) with
    | none => (.text s, [])
    | some (said, rest) => (.text (commentStart ++ said ++ commentEnd), rest)
  | .raw tag =>
    let opened := '<' :: tag.name
    match closeAngle (s.drop opened.length) with
    | none => (.text s, [])
    | some (inside, rest) =>
      (.text (opened ++ inside ++ '>' :: (closeRaw tag rest).1), (closeRaw tag rest).2)
  | .template name piece =>
    match closeAngle (s.drop name.length) with
    | none => (.text s, [])
    | some (inside, rest) => (piece inside, rest)

/-- The first piece of a text, and the text after it. Text reaches up to the next markup. -/
def nextPiece (s : List Char) : Piece × List Char :=
  match markup? s with
  | some m => m.read s
  | none =>
    match breakAt (fun s => (markup? s).isSome) s with
    | none => (.text s, [])
    | some (before, rest) => (.text before, rest)

/-- What a markup begins with stands at the start of the text. -/
theorem markup?_prefix {s : List Char} {m : Markup} (h : markup? s = some m) :
    (m = .comment ∧ commentStart <+: s) ∨
      (∃ tag, m = .raw tag ∧ s = '<' :: tag.name ++ s.drop ('<' :: tag.name).length) ∨
      (∃ name piece, m = .template name piece ∧ s = name ++ s.drop name.length ∧ name ≠ [] ∧
        ∀ inside, (piece inside).render = name ++ inside ++ ['>']) := by
  unfold markup? at h
  split at h
  · split at h
    · next hc => exact .inl ⟨(Option.some.inj h).symm, List.isPrefixOf_iff_prefix.mp hc⟩
    · split at h
      · next tag ht => exact .inr (.inl ⟨tag, (Option.some.inj h).symm, rawTag?_prefix ht⟩)
      · split at h
        · next hb =>
          exact .inr (.inr ⟨_, _, (Option.some.inj h).symm, beginsTag_prefix hb,
            by simp [templateClosing], fun _ => rfl⟩)
        · split at h
          · next hb =>
            exact .inr (.inr ⟨_, _, (Option.some.inj h).symm, beginsTag_prefix hb,
              by simp [templateOpening], fun _ => rfl⟩)
          · simp at h
  · simp at h

theorem Markup.read_append {s : List Char} {m : Markup} (h : markup? s = some m) :
    (m.read s).1.render ++ (m.read s).2 = s := by
  rcases markup?_prefix h with ⟨rfl, t, rfl⟩ | ⟨tag, rfl, hs⟩ | ⟨name, piece, rfl, hs, -, hp⟩
  · unfold Markup.read
    simp only
    split
    · simp [Piece.render]
    · next said rest he =>
      have := closeComment_append he
      rw [List.drop_left] at this
      simp [Piece.render, this]
  · unfold Markup.read
    simp only
    split
    · simp [Piece.render]
    · next inside rest he =>
      rw [closeAngle_append he] at hs
      rw [hs]
      simp [Piece.render, closeRaw_append]
  · unfold Markup.read
    simp only
    split
    · simp [Piece.render]
    · next inside rest he =>
      rw [closeAngle_append he] at hs
      rw [hp, hs]
      simp

/-- A piece and the text after it are the text it was read from. -/
theorem nextPiece_append (s : List Char) : (nextPiece s).1.render ++ (nextPiece s).2 = s := by
  unfold nextPiece
  split
  · next m hm => exact Markup.read_append hm
  · split
    · simp [Piece.render]
    · next before rest hb => exact (breakAt_append hb).1.symm

theorem Markup.read_ne_nil {s : List Char} {m : Markup} (h : markup? s = some m) :
    (m.read s).1.render ≠ [] := by
  have hs : s ≠ [] := by
    rintro rfl
    simp [markup?] at h
  rcases markup?_prefix h with ⟨rfl, -⟩ | ⟨tag, rfl, -⟩ | ⟨name, piece, rfl, -, hn, hp⟩ <;>
    unfold Markup.read <;> simp only <;> split <;> simp_all [Piece.render, commentStart]

theorem nextPiece_ne_nil {s : List Char} (hs : s ≠ []) : (nextPiece s).1.render ≠ [] := by
  unfold nextPiece
  split
  · next m hm => exact Markup.read_ne_nil hm
  · next hm =>
    split
    · exact hs
    · next before rest hb =>
      obtain ⟨he, hp⟩ := breakAt_append hb
      rintro rfl
      simp_all

theorem nextPiece_length_lt (c : Char) (cs : List Char) :
    (nextPiece (c :: cs)).2.length < (c :: cs).length := by
  have h := congrArg List.length (nextPiece_append (c :: cs))
  have hn := List.length_pos_iff.mpr (nextPiece_ne_nil (List.cons_ne_nil c cs))
  rw [List.length_append] at h
  omega

/-- The pieces of a text. -/
def pieces (s : List Char) : List Piece :=
  go [] s
where
  go (found : List Piece) (s : List Char) : List Piece :=
    match s with
    | [] => found.reverse
    | c :: cs =>
      go ((nextPiece (c :: cs)).1 :: found) (nextPiece (c :: cs)).2
  termination_by s.length
  decreasing_by exact nextPiece_length_lt c cs

theorem pieces_go_eq (found : List Piece) (s : List Char) :
    pieces.go found s = found.reverse ++ pieces s := by
  cases s with
  | nil => simp [pieces, pieces.go]
  | cons c cs =>
    rw [pieces, pieces.go, pieces.go, pieces_go_eq (_ :: found), pieces_go_eq [_]]
    simp
termination_by s.length
decreasing_by all_goals exact nextPiece_length_lt c cs

theorem pieces_cons (c : Char) (cs : List Char) :
    pieces (c :: cs) = (nextPiece (c :: cs)).1 :: pieces (nextPiece (c :: cs)).2 := by
  rw [pieces, pieces.go, pieces_go_eq]; rfl

@[simp] theorem pieces_nil : pieces [] = [] := by
  rw [pieces, pieces.go]; rfl

/-- The pieces of a text, written one after the other, are the text. -/
theorem render_pieces (s : List Char) : render (pieces s) = s := by
  cases s with
  | nil => simp
  | cons c cs =>
    rw [pieces_cons, render_cons, render_pieces, nextPiece_append]
termination_by s.length
decreasing_by exact nextPiece_length_lt c cs

end InlineComponents
