import InlineComponents.Naming
import InlineComponents.Piece

namespace InlineComponents

/-- A named block: its name, the inside of its opening tag, what it holds, and the inside of its
closing tag. -/
structure Block where
  name : String
  opening : List Char
  body : List Piece
  closing : List Char
  deriving DecidableEq, Repr

/-- A piece that stays in the parent, or a block that is lifted out of it. -/
inductive Segment where
  | kept (piece : Piece)
  | block (block : Block)
  deriving DecidableEq, Repr

def Block.pieces (b : Block) : List Piece :=
  .opening b.opening :: b.body ++ [.closing b.closing]

def Segment.pieces : Segment → List Piece
  | .kept piece => [piece]
  | .block b => b.pieces

def Segment.keptPiece : Segment → Option Piece
  | .kept piece => some piece
  | .block _ => none

def Segment.asBlock : Segment → Option Block
  | .kept _ => none
  | .block b => some b

/-- Why a block is none: its name is not a declared name, or nothing closes it. -/
inductive Stop where
  | invalidName (name : String)
  | unclosed (name : String)
  deriving DecidableEq, Repr

/-- A source told apart into blocks and what lies around them, as far as its blocks are well
formed; the rest begins with the opening tag of the first block that is not. -/
structure Outline where
  segments : List Segment
  stop : Option Stop
  rest : List Piece
  deriving DecidableEq, Repr

/-- The pieces up to the closing tag of a block that has just been opened, the inside of that tag,
and the pieces after it. Every opening tag in between that does not close itself has a closing
tag of its own. -/
def closeBlock (ps : List Piece) : Option (List Piece × List Char × List Piece) :=
  go 0 [] ps
where
  go (depth : Nat) (seen : List Piece) :
      List Piece → Option (List Piece × List Char × List Piece)
    | [] => none
    | .text chars :: ps => go depth (.text chars :: seen) ps
    | .opening inside :: ps =>
      go (if isSelfClosing inside then depth else depth + 1) (.opening inside :: seen) ps
    | .closing inside :: ps =>
      match depth with
      | 0 => some (seen.reverse, inside, ps)
      | depth + 1 => go depth (.closing inside :: seen) ps

/-- The name of the block that a piece opens. -/
def blockName? : Piece → Option String
  | .opening inside => if isSelfClosing inside then none else declaredIn inside
  | _ => none

theorem closeBlock_go_eq {depth : Nat} {seen ps body rest : List Piece} {inside : List Char}
    (h : closeBlock.go depth seen ps = some (body, inside, rest)) :
    ∃ m, body = seen.reverse ++ m ∧ ps = m ++ .closing inside :: rest := by
  induction ps generalizing depth seen with
  | nil => simp [closeBlock.go] at h
  | cons p ps ih =>
    cases p with
    | text chars =>
      obtain ⟨m, rfl, rfl⟩ := ih h
      exact ⟨_ :: m, by simp, rfl⟩
    | opening inner =>
      obtain ⟨m, rfl, rfl⟩ := ih h
      exact ⟨_ :: m, by simp, rfl⟩
    | closing inner =>
      cases depth with
      | zero =>
        obtain ⟨rfl, rfl, rfl⟩ : seen.reverse = body ∧ inner = inside ∧ ps = rest := by
          simpa [closeBlock.go] using h
        exact ⟨[], by simp, rfl⟩
      | succ depth =>
        obtain ⟨m, rfl, rfl⟩ := ih h
        exact ⟨_ :: m, by simp, rfl⟩

/-- The body, its closing tag and the rest are the pieces again. -/
theorem closeBlock_append {ps body rest : List Piece} {inside : List Char}
    (h : closeBlock ps = some (body, inside, rest)) : ps = body ++ .closing inside :: rest := by
  obtain ⟨m, rfl, rfl⟩ := closeBlock_go_eq h
  simp

theorem closeBlock_length {ps body rest : List Piece} {inside : List Char}
    (h : closeBlock ps = some (body, inside, rest)) : rest.length < ps.length := by
  rw [closeBlock_append h]
  simp only [List.length_append, List.length_cons]
  omega

/-- The outline of a source given by its pieces. -/
def outline (ps : List Piece) : Outline :=
  go [] ps
where
  go (found : List Segment) (ps : List Piece) : Outline :=
    match ps with
    | [] => ⟨found.reverse, none, []⟩
    | p :: ps =>
      match blockName? p with
      | none => go (.kept p :: found) ps
      | some name =>
        if isDeclaredName name then
          match h : closeBlock ps with
          | none => ⟨found.reverse, some (.unclosed name), p :: ps⟩
          | some (body, inside, rest) =>
            have := closeBlock_length h
            go (.block ⟨name, p.inside, body, inside⟩ :: found) rest
        else ⟨found.reverse, some (.invalidName name), p :: ps⟩
  termination_by ps.length

namespace Outline

/-- What is before the block that is not well formed, or everything. -/
def pieces (o : Outline) : List Piece :=
  o.segments.flatMap Segment.pieces

def kept (o : Outline) : List Piece :=
  o.segments.filterMap Segment.keptPiece

def blocks (o : Outline) : List Block :=
  o.segments.filterMap Segment.asBlock

end Outline

theorem outline_go_pieces (found : List Segment) (ps : List Piece) :
    (outline.go found ps).pieces ++ (outline.go found ps).rest =
      found.reverse.flatMap Segment.pieces ++ ps := by
  fun_induction outline.go found ps with
  | case1 found => simp [Outline.pieces]
  | case2 found p ps hn ih => rw [ih]; simp [Segment.pieces]
  | case3 => simp [Outline.pieces]
  | case4 found p ps name hn hd body inside rest hc _ ih =>
    have hp : p = .opening p.inside := by
      cases p <;> simp_all [blockName?, Piece.inside]
    rw [ih, closeBlock_append hc]
    simp [Segment.pieces, Block.pieces, ← hp]
  | case5 => simp [Outline.pieces]

/-- No piece is lost in the outline, and none moves. -/
theorem outline_pieces (ps : List Piece) : (outline ps).pieces ++ (outline ps).rest = ps := by
  rw [outline, outline_go_pieces]; rfl

end InlineComponents
