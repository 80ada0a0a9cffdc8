import InlineComponents.Text.Blank
import InlineComponents.Text.Cut

namespace InlineComponents

/-- A path is kept exactly as it was written; its meaning is its list of components. -/
structure Path where
  text : String
  deriving DecidableEq, Repr, Inhabited

/-- What a path walks through: the root, the directory it starts in, a parent, or a named entry. -/
inductive PathPart where
  | root
  | here
  | up
  | name (text : String)
  deriving DecidableEq, Repr

namespace Path

/-- An empty segment or a dot adds nothing to a path. -/
def isIdle (segment : List Char) : Bool :=
  segment = [] || segment = ['.']

/-- A path text as its anchor (`/`, a leading `.`, or nothing) and what follows it. -/
def anchor : List Char → List Char × List Char
  | '/' :: rest => (['/'], rest)
  | ['.'] => (['.'], [])
  | '.' :: '/' :: rest => (['.'], '/' :: rest)
  | s => ([], s)

/-- The anchor and the segments after it, idle ones at the end left out. -/
def split (p : Path) : List Char × List (List Char) :=
  let (lead, body) := anchor p.text.toList
  (lead, dropTail isIdle (splitAll '/' body))

def glue (lead : List Char) (segments : List (List Char)) : String :=
  String.ofList (lead ++ joinAll '/' segments)

def segmentPart (segment : List Char) : PathPart :=
  if segment = ['.', '.'] then .up else .name (String.ofList segment)

/-- Repeated slashes, dots that are not leading and slashes at the end have no component. -/
def parts (p : Path) : List PathPart :=
  let (lead, segments) := p.split
  let start : List PathPart :=
    if lead = ['/'] then [.root] else if lead = ['.'] then [.here] else []
  start ++ (segments.filter fun s => !isIdle s).map segmentPart

/-- An absolute path replaces what it is joined to. -/
def join (p : Path) (name : String) : Path :=
  if name.startsWith '/' then ⟨name⟩
  else if p.text.isEmpty || p.text.endsWith '/' then ⟨p.text ++ name⟩
  else ⟨p.text ++ "/" ++ name⟩

end Path

end InlineComponents
