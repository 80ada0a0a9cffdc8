namespace InlineComponents

abbrev ElementName : Type := String

/-- The elements that never have a closing tag. They are known by their names in any case of ASCII
letters. -/
def isVoid (name : ElementName) : Bool :=
  match String.ofList (name.toList.map Char.toLower) with
  | "area" | "base" | "br" | "col" | "embed" | "hr" | "img" | "input" | "link" | "meta" | "param"
  | "source" | "track" | "wbr" => true
  | _ => false

/-- The elements that end an open one whose closing tag is left out. -/
def endedBy (current : ElementName) : List ElementName :=
  match current with
  | "li" => ["li"]
  | "dt" | "dd" => ["dt", "dd"]
  | "p" =>
    ["address", "article", "aside", "blockquote", "div", "dl", "fieldset", "footer", "form", "h1",
      "h2", "h3", "h4", "h5", "h6", "header", "hgroup", "hr", "main", "menu", "nav", "ol", "p",
      "pre", "section", "table", "ul"]
  | "rt" | "rp" => ["rt", "rp"]
  | "optgroup" => ["optgroup"]
  | "option" => ["option", "optgroup"]
  | "thead" | "tbody" => ["tbody", "tfoot"]
  | "tfoot" => ["tbody"]
  | "tr" => ["tr", "tbody"]
  | "td" | "th" => ["td", "th", "tr"]
  | _ => []

/-- An open element, with the names of all that are open where it is, itself among them. Each name
is there once, however often it is open. -/
structure OpenElement where
  name : ElementName
  within : List ElementName
  deriving DecidableEq, Repr

/-- The elements that are open, innermost first. -/
abbrev OpenElements : Type := List OpenElement

namespace OpenElements

/-- The names that are open, each once. -/
def names : OpenElements → List ElementName
  | [] => []
  | innermost :: _ => innermost.within

def isOpen (opened : OpenElements) (name : ElementName) : Bool :=
  opened.names.contains name

/-- One more element, inside all that are open. -/
def push (opened : OpenElements) (name : ElementName) : OpenElements :=
  ⟨name, if opened.isOpen name then opened.names else name :: opened.names⟩ :: opened

/-- The innermost element ends if the next one ends it. -/
def endOmitted (opened : OpenElements) (next : ElementName) : OpenElements :=
  match opened with
  | [] => []
  | current :: outer => if (endedBy current.name).contains next then outer else current :: outer

/-- A closing tag ends the innermost element of its name and all that are open inside it; without
such an element it ends nothing. -/
def close (opened : OpenElements) (name : ElementName) : OpenElements :=
  if opened.isOpen name then (opened.dropWhile (·.name != name)).tail else opened

@[simp] theorem isOpen_push (opened : OpenElements) (name other : ElementName) :
    (opened.push name).isOpen other = (other == name || opened.isOpen other) := by
  show (if opened.isOpen name then opened.names else name :: opened.names).contains other = _
  split
  · next h =>
    by_cases he : other = name
    · subst he; simpa [isOpen] using h
    · simp [isOpen, he]
  · rfl

/-- A closing tag takes the element back that was opened last. -/
@[simp] theorem close_push (opened : OpenElements) (name : ElementName) :
    (opened.push name).close name = opened := by
  rw [close, if_pos (by simp)]
  simp [push]

end OpenElements

end InlineComponents
