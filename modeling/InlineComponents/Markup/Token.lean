import InlineComponents.Markup.Braces
import InlineComponents.Markup.Element

namespace InlineComponents

/-- What a source is made of for the search of its scripts: scripts with their content up to
their end, other tags with the name and the inside after it, and everything else as text. Text
are also comments, expressions and styles. -/
inductive Token where
  | text (chars : List Char)
  | script (inside content : List Char)
  | unclosedScript (chars : List Char)
  | opening (name inside : List Char)
  | closing (name inside : List Char)
  deriving DecidableEq, Repr

def scriptOpening : List Char := '<' :: RawTag.script.name

def styleOpening : List Char := '<' :: RawTag.style.name

/-- The token as it is written. -/
def Token.render : Token → List Char
  | .text chars | .unclosedScript chars => chars
  | .script inside content => scriptOpening ++ inside ++ '>' :: content
  | .opening name inside => '<' :: name ++ inside ++ ['>']
  | .closing name inside => '<' :: '/' :: name ++ inside ++ ['>']

/-- The tokens as they are written, one after the other. -/
def tokensText (tokens : List Token) : List Char :=
  tokens.foldr (fun token rest => token.render ++ rest) []

/-- The name that begins a tag's text. -/
def tagName (s : List Char) : List Char :=
  s.takeWhile fun c => !isBoundary c

def afterName (s : List Char) : List Char :=
  s.dropWhile fun c => !isBoundary c

/-- A tag that ends with a slash opens nothing. -/
def endsWithSlash (inside : List Char) : Bool :=
  inside.getLast? = some '/'

def beginsWithLetter (s : List Char) : Bool :=
  s.head?.any Char.isAlpha

/-- The first token of `</` and the text `s` after it, which begins with a letter. -/
def closingToken (s : List Char) : Token × List Char :=
  match closeTag s with
  | none => (.text ('<' :: '/' :: s), [])
  | some (inner, rest) => (.closing (tagName inner) (afterName inner), rest)

/-- The first token of `<` and the text `s` after it, which begins with a letter. -/
def openingToken (s : List Char) : Token × List Char :=
  match closeTag (afterName s) with
  | none => (.text ('<' :: s), [])
  | some (inside, rest) => (.opening (tagName s) inside, rest)

/-- The first token of a text that begins with the opening tag of a raw element. -/
def rawToken (raw : RawTag) (s : List Char) : Token × List Char :=
  match raw, closeAngle (s.drop ('<' :: raw.name).length) with
  | .script, none => (.unclosedScript s, [])
  | .style, none => (.text s, [])
  | .script, some (inside, rest) =>
    (.script inside (closeRaw .script rest).1, (closeRaw .script rest).2)
  | .style, some (inside, rest) =>
    (.text (styleOpening ++ inside ++ '>' :: (closeRaw .style rest).1), (closeRaw .style rest).2)

/-- The first token of `<` and the text `cs` after it. A comment or a tag that is not closed ends
the markup: the rest is text. -/
def angleToken (cs : List Char) : Token × List Char :=
  let s := '<' :: cs
  if commentStart.isPrefixOf s then
    match closeComment (s.drop commentStart.length) with
    | none => (.text s, [])
    | some (said, rest) => (.text (commentStart ++ said ++ commentEnd), rest)
  else if cs.head? = some '/' && beginsWithLetter (cs.drop 1) then closingToken (cs.drop 1)
  else
    match rawTag? s with
    | some raw => rawToken raw s
    | none => if beginsWithLetter cs then openingToken cs else (.text ['<'], cs)

/-- What is neither a tag nor an expression. -/
def isPlain (c : Char) : Bool :=
  c ≠ '<' && c ≠ '{'

/-- The first token of a text, and the text after it. -/
def nextToken (s : List Char) : Token × List Char :=
  match s with
  | [] => (.text [], [])
  | c :: cs =>
    if c = '<' then angleToken cs
    else if c = '{' then
      match closeBrace cs with
      | none => (.text (c :: cs), [])
      | some (said, rest) => (.text (c :: said ++ ['}']), rest)
    else (.text ((c :: cs).takeWhile isPlain), (c :: cs).dropWhile isPlain)

end InlineComponents
