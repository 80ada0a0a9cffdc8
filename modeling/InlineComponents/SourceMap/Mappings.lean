import InlineComponents.Text.Cut

namespace InlineComponents

/-- The value of a base-64 digit; any other character counts as the last digit. -/
def base64Value (c : Char) : Nat :=
  if 'A' ≤ c && c ≤ 'Z' then c.toNat - 65
  else if 'a' ≤ c && c ≤ 'z' then c.toNat - 71
  else if '0' ≤ c && c ≤ '9' then c.toNat + 4
  else if c = '+' then 62
  else 63

/-- The digits of a segment, one for each byte. -/
def base64Digits (segment : List Char) : List Nat :=
  segment.flatMap fun c => List.replicate c.utf8Size (base64Value c)

/-- The lowest of 64 bits is the sign. -/
def signed (n : Nat) : Int :=
  let half := Int.bmod n UInt64.size / 2
  if n % 2 = 0 then half else -half

/-- The numbers of a segment: five bits in a digit, lowest first, as long as the sixth is set.
No number has more than thirteen digits, and none may be left open. -/
def segmentNumbers (segment : List Char) : Option (List Int) :=
  go 0 0 [] (base64Digits segment)
where
  go (value shift : Nat) (numbers : List Int) : List Nat → Option (List Int)
    | [] => if shift = 0 then some numbers.reverse else none
    | digit :: digits =>
      let value := value + (digit % 32) <<< shift
      if 64 ≤ shift then none
      else if digit < 32 then go 0 0 (signed value :: numbers) digits
      else go value (shift + 5) numbers digits

/-- What the last segment was about: a column of the compiled code, and, from the last segments
that named them, a source, a line and a column there, and a name. -/
structure MapCursor where
  column : Int
  source : Int
  line : Int
  sourceColumn : Int
  name : Int
  deriving DecidableEq, Repr

namespace MapCursor

def start : MapCursor :=
  ⟨0, 0, 0, 0, 0⟩

/-- A position moved; it is kept in 32 bits, and none lies before the first. -/
def moved (position distance : Int) : Option Int :=
  if 0 ≤ position + distance then some ((position + distance) % UInt32.size) else none

/-- A source moved, which stays among `count` sources. -/
def chosen (count : Nat) (source distance : Int) : Option Int :=
  if 0 ≤ source + distance && source + distance < count then some (source + distance) else none

/-- A name moved, also past either end of 32 bits, which stays among `count` names. -/
def named (count : Nat) (name distance : Int) : Option Int :=
  let moved : Int := (name + distance) % UInt32.size
  if moved < count then some moved else none

/-- The cursor after a segment, which is about the compiled code alone, about a place in a source
too, or about a name there too. -/
def next (cursor : MapCursor) (sources names : Nat) : List Int → Option MapCursor
  | [column] => do pure { cursor with column := ← moved cursor.column column }
  | column :: source :: line :: sourceColumn :: about => do
    let column ← moved cursor.column column
    let source ← chosen sources cursor.source source
    let line ← moved cursor.line line
    let sourceColumn ← moved cursor.sourceColumn sourceColumn
    match about with
    | [] => pure ⟨column, source, line, sourceColumn, cursor.name⟩
    | [name] => pure ⟨column, source, line, sourceColumn, ← named names cursor.name name⟩
    | _ => none
  | _ => none

/-- The cursor after a line of mappings, of which empty segments say nothing. -/
def afterLine (sources names : Nat) (cursor : MapCursor) (line : List Char) : Option MapCursor :=
  ((splitAll ',' line).filter (· ≠ [])).foldlM
    (fun cursor segment => (segmentNumbers segment).bind (cursor.next sources names))
    { cursor with column := 0 }

end MapCursor

/-- Whether mappings can be followed from start to end without leaving the sources and names. -/
def mappingsHold (mappings : String) (sources names : Nat) : Bool :=
  ((splitAll ';' mappings.toList).foldlM (MapCursor.afterLine sources names) .start).isSome

end InlineComponents
