import InlineComponents.Json.Numeral

namespace InlineComponents

/-- How many lists and objects may be open at once, less one. -/
def maxDepth : Nat := 128

/-- After the first item of a list or field of an object, a comma begins the next one. -/
def nextItem (first : Bool) (s : List Char) : Except JsonFault (Option (List Char)) :=
  match dropJsonBlanks s with
  | [] => .error .endInList
  | c :: cs =>
    if c = ']' then .ok none
    else if first then .ok (some (c :: cs))
    else if c = ',' then
      match dropJsonBlanks cs with
      | [] => .error .endInValue
      | d :: ds => if d = ']' then .error .trailingComma else .ok (some (d :: ds))
    else .error .noCommaInList

/-- The text after the opening quote of the next key, unless the object ends. -/
def nextKey (first : Bool) (s : List Char) : Except JsonFault (Option (List Char)) :=
  match dropJsonBlanks s with
  | [] => .error .endInObject
  | c :: cs =>
    if c = '}' then .ok none
    else if first then if c = '"' then .ok (some cs) else .error .keyNotString
    else if c = ',' then
      match dropJsonBlanks cs with
      | [] => .error .endInValue
      | d :: ds =>
        if d = '"' then .ok (some ds)
        else if d = '}' then .error .trailingComma
        else .error .keyNotString
    else .error .noCommaInObject

def readColon (s : List Char) : Except JsonFault (List Char) :=
  match dropJsonBlanks s with
  | [] => .error .endInObject
  | c :: cs => if c = ':' then .ok cs else .error .noColon

/-- The items of a list after its opening bracket, each read by `read`. Every item takes at least
one of the characters of `room`, which holds the whole text. -/
def readItems (read : List Char → Except JsonFault (Json × List Char)) (items : List Json)
    (s room : List Char) : Except JsonFault (List Json × List Char) :=
  match room with
  | [] => .error .endInList
  | _ :: room => do
    match ← nextItem items.isEmpty s with
    | none => pure (items.reverse, (dropJsonBlanks s).drop 1)
    | some s =>
      let (item, rest) ← read s
      readItems read (item :: items) rest room

/-- The fields of an object after its opening brace, in the same way. -/
def readFields (read : List Char → Except JsonFault (Json × List Char)) (first : Bool)
    (fields : Fields) (s room : List Char) : Except JsonFault (Fields × List Char) :=
  match room with
  | [] => .error .endInObject
  | _ :: room => do
    match ← nextKey first s with
    | none => pure (fields, (dropJsonBlanks s).drop 1)
    | some s =>
      let (key, rest) ← readString s
      let rest ← readColon rest
      let (value, rest) ← read rest
      readFields read false (fields.put key value) rest room

/-- What a scalar or a container begins with. -/
inductive Start where
  | word (letters : List Char) (value : Json)
  | numeral (negative : Bool)
  | string
  | list
  | object
  | nothing

def startOf (c : Char) : Start :=
  if c = 'n' then .word ['u', 'l', 'l'] .null
  else if c = 't' then .word ['r', 'u', 'e'] (.bool true)
  else if c = 'f' then .word ['a', 'l', 's', 'e'] (.bool false)
  else if c = '-' then .numeral true
  else if isDigit c then .numeral false
  else if c = '"' then .string
  else if c = '[' then .list
  else if c = '{' then .object
  else .nothing

/-- A value, and the text after it. The depth counts down over open lists and objects. -/
def readValue (depth : Nat) (s : List Char) : Except JsonFault (Json × List Char) :=
  match dropJsonBlanks s with
  | [] => .error .endInValue
  | c :: cs =>
    match startOf c, depth with
    | .word letters value, _ => do pure (value, ← readWord letters cs)
    | .numeral true, _ => do
      let (value, rest) ← readNumber true cs
      pure (.number value, rest)
    | .numeral false, _ => do
      let (value, rest) ← readNumber false (c :: cs)
      pure (.number value, rest)
    | .string, _ => do
      let (text, rest) ← readString cs
      pure (.string text, rest)
    | .list, depth + 2 => do
      let (items, rest) ← readItems (readValue (depth + 1)) [] cs cs
      pure (.array items, rest)
    | .object, depth + 2 => do
      let (fields, rest) ← readFields (readValue (depth + 1)) true [] cs cs
      pure (.object fields, rest)
    | .list, _ => .error .tooDeep
    | .object, _ => .error .tooDeep
    | .nothing, _ => .error .noValue

/-- Nothing but blanks may follow. -/
def readEnd (s : List Char) : Except JsonFault Unit :=
  if dropJsonBlanks s = [] then .ok () else .error .trailingCharacters

/-- The value that a whole text is. -/
def Json.read (text : String) : Except JsonFault Json := do
  let (value, rest) ← readValue maxDepth text.toList
  readEnd rest
  pure value

end InlineComponents
