import InlineComponents.Json.Scalar

namespace InlineComponents

/-- Digits added to a significand as long as it fits 64 bits: the significand, how many digits
were added, and how many were left. -/
def significand (start : Nat) (digits : List Char) : Nat × Nat × Nat :=
  go start 0 digits
where
  go (value added : Nat) : List Char → Nat × Nat × Nat
    | [] => (value, added, 0)
    | c :: cs =>
      let next := value * 10 + digitValue c
      if next < UInt64.size then go next (added + 1) cs else (value, added, (c :: cs).length)

/-- The powers of ten that binary64 has, from `10 ^ 0` to `10 ^ 308`. -/
def powersOfTen : Array Float :=
  Array.ofFn fun n : Fin 309 => Float.ofScientific 1 false n

def greatestPower : Float := 1e308

/-- `significand * 10 ^ exponent` in binary64, for a significand of 64 bits: one multiplication or
division by a power of ten, after divisions by `10 ^ 308` while the exponent is below what a power
can have. -/
def scaleReal (significand : Nat) (exponent : Int) : Option Float :=
  go significand.toUInt64.toFloat exponent 8
where
  go (value : Float) (exponent : Int) : Nat → Option Float
    | 0 => some 0.0
    | fuel + 1 =>
      match powersOfTen[exponent.natAbs]? with
      | some power =>
        if exponent < 0 then some (value / power)
        else if (value * power).isInf then none else some (value * power)
      | none =>
        if value == 0.0 then some value
        else if exponent ≥ 0 then none
        else go (value / greatestPower) (exponent + 308) fuel

def realNumber (negative : Bool) (value : Float) : Number :=
  .real (if negative then (-value).toBits else value.toBits)

/-- The number with that significand and exponent; without fraction and exponent an integer, if
it fits 64 bits and is not a negative zero. -/
def scaled (negative : Bool) (significand : Nat) (exponent : Int) :
    Except JsonFault Number :=
  match scaleReal significand exponent with
  | some value => .ok (realNumber negative value)
  | none => .error .numberOutOfRange

def wholeNumber (negative : Bool) (value : Nat) : Number :=
  if !negative then .int value
  else if value = 0 || Nat.pow 2 63 < value then realNumber true value.toUInt64.toFloat
  else .int (-value)

/-- An exponent's sign and digits after its letter. -/
def readExponent (s : List Char) : Except JsonFault (Bool × List Char × List Char) :=
  let (below, s) : Bool × List Char :=
    match s with
    | '+' :: rest => (false, rest)
    | '-' :: rest => (true, rest)
    | s => (false, s)
  match s with
  | [] => .error .endInValue
  | c :: cs =>
    if isDigit c then .ok (below, (c :: cs).takeWhile isDigit, (c :: cs).dropWhile isDigit)
    else .error .malformedNumber

def isExponentMark (c : Char) : Bool :=
  c = 'e' || c = 'E'

/-- One more than the greatest size of an exponent. -/
def exponentLimit : Nat := Nat.pow 2 31

/-- The number that the digits of an exponent are, as long as it is below the limit. -/
def exponentSize (digits : List Char) : Nat :=
  digits.foldl (fun n c => if n < exponentLimit then n * 10 + digitValue c else n) 0

def withExponent (negative : Bool) (significand : Nat) (exponent : Int) (s : List Char) :
    Except JsonFault (Number × List Char) := do
  let (below, digits, rest) ← readExponent s
  let size := exponentSize digits
  if size < exponentLimit then
    pure (← scaled negative significand (if below then exponent - size else exponent + size), rest)
  else if significand ≠ 0 && !below then throw .numberOutOfRange
  else pure (realNumber negative 0.0, rest)

/-- What follows the integer digits of a number that is not an integer. -/
def readFraction (negative : Bool) (whole : Nat) (exponent : Int) (s : List Char) :
    Except JsonFault (Number × List Char) := do
  match s with
  | '.' :: rest =>
    let digits := rest.takeWhile isDigit
    let rest := rest.dropWhile isDigit
    if digits = [] then throw (if rest = [] then .endInValue else .malformedNumber)
    let (value, added, _) := significand whole digits
    match rest with
    | c :: after =>
      if isExponentMark c then withExponent negative value (exponent - added) after
      else pure (← scaled negative value (exponent - added), rest)
    | [] => pure (← scaled negative value (exponent - added), [])
  | c :: rest =>
    if isExponentMark c then withExponent negative whole exponent rest
    else pure (← scaled negative whole exponent, c :: rest)
  | [] => pure (← scaled negative whole exponent, [])

def beginsFraction (s : List Char) : Bool :=
  s.head?.any fun c => c = '.' || isExponentMark c

/-- A number after its sign, and the text after it. -/
def readNumber (negative : Bool) (s : List Char) : Except JsonFault (Number × List Char) :=
  match s with
  | [] => .error .endInValue
  | c :: cs =>
    if !isDigit c then .error .malformedNumber
    else if c = '0' && cs.head?.any isDigit then .error .malformedNumber
    else
      let digits := (c :: cs).takeWhile isDigit
      let rest := (c :: cs).dropWhile isDigit
      let (value, _, left) := significand 0 digits
      if left ≠ 0 || beginsFraction rest then readFraction negative value left rest
      else .ok (wholeNumber negative value, rest)

end InlineComponents
