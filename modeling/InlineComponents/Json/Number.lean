import InlineComponents.Text.Shortest

namespace InlineComponents

/-- A number of a JSON text: an integer of at most 64 bits, or a finite binary64 number given by
its bits. -/
inductive Number where
  | int (value : Int)
  | real (bits : UInt64)
  deriving DecidableEq, Repr

/-- The digits of a decimal as a real number is written: positional from `10 ^ -5` up to below
`10 ^ 16`, with a digit on both sides of the point, and with a signed exponent elsewhere. -/
def Decimal.text (d : Decimal) : String :=
  let digits := Nat.toDigits 10 d.digits
  let count : Int := digits.length
  let point : Int := count + d.exponent
  let zeros (n : Int) : List Char := List.replicate n.toNat '0'
  if 0 ≤ d.exponent && point ≤ 16 then
    String.ofList (digits ++ zeros d.exponent ++ ['.', '0'])
  else if 0 < point && point ≤ 16 then
    String.ofList (digits.take point.toNat ++ '.' :: digits.drop point.toNat)
  else if -5 < point && point ≤ 0 then
    String.ofList ('0' :: '.' :: zeros (-point) ++ digits)
  else
    let exponent := (if 0 < point then "e+" else "e") ++ toString (point - 1)
    match digits with
    | [digit] => String.singleton digit ++ exponent
    | first :: others => String.ofList (first :: '.' :: others) ++ exponent
    | [] => exponent

def Binary64.text (x : Binary64) : String :=
  let unsigned := if x.mantissa = 0 then "0.0" else x.shortest.text
  if x.negative then "-" ++ unsigned else unsigned

def Number.text : Number → String
  | .int value => toString value
  | .real bits =>
    match Binary64.ofBits? bits with
    | some x => x.text
    | none => "null"

end InlineComponents
