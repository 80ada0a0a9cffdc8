import InlineComponents.Bisection

namespace InlineComponents

/-- A finite binary64 number: `mantissa * 2 ^ exponent`, negated if `negative`. -/
structure Binary64 where
  negative : Bool
  mantissa : Nat
  exponent : Int
  deriving DecidableEq, Repr

/-- The number with these bits; infinities and NaN are none of them. -/
def Binary64.ofBits? (bits : UInt64) : Option Binary64 :=
  let n := bits.toNat
  let negative : Bool := n / Nat.pow 2 63 = 1
  let biased : Nat := n / Nat.pow 2 52 % Nat.pow 2 11
  let fraction : Nat := n % Nat.pow 2 52
  if biased = Nat.pow 2 11 - 1 then none
  else if biased = 0 then some ⟨negative, fraction, -1074⟩
  else some ⟨negative, Nat.pow 2 52 + fraction, (biased : Int) - 1075⟩

/-- A decimal `digits * 10 ^ exponent`. -/
structure Decimal where
  digits : Nat
  exponent : Int
  deriving DecidableEq, Repr

/-- The exact ratio `num / den` of a positive number in quarters of its last place, and its two
neighbours' midpoints in the same unit. Below a power of two the distance is half as long. -/
structure Rounding where
  value : Nat
  low : Nat
  high : Nat
  closed : Bool
  num : Nat
  den : Nat

def Binary64.rounding (x : Binary64) : Rounding :=
  let m := x.mantissa
  let narrow := m = Nat.pow 2 52 && x.exponent > -1074
  { value := 4 * m
    low := if narrow then 4 * m - 1 else 4 * m - 2
    high := 4 * m + 2
    closed := m % 2 = 0
    num := Nat.pow 2 (x.exponent - 2).toNat
    den := Nat.pow 2 (2 - x.exponent).toNat }

/-- A power of ten below every positive binary64 number. -/
def lowestPower : Int := -330

/-- Whether `10 ^ e ≤ num / den`. -/
def reaches (num den : Nat) (e : Int) : Bool :=
  Nat.pow 10 e.toNat * den ≤ num * Nat.pow 10 (-e).toNat

/-- The `k` with `10 ^ (k - 1) ≤ num / den < 10 ^ k`: one more than the last power of ten that the
number reaches. -/
def decimalPoint (num den : Nat) : Int :=
  lowestPower + turningPoint (fun i => reaches num den (lowestPower + i)) 700

/-- The point of the grid `10 ^ e` that reads back as the number: of two, the nearer one, and of
two equally near the even one. A point `a` and a bound `b` are compared as `a * unit` and
`b * scale`. -/
def Rounding.gridPoint? (r : Rounding) (e : Int) : Option Nat :=
  let unit := r.den * Nat.pow 10 e.toNat
  let scale := r.num * Nat.pow 10 (-e).toNat
  let below := r.value * scale / unit
  let above := below + 1
  let fits (a : Nat) : Bool :=
    let lo := compare (a * unit) (r.low * scale)
    let hi := compare (a * unit) (r.high * scale)
    (lo == .gt || (r.closed && lo == .eq)) && (hi == .lt || (r.closed && hi == .eq))
  match fits below && below ≠ 0, fits above with
  | true, true =>
    match compare ((below + above) * unit) (2 * r.value * scale) with
    | .gt => some below
    | .lt => some above
    | .eq => some (if below % 2 = 0 then below else above)
  | true, false => some below
  | false, true => some above
  | false, false => none

def dropZeros (d : Decimal) : Decimal :=
  go d 400
where
  go (d : Decimal) : Nat → Decimal
    | 0 => d
    | fuel + 1 =>
      if d.digits ≠ 0 && d.digits % 10 = 0 then go ⟨d.digits / 10, d.exponent + 1⟩ fuel else d

/-- The decimal with the fewest digits that reads back as the positive number. A grid of more digits
has every point of one with fewer, so the first grid with such a point is found by halving. -/
def Binary64.shortest (x : Binary64) : Decimal :=
  let r := x.rounding
  let point := decimalPoint (r.value * r.num) r.den
  let grid (digits : Nat) : Int := point - digits
  let fewer := turningPoint (fun i => (r.gridPoint? (grid (i + 1))).isNone) 17
  match r.gridPoint? (grid (fewer + 1)) with
  | some a => dropZeros ⟨a, grid (fewer + 1)⟩
  | none => ⟨r.value * r.num / r.den, 0⟩

end InlineComponents
