import TaskBoard.Number.Double

/-!
The shortest decimal of a floating-point number: of the decimals that read back as the number, one
with the fewest digits, and of those the nearest. `Double.shown` writes it positionally from
`10 ^ -4` up to `10 ^ 16` and with an exponent otherwise.
-/

namespace TaskBoard

namespace Double

def atLeastPower (upper lower : Nat) (power : Int) : Bool :=
  let (top, bottom) := powerOfTen power
  top * lower ≤ upper * bottom

/-- The exponent of the leading decimal digit of a positive ratio. -/
def leadingPower (upper lower : Nat) : Int :=
  let guess := (((upper.log2 : Int) - lower.log2) * 30103).fdiv 100000
  if atLeastPower upper lower (guess + 1) then guess + 1
  else if atLeastPower upper lower guess then guess
  else guess - 1

/-- The decimals of `places` significant digits next to the number, tried for lying in the interval of
all reals that round to it; `quarters` counts in fourth parts of a unit. -/
def nearbyDecimal? (x : Double) (power : Int) (places : Nat) : Option (Nat × Int) :=
  let (unitTop, unitBottom) := powerOfTwo (x.scale - 2)
  let grid := power - (places : Int) + 1
  let (gridTop, gridBottom) := powerOfTen grid
  let quarters := 4 * x.count
  let below := if x.fraction = 0 ∧ 1 < x.exponentField then quarters - 1 else quarters - 2
  let above := quarters + 2
  let closed := x.count % 2 = 0
  let onGrid (n : Nat) : Nat := n * gridTop * unitBottom
  let onUnits (n : Nat) : Nat := n * unitTop * gridBottom
  let inside (n : Nat) : Bool :=
    if closed then onUnits below ≤ onGrid n && onGrid n ≤ onUnits above
    else onUnits below < onGrid n && onGrid n < onUnits above
  let lower := onUnits quarters / (gridTop * unitBottom)
  let upper := lower + 1
  match inside lower, inside upper with
  | false, false => none
  | true, false => some (lower, grid)
  | false, true => some (upper, grid)
  | true, true =>
    let down := onUnits quarters - onGrid lower
    let up := onGrid upper - onUnits quarters
    if down < up ∨ (down = up ∧ lower % 2 = 0) then some (lower, grid) else some (upper, grid)

/-- The digits of the shortest decimal and the power of ten of its last one; 17 digits always suffice. -/
def shortestDecimal (x : Double) : Nat × Int :=
  let (upper, lower) := x.ratio
  let power := leadingPower upper lower
  ((List.range 17).findSome? fun places => nearbyDecimal? x power (places + 1)).getD (0, 0)

/-- Drops zeros at the end of the digits, raising the power of the last digit. -/
def trimZeros : Nat → Nat → Int → Nat × Int
  | 0, digits, power => (digits, power)
  | steps + 1, digits, power =>
    if digits ≠ 0 ∧ digits % 10 = 0 then trimZeros steps (digits / 10) (power + 1) else (digits, power)

def padLeft (width : Nat) (text : String) : String :=
  String.ofList (List.replicate (width - text.length) '0') ++ text

/-- The text of a number whose digits and power are given. -/
def layout (digits : List Char) (power : Int) : String :=
  let point : Int := digits.length + power
  if -4 < point ∧ point ≤ 16 then
    if point ≤ 0 then "0." ++ String.ofList (List.replicate (-point).toNat '0' ++ digits)
    else if (digits.length : Int) ≤ point then
      String.ofList (digits ++ List.replicate (point - digits.length).toNat '0') ++ ".0"
    else String.ofList (digits.take point.toNat) ++ "." ++ String.ofList (digits.drop point.toNat)
  else
    let exponent := point - 1
    let sign := if exponent < 0 then "-" else "+"
    let mantissa := match digits with
      | [] => "0"
      | [d] => String.ofList [d]
      | d :: rest => String.ofList [d] ++ "." ++ String.ofList rest
    mantissa ++ "e" ++ sign ++ padLeft 2 (toString exponent.natAbs)

def shown (x : Double) : String :=
  if x.isNaN then "nan"
  else
    let sign := if x.negative then "-" else ""
    if x.isInfinite then sign ++ "inf"
    else if x.isZero then sign ++ "0.0"
    else
      let (digits, power) := x.shortestDecimal
      let (digits, power) := trimZeros 17 digits power
      sign ++ layout (Nat.toDigits 10 digits) power

end Double

end TaskBoard
