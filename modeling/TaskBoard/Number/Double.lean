/-!
Binary floating-point numbers of 64 bits, held as their bit pattern. A finite number is a whole
count of units, `count · 2 ^ scale`; reading a decimal, adding and multiplying compute the exact ratio
and round it once, to the nearest number and a tie to the even count.
-/

namespace TaskBoard

structure Double where
  bits : UInt64
  deriving DecidableEq, Repr, Inhabited

namespace Double

def exponentField (x : Double) : Nat := (x.bits.toNat / 1 <<< 52) % 1 <<< 11

def fraction (x : Double) : Nat := x.bits.toNat % 1 <<< 52

def negative (x : Double) : Bool := x.bits.toNat / 1 <<< 63 == 1

def isNaN (x : Double) : Bool := x.exponentField == 2047 && x.fraction != 0

def isInfinite (x : Double) : Bool := x.exponentField == 2047 && x.fraction == 0

def isFinite (x : Double) : Bool := x.exponentField != 2047

/-- How many units a finite number holds, without its sign. -/
def count (x : Double) : Nat :=
  if x.exponentField = 0 then x.fraction else x.fraction + 1 <<< 52

/-- The power of two that one unit stands for. -/
def scale (x : Double) : Int :=
  if x.exponentField = 0 then -1074 else (x.exponentField : Int) - 1075

def isZero (x : Double) : Bool := x.isFinite && x.count == 0

def powerOfTwo (n : Int) : Nat × Nat :=
  if n < 0 then (1, 1 <<< (-n).toNat) else (1 <<< n.toNat, 1)

def powerOfTen (n : Int) : Nat × Nat :=
  if n < 0 then (1, Nat.pow 10 (-n).toNat) else (Nat.pow 10 n.toNat, 1)

/-- The magnitude of a finite number as a ratio. -/
def ratio (x : Double) : Nat × Nat :=
  let (upper, lower) := powerOfTwo x.scale
  (x.count * upper, lower)

/-- The quotient rounded to the nearest whole number, a tie to the even one. -/
def divideNearest (upper lower : Nat) : Nat :=
  let whole := upper / lower
  let rest := upper % lower
  if 2 * rest < lower then whole
  else if lower < 2 * rest then whole + 1
  else if whole % 2 = 0 then whole else whole + 1

def infinityBits : Nat := 2047 * 1 <<< 52

def withSign (minus : Bool) (magnitude : Nat) : Double :=
  ⟨UInt64.ofNat (if minus then magnitude + 1 <<< 63 else magnitude)⟩

/-- The number nearest to a ratio. Counting units from the smallest binade on makes the pattern of a
number the next whole number after that of its predecessor, so a carry needs no case of its own. -/
def ofRatio (minus : Bool) (upper lower : Nat) : Double :=
  if upper = 0 ∨ lower = 0 then withSign minus 0
  else
    let guess : Int := (upper.log2 : Int) - lower.log2
    let (top, bottom) := powerOfTwo guess
    let leading := if upper * bottom < lower * top then guess - 1 else guess
    let unit := max (leading - 52) (-1074)
    let (top, bottom) := powerOfTwo unit
    let units := divideNearest (upper * bottom) (lower * top)
    let pattern := (unit + 1074).toNat * 1 <<< 52 + units
    withSign minus (min pattern infinityBits)

def infinity (minus : Bool) : Double := withSign minus infinityBits

def nan : Double := ⟨0x7ff8000000000000⟩

/-- Values that are no numbers, told apart by a mark. -/
def markedNan (mark : Nat) : Double := ⟨UInt64.ofNat (0x7ff8000000000000 + mark % 1 <<< 50)⟩

def ofDecimal (minus : Bool) (digits : Nat) (exponent : Int) : Double :=
  let size : Int := (Nat.toDigits 10 digits).length
  if digits = 0 then withSign minus 0
  else if 400 < exponent + size then infinity minus
  else if exponent + size < -400 then withSign minus 0
  else
    let (upper, lower) := powerOfTen exponent
    ofRatio minus (digits * upper) lower

def ofInt (n : Int) : Double := ofRatio (n < 0) n.natAbs 1

def negate (x : Double) : Double :=
  withSign (!x.negative) (x.bits.toNat % 1 <<< 63)

def mul (x y : Double) : Double :=
  let minus := x.negative != y.negative
  if x.isNaN || y.isNaN then nan
  else if x.isInfinite || y.isInfinite then
    if x.isZero || y.isZero then nan else infinity minus
  else
    let (upper, lower) := x.ratio
    let (upper', lower') := y.ratio
    ofRatio minus (upper * upper') (lower * lower')

def add (x y : Double) : Double :=
  if x.isNaN || y.isNaN then nan
  else if x.isInfinite then
    if y.isInfinite && x.negative != y.negative then nan else x
  else if y.isInfinite then y
  else
    let (upper, lower) := x.ratio
    let (upper', lower') := y.ratio
    let signed (x : Double) (n : Nat) : Int := if x.negative then -(n : Int) else n
    let total := signed x (upper * lower') + signed y (upper' * lower)
    if total = 0 then withSign (x.negative && y.negative) 0
    else ofRatio (total < 0) total.natAbs (lower * lower')

/-- The whole part of a finite number, cut toward zero. -/
def truncate (x : Double) : Int :=
  let (upper, lower) := x.ratio
  let whole : Int := (upper / lower : Nat)
  if x.negative then -whole else whole

/-- The number as an integer, when it is one. -/
def toInt? (x : Double) : Option Int :=
  if x.isFinite then
    let (upper, lower) := x.ratio
    if upper % lower = 0 then some x.truncate else none
  else none

end Double

end TaskBoard
