namespace TemplateTrace.Decimal

/-! ## Doubles -/

/-- The non-negative number `mantissa * 2 ^ exponent`. -/
structure Double where
  mantissa : Nat
  exponent : Int
  deriving DecidableEq, Repr

/-- A quotient rounded to the nearest natural number, ties to the even one. -/
def roundQuotient (num den : Nat) : Nat :=
  let quotient := num / den
  let twice := 2 * (num % den)
  if twice < den then quotient
  else if twice = den then quotient + quotient % 2
  else quotient + 1

def twoTo (power : Nat) : Nat := Nat.pow 2 power

def tenTo (power : Nat) : Nat := Nat.pow 10 power

/-- A ratio multiplied by a power of two. -/
def shiftRatio (num den : Nat) : Int → Nat × Nat
  | .ofNat shift => (num * twoTo shift, den)
  | .negSucc shift => (num, den * twoTo (shift + 1))

namespace Double

def zero : Double := ⟨0, 0⟩

/-- The bits of a full mantissa. -/
def precision : Nat := 53

/-- The exponent of the smallest positive double. -/
def leastExponent : Int := -1074

/-- The exponent of the largest doubles. -/
def greatestExponent : Int := 971

def isZero (x : Double) : Bool := x.mantissa == 0

/-- The largest power of two that is at most a positive ratio, by its exponent. -/
def binaryOrder (num den : Nat) : Int :=
  let guess : Int := (num.log2 : Int) - (den.log2 : Int)
  let (low, high) := shiftRatio num den (-guess)
  if high ≤ low then guess else guess - 1

/-- The double nearest to a ratio, or none if it is past the largest one. -/
def ofRatio? (num den : Nat) : Option Double :=
  if num = 0 then some zero
  else
    let exponent := max (binaryOrder num den - (precision - 1)) leastExponent
    let (above, below) := shiftRatio num den (-exponent)
    let mantissa := roundQuotient above below
    let result : Double :=
      if mantissa = twoTo precision then ⟨twoTo (precision - 1), exponent + 1⟩
      else ⟨mantissa, exponent⟩
    if greatestExponent < result.exponent then none else some result

def ratio (x : Double) : Nat × Nat := shiftRatio x.mantissa 1 x.exponent

/-- The nearest double to a product. -/
def mul? (x y : Double) : Option Double :=
  ofRatio? (x.ratio.1 * y.ratio.1) (x.ratio.2 * y.ratio.2)

/-- The nearest double to a quotient; zero if nothing else is near. -/
def div (x y : Double) : Double :=
  (ofRatio? (x.ratio.1 * y.ratio.2) (x.ratio.2 * y.ratio.1)).getD zero

def ofNat (n : Nat) : Double := (ofRatio? n 1).getD zero

end Double

/-! ## Shortest decimals -/

/-- The number `digits * 10 ^ exponent`. -/
structure Scaled where
  digits : Nat
  exponent : Int
  deriving DecidableEq, Repr

/-- Drops zeros at the end of the digits; `limit` bounds how many. -/
def Scaled.strip : Nat → Scaled → Scaled
  | 0, d => d
  | limit + 1, d =>
    if d.digits ≠ 0 ∧ d.digits % 10 = 0 then strip limit ⟨d.digits / 10, d.exponent + 1⟩
    else d

def digitCount (n : Nat) : Nat := (Nat.toDigits 10 n).length

/-- The decimal exponent of a ratio: the largest power of ten that is at most the ratio. A ratio
below one is scaled up by as many powers of ten as bring it to one; a double needs fewer than
400. -/
def decimalOrder (num den : Nat) : Int :=
  if den ≤ num then (digitCount (num / den) : Int) - 1
  else
    match (List.range 400).find? (fun power => den ≤ num * tenTo power) with
    | some power => -(power : Int)
    | none => 0

/-- The numbers that round to a double, over four times its denominator: a distance below it, the
double itself and a distance above it; the ends belong to the interval if `closed`. -/
structure Interval where
  below : Nat
  value : Nat
  above : Nat
  den : Nat
  closed : Bool

/-- The interval of a double. Just above a power of two the next smaller double is only half as
far away as the next larger one. -/
def Interval.ofDouble (x : Double) : Interval :=
  let (unit, den) := shiftRatio 1 1 x.exponent
  let narrow := x.mantissa = twoTo (Double.precision - 1) ∧ Double.leastExponent < x.exponent
  { below := if narrow then unit else 2 * unit
    value := 4 * unit * x.mantissa
    above := 2 * unit
    den := 4 * den
    closed := x.mantissa % 2 = 0 }

/-- How far `digits * 10 ^ exponent` is from the double, and whether it reads back as it. -/
def Interval.test (i : Interval) (d : Scaled) : Bool × Nat :=
  let (candidate, scale) :=
    match d.exponent with
    | .ofNat power => (d.digits * tenTo power * i.den, 1)
    | .negSucc power => (d.digits * i.den, tenTo (power + 1))
  let value := i.value * scale
  let (distance, limit) :=
    if candidate ≤ value then (value - candidate, i.below * scale)
    else (candidate - value, i.above * scale)
  (distance < limit || i.closed && distance == limit, distance)

/-- The neighbour of a double among the multiples of a power of ten that reads back as it. -/
def neighbour? (i : Interval) (exponent : Int) : Option Scaled :=
  let floor :=
    match exponent with
    | .ofNat power => i.value / (i.den * tenTo power)
    | .negSucc power => i.value * tenTo (power + 1) / i.den
  let lower : Scaled := ⟨floor, exponent⟩
  let upper : Scaled := ⟨floor + 1, exponent⟩
  let (lowerReads, lowerDistance) := i.test lower
  let (upperReads, upperDistance) := i.test upper
  if lowerReads && (!upperReads || lowerDistance < upperDistance
      || lowerDistance == upperDistance && floor % 2 == 0) then
    some lower
  else if upperReads then some upper
  else none

/-- The shortest decimal that reads back as a double. Seventeen digits always suffice. -/
def shortest (x : Double) : Scaled :=
  if x.isZero then ⟨0, 0⟩
  else
    let i := Interval.ofDouble x
    let order := decimalOrder x.ratio.1 x.ratio.2
    let found := (List.range 17).findSome? (fun (count : Nat) => neighbour? i (order - count))
    (found.getD ⟨0, 0⟩).strip 20

/-! ## Written decimals -/

/-- The choices of a way to write decimals. -/
structure Style where
  /-- The least order that is written in place. -/
  leastPlain : Int
  /-- The greatest order that is written in place. -/
  greatestPlain : Int

def zeros (count : Nat) : List Char := List.replicate count '0'

/-- A power of ten, its sign always written. -/
def writePower (power : Int) : List Char :=
  'e' :: (if power < 0 then '-' else '+') :: Nat.toDigits 10 power.natAbs

/-- A decimal in place or with a power of ten. A whole number in place keeps one zero after its
point. -/
def write (style : Style) (d : Scaled) : List Char :=
  let digits := Nat.toDigits 10 d.digits
  let order : Int := d.exponent + (digits.length : Int) - 1
  if style.leastPlain ≤ order ∧ order ≤ style.greatestPlain then
    match d.exponent with
    | .ofNat power => digits ++ zeros power ++ ['.', '0']
    | .negSucc power =>
      let places := power + 1
      if places < digits.length then
        digits.take (digits.length - places) ++ '.' :: digits.drop (digits.length - places)
      else
        '0' :: '.' :: zeros (places - digits.length) ++ digits
  else
    match digits with
    | [digit] => digit :: writePower order
    | digit :: others => digit :: '.' :: others ++ writePower order
    | [] => []

end TemplateTrace.Decimal
