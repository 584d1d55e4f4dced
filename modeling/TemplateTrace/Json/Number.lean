import TemplateTrace.Decimal

/-!
# JSON numbers

A number is an integer that fits 64 bits, signed or unsigned, or else a double. A double comes from
the digits of a literal in two rounded steps: the significand, cut off where it would pass 64 bits,
and then a power of ten.
-/

namespace TemplateTrace.Json

inductive Number where
  | integer (value : Int)
  | float (isNegative : Bool) (magnitude : Decimal.Double)
  deriving DecidableEq, Repr

namespace Number

/-- Doubles are written in place from order -5 to 15, and with a signed power of ten otherwise. -/
def style : Decimal.Style := ⟨-5, 15⟩

def text : Number → String
  | integer value => toString value
  | float isNegative magnitude =>
    (if isNegative then "-" else "") ++
      String.ofList (Decimal.write style (Decimal.shortest magnitude))

/-- The powers of ten up to this one are doubles. -/
def greatestPower : Nat := 308

def powerOfTen (power : Nat) : Decimal.Double := .ofNat (Decimal.tenTo power)

/-- A double divided by a power of ten, in steps of at most the greatest power that is a double. -/
def shrink (x : Decimal.Double) (power : Nat) : Decimal.Double :=
  if power ≤ greatestPower then x.div (powerOfTen power)
  else if x.isZero then x
  else shrink (x.div (powerOfTen greatestPower)) (power - greatestPower)
termination_by power
decreasing_by simp only [greatestPower] at *; omega

/-- The double for a significand times a power of ten, if it is not past the largest one. -/
def scale? (significand : Nat) (exponent : Int) : Option Decimal.Double :=
  let x := Decimal.Double.ofNat significand
  match exponent with
  | .ofNat power =>
    if power ≤ greatestPower then x.mul? (powerOfTen power)
    else if x.isZero then some x
    else none
  | .negSucc power => some (shrink x (power + 1))

def digitValue (c : Char) : Nat := c.toNat - '0'.toNat

/-- Takes digits into a significand as long as it stays below 2^64, and returns it with the digits
that were left over. -/
def gather (significand : Nat) : List Char → Nat × List Char
  | [] => (significand, [])
  | c :: rest =>
    if significand * 10 + digitValue c < UInt64.size then
      gather (significand * 10 + digitValue c) rest
    else (significand, c :: rest)

structure Literal where
  isNegative : Bool
  whole : List Char
  fraction : Option (List Char)
  exponent : Option (Bool × List Char)
  deriving DecidableEq, Repr

/-- Exponents of literals stay below this. -/
def exponentLimit : Nat := UInt32.size / 2

/-- The value of exponent digits, or none past the limit. -/
def exponentValue? (digits : List Char) : Option Nat :=
  let value := digits.foldl (fun value c => value * 10 + digitValue c) 0
  if value < exponentLimit then some value else none

/-- The number of a literal, or none if it is too large for a double. A literal without point and
exponent is an integer if it fits; a minus sign before zero makes a double. -/
def ofLiteral? (literal : Literal) : Option Number :=
  let (whole, dropped) := gather 0 literal.whole
  if literal.fraction.isNone ∧ literal.exponent.isNone ∧ dropped = [] then
    if !literal.isNegative then some (.integer whole)
    else if 0 < whole ∧ 2 * whole ≤ UInt64.size then some (.integer (-(whole : Int)))
    else some (.float true (.ofNat whole))
  else
    let fraction := literal.fraction.getD []
    let (significand, unread) := gather whole fraction
    let shift : Int := (dropped.length : Int) - ((fraction.length - unread.length : Nat) : Int)
    let magnitude :=
      match literal.exponent with
      | none => scale? significand shift
      | some (isDown, digits) =>
        match exponentValue? digits with
        | some power => scale? significand (if isDown then shift - power else shift + power)
        | none => if significand = 0 ∨ isDown then some .zero else none
    magnitude.map (.float literal.isNegative)

end Number

end TemplateTrace.Json
