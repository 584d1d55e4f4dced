namespace TemplateTrace.Text

/-! ## Spans -/

def byteLength : List Char → Nat
  | [] => 0
  | c :: rest => c.utf8Size + byteLength rest

/-- The positions from `start` up to, and without, `stop`. -/
structure Span where
  start : Nat
  stop : Nat
  deriving DecidableEq, Repr

namespace Span

/-- The characters of a text at the positions of a span. -/
def slice (span : Span) (text : List Char) : List Char :=
  (text.drop span.start).take (span.stop - span.start)

/-- The number of UTF-8 bytes before a character position. -/
def byteOffset (text : List Char) (position : Nat) : Nat :=
  byteLength (text.take position)

/-- The first byte of a span and the byte just after it. -/
def bytes (span : Span) (text : List Char) : Nat × Nat :=
  (byteOffset text span.start, byteOffset text span.stop)

/-- The empty span at the end of a text. -/
def atEnd (text : List Char) : Span := ⟨text.length, text.length⟩

end Span

/-! ## Blanks -/

/-- The ranges of code points with the property White_Space. -/
def blankRanges : List (Nat × Nat) :=
  [(0x09, 0x0D), (0x20, 0x20), (0x85, 0x85), (0xA0, 0xA0), (0x1680, 0x1680), (0x2000, 0x200A),
    (0x2028, 0x2029), (0x202F, 0x202F), (0x205F, 0x205F), (0x3000, 0x3000)]

def isBlank (c : Char) : Bool :=
  blankRanges.any (fun range => range.1 ≤ c.toNat && c.toNat ≤ range.2)

def trimStart (text : List Char) : List Char := text.dropWhile isBlank

def trim (text : List Char) : List Char := ((trimStart text).reverse.dropWhile isBlank).reverse

/-! ## Lines -/

/-- Splits at every newline; the last piece is what follows the last newline. -/
def pieces : List Char → List (List Char)
  | [] => [[]]
  | c :: rest =>
    match pieces rest with
    | [] => [[c]]
    | piece :: others => if c = '\n' then [] :: piece :: others else (c :: piece) :: others

/-- A piece without the carriage return at its end. -/
def dropReturn (piece : List Char) : List Char :=
  if piece.getLast? = some '\r' then piece.dropLast else piece

/-- The lines of a text: every piece that a newline ends, and what follows the last newline unless
it is empty. -/
def lines (text : String) : List String :=
  let parts := pieces text.toList
  let ended := parts.dropLast.map (fun piece => String.ofList (dropReturn piece))
  match parts.getLast? with
  | some (c :: rest) => ended ++ [String.ofList (c :: rest)]
  | _ => ended

/-! ## Numerals -/

/-- The number that ASCII digits stand for, most significant first. -/
def digitsValue (digits : List Char) : Nat :=
  digits.foldl (fun value c => value * 10 + (c.toNat - '0'.toNat)) 0

/-- The digits of a numeral after its optional plus sign. -/
def unsigned : List Char → List Char
  | '+' :: digits => digits
  | digits => digits

/-- Reads a numeral below 2^64: digits only, at least one, one plus sign allowed in front. -/
def numeral? (text : String) : Option UInt64 :=
  let digits := unsigned text.toList
  if digits ≠ [] ∧ digits.all Char.isDigit ∧ digitsValue digits < UInt64.size then
    some (UInt64.ofNat (digitsValue digits))
  else
    none

end TemplateTrace.Text
