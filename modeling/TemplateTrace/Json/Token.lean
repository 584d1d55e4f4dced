import TemplateTrace.Json.Error
import TemplateTrace.Text

/-!
# Tokens of a JSON text

A text is cut into tokens, white space between them left out. A string or number keeps what reading
it gives and what merely passing over it gives: passing over checks the form of escapes but neither
that surrogates pair up nor that a number fits. Nothing follows a token that cannot be passed over.
-/

namespace TemplateTrace.Json

/-- A string or number of a text: the outcome of reading it and of passing over it. -/
structure Lexeme (α : Type) where
  read : Except Error α
  skip : Except Error Unit

/-! ## Strings -/

/-- A character of a string, or a UTF-16 unit from a hex escape. -/
inductive Piece where
  | plain (c : Char)
  | unit (code : Nat)
  deriving DecidableEq, Repr

/-- How the pieces of a string end: at the closing quote, at the end of the text, at a control
character, at an unknown escape, or at a hex escape without four hex digits. -/
inductive StringEnd where
  | closed
  | cut
  | control
  | badEscape
  | badHex
  deriving DecidableEq, Repr

/-- The failure that an end means, if it is one. -/
def StringEnd.outcome : StringEnd → Except Error Unit
  | closed => .ok ()
  | cut => .error .endInString
  | control => .error .controlCharacter
  | badEscape => .error .invalidEscape
  | badHex => .error .invalidEscape

structure StringScan where
  pieces : List Piece
  ending : StringEnd
  rest : List Char

def StringScan.cons (piece : Piece) (scan : StringScan) : StringScan :=
  { scan with pieces := piece :: scan.pieces }

/-- The character that a one-letter escape stands for. -/
def escaped? : Char → Option Char
  | '"' => some '"'
  | '\\' => some '\\'
  | '/' => some '/'
  | 'b' => some '\x08'
  | 'f' => some '\x0c'
  | 'n' => some '\n'
  | 'r' => some '\r'
  | 't' => some '\t'
  | _ => none

/-- The value of a hex digit of either case. -/
def hexValue? (c : Char) : Option Nat :=
  if '0' ≤ c ∧ c ≤ '9' then some (c.toNat - '0'.toNat)
  else if 'a' ≤ c ∧ c ≤ 'f' then some (c.toNat - 'a'.toNat + 10)
  else if 'A' ≤ c ∧ c ≤ 'F' then some (c.toNat - 'A'.toNat + 10)
  else none

def hexUnit? (a b c d : Char) : Option Nat := do
  return (((← hexValue? a) * 16 + (← hexValue? b)) * 16 + (← hexValue? c)) * 16 + (← hexValue? d)

/-- How a hex escape with fewer than four characters left ends: with fewer than four bytes left the
text is cut. -/
def shortHexEnd (rest : List Char) : StringEnd :=
  if Text.byteLength rest < 4 then .cut else .badHex

/-- The pieces of a string, from behind its opening quote. -/
def scanString : List Char → StringScan
  | [] => ⟨[], .cut, []⟩
  | ['\\'] => ⟨[], .cut, []⟩
  | '\\' :: 'u' :: a :: b :: c :: d :: rest =>
    match hexUnit? a b c d with
    | some code => (scanString rest).cons (.unit code)
    | none => ⟨[], .badHex, []⟩
  | '\\' :: 'u' :: rest => ⟨[], shortHexEnd rest, []⟩
  | '\\' :: letter :: rest =>
    match escaped? letter with
    | some c => (scanString rest).cons (.plain c)
    | none => ⟨[], .badEscape, []⟩
  | c :: rest =>
    if c = '"' then ⟨[], .closed, rest⟩
    else if c.toNat < 0x20 then ⟨[], .control, []⟩
    else (scanString rest).cons (.plain c)

theorem scanString_rest_le (text : List Char) : (scanString text).rest.length ≤ text.length := by
  fun_induction scanString text <;> simp_all [StringScan.cons] <;> omega

/-- Whether a UTF-16 unit opens a surrogate pair. -/
def isLeading (code : Nat) : Bool := 0xD800 ≤ code && code ≤ 0xDBFF

/-- Whether a UTF-16 unit closes a surrogate pair. -/
def isTrailing (code : Nat) : Bool := 0xDC00 ≤ code && code ≤ 0xDFFF

def pairChar (lead trail : Nat) : Char :=
  Char.ofNat ((lead - 0xD800) * 0x400 + (trail - 0xDC00) + 0x10000)

/-- What a leading surrogate at the end of the pieces means. -/
def StringEnd.unpaired : StringEnd → Error
  | cut => .endInString
  | badHex => .invalidEscape
  | _ => .endOfHexEscape

/-- The characters of a string: units pair up, and the first fault in the order of the text
counts. -/
def readPieces (ending : StringEnd) : List Piece → Except Error (List Char)
  | [] => ending.outcome.map (fun _ => [])
  | .plain c :: rest => (readPieces ending rest).map (c :: ·)
  | .unit lead :: .unit trail :: rest =>
    if isTrailing lead then .error .loneSurrogate
    else if isLeading lead then
      if isTrailing trail then (readPieces ending rest).map (pairChar lead trail :: ·)
      else .error .loneSurrogate
    else (readPieces ending (.unit trail :: rest)).map (Char.ofNat lead :: ·)
  | .unit lead :: rest =>
    if isTrailing lead then .error .loneSurrogate
    else if isLeading lead then
      .error (if rest.isEmpty then ending.unpaired else .endOfHexEscape)
    else (readPieces ending rest).map (Char.ofNat lead :: ·)

def StringScan.lexeme (scan : StringScan) : Lexeme String where
  read := (readPieces scan.ending scan.pieces).map String.ofList
  skip := scan.ending.outcome

/-! ## Numbers -/

/-- A number that breaks the rules of JSON; reading tells apart a text that breaks off. -/
def brokenNumber (error : Error) : Lexeme Number × List Char :=
  (⟨.error error, .error .invalidNumber⟩, [])

/-- What the lack of a digit means: the text breaks off or goes on wrongly. -/
def digitMissing (rest : List Char) : Error :=
  if rest.isEmpty then .endInValue else .invalidNumber

def wholeNumber (literal : Number.Literal) : Lexeme Number where
  read := (Number.ofLiteral? literal).elim (.error .numberOutOfRange) .ok
  skip := .ok ()

/-- The sign and digits of an exponent, behind its mark. -/
def scanExponent : List Char → Bool × List Char
  | '-' :: rest => (true, rest)
  | '+' :: rest => (false, rest)
  | rest => (false, rest)

/-- The end of a number, from behind its whole digits and fraction. -/
def finishNumber (isNegative : Bool) (whole : List Char) (fraction : Option (List Char))
    (text : List Char) : Lexeme Number × List Char :=
  match text with
  | [] => (wholeNumber ⟨isNegative, whole, fraction, none⟩, [])
  | mark :: rest =>
    if mark = 'e' ∨ mark = 'E' then
      let (isDown, digits) := scanExponent rest
      if (digits.takeWhile Char.isDigit).isEmpty then brokenNumber (digitMissing digits)
      else
        (wholeNumber ⟨isNegative, whole, fraction, some (isDown, digits.takeWhile Char.isDigit)⟩,
          digits.dropWhile Char.isDigit)
    else (wholeNumber ⟨isNegative, whole, fraction, none⟩, mark :: rest)

/-- The fraction and the end of a number, from behind its whole digits. -/
def scanFraction (isNegative : Bool) (whole : List Char) (text : List Char) :
    Lexeme Number × List Char :=
  match text with
  | [] => (wholeNumber ⟨isNegative, whole, none, none⟩, [])
  | mark :: rest =>
    if mark = '.' then
      if (rest.takeWhile Char.isDigit).isEmpty then brokenNumber (digitMissing rest)
      else
        finishNumber isNegative whole (some (rest.takeWhile Char.isDigit))
          (rest.dropWhile Char.isDigit)
    else finishNumber isNegative whole none (mark :: rest)

/-- A number from its first digit on. Whole digits start with zero only if it is alone. -/
def scanDigits (isNegative : Bool) (text : List Char) : Lexeme Number × List Char :=
  match text with
  | [] => brokenNumber .endInValue
  | first :: rest =>
    if first = '0' then
      if (rest.head?.map Char.isDigit).getD false then brokenNumber .invalidNumber
      else scanFraction isNegative ['0'] rest
    else if first.isDigit then
      scanFraction isNegative (first :: rest.takeWhile Char.isDigit) (rest.dropWhile Char.isDigit)
    else brokenNumber .invalidNumber

theorem length_dropWhile_le (p : Char → Bool) (text : List Char) :
    (text.dropWhile p).length ≤ text.length :=
  (List.dropWhile_suffix p).length_le

theorem scanExponent_le (text : List Char) : (scanExponent text).2.length ≤ text.length := by
  unfold scanExponent
  split <;> simp

theorem finishNumber_le (isNegative : Bool) (whole : List Char) (fraction : Option (List Char))
    (text : List Char) :
    (finishNumber isNegative whole fraction text).2.length ≤ text.length := by
  unfold finishNumber
  split
  · simp
  · next mark rest =>
    have exponent := scanExponent_le rest
    have digits := length_dropWhile_le Char.isDigit (scanExponent rest).2
    split
    · simp only
      split
      · simp [brokenNumber]
      · simp only [List.length_cons]
        omega
    · simp

theorem scanFraction_le (isNegative : Bool) (whole : List Char) (text : List Char) :
    (scanFraction isNegative whole text).2.length ≤ text.length := by
  unfold scanFraction
  split
  · simp
  · next mark rest =>
    split
    · split
      · simp [brokenNumber]
      · have digits := length_dropWhile_le Char.isDigit rest
        have finish := finishNumber_le isNegative whole (some (rest.takeWhile Char.isDigit))
          (rest.dropWhile Char.isDigit)
        simp only [List.length_cons]
        omega
    · exact finishNumber_le _ _ _ _

theorem scanDigits_cons_le (isNegative : Bool) (first : Char) (rest : List Char) :
    (scanDigits isNegative (first :: rest)).2.length ≤ rest.length := by
  have digits := length_dropWhile_le Char.isDigit rest
  simp only [scanDigits]
  split
  · split
    · simp [brokenNumber]
    · exact scanFraction_le _ _ _
  · split
    · exact Nat.le_trans (scanFraction_le _ _ _) digits
    · simp [brokenNumber]

theorem scanDigits_le (isNegative : Bool) (text : List Char) :
    (scanDigits isNegative text).2.length ≤ text.length := by
  cases text with
  | nil => simp [scanDigits, brokenNumber]
  | cons first rest => exact Nat.le_succ_of_le (scanDigits_cons_le isNegative first rest)

/-! ## All tokens -/

/-- A token. A misspelt word and a stray character are tokens too. -/
inductive Token where
  | openList
  | closeList
  | openMap
  | closeMap
  | comma
  | colon
  | null
  | boolean (value : Bool)
  | number (lexeme : Lexeme Number)
  | string (lexeme : Lexeme String)
  | misspelt (isCut : Bool)
  | stray

/-- The white space of JSON. -/
def isSpace (c : Char) : Bool := c == ' ' || c == '\t' || c == '\n' || c == '\r'

/-- A word, from behind its first letter. -/
def scanWord (token : Token) : List Char → List Char → Token × List Char
  | [], rest => (token, rest)
  | _ :: _, [] => (.misspelt true, [])
  | letter :: letters, c :: rest =>
    if c = letter then scanWord token letters rest else (.misspelt false, [])

theorem scanWord_le (token : Token) (letters text : List Char) :
    (scanWord token letters text).2.length ≤ text.length := by
  fun_induction scanWord token letters text with
  | case1 => exact Nat.le_refl _
  | case2 => exact Nat.le_refl _
  | case3 _ _ _ ih => exact Nat.le_succ_of_le ih
  | case4 => exact Nat.zero_le _

/-- The token that starts with a character, and the text behind it. -/
def scanToken (c : Char) (rest : List Char) : Token × List Char :=
  match c with
  | '[' => (.openList, rest)
  | ']' => (.closeList, rest)
  | '\x7b' => (.openMap, rest)
  | '\x7d' => (.closeMap, rest)
  | ',' => (.comma, rest)
  | ':' => (.colon, rest)
  | 'n' => scanWord .null ['u', 'l', 'l'] rest
  | 't' => scanWord (.boolean true) ['r', 'u', 'e'] rest
  | 'f' => scanWord (.boolean false) ['a', 'l', 's', 'e'] rest
  | '"' => (.string (scanString rest).lexeme, (scanString rest).rest)
  | '-' => ((.number (scanDigits true rest).1), (scanDigits true rest).2)
  | c =>
    if c.isDigit then (.number (scanDigits false (c :: rest)).1, (scanDigits false (c :: rest)).2)
    else (.stray, [])

theorem scanToken_le (c : Char) (rest : List Char) :
    (scanToken c rest).2.length ≤ rest.length := by
  unfold scanToken
  split <;> try exact Nat.le_refl _
  · exact scanWord_le _ _ _
  · exact scanWord_le _ _ _
  · exact scanWord_le _ _ _
  · exact scanString_rest_le rest
  · exact scanDigits_le _ _
  · split
    · exact scanDigits_cons_le _ _ _
    · exact Nat.zero_le _

def tokens (text : List Char) : List Token :=
  match text with
  | [] => []
  | c :: rest =>
    if isSpace c then tokens rest
    else (scanToken c rest).1 :: tokens (scanToken c rest).2
termination_by text.length
decreasing_by
  · exact Nat.lt_succ_self _
  · exact Nat.lt_succ_of_le (scanToken_le c rest)

end TemplateTrace.Json
