import TemplateTrace.Json.Value

namespace TemplateTrace.Json

/-- A lexeme without a flaw. -/
def Lexeme.sound {α : Type} (a : α) : Lexeme α := ⟨.ok a, .ok ()⟩

@[simp] theorem Lexeme.sound_read {α : Type} (a : α) : (Lexeme.sound a).read = .ok a := rfl

/-- A run of white space. -/
structure Gap where
  text : List Char
  spaces : ∀ c ∈ text, isSpace c = true

def Gap.empty : Gap := ⟨[], by simp⟩

theorem tokens_gap (gap : Gap) (rest : List Char) : tokens (gap.text ++ rest) = tokens rest := by
  obtain ⟨text, spaces⟩ := gap
  induction text with
  | nil => rfl
  | cons c text ih =>
    rw [List.cons_append, tokens, if_pos (spaces c (by simp))]
    exact ih fun other listed => spaces other (by simp [listed])

theorem tokens_cons {c : Char} (solid : isSpace c = false) (rest : List Char) :
    tokens (c :: rest) = (scanToken c rest).1 :: tokens (scanToken c rest).2 := by
  rw [tokens, if_neg (by simp [solid])]

/-! ## Strings -/

/-- The piece that a written character is read back as: a control without a letter of its own comes
back as a unit. -/
def piece (c : Char) : Piece :=
  if c.toNat < 0x20 ∧ c ∉ ['\x08', '\t', '\n', '\x0c', '\r'] then .unit c.toNat else .plain c

theorem hexUnit?_hexDigit {n : Nat} (small : n < 0x20) :
    hexUnit? '0' '0' (hexDigit (n / 16)) (hexDigit (n % 16)) = some n := by
  revert n
  decide

theorem scanString_plain {c : Char} (quote : c ≠ '"') (backslash : c ≠ '\\')
    (control : ¬ c.toNat < 0x20) (rest : List Char) :
    scanString (c :: rest) = (scanString rest).cons (.plain c) := by
  rw [scanString.eq_def]
  split
  case h_6 first others _ _ _ same =>
    obtain ⟨rfl, rfl⟩ := List.cons.inj same
    rw [if_neg quote, if_neg control]
  all_goals simp_all

theorem scanString_escapedChar (c : Char) (rest : List Char) :
    scanString (escapedChar c ++ rest) = (scanString rest).cons (piece c) := by
  unfold escapedChar
  split
  case h_8 quote backslash backspace tab newline feed back =>
    split
    case isTrue control =>
      have unlettered : c ∉ ['\x08', '\t', '\n', '\x0c', '\r'] := by
        simp only [List.mem_cons, List.not_mem_nil, or_false, not_or]
        exact ⟨backspace, tab, newline, feed, back⟩
      simp [scanString, hexUnit?_hexDigit control, piece, control, unlettered]
    case isFalse printed =>
      rw [List.singleton_append, scanString_plain quote backslash printed]
      simp [piece, printed]
  all_goals simp [scanString, escaped?, piece]

theorem scanString_written (text rest : List Char) :
    scanString (text.flatMap escapedChar ++ '"' :: rest) =
      ⟨text.map piece, .closed, rest⟩ := by
  induction text with
  | nil => simp [scanString]
  | cons c text ih =>
    rw [List.flatMap_cons, List.append_assoc, scanString_escapedChar, ih]
    rfl

theorem readPieces_unit {code : Nat} (small : code < 0x20) (ending : StringEnd)
    (rest : List Piece) :
    readPieces ending (.unit code :: rest) =
      (readPieces ending rest).map (Char.ofNat code :: ·) := by
  have trailing : isTrailing code = false := by
    simp only [isTrailing, Bool.and_eq_false_iff, decide_eq_false_iff_not]
    omega
  have leading : isLeading code = false := by
    simp only [isLeading, Bool.and_eq_false_iff, decide_eq_false_iff_not]
    omega
  -- The equations of `readPieces` ask first whether another unit follows.
  cases rest with
  | nil => simp [readPieces, trailing, leading]
  | cons next rest => cases next <;> simp [readPieces, trailing, leading]

theorem readPieces_written (text : List Char) :
    readPieces .closed (text.map piece) = .ok text := by
  induction text with
  | nil => rfl
  | cons c text ih =>
    rw [List.map_cons, piece]
    split
    case isTrue control =>
      rw [readPieces_unit control.1, ih, Char.ofNat_toNat]
      rfl
    case isFalse =>
      rw [readPieces, ih]
      rfl

theorem tokens_writeString (text : String) (rest : List Char) :
    tokens (writeString text ++ rest) = .string (.sound text) :: tokens rest := by
  rw [writeString, List.cons_append, List.cons_append, List.append_assoc, List.singleton_append,
    tokens_cons (by decide)]
  simp only [scanToken, scanString_written, StringScan.lexeme, readPieces_written]
  simp [Lexeme.sound, Except.map, StringEnd.outcome]

/-! ## Numbers -/

/-- A text that does not go on with a number. -/
def Apart (text : List Char) : Prop :=
  ∀ c ∈ text.head?, c.isDigit = false ∧ c ∉ ['.', 'e', 'E']

theorem Apart.nil : Apart [] := by simp [Apart]

theorem Apart.append {text rest : List Char} (h : Apart text) (h' : Apart rest) :
    Apart (text ++ rest) := by
  cases text with
  | nil => exact h'
  | cons => exact h

theorem Apart.cons {c : Char} (digit : c.isDigit = false) (mark : c ∉ ['.', 'e', 'E'])
    (rest : List Char) : Apart (c :: rest) := by
  intro first listed
  obtain rfl : c = first := by simpa using listed
  exact ⟨digit, mark⟩

theorem Gap.apart (gap : Gap) : Apart gap.text := by
  intro c listed
  have space := gap.spaces c (List.mem_of_mem_head? listed)
  simp only [isSpace, Bool.or_eq_true, beq_iff_eq] at space
  rcases space with ((rfl | rfl) | rfl) | rfl <;> decide

theorem le_ofDigitChars (digits : List Char) (significand : Nat) :
    significand ≤ Nat.ofDigitChars 10 digits significand := by
  induction digits generalizing significand with
  | nil => exact Nat.le_refl _
  | cons c digits ih =>
    rw [Nat.ofDigitChars_cons]
    have := ih (10 * significand + (c.toNat - '0'.toNat))
    omega

theorem gather_eq (digits : List Char) (significand : Nat)
    (small : Nat.ofDigitChars 10 digits significand < UInt64.size) :
    Number.gather significand digits = (Nat.ofDigitChars 10 digits significand, []) := by
  induction digits generalizing significand with
  | nil => rfl
  | cons c digits ih =>
    rw [Nat.ofDigitChars_cons] at small ⊢
    have step : Number.digitValue c = c.toNat - '0'.toNat := rfl
    have grows := le_ofDigitChars digits (10 * significand + (c.toNat - '0'.toNat))
    have order : significand * 10 + Number.digitValue c =
        10 * significand + (c.toNat - '0'.toNat) := by
      rw [step]; omega
    rw [Number.gather, order, if_pos (by omega)]
    exact ih _ small

theorem scanFraction_apart {rest : List Char} (apart : Apart rest) (isNegative : Bool)
    (whole : List Char) :
    scanFraction isNegative whole rest = (wholeNumber ⟨isNegative, whole, none, none⟩, rest) := by
  cases rest with
  | nil => rfl
  | cons mark rest =>
    obtain ⟨-, marks⟩ := apart mark (by simp)
    simp only [List.mem_cons, List.not_mem_nil, or_false, not_or] at marks
    obtain ⟨point, lower, upper⟩ := marks
    simp [scanFraction, finishNumber, point, lower, upper]

theorem digitChar_eq_zero : ∀ n < 10, Nat.digitChar n = '0' → n = 0 := by decide

theorem eq_zero_of_head_toDigits {n : Nat} (zero : (Nat.toDigits 10 n).head? = some '0') :
    n = 0 := by
  induction n using Nat.strongRecOn with
  | ind n ih =>
    by_cases small : n < 10
    · rw [Nat.toDigits_of_lt_base small, List.head?_cons, Option.some.injEq] at zero
      exact digitChar_eq_zero n small zero
    · -- The first digit is that of `n / 10`, which is not zero.
      rw [Nat.toDigits_of_base_le (by decide) (by omega), List.head?_append] at zero
      cases spelled : Nat.toDigits 10 (n / 10) with
      | nil => exact absurd spelled Nat.toDigits_ne_nil
      | cons first others =>
        rw [spelled] at zero
        have := ih (n / 10) (by omega) (by rw [spelled]; exact zero)
        omega

theorem takeWhile_apart {rest : List Char} (apart : Apart rest) :
    rest.takeWhile Char.isDigit = [] := by
  cases rest with
  | nil => rfl
  | cons c rest => simp [(apart c (by simp)).1]

theorem dropWhile_apart {rest : List Char} (apart : Apart rest) :
    rest.dropWhile Char.isDigit = rest := by
  cases rest with
  | nil => rfl
  | cons c rest => simp [(apart c (by simp)).1]

theorem scanDigits_toDigits {rest : List Char} (apart : Apart rest) (isNegative : Bool) (n : Nat) :
    scanDigits isNegative (Nat.toDigits 10 n ++ rest) =
      (wholeNumber ⟨isNegative, Nat.toDigits 10 n, none, none⟩, rest) := by
  by_cases zero : n = 0
  · subst zero
    have next : (rest.head?.map Char.isDigit).getD false = false := by
      cases rest with
      | nil => rfl
      | cons c rest => simp [(apart c (by simp)).1]
    simp only [Nat.toDigits_zero, List.singleton_append, scanDigits, next]
    exact scanFraction_apart apart isNegative ['0']
  · have digits : ∀ c ∈ Nat.toDigits 10 n, c.isDigit = true := fun c listed =>
      Nat.isDigit_of_mem_toDigits (by decide) (by decide) listed
    have leading : (Nat.toDigits 10 n).head? ≠ some '0' := fun h =>
      zero (eq_zero_of_head_toDigits h)
    cases spelled : Nat.toDigits 10 n with
    | nil => exact absurd spelled Nat.toDigits_ne_nil
    | cons first others =>
      rw [spelled] at digits leading
      have others_digits : ∀ c ∈ others, c.isDigit = true := fun c listed =>
        digits c (by simp [listed])
      have nonzero : first ≠ '0' := fun h => leading (by simp [h])
      rw [List.cons_append, scanDigits, if_neg nonzero, if_pos (digits first (by simp)),
        List.takeWhile_append_of_pos others_digits, List.dropWhile_append_of_pos others_digits,
        takeWhile_apart apart, dropWhile_apart apart, List.append_nil]
      exact scanFraction_apart apart isNegative (first :: others)

theorem wholeNumber_toDigits {n : Nat} (small : n < UInt64.size) :
    wholeNumber ⟨false, Nat.toDigits 10 n, none, none⟩ = .sound (.integer n) := by
  have gathered := gather_eq (Nat.toDigits 10 n) 0
  rw [Nat.ofDigitChars_ten_toDigits] at gathered
  simp [wholeNumber, Number.ofLiteral?, gathered small, Lexeme.sound]

theorem scanToken_digit {c : Char} (digit : c.isDigit = true) (rest : List Char) :
    scanToken c rest =
      (.number (scanDigits false (c :: rest)).1, (scanDigits false (c :: rest)).2) := by
  unfold scanToken
  split
  case h_12 => rw [if_pos digit]
  all_goals simp at digit

theorem isSpace_of_isDigit {c : Char} (digit : c.isDigit = true) : isSpace c = false := by
  simp only [isSpace, Bool.or_eq_false_iff, beq_eq_false_iff_ne]
  refine ⟨⟨⟨?_, ?_⟩, ?_⟩, ?_⟩ <;> rintro rfl <;> simp at digit

theorem text_natural (n : Nat) : (Number.integer n).text.toList = Nat.toDigits 10 n := by
  have shown : (Number.integer n).text = toString n := rfl
  rw [shown, Nat.toString_eq_ofList_toDigits, String.toList_ofList]

theorem tokens_natural {n : Nat} (small : n < UInt64.size) {rest : List Char}
    (apart : Apart rest) :
    tokens ((Number.integer n).text.toList ++ rest) =
      .number (.sound (.integer n)) :: tokens rest := by
  have read := scanDigits_toDigits apart false n
  rw [wholeNumber_toDigits small] at read
  rw [text_natural]
  cases spelled : Nat.toDigits 10 n with
  | nil => exact absurd spelled Nat.toDigits_ne_nil
  | cons first others =>
    have digit : first.isDigit = true :=
      Nat.isDigit_of_mem_toDigits (b := 10) (n := n) (by decide) (by decide) (by simp [spelled])
    rw [spelled] at read
    rw [List.cons_append, tokens_cons (isSpace_of_isDigit digit), scanToken_digit digit,
      ← List.cons_append, read]

/-! ## Words -/

theorem tokens_null (rest : List Char) : tokens ("null".toList ++ rest) = .null :: tokens rest := by
  rw [show "null".toList ++ rest = 'n' :: 'u' :: 'l' :: 'l' :: rest from rfl,
    tokens_cons (by decide)]
  simp [scanToken, scanWord]

theorem tokens_boolean (value : Bool) (rest : List Char) :
    tokens ((if value then "true" else "false").toList ++ rest) =
      .boolean value :: tokens rest := by
  cases value with
  | true =>
    rw [show (if true then "true" else "false").toList ++ rest = 't' :: 'r' :: 'u' :: 'e' :: rest
      from rfl, tokens_cons (by decide)]
    simp [scanToken, scanWord]
  | false =>
    rw [show (if false then "true" else "false").toList ++ rest =
      'f' :: 'a' :: 'l' :: 's' :: 'e' :: rest from rfl, tokens_cons (by decide)]
    simp [scanToken, scanWord]

end TemplateTrace.Json
