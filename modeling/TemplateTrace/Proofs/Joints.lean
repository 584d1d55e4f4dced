import TemplateTrace.Proofs.Lexemes

/-!
# Tokens where two texts meet

The tokens of a text stay the same when another text follows that cannot go on with the last of them
(`tokens_append`). Only the last token is in question: a token with text behind it has ended, and
one that cannot be read has nothing behind it.
-/

namespace TemplateTrace.Json

/-! ## Numbers -/

/-- A number has ended before the end of its text, or it is one and the text behind it does not go
on with it. -/
def Settled (scan : Lexeme Number × List Char) (more : List Char) : Prop :=
  scan.2 ≠ [] ∨ (∃ n, scan.1.read = .ok n) ∧ Apart more

theorem not_settled_broken (error : Error) (more : List Char) :
    ¬ Settled (brokenNumber error) more := by
  simp [Settled, brokenNumber]

theorem Settled.apart {scan : Lexeme Number × List Char} {more : List Char}
    (h : Settled scan more) (done : scan.2 = []) : Apart more :=
  (h.resolve_left fun rest => rest done).2

/-- A settled number is not empty behind some earlier point of its text, or apart from what
follows. -/
theorem Settled.earlier {scan : Lexeme Number × List Char} {more text : List Char}
    (h : Settled scan more) (shorter : scan.2.length ≤ text.length) : text ≠ [] ∨ Apart more := by
  rcases h with rest | ⟨-, apart⟩
  · refine .inl fun none => rest (List.length_eq_zero_iff.mp ?_)
    rw [none] at shorter
    exact Nat.le_zero.mp shorter
  · exact .inr apart

theorem digits_append {text more : List Char}
    (ends : text.dropWhile Char.isDigit ≠ [] ∨ Apart more) :
    (text ++ more).takeWhile Char.isDigit = text.takeWhile Char.isDigit ∧
      (text ++ more).dropWhile Char.isDigit = text.dropWhile Char.isDigit ++ more := by
  induction text with
  | nil =>
    have apart := ends.resolve_left (by simp)
    exact ⟨takeWhile_apart apart, dropWhile_apart apart⟩
  | cons c text ih =>
    cases digit : c.isDigit with
    | false => simp [digit]
    | true =>
      rw [List.dropWhile_cons_of_pos digit] at ends
      simp [digit, ih ends]

theorem scanExponent_append {text : List Char} (some : text ≠ []) (more : List Char) :
    scanExponent (text ++ more) = ((scanExponent text).1, (scanExponent text).2 ++ more) := by
  cases text with
  | nil => contradiction
  | cons c rest =>
    rw [List.cons_append]
    unfold scanExponent
    split <;> simp_all

theorem finishNumber_append {isNegative : Bool} {whole : List Char} {fraction : Option (List Char)}
    {text more : List Char} (settled : Settled (finishNumber isNegative whole fraction text) more) :
    finishNumber isNegative whole fraction (text ++ more) =
      ((finishNumber isNegative whole fraction text).1,
        (finishNumber isNegative whole fraction text).2 ++ more) := by
  cases text with
  | nil =>
    have apart := settled.apart rfl
    cases more with
    | nil => rfl
    | cons mark rest =>
      obtain ⟨-, marks⟩ := apart mark (by simp)
      simp only [List.mem_cons, List.not_mem_nil, or_false, not_or] at marks
      simp [finishNumber, marks]
  | cons mark rest =>
    rw [List.cons_append]
    by_cases exponent : mark = 'e' ∨ mark = 'E'
    · simp only [finishNumber, exponent, ↓reduceIte] at settled ⊢
      cases empty : ((scanExponent rest).2.takeWhile Char.isDigit).isEmpty with
      | true =>
        rw [empty] at settled
        exact absurd settled (not_settled_broken _ _)
      | false =>
        rw [empty] at settled
        have some : rest ≠ [] := by
          rintro rfl
          simp [scanExponent] at empty
        -- What is behind the exponent's digits is all that is left of the number.
        have ends := settled.earlier (Nat.le_refl _)
        simp only [Bool.false_eq_true, ↓reduceIte] at ends
        rw [scanExponent_append some, (digits_append ends).1, (digits_append ends).2, empty]
        rfl
    · simp only [finishNumber, exponent, ↓reduceIte, List.cons_append]

theorem scanFraction_append {isNegative : Bool} {whole text more : List Char}
    (settled : Settled (scanFraction isNegative whole text) more) :
    scanFraction isNegative whole (text ++ more) =
      ((scanFraction isNegative whole text).1, (scanFraction isNegative whole text).2 ++ more) := by
  cases text with
  | nil =>
    have apart := settled.apart rfl
    exact scanFraction_apart apart isNegative whole
  | cons mark rest =>
    rw [List.cons_append]
    by_cases point : mark = '.'
    · simp only [scanFraction, point, ↓reduceIte] at settled ⊢
      cases empty : (rest.takeWhile Char.isDigit).isEmpty with
      | true =>
        rw [empty] at settled
        exact absurd settled (not_settled_broken _ _)
      | false =>
        rw [empty] at settled
        simp only [Bool.false_eq_true, ↓reduceIte] at settled ⊢
        have ends := settled.earlier (finishNumber_le _ _ _ _)
        rw [(digits_append ends).1, (digits_append ends).2, empty]
        exact finishNumber_append settled
    · simp only [scanFraction, point, ↓reduceIte] at settled ⊢
      exact finishNumber_append settled

theorem scanDigits_append {isNegative : Bool} {text more : List Char}
    (settled : Settled (scanDigits isNegative text) more) :
    scanDigits isNegative (text ++ more) =
      ((scanDigits isNegative text).1, (scanDigits isNegative text).2 ++ more) := by
  cases text with
  | nil => exact absurd settled (not_settled_broken _ _)
  | cons first rest =>
    rw [List.cons_append]
    by_cases zero : first = '0'
    · simp only [scanDigits, zero, ↓reduceIte] at settled ⊢
      cases digit : (rest.head?.map Char.isDigit).getD false with
      | true =>
        rw [digit] at settled
        exact absurd settled (not_settled_broken _ _)
      | false =>
        rw [digit] at settled
        simp only [Bool.false_eq_true, ↓reduceIte] at settled ⊢
        -- No digit may follow a leading zero, and none comes to stand there now.
        have next : ((rest ++ more).head?.map Char.isDigit).getD false = false := by
          cases rest with
          | cons => exact digit
          | nil =>
            have apart := settled.apart (List.length_eq_zero_iff.mp
              (Nat.le_zero.mp (scanFraction_le _ _ _)))
            cases more with
            | nil => rfl
            | cons c more => simp [(apart c (by simp)).1]
        rw [next]
        exact scanFraction_append settled
    · by_cases digit : first.isDigit = true
      · simp only [scanDigits, zero, digit, ↓reduceIte] at settled ⊢
        have ends := settled.earlier (scanFraction_le _ _ _)
        rw [(digits_append ends).1, (digits_append ends).2]
        exact scanFraction_append settled
      · simp only [scanDigits, zero, digit, ↓reduceIte] at settled
        exact absurd settled (not_settled_broken _ _)

/-! ## Strings -/

theorem scanString_escape {letter c : Char} (other : letter ≠ 'u')
    (stands : escaped? letter = some c) (rest : List Char) :
    scanString ('\\' :: letter :: rest) = (scanString rest).cons (.plain c) := by
  rw [scanString.eq_def]
  split
  case h_5 found _ _ same =>
    obtain ⟨-, same⟩ := List.cons.inj same
    obtain ⟨rfl, rfl⟩ := List.cons.inj same
    rw [stands]
  case h_6 escape same =>
    obtain ⟨rfl, rfl⟩ := List.cons.inj same
    exact absurd rfl (escape _ _ rfl)
  all_goals simp_all

theorem scanString_append {text : List Char} (closed : (scanString text).ending = .closed)
    (more : List Char) :
    scanString (text ++ more) =
      { scanString text with rest := (scanString text).rest ++ more } := by
  fun_induction scanString text with
  | case1 => contradiction
  | case2 => contradiction
  | case3 a b c d rest code unit ih =>
    simp only [List.cons_append, scanString, unit]
    rw [ih closed]
    rfl
  | case4 a b c d rest broken => contradiction
  | case5 rest short =>
    simp only [shortHexEnd] at closed
    split at closed <;> contradiction
  | case6 letter rest _ other c stands ih =>
    rw [List.cons_append, List.cons_append, scanString_escape other stands, ih closed]
    rfl
  | case7 letter rest => contradiction
  | case8 rest => simp [scanString]
  | case9 c rest => contradiction
  | case10 c rest alone _ _ escape quote control ih =>
    have backslash : c ≠ '\\' := by
      intro same
      cases rest with
      | nil => exact alone same rfl
      | cons letter rest => exact escape letter rest same rfl
    rw [List.cons_append, scanString_plain quote backslash control, ih closed]
    rfl

theorem closed_of_rest {text : List Char} (rest : (scanString text).rest ≠ []) :
    (scanString text).ending = .closed := by
  fun_induction scanString text <;> simp_all [StringScan.cons]

theorem ok_of_map {ε α β : Type} {outcome : Except ε α} {f : α → β} {b : β}
    (h : outcome.map f = .ok b) : ∃ a, outcome = .ok a ∧ f a = b := by
  cases outcome with
  | error => contradiction
  | ok a => exact ⟨a, rfl, Except.ok.inj h⟩

/-- A string that can be read comes to its closing quote. -/
theorem closed_of_readPieces {ending : StringEnd} {pieces : List Piece} {characters : List Char}
    (read : readPieces ending pieces = .ok characters) : ending = .closed := by
  fun_induction readPieces ending pieces generalizing characters with
  | case1 =>
    obtain ⟨_, reached, -⟩ := ok_of_map read
    cases ending <;> first | rfl | contradiction
  | case2 _ _ ih | case4 _ _ _ _ _ _ ih | case6 _ _ _ _ _ ih | case9 _ _ _ _ _ ih =>
    obtain ⟨_, behind, -⟩ := ok_of_map read
    exact ih behind
  | case3 | case5 | case7 | case8 => contradiction

/-! ## All tokens -/

/-- A token that can be read, and that a text behind it does not make longer. -/
def Token.Ends (more : List Char) : Token → Prop
  | .number lexeme => (∃ n, lexeme.read = .ok n) ∧ Apart more
  | .string lexeme => ∃ text, lexeme.read = .ok text
  | .misspelt _ | .stray => False
  | _ => True

theorem scanWord_append {token : Token} {letters text more : List Char}
    (ends : (scanWord token letters text).2 ≠ [] ∨ (scanWord token letters text).1.Ends more) :
    scanWord token letters (text ++ more) =
      ((scanWord token letters text).1, (scanWord token letters text).2 ++ more) := by
  fun_induction scanWord token letters text with
  | case1 text => rw [scanWord]
  | case2 letter letters => simp [Token.Ends] at ends
  | case3 letter letters rest ih => simp [scanWord, ih ends]
  | case4 letter letters c rest other => simp [Token.Ends] at ends

theorem scanToken_append {c : Char} {text more : List Char}
    (ends : (scanToken c text).2 ≠ [] ∨ (scanToken c text).1.Ends more) :
    scanToken c (text ++ more) = ((scanToken c text).1, (scanToken c text).2 ++ more) := by
  unfold scanToken at ends ⊢
  split at ends
  case h_7 | h_8 | h_9 => exact scanWord_append ends
  case h_10 =>
    have closed : (scanString text).ending = .closed := by
      rcases ends with rest | ⟨_, read⟩
      · exact closed_of_rest rest
      · obtain ⟨_, read, -⟩ := ok_of_map read
        exact closed_of_readPieces read
    dsimp only
    rw [scanString_append closed]
    rfl
  case h_11 =>
    dsimp only
    rw [scanDigits_append ends]
  case h_12 =>
    split at ends
    case isTrue digit =>
      rw [if_pos digit, if_pos digit, ← List.cons_append, scanDigits_append ends]
    case isFalse => simp [Token.Ends] at ends
  all_goals rfl

/-- The tokens of a text stay the same before another text, if that cannot go on with the last one
of them. Every token before the last has ended, since something is behind it. -/
theorem tokens_append {text more : List Char}
    (ends : ∀ token ∈ (tokens text).getLast?, token.Ends more) :
    tokens (text ++ more) = tokens text ++ tokens more := by
  fun_induction tokens text with
  | case1 => rfl
  | case2 c rest space ih =>
    rw [List.cons_append, tokens, if_pos space]
    exact ih ends
  | case3 c rest solid ih =>
    -- This token is the last, or text is left behind it.
    have behind : (scanToken c rest).2 ≠ [] ∨ (scanToken c rest).1.Ends more := by
      cases none : tokens (scanToken c rest).2 with
      | nil => exact .inr (ends _ (by simp [none]))
      | cons => exact .inl fun empty => by simp [empty, tokens] at none
    have others : ∀ token ∈ (tokens (scanToken c rest).2).getLast?, token.Ends more := by
      intro token last
      exact ends token (by rw [List.getLast?_cons, last]; rfl)
    rw [List.cons_append, tokens, if_neg solid, scanToken_append behind, ih others]
    rfl

end TemplateTrace.Json
