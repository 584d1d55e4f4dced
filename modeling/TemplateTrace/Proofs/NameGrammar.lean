import Mathlib.Computability.Language
import TemplateTrace.NameHead

/-!
# The grammar of name heads

The chain that a name starts with, told as a language: an optional `::`, then qualifiers with `::`
between them. A `Derivation` is a way to read a word of the language, with its last qualifier apart,
and no word can be read in two ways (`Derivation.word_injective`).

The scanner goes through a name once: it gives back no more than one `::`, and nothing comes of its
second start, at the front of a name that a `::` leads (`scanName_separator`). Nothing is lost by
that: a qualifier before a `::` ends in only one way (`qualifierLength?_append`), so whatever word
of the language a name starts with, the scanner follows it to its last qualifier and stops no
earlier (`le_scanChain`).
-/

open scoped Computability

namespace TemplateTrace

namespace Text

theorem byteLength_append (text more : List Char) :
    byteLength (text ++ more) = byteLength text + byteLength more := by
  induction text with
  | nil => simp [byteLength]
  | cons c rest ih => simp [byteLength, ih, Nat.add_assoc]

theorem utf8ByteSize_ofList (text : List Char) :
    (String.ofList text).utf8ByteSize = byteLength text := by
  induction text with
  | nil => rfl
  | cons c rest ih =>
    have first : String.ofList (c :: rest) = String.singleton c ++ String.ofList rest := by
      rw [String.singleton_eq_ofList, ← String.ofList_append, List.singleton_append]
    rw [first, String.utf8ByteSize_append, ih, String.utf8ByteSize_singleton, byteLength]

/-- The bytes before a position end between two characters. -/
theorem Span.byteOffset_valid (name : String) (position : Nat) :
    String.Pos.Raw.IsValid name ⟨Span.byteOffset name.toList position⟩ := by
  rw [String.Pos.Raw.isValid_iff_exists_append]
  refine ⟨String.ofList (name.toList.take position), String.ofList (name.toList.drop position),
    ?_, ?_⟩
  · rw [← String.ofList_append, List.take_append_drop, String.ofList_toList]
  · rw [String.rawEndPos, utf8ByteSize_ofList, Span.byteOffset]

end Text

namespace NameHead

/-! ## The language -/

/-- A letter of ASCII or an underscore. -/
def Letter (c : Char) : Prop := c = '_' ∨ 'A' ≤ c ∧ c ≤ 'Z' ∨ 'a' ≤ c ∧ c ≤ 'z'

def Digit (c : Char) : Prop := '0' ≤ c ∧ c ≤ '9'

/-- What stands between two qualifiers, and may stand before the first. -/
def separator : List Char := [':', ':']

def identifiers : Language Char :=
  {word | ∃ first rest, word = first :: rest ∧ Letter first ∧ ∀ c ∈ rest, Letter c ∨ Digit c}

def anonymous : Language Char := {word | ∃ marker ∈ markers, marker.toList = word}

def qualifying : Language Char := identifiers + anonymous

def chains : Language Char := (1 + {separator}) * (qualifying * {separator})∗ * qualifying

theorem isAlpha_iff (c : Char) : c.isAlpha = true ↔ 'A' ≤ c ∧ c ≤ 'Z' ∨ 'a' ≤ c ∧ c ≤ 'z' := by
  have ranges : c.isAlpha =
      (decide ('A'.val ≤ c.val ∧ c.val ≤ 'Z'.val) ||
        decide ('a'.val ≤ c.val) && decide (c.val ≤ 'z'.val)) := rfl
  simp [ranges, Char.le_def]

theorem startsIdentifier_iff (c : Char) : startsIdentifier c = true ↔ Letter c := by
  simp [startsIdentifier, Letter, isAlpha_iff]

theorem continuesIdentifier_iff (c : Char) :
    continuesIdentifier c = true ↔ Letter c ∨ Digit c := by
  simp [continuesIdentifier, Letter, Digit, Char.isAlphanum, isAlpha_iff, Char.isDigit,
    Char.le_def, or_assoc]

/-- No marker starts another one. -/
theorem markers_apart : ∀ one ∈ markers, ∀ other ∈ markers,
    one.toList <+: other.toList → one = other := by decide

theorem markers_start : ∀ marker ∈ markers, ∃ first ∈ marker.toList.head?,
    startsIdentifier first = false ∧ first ≠ ':' := by
  simp [markers, startsIdentifier]

theorem qualifying_start {word : List Char} (h : word ∈ qualifying) :
    ∃ first rest, word = first :: rest ∧ first ≠ ':' := by
  rcases h with ⟨first, rest, rfl, letter, -⟩ | ⟨marker, listed, rfl⟩
  · refine ⟨first, rest, rfl, ?_⟩
    rintro rfl
    rw [← startsIdentifier_iff] at letter
    contradiction
  · obtain ⟨first, starts, -, apart⟩ := markers_start marker listed
    obtain ⟨rest, spelled⟩ := List.head?_eq_some_iff.mp starts
    exact ⟨first, rest, spelled, apart⟩

/-! ## One qualifier -/

theorem find?_marker {marker : String} (listed : marker ∈ markers) (rest : List Char) :
    markers.find? (fun other => other.toList.isPrefixOf (marker.toList ++ rest)) =
      some marker := by
  cases found : markers.find? (fun other => other.toList.isPrefixOf (marker.toList ++ rest)) with
  | none =>
    have missed := List.find?_eq_none.mp found marker listed
    rw [List.isPrefixOf_iff_prefix] at missed
    exact absurd (List.prefix_append _ _) missed
  | some other =>
    have starts := List.find?_some found
    rw [List.isPrefixOf_iff_prefix] at starts
    have known := List.mem_of_find?_eq_some found
    rcases List.prefix_or_prefix_of_prefix starts (List.prefix_append marker.toList rest) with
      short | long
    · rw [markers_apart other known marker listed short]
    · rw [markers_apart marker listed other known long]

/-- Before any text, the scanner takes a qualifier as a whole, and no more than that unless the text
goes on with what an identifier may go on with. -/
theorem qualifierLength?_append {word : List Char} (h : word ∈ qualifying) (rest : List Char) :
    ∃ more, qualifierLength? (word ++ rest) = some (word.length + more) ∧
      (rest.takeWhile continuesIdentifier = [] → more = 0) := by
  rcases h with ⟨first, others, rfl, letter, continues⟩ | ⟨marker, listed, rfl⟩
  · have inside : ∀ c ∈ others, continuesIdentifier c = true := by
      intro c hc
      exact (continuesIdentifier_iff c).mpr (continues c hc)
    refine ⟨(rest.takeWhile continuesIdentifier).length, ?_, ?_⟩
    · rw [List.cons_append, qualifierLength?, if_pos ((startsIdentifier_iff first).mpr letter),
        List.takeWhile_append_of_pos inside, List.length_append, List.length_cons,
        Nat.add_right_comm]
    · intro stops
      rw [stops, List.length_nil]
  · refine ⟨0, ?_, fun _ => rfl⟩
    have found := find?_marker listed rest
    obtain ⟨first, starts, apart, -⟩ := markers_start marker listed
    obtain ⟨others, spelled⟩ := List.head?_eq_some_iff.mp starts
    rw [spelled, List.cons_append] at found ⊢
    rw [qualifierLength?, if_neg (by simp [apart]), found, ← spelled, String.length_toList]
    rfl

/-- What the scanner takes is a qualifier. -/
theorem qualifierLength?_sound {text : List Char} {length : Nat}
    (scanned : qualifierLength? text = some length) :
    ∃ word rest, text = word ++ rest ∧ word ∈ qualifying ∧ word.length = length := by
  cases text with
  | nil => cases scanned
  | cons first others =>
    rw [qualifierLength?] at scanned
    split at scanned
    next letter =>
      cases scanned
      refine ⟨first :: others.takeWhile continuesIdentifier,
        others.dropWhile continuesIdentifier, ?_, .inl ?_, rfl⟩
      · rw [List.cons_append, List.takeWhile_append_dropWhile]
      · refine ⟨first, _, rfl, (startsIdentifier_iff first).mp letter, ?_⟩
        intro c hc
        exact (continuesIdentifier_iff c).mp (List.all_eq_true.mp List.all_takeWhile c hc)
    next =>
      obtain ⟨marker, found, rfl⟩ := Option.map_eq_some_iff.mp scanned
      have starts := List.find?_some found
      rw [List.isPrefixOf_iff_prefix] at starts
      obtain ⟨rest, spelled⟩ := starts
      exact ⟨marker.toList, rest, spelled.symm,
        .inr ⟨marker, List.mem_of_find?_eq_some found, rfl⟩, String.length_toList⟩

/-! ## Chains -/

/-- Qualifiers with a separator behind each. -/
def enclosing (scopes : List (List Char)) : List Char := scopes.flatMap (· ++ separator)

theorem enclosing_cons (scope : List Char) (scopes : List (List Char)) (rest : List Char) :
    enclosing (scope :: scopes) ++ rest = scope ++ (separator ++ (enclosing scopes ++ rest)) := by
  simp [enclosing]

theorem length_enclosing_cons (scope : List Char) (scopes : List (List Char)) :
    (enclosing (scope :: scopes)).length = scope.length + 2 + (enclosing scopes).length := by
  simp [enclosing, separator]
  omega

theorem qualifierLength?_separated {scope : List Char} (h : scope ∈ qualifying)
    (rest : List Char) :
    qualifierLength? (scope ++ (separator ++ rest)) = some scope.length := by
  obtain ⟨more, scanned, whole⟩ := qualifierLength?_append h (separator ++ rest)
  have stops : (separator ++ rest).takeWhile continuesIdentifier = [] := by
    rw [separator, List.cons_append, List.takeWhile_cons_of_neg (by decide)]
  rw [scanned, whole stops, Nat.add_zero]

theorem scanChain_separated {scope : List Char} (h : scope ∈ qualifying) (position : Nat)
    (repetition : Option Text.Span) (rest : List Char) :
    scanChain position repetition (scope ++ (separator ++ rest)) =
      scanChain (position + scope.length + 2) (some ⟨position, position + scope.length⟩) rest := by
  have dropped : (scope ++ (separator ++ rest)).drop scope.length = ':' :: ':' :: rest := by
    rw [List.drop_left]
    rfl
  rw [scanChain, qualifierLength?_separated h rest]
  simp only
  split
  next others behind =>
    rw [dropped] at behind
    cases behind
    rfl
  next other => exact absurd dropped (other rest)

/-- No qualifier starts with a colon. -/
theorem qualifierLength?_colon (rest : List Char) : qualifierLength? (':' :: rest) = none := by
  cases scanned : qualifierLength? (':' :: rest) with
  | none => rfl
  | some length =>
    obtain ⟨word, others, spelled, qualifies, -⟩ := qualifierLength?_sound scanned
    obtain ⟨first, more, rfl, apart⟩ := qualifying_start qualifies
    cases spelled
    contradiction

/-- A name that a separator leads has its chain behind it: the second start, at the front of the
name, never has one. -/
theorem scanName_separator (rest : List Char) :
    scanName (separator ++ rest) = scanChain 2 none rest := by
  have front : scanChain 0 none (separator ++ rest) = none := by
    rw [scanChain, separator, List.cons_append, qualifierLength?_colon]
  have tried : scanName (separator ++ rest) =
      (scanChain 2 none rest).or (scanChain 0 none (separator ++ rest)) := by
    cases behind : scanChain 2 none rest <;>
      simp [scanName, chainStarts, separator, behind]
  rw [tried, front, Option.or_none]

theorem scanName_plain {text : List Char} (plain : ¬ ∃ rest, text = separator ++ rest) :
    scanName text = scanChain 0 none text := by
  have once : chainStarts text = [0] := by
    unfold chainStarts
    split
    next rest => exact absurd ⟨rest, rfl⟩ plain
    next => rfl
  rw [scanName, once, List.findSome?_singleton, List.drop_zero]

/-- The text, which stands at position `offset`, starts with scopes and a qualifier at the span. -/
def Ends (offset : Nat) (text : List Char) (span : Text.Span) : Prop :=
  ∃ scopes last rest, text = enclosing scopes ++ (last ++ rest) ∧
    (∀ scope ∈ scopes, scope ∈ qualifying) ∧ last ∈ qualifying ∧
    span = ⟨offset + (enclosing scopes).length, offset + ((enclosing scopes).length + last.length)⟩

theorem Ends.here {word : List Char} (h : word ∈ qualifying) (offset : Nat) (rest : List Char) :
    Ends offset (word ++ rest) ⟨offset, offset + word.length⟩ :=
  ⟨[], word, rest, rfl, by simp, h, by simp [enclosing]⟩

theorem Ends.scope {scope : List Char} (h : scope ∈ qualifying) {offset : Nat} {text : List Char}
    {span : Text.Span} (ends : Ends (offset + scope.length + 2) text span) :
    Ends offset (scope ++ (separator ++ text)) span := by
  obtain ⟨scopes, last, rest, rfl, enclosed, qualifies, rfl⟩ := ends
  refine ⟨scope :: scopes, last, rest, ?_, ?_, qualifies, ?_⟩
  · rw [enclosing_cons]
  · intro other listed
    rcases List.mem_cons.mp listed with rfl | listed
    · exact h
    · exact enclosed other listed
  · rw [length_enclosing_cons]
    congr 1 <;> omega

/-- What the scanner finds ends a chain, unless it was given back. -/
theorem scanChain_sound {position : Nat} {repetition : Option Text.Span} {text : List Char}
    {span : Text.Span} (h : scanChain position repetition text = some span) :
    Ends position text span ∨ qualifierLength? text = none ∧ repetition = some span := by
  fun_induction scanChain position repetition text with
  | case1 position repetition text missing => exact .inr ⟨missing, h⟩
  | case2 position repetition text length scanned rest following ih =>
    obtain ⟨word, behind, rfl, qualifies, rfl⟩ := qualifierLength?_sound scanned
    rw [List.drop_left] at following
    subst following
    rcases ih h with ended | ⟨-, given⟩
    · exact .inl (ended.scope qualifies)
    · cases given
      exact .inl (.here qualifies position _)
  | case3 position repetition text length scanned =>
    obtain ⟨word, behind, rfl, qualifies, rfl⟩ := qualifierLength?_sound scanned
    cases h
    exact .inl (.here qualifies position behind)

/-- The scanner never stops before the qualifier that it would give back. -/
theorem le_scanChain_some {position : Nat} {given : Text.Span} (before : given.stop ≤ position)
    (text : List Char) :
    ∃ span, scanChain position (some given) text = some span ∧ given.stop ≤ span.stop := by
  -- Along the loop, the qualifier to give back ends before the text that is left.
  generalize repeated : some given = repetition
  fun_induction scanChain position repetition text generalizing given with
  | case1 => exact ⟨given, repeated.symm, Nat.le_refl _⟩
  | case2 position repetition text length scanned rest following ih =>
    obtain ⟨span, found, stops⟩ := @ih ⟨position, position + length⟩ (by simp) rfl
    simp only at stops
    exact ⟨span, found, by omega⟩
  | case3 position repetition text length scanned =>
    exact ⟨_, rfl, by simp only; omega⟩

/-- The scanner follows scopes to the qualifier behind them, and stops no earlier than at its
end. -/
theorem le_scanChain {scopes : List (List Char)} (h : ∀ scope ∈ scopes, scope ∈ qualifying)
    {last : List Char} (qualifies : last ∈ qualifying) (position : Nat)
    (repetition : Option Text.Span) (rest : List Char) :
    ∃ span, scanChain position repetition (enclosing scopes ++ (last ++ rest)) = some span ∧
      position + ((enclosing scopes).length + last.length) ≤ span.stop := by
  induction scopes generalizing position repetition with
  | nil =>
    obtain ⟨more, scanned, -⟩ := qualifierLength?_append qualifies rest
    change ∃ span, scanChain position repetition (last ++ rest) = some span ∧
      position + (0 + last.length) ≤ span.stop
    rw [scanChain, scanned]
    simp only
    split
    next others behind =>
      obtain ⟨span, found, stops⟩ := @le_scanChain_some (position + (last.length + more) + 2)
        ⟨position, position + (last.length + more)⟩ (Nat.le_add_right _ _) others
      simp only at stops
      exact ⟨span, found, by omega⟩
    next => exact ⟨_, rfl, by simp only; omega⟩
  | cons scope scopes ih =>
    have inner := ih (fun other listed => h other (List.mem_cons_of_mem _ listed))
      (position + scope.length + 2) (some ⟨position, position + scope.length⟩)
    obtain ⟨span, found, stops⟩ := inner
    refine ⟨span, ?_, ?_⟩
    · rw [enclosing_cons, scanChain_separated (h scope List.mem_cons_self), found]
    · rw [length_enclosing_cons]
      omega

/-! ## Derivations -/

/-- The optional separator before the first qualifier. -/
def leading (led : Bool) : List Char := if led then separator else []

/-- A way to read a word as a chain: whether a separator leads it, the qualifiers that a separator
follows, and the last qualifier. -/
@[ext]
structure Derivation where
  led : Bool
  scopes : List (List Char)
  last : List Char
  enclosed : ∀ scope ∈ scopes, scope ∈ qualifying
  qualifies : last ∈ qualifying

namespace Derivation

def lead (d : Derivation) : List Char := leading d.led

/-- What stands before the last qualifier. -/
def front (d : Derivation) : List Char := d.lead ++ enclosing d.scopes

def word (d : Derivation) : List Char := d.front ++ d.last

/-- Where the last qualifier stands in the word. -/
def span (d : Derivation) : Text.Span := ⟨d.front.length, d.word.length⟩

end Derivation

theorem mem_kstar_iff (word : List Char) :
    word ∈ (qualifying * {separator})∗ ↔
      ∃ scopes, (∀ scope ∈ scopes, scope ∈ qualifying) ∧ enclosing scopes = word := by
  rw [Language.mem_kstar]
  constructor
  · rintro ⟨parts, rfl, each⟩
    induction parts with
    | nil => exact ⟨[], by simp, rfl⟩
    | cons part parts ih =>
      obtain ⟨scopes, enclosed, spelled⟩ := ih fun other listed =>
        each other (List.mem_cons_of_mem _ listed)
      obtain ⟨scope, qualifies, _, rfl, rfl⟩ := Language.mem_mul.mp (each part List.mem_cons_self)
      refine ⟨scope :: scopes, ?_, ?_⟩
      · intro other listed
        rcases List.mem_cons.mp listed with rfl | listed
        · exact qualifies
        · exact enclosed other listed
      · rw [List.flatten_cons, ← spelled]
        rfl
  · rintro ⟨scopes, enclosed, rfl⟩
    refine ⟨scopes.map (· ++ separator), List.flatMap_def .., ?_⟩
    intro part listed
    obtain ⟨scope, member, rfl⟩ := List.mem_map.mp listed
    exact Language.mem_mul.mpr ⟨scope, enclosed scope member, separator, rfl, rfl⟩

/-- The chains are the words that can be read. -/
theorem mem_chains_iff (word : List Char) : word ∈ chains ↔ ∃ d : Derivation, d.word = word := by
  constructor
  · intro h
    obtain ⟨front, leads, last, qualifies, rfl⟩ := Language.mem_mul.mp h
    obtain ⟨lead, optional, middle, repeats, rfl⟩ := Language.mem_mul.mp leads
    obtain ⟨scopes, enclosed, rfl⟩ := (mem_kstar_iff middle).mp repeats
    rcases optional with rfl | rfl
    · exact ⟨⟨false, scopes, last, enclosed, qualifies⟩, rfl⟩
    · exact ⟨⟨true, scopes, last, enclosed, qualifies⟩, rfl⟩
  · rintro ⟨⟨led, scopes, last, enclosed, qualifies⟩, rfl⟩
    have middle := (mem_kstar_iff _).mpr ⟨scopes, enclosed, rfl⟩
    apply Language.mem_mul.mpr
    refine ⟨_, Language.mem_mul.mpr ⟨_, ?_, _, middle, rfl⟩, last, qualifies, rfl⟩
    cases led with
    | false => exact .inl rfl
    | true => exact .inr rfl

/-- Scopes and a last qualifier can be told from their text. -/
theorem enclosing_inj {scopes others : List (List Char)} {last final : List Char}
    (h : ∀ scope ∈ scopes, scope ∈ qualifying) (h' : ∀ scope ∈ others, scope ∈ qualifying)
    (hl : last ∈ qualifying) (hf : final ∈ qualifying)
    (same : enclosing scopes ++ last = enclosing others ++ final) :
    scopes = others ∧ last = final := by
  -- A qualifier that a separator follows cannot be the whole text of one.
  have whole {word scope rest : List Char} (hw : word ∈ qualifying) (hs : scope ∈ qualifying) :
      word ≠ scope ++ (separator ++ rest) := by
    rintro rfl
    obtain ⟨more, scanned, -⟩ := qualifierLength?_append hw []
    rw [List.append_nil, qualifierLength?_separated hs, Option.some.injEq] at scanned
    simp only [separator, List.length_append, List.length_cons] at scanned
    omega
  induction scopes generalizing others with
  | nil =>
    cases others with
    | nil => exact ⟨rfl, same⟩
    | cons other others =>
      rw [enclosing_cons] at same
      exact absurd same (whole hl (h' other List.mem_cons_self))
  | cons scope scopes ih =>
    cases others with
    | nil =>
      rw [enclosing_cons] at same
      exact absurd same.symm (whole hf (h scope List.mem_cons_self))
    | cons other others =>
      rw [enclosing_cons, enclosing_cons] at same
      have lengths := congrArg qualifierLength? same
      rw [qualifierLength?_separated (h scope List.mem_cons_self),
        qualifierLength?_separated (h' other List.mem_cons_self), Option.some.injEq] at lengths
      obtain ⟨rfl, rest⟩ := List.append_inj same lengths
      obtain ⟨rfl, rfl⟩ := ih (fun other listed => h other (List.mem_cons_of_mem _ listed))
        (fun other listed => h' other (List.mem_cons_of_mem _ listed))
        (List.append_cancel_left rest)
      exact ⟨rfl, rfl⟩

namespace Derivation

/-- Behind its lead a chain starts with a qualifier, so with no colon. -/
theorem behind_lead (d : Derivation) (rest : List Char) :
    ∃ first others, enclosing d.scopes ++ (d.last ++ rest) = first :: others ∧ first ≠ ':' := by
  cases listed : d.scopes with
  | nil =>
    obtain ⟨first, others, spelled, apart⟩ := qualifying_start d.qualifies
    exact ⟨first, others ++ rest, by rw [spelled]; rfl, apart⟩
  | cons scope scopes =>
    have member : scope ∈ d.scopes := listed ▸ List.mem_cons_self
    obtain ⟨first, others, spelled, apart⟩ := qualifying_start (d.enclosed scope member)
    exact ⟨first, _, by rw [enclosing_cons, spelled]; rfl, apart⟩

theorem word_append (d : Derivation) (rest : List Char) :
    d.word ++ rest = d.lead ++ (enclosing d.scopes ++ (d.last ++ rest)) := by
  simp only [word, front, List.append_assoc]

theorem scanName_word (d : Derivation) (rest : List Char) :
    scanName (d.word ++ rest) =
      scanChain d.lead.length none (enclosing d.scopes ++ (d.last ++ rest)) := by
  rw [word_append]
  cases led : d.led with
  | true =>
    rw [lead, led]
    exact scanName_separator _
  | false =>
    obtain ⟨first, others, spelled, apart⟩ := d.behind_lead rest
    rw [lead, led, leading, if_neg Bool.false_ne_true, List.nil_append, spelled]
    apply scanName_plain
    rintro ⟨more, same⟩
    cases same
    contradiction

theorem led_iff (d : Derivation) : d.led = true ↔ d.word.head? = some ':' := by
  rw [← List.append_nil d.word, word_append]
  cases led : d.led with
  | true => simp [lead, led, leading, separator]
  | false =>
    obtain ⟨first, others, spelled, apart⟩ := d.behind_lead []
    rw [lead, led, leading, if_neg Bool.false_ne_true, List.nil_append, spelled]
    simp [apart]

/-- No word can be read in two ways. -/
theorem word_injective : Function.Injective word := by
  intro d e same
  have led : d.led = e.led := by
    rw [Bool.eq_iff_iff, led_iff, led_iff, same]
  have leads : d.lead = e.lead := by
    rw [lead, lead, led]
  rw [word, word, front, front, leads, List.append_assoc, List.append_assoc] at same
  obtain ⟨scopes, last⟩ := enclosing_inj d.enclosed e.enclosed d.qualifies e.qualifies
    (List.append_cancel_left same)
  exact Derivation.ext led scopes last

/-- A derivation of the longest chain that a text starts with. -/
def Longest (d : Derivation) (text : List Char) : Prop :=
  d.word <+: text ∧ ∀ word ∈ chains, word <+: text → word.length ≤ d.word.length

theorem front_length_lt (d : Derivation) : d.front.length < d.word.length := by
  obtain ⟨first, rest, spelled, -⟩ := qualifying_start d.qualifies
  simp [word, spelled]

theorem byteLength_front_lt (d : Derivation) :
    Text.byteLength d.front < Text.byteLength d.word := by
  obtain ⟨first, rest, spelled, -⟩ := qualifying_start d.qualifies
  have positive := first.utf8Size_pos
  rw [word, Text.byteLength_append, spelled, Text.byteLength]
  omega

theorem slice_span (d : Derivation) (rest : List Char) :
    d.span.slice (d.word ++ rest) = d.last := by
  rw [span, Text.Span.slice, word, List.append_assoc, List.drop_left, List.length_append,
    Nat.add_sub_cancel_left, List.take_left]

theorem bytes_span (d : Derivation) (rest : List Char) :
    d.span.bytes (d.word ++ rest) = (Text.byteLength d.front, Text.byteLength d.word) := by
  rw [span, Text.Span.bytes, Text.Span.byteOffset, Text.Span.byteOffset, List.take_left, word,
    List.append_assoc, List.take_left]

end Derivation

/-! ## The scanned head -/

theorem Ends.derivation (led : Bool) {text : List Char} {span : Text.Span}
    (ends : Ends (leading led).length text span) :
    ∃ (d : Derivation) (rest : List Char), leading led ++ text = d.word ++ rest ∧
      span = d.span := by
  obtain ⟨scopes, last, rest, rfl, enclosed, qualifies, rfl⟩ := ends
  refine ⟨⟨led, scopes, last, enclosed, qualifies⟩, rest, ?_, ?_⟩
  · rw [Derivation.word_append]
    rfl
  · simp only [Derivation.span, Derivation.word, Derivation.front, Derivation.lead,
      List.length_append, Nat.add_assoc]

theorem scanName_sound {text : List Char} {span : Text.Span} (h : scanName text = some span) :
    ∃ (d : Derivation) (rest : List Char), text = d.word ++ rest ∧ span = d.span := by
  have ends {position : Nat} {behind : List Char}
      (found : scanChain position none behind = some span) : Ends position behind span := by
    rcases scanChain_sound found with ended | ⟨-, given⟩
    · exact ended
    · cases given
  by_cases led : ∃ rest, text = separator ++ rest
  · obtain ⟨rest, rfl⟩ := led
    rw [scanName_separator] at h
    exact Ends.derivation true (ends h)
  · rw [scanName_plain led] at h
    exact Ends.derivation false (ends h)

theorem le_scanName (d : Derivation) (rest : List Char) :
    ∃ span, scanName (d.word ++ rest) = some span ∧ d.word.length ≤ span.stop := by
  obtain ⟨span, found, stops⟩ := le_scanChain d.enclosed d.qualifies d.lead.length none rest
  refine ⟨span, ?_, ?_⟩
  · rw [d.scanName_word, found]
  · rw [Derivation.word, Derivation.front, List.length_append, List.length_append]
    omega

theorem head?_of_chain {name : String} {word : List Char} (h : word ∈ chains)
    (starts : word <+: name.toList) : ∃ span, head? name = some span ∧ word.length ≤ span.stop := by
  obtain ⟨d, rfl⟩ := (mem_chains_iff word).mp h
  obtain ⟨rest, spelled⟩ := starts
  rw [head?, ← spelled]
  exact le_scanName d rest

theorem longest_of_head? {name : String} {span : Text.Span} (h : head? name = some span) :
    ∃ (d : Derivation) (rest : List Char), name.toList = d.word ++ rest ∧ span = d.span ∧
      d.Longest name.toList := by
  obtain ⟨d, rest, spelled, rfl⟩ := scanName_sound h
  refine ⟨d, rest, spelled, rfl, ⟨rest, spelled.symm⟩, ?_⟩
  intro word chained starts
  obtain ⟨other, found, reaches⟩ := head?_of_chain chained starts
  rw [h] at found
  cases found
  exact reaches

/-- **The head of a name is the last qualifier of the longest chain it starts with.** A name has a
head exactly if it starts with a chain. The head is then where the longest such chain, which can be
read in one way only, has its last qualifier; it is not empty, and starts and stops between two
characters. Any other name is not recognised, and nothing of it is emphasised, at its end. -/
theorem head_longest (name : String) :
    ((∃ span, head name = .ok span) ↔ ∃ word ∈ chains, word <+: name.toList) ∧
    (∀ span, head name = .ok span →
      emphasis name = span ∧
      ∃ d : Derivation, d.Longest name.toList ∧
        (∀ other : Derivation, other.word = d.word → other = d) ∧
        span = d.span ∧ span.slice name.toList = d.last ∧
        span.bytes name.toList = (Text.byteLength d.front, Text.byteLength d.word) ∧
        span.start < span.stop ∧ Text.byteLength d.front < Text.byteLength d.word ∧
        String.Pos.Raw.IsValid name ⟨(span.bytes name.toList).1⟩ ∧
        String.Pos.Raw.IsValid name ⟨(span.bytes name.toList).2⟩) ∧
    (∀ fault, head name = .error fault →
      fault = .unrecognizedName name ∧ emphasis name = .atEnd name.toList ∧
      (emphasis name).bytes name.toList = (name.utf8ByteSize, name.utf8ByteSize)) := by
  cases found : head? name with
  | some span =>
    have made : head name = .ok span := by rw [head, found]
    obtain ⟨d, rest, spelled, rfl, longest⟩ := longest_of_head? found
    refine ⟨⟨?_, ?_⟩, ?_, ?_⟩
    · intro _
      exact ⟨d.word, (mem_chains_iff _).mpr ⟨d, rfl⟩, longest.1⟩
    · intro _
      exact ⟨d.span, made⟩
    · intro span' same
      rw [made] at same
      cases same
      refine ⟨by rw [emphasis, found]; rfl, d, longest, ?_, rfl, ?_, ?_, d.front_length_lt,
        d.byteLength_front_lt, Text.Span.byteOffset_valid name _,
        Text.Span.byteOffset_valid name _⟩
      · intro other equal
        exact Derivation.word_injective equal
      · rw [spelled, d.slice_span]
      · rw [spelled, d.bytes_span]
    · intro fault failed
      rw [made] at failed
      cases failed
  | none =>
    have failed : head name = .error (.unrecognizedName name) := by rw [head, found]
    have last : emphasis name = .atEnd name.toList := by rw [emphasis, found]; rfl
    refine ⟨⟨?_, ?_⟩, ?_, ?_⟩
    · rintro ⟨span, made⟩
      rw [failed] at made
      cases made
    · rintro ⟨word, chained, starts⟩
      obtain ⟨span, made, -⟩ := head?_of_chain chained starts
      rw [found] at made
      cases made
    · intro span made
      rw [failed] at made
      cases made
    · intro fault same
      rw [failed] at same
      cases same
      refine ⟨rfl, last, ?_⟩
      rw [last, Text.Span.atEnd, Text.Span.bytes, Text.Span.byteOffset, List.take_length,
        ← Text.utf8ByteSize_ofList, String.ofList_toList]

-- A separator without a qualifier behind it is given back.
example : head "::a::<anonymous struct>::é" = .ok ⟨5, 23⟩ := by decide +kernel

end NameHead

end TemplateTrace
