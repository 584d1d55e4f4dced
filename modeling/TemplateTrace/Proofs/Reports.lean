import TemplateTrace.Encoding.Event
import TemplateTrace.Proofs.Written

namespace TemplateTrace

open Json (Error Node Value Items Entries Gap Apart Plain Written WrittenItems)

/-! ## Decoding what was encoded -/

namespace Json.Value

theorem asWord32_ofNat (n : UInt32) : Value.asWord32 (.ofNat n.toNat) = .ok n := by
  have small : n.toNat < UInt32.size := n.toNat_lt
  simp [Value.asWord32, Value.ofNat, Number.word32, small]

theorem asOption_ofOption {α : Type} {write : α → Value} {read : Value → Except Error α}
    (back : ∀ a, read (write a) = .ok a) (something : ∀ a, write a ≠ .null) (option : Option α) :
    Value.asOption read (.ofOption write option) = .ok option := by
  cases option with
  | none => rfl
  | some a =>
    have whole : Value.asOption read (write a) = (read (write a)).map some := by
      cases written : write a with
      | null => exact absurd written (something a)
      | boolean | number | string | list | map => rfl
    rw [Value.ofOption, whole, back]
    rfl

end Json.Value

/-- The items of a list are read back if each of them is. -/
theorem Json.readAll_nodeItems {α : Type} {write : α → Value} {read : Node → Except Error α}
    (back : ∀ a, read (write a).node = .ok a) (list : List α) :
    (nodeItems (list.map write)).readAll read = .ok list := by
  induction list with
  | nil => rfl
  | cons a rest ih =>
    rw [List.map_cons, nodeItems, Items.readAll, back, ih]
    rfl

theorem Json.plain_word {levels : Nat} (n : UInt32) : Plain levels (.ofNat n.toNat) :=
  .natural (Nat.lt_trans n.toNat_lt (by decide))

namespace Location

theorem ofValue_toValue (location : Location) : ofValue location.toValue = .ok location := by
  simp [ofValue, toValue, Json.Shape.ofValue, shape, Json.readEntries, Json.Field.slot,
    Value.asString, Json.Value.asWord32_ofNat, Except.map, Json.required, bind, Except.bind,
    pure, Except.pure]

theorem toValue_plain (location : Location) (levels : Nat) :
    Plain (levels + 1) location.toValue := by
  apply Plain.map
  intro entry listed
  simp only [List.mem_cons, List.not_mem_nil, or_false] at listed
  rcases listed with rfl | rfl | rfl
  · exact .string location.file
  · exact Json.plain_word location.line
  · exact Json.plain_word location.column

theorem ofOption_plain (location : Option Location) (levels : Nat) :
    Plain (levels + 1) (.ofOption toValue location) := by
  cases location with
  | none => exact .null
  | some location => exact location.toValue_plain levels

end Location

namespace Event

theorem collect_some {levels : Nat} (phase : Phase) {fields : List (String × Value)}
    (foreign : ∀ field ∈ fields, field.1 ≠ Phase.key)
    (plain : ∀ field ∈ fields, Plain levels field.2) :
    collect levels (some phase) (Json.nodeEntries fields) = .ok (some phase, fields) := by
  induction fields with
  | nil => rfl
  | cons field rest ih =>
    obtain ⟨name, value⟩ := field
    have other : name ≠ Phase.key := foreign (name, value) (by simp)
    have read : value.node.value levels = .ok value := (plain (name, value) (by simp)).value
    have others := ih (fun field listed => foreign field (by simp [listed]))
      (fun field listed => plain field (by simp [listed]))
    simp only [Json.nodeEntries, collect, Json.Lexeme.sound, bind, Except.bind, other, ↓reduceIte,
      read, others]
    rfl

/-- The fields of an event behind its phase. -/
def fieldsOf : Event → List (String × Value)
  | .enter name kind location =>
    [("name", .string name), ("kind", kind.toValue),
      ("location", .ofOption Location.toValue location)]
  | .leave => []

def phaseOf : Event → Phase
  | .enter _ _ _ => .enter
  | .leave => .leave

theorem toValue_eq (event : Event) :
    event.toValue = .map ((Phase.key, .string event.phaseOf.name) :: event.fieldsOf) := by
  cases event <;> rfl

theorem ofFields_fieldsOf (event : Event) : ofFields event.phaseOf event.fieldsOf = .ok event := by
  cases event with
  | leave => rfl
  | enter name kind location =>
    have kindBack : Kind.choice.ofValue kind.toValue = .ok kind := by
      simp [Kind.choice, Json.Choice.ofValue, Kind.toValue, Json.Choice.ofName, Kind.ofName?_name]
    have locationBack : Value.asOption Location.ofValue (.ofOption Location.toValue location) =
        .ok location :=
      Json.Value.asOption_ofOption Location.ofValue_toValue (by nofun) location
    simp [phaseOf, fieldsOf, ofFields, shape, Json.readEntries, Json.Field.slot, Value.asString,
      kindBack, locationBack, Except.map, Json.required, bind, Except.bind, pure, Except.pure]

theorem fieldsOf_plain (event : Event) (levels : Nat) :
    ∀ field ∈ event.fieldsOf, Plain (levels + 1) field.2 := by
  cases event with
  | leave => simp [fieldsOf]
  | enter name kind location =>
    simp only [fieldsOf, List.mem_cons, List.not_mem_nil, or_false]
    rintro field (rfl | rfl | rfl)
    · exact .string name
    · exact .string kind.name
    · exact Location.ofOption_plain location levels

theorem fieldsOf_foreign (event : Event) : ∀ field ∈ event.fieldsOf, field.1 ≠ Phase.key := by
  cases event with
  | leave => simp [fieldsOf]
  | enter => simp [fieldsOf, Phase.key]

theorem toValue_plain (event : Event) (levels : Nat) : Plain (levels + 2) event.toValue := by
  rw [toValue_eq]
  apply Plain.map
  intro field listed
  rcases List.mem_cons.mp listed with rfl | listed
  · exact .string event.phaseOf.name
  · exact event.fieldsOf_plain levels field listed

theorem ofKey_name (phase : Phase) :
    Phase.choice.ofKey (.string (.sound phase.name)) = .ok phase := by
  cases phase <;> rfl

/-- An event is read back from its node, as long as two more levels may be opened. -/
theorem ofNode_toValue (event : Event) (levels : Nat) :
    ofNode (levels + 2) event.toValue.node = .ok event := by
  have collected : collect (levels + 1) none
      (Json.nodeEntries ((Phase.key, .string event.phaseOf.name) :: event.fieldsOf)) =
      .ok (some event.phaseOf, event.fieldsOf) := by
    simp only [Json.nodeEntries, Value.node, collect, Json.Lexeme.sound_read, bind, Except.bind,
      ↓reduceIte, ofKey_name]
    exact collect_some event.phaseOf event.fieldsOf_foreign (event.fieldsOf_plain levels)
  rw [toValue_eq, Value.node, ofNode, Json.enterLevel]
  simp only [bind, Except.bind, ofEntries, collected, Json.required]
  exact event.ofFields_fieldsOf

theorem mapM_ofNode (events : List Event) (levels : Nat) :
    (events.map fun event => event.toValue.node).mapM (ofNode (levels + 2)) = .ok events := by
  induction events with
  | nil => rfl
  | cons event rest ih =>
    rw [List.map_cons, List.mapM_cons, ofNode_toValue, ih]
    rfl

theorem readAll_ofNode (events : List Event) (levels : Nat) :
    (Json.nodeItems (events.map toValue)).readAll (ofNode (levels + 2)) = .ok events :=
  Json.readAll_nodeItems (fun event => event.ofNode_toValue levels) events

/-! ## Reports -/

/-- An event with white space around it. -/
structure Spaced where
  before : Gap
  event : Event
  after : Gap

namespace Spaced

def text (spaced : Spaced) : List Char :=
  spaced.before.text ++ spaced.event.toValue.compact ++ spaced.after.text

theorem written (spaced : Spaced) : Written spaced.text spaced.event.toValue.node :=
  (spaced.event.toValue_plain 0).written.spaced spaced.before spaced.after

/-- Behind its white space an event starts with a brace. -/
theorem text_eq (spaced : Spaced) :
    ∃ body, spaced.text = spaced.before.text ++ '\x7b' :: body := by
  rw [text, toValue_eq, Value.compact, List.append_assoc]
  exact ⟨_, rfl⟩

theorem apart (spaced : Spaced) : Apart spaced.text := by
  obtain ⟨body, shown⟩ := spaced.text_eq
  rw [shown]
  exact spaced.before.apart.append (.cons (by decide) (by decide) body)

end Spaced

/-- A report of events one after another. -/
def stream (lead : Gap) (entries : List Spaced) : List Char :=
  lead.text ++ entries.flatMap Spaced.text

/-- A report of events in one list. -/
def listing (lead inner : Gap) (entries : List Spaced) (trail : Gap) : List Char :=
  lead.text ++ ('[' :: (inner.text ++ [','].intercalate (entries.map Spaced.text) ++ [']'])) ++
    trail.text

theorem apart_flatMap (entries : List Spaced) : Apart (entries.flatMap Spaced.text) := by
  induction entries with
  | nil => exact Apart.nil
  | cons spaced rest ih => exact spaced.apart.append ih

theorem run_flatMap (entries : List Spaced) (done : List Node) :
    (Json.Reading.between done).run (entries.flatMap Spaced.text) =
      .between ((entries.map fun spaced => spaced.event.toValue.node).reverse ++ done) := by
  induction entries generalizing done with
  | nil => rw [List.flatMap_nil, Json.Reading.run, Json.tokens]; rfl
  | cons spaced rest ih =>
    rw [List.flatMap_cons, spaced.written (.between done) (apart_flatMap rest)]
    exact (ih _).trans (by simp)

theorem nodes_stream (lead : Gap) (entries : List Spaced) :
    Json.nodes (String.ofList (stream lead entries)) =
      (entries.map Spaced.event).map fun event => event.toValue.node := by
  rw [Json.nodes_eq, stream, Json.Reading.run_gap, run_flatMap]
  simp [Json.Reading.finish]

theorem writtenItems_entries {entries : List Spaced} (some : entries ≠ []) :
    WrittenItems ([','].intercalate (entries.map Spaced.text) ++ [']'])
      (Json.nodeItems (entries.map fun spaced => spaced.event.toValue)) := by
  induction entries with
  | nil => contradiction
  | cons spaced rest ih =>
    cases rest with
    | nil =>
      rw [List.map_singleton, List.intercalate_singleton]
      exact .last spaced.written
    | cons next rest =>
      have others := ih (by simp)
      simp only [List.map_cons, List.intercalate_cons_cons, List.append_assoc,
        List.singleton_append] at others ⊢
      exact .more spaced.written others

theorem written_listing (lead inner : Gap) (entries : List Spaced) (trail : Gap) :
    Written (listing lead inner entries trail)
      (.list (Json.nodeItems (entries.map fun spaced => spaced.event.toValue))) := by
  apply Written.spaced
  cases entries with
  | nil => simpa [Json.nodeItems] using Written.emptyList inner
  | cons spaced rest =>
    rw [List.append_assoc]
    exact .list ((writtenItems_entries (by simp)).spaced inner)

theorem isBlank_of_isSpace {c : Char} (space : Json.isSpace c = true) : Text.isBlank c = true := by
  simp only [Json.isSpace, Bool.or_eq_true, beq_iff_eq] at space
  rcases space with ((rfl | rfl) | rfl) | rfl <;> decide

theorem trimStart_gap (gap : Gap) (rest : List Char) :
    Text.trimStart (gap.text ++ rest) = Text.trimStart rest :=
  List.dropWhile_append_of_pos fun c listed => isBlank_of_isSpace (gap.spaces c listed)

theorem isList_stream (lead : Gap) (entries : List Spaced) :
    isList (String.ofList (stream lead entries)) = false := by
  rw [isList, String.toList_ofList, stream, trimStart_gap]
  cases entries with
  | nil => rfl
  | cons spaced rest =>
    obtain ⟨body, shown⟩ := spaced.text_eq
    rw [List.flatMap_cons, shown, List.append_assoc, trimStart_gap]
    rfl

theorem isList_listing (lead inner : Gap) (entries : List Spaced) (trail : Gap) :
    isList (String.ofList (listing lead inner entries trail)) = true := by
  rw [isList, String.toList_ofList, listing, List.append_assoc, trimStart_gap]
  rfl

theorem readBytes_toUTF8 (text : String) : readBytes text.toUTF8 = readReport text := by
  have valid : text.toUTF8.IsValidUTF8 := text.isValidUTF8
  have back : String.fromUTF8? text.toUTF8 = some text := by
    rw [String.fromUTF8?, dif_pos valid]
    rfl
  rw [readBytes, back]

/-- Events are read back from both kinds of report, with any white space where it is allowed. -/
theorem readBytes_written (entries : List Spaced) (lead inner trail : Gap) :
    readBytes (String.ofList (stream lead entries)).toUTF8 = .ok (entries.map Spaced.event) ∧
    readBytes (String.ofList (listing lead inner entries trail)).toUTF8 =
      .ok (entries.map Spaced.event) := by
  constructor
  · rw [readBytes_toUTF8, readReport, isList_stream, nodes_stream]
    exact mapM_ofNode _ 125
  · rw [readBytes_toUTF8, readReport, isList_listing, if_pos rfl, Json.readOne,
      (written_listing lead inner entries trail).nodes]
    have items := readAll_ofNode (entries.map Spaced.event) 124
    rw [List.map_map] at items
    exact items

example :
    listing .empty .empty [⟨.empty, .enter "\"\x01" .memoization none, .empty⟩] .empty =
    ("[\x7b\"phase\":\"begin\",\"name\":\"\\\"\\u0001\",\"kind\":\"Memoization\"," ++
      "\"location\":null\x7d]").toList := by
  decide +kernel

end Event

end TemplateTrace
