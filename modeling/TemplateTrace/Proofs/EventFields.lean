import Mathlib
import TemplateTrace.Proofs.Records

namespace TemplateTrace

open Json (Error Field Node Value Entries Gap Part Bears Held Written WrittenEntries known)

namespace Json

/-! ## Nesting -/

mutual

/-- How many lists and maps are open at once at most. -/
def Value.depth : Value → Nat
  | .null | .boolean _ | .number _ | .string _ => 0
  | .list items => depthItems items + 1
  | .map entries => depthEntries entries + 1

def depthItems : List Value → Nat
  | [] => 0
  | item :: rest => max item.depth (depthItems rest)

def depthEntries : List (String × Value) → Nat
  | [] => 0
  | (_, value) :: rest => max value.depth (depthEntries rest)

end

theorem enterLevel_of_lt {depth few : Nat} (room : depth + 1 ≤ few) :
    ∃ fewer, enterLevel few = .ok fewer ∧ depth ≤ fewer := by
  obtain ⟨fewer, rfl⟩ : ∃ fewer, few = fewer + 1 := ⟨few - 1, by omega⟩
  exact ⟨fewer, rfl, by omega⟩

mutual

/-- A value is read with as many levels as it nests, whatever it was read with before. -/
theorem Node.value_of_depth {levels few : Nat} :
    (node : Node) → {value : Value} → node.value levels = .ok value → value.depth ≤ few →
      node.value few = .ok value
  | .flawed _, _, read, _ => by rw [Node.value] at read; contradiction
  | .null, _, read, _ | .boolean _, _, read, _ | .number _, _, read, _ | .string _, _, read, _ => by
    rw [Node.value] at read ⊢
    exact read
  | .list items, _, read, room => by
    rw [Node.value] at read ⊢
    obtain ⟨_, -, read⟩ := ok_of_bind read
    obtain ⟨values, found, made⟩ := ok_of_bind read
    cases made
    obtain ⟨fewer, entered, room⟩ := enterLevel_of_lt room
    simp only [entered, bind, Except.bind, items.values_of_depth found room]
    rfl
  | .map entries, _, read, room => by
    rw [Node.value] at read ⊢
    obtain ⟨_, -, read⟩ := ok_of_bind read
    obtain ⟨values, found, made⟩ := ok_of_bind read
    cases made
    obtain ⟨fewer, entered, room⟩ := enterLevel_of_lt room
    simp only [entered, bind, Except.bind, entries.values_of_depth found room]
    rfl

theorem Items.values_of_depth {levels few : Nat} :
    (items : Items) → {values : List Value} → items.values levels = .ok values →
      depthItems values ≤ few → items.values few = .ok values
  | .closed, _, read, _ => by rw [Items.values] at read ⊢; exact read
  | .broken _, _, read, _ => by rw [Items.values] at read; contradiction
  | .cons item rest, _, read, room => by
    rw [Items.values] at read ⊢
    obtain ⟨value, first, read⟩ := ok_of_bind read
    obtain ⟨others, found, made⟩ := ok_of_bind read
    cases made
    obtain ⟨shallow, room⟩ := Nat.max_le.mp room
    rw [item.value_of_depth first shallow, rest.values_of_depth found room]
    rfl

theorem Entries.values_of_depth {levels few : Nat} :
    (entries : Entries) → {values : List (String × Value)} →
      entries.values levels = .ok values → depthEntries values ≤ few →
      entries.values few = .ok values
  | .closed, _, read, _ => by rw [Entries.values] at read ⊢; exact read
  | .broken _, _, read, _ => by rw [Entries.values] at read; contradiction
  | .cons key node rest, _, read, room => by
    rw [Entries.values] at read ⊢
    obtain ⟨name, spelled, read⟩ := ok_of_bind read
    obtain ⟨value, first, read⟩ := ok_of_bind read
    obtain ⟨others, found, made⟩ := ok_of_bind read
    cases made
    obtain ⟨shallow, room⟩ := Nat.max_le.mp room
    rw [spelled, node.value_of_depth first shallow, rest.values_of_depth found room]
    rfl

end

/-! ## Maps of texts -/

/-- A field of a map: the texts of its key and of its value, white space included, and what they are
read as on their own. The map is open around the value, so there is room for one level less. -/
structure Member where
  key : String
  name : String
  spelled : readOne Node.asString key = .ok name
  value : String
  content : Value
  accepted : Value.ofText value = .ok content
  shallow : content.depth < nestingLimit

namespace Member

def text (member : Member) : List Char := member.key.toList ++ ':' :: member.value.toList

def entry (member : Member) : String × Value := (member.name, member.content)

/-- The text of a map with these members, and white space around it. -/
def object (before : Gap) (members : List Member) (after : Gap) : List Char :=
  before.text ++ ('\x7b' :: ([','].intercalate (members.map text) ++ ['\x7d'])) ++ after.text

theorem written (member : Member) :
    ∃ lexeme node, Spelled member.key.toList lexeme ∧ Written member.value.toList node ∧
      lexeme.read = .ok member.name ∧ node.value (nestingLimit - 1) = .ok member.content := by
  obtain ⟨lexeme, named, spelled⟩ := Spelled.ofText member.spelled
  obtain ⟨node, read, written⟩ := Written.ofText member.accepted
  exact ⟨lexeme, node, spelled, written, named,
    node.value_of_depth read (Nat.le_sub_one_of_lt member.shallow)⟩

theorem writtenEntries {members : List Member} (some : members ≠ []) :
    ∃ entries, WrittenEntries ([','].intercalate (members.map text) ++ ['\x7d']) entries ∧
      entries.values (nestingLimit - 1) = .ok (members.map entry) := by
  induction members with
  | nil => contradiction
  | cons member rest ih =>
    obtain ⟨lexeme, node, spelled, written, named, read⟩ := member.written
    cases rest with
    | nil =>
      refine ⟨.cons lexeme node .closed, ?_, ?_⟩
      · rw [List.map_singleton, List.intercalate_singleton, text]
        exact .last spelled written
      · rw [Entries.values, named, read]
        rfl
    | cons next others =>
      obtain ⟨entries, behind, values⟩ := ih (by simp)
      refine ⟨.cons lexeme node entries, ?_, ?_⟩
      · rw [List.map_cons] at behind
        rw [List.map_cons, List.map_cons, List.intercalate_cons_cons, List.append_assoc,
          List.append_assoc, text]
        exact .more spelled written behind
      · rw [Entries.values, named, read, values]
        rfl

theorem nodes_object (before after : Gap) {members : List Member} (some : members ≠ []) :
    ∃ entries, nodes (String.ofList (object before members after)) = [.map entries] ∧
      entries.values (nestingLimit - 1) = .ok (members.map entry) := by
  obtain ⟨entries, written, values⟩ := writtenEntries some
  exact ⟨entries, ((Written.map written).spaced before after).nodes, values⟩

end Member

end Json

/-! ## Locations as values -/

namespace Location

theorem ofValue_held {location : Location} {value : Value} (held : Held location.parts value) :
    ofValue value = .ok location := by
  refine (follows ?_ ?_ location).ofValue held
  · rintro _ text rfl
    rfl
  · rintro _ n rfl
    exact Value.asWord32_ofNat n

theorem asOption_held {location : Option Location} {value : Value}
    (held : Json.Maybe (fun location => Held location.parts) location value) :
    Value.asOption ofValue value = .ok location := by
  cases location with
  | none => rw [show value = .null from held]; rfl
  | some location =>
    have whole : Value.asOption ofValue value = (ofValue value).map some := by
      cases held <;> rfl
    rw [whole, ofValue_held held]
    rfl

end Location

/-! ## Events -/

namespace Event

/-- The parts of an event besides its phase. -/
def payload : Event → List Part
  | .enter name kind location =>
    [⟨"name", (· = .string name), False⟩, ⟨"kind", kind.Spells, False⟩,
      ⟨"location", Json.Maybe (fun location => Held location.parts) location, location = none⟩]
  | .leave => []

/-- The parts of an event. One that leaves has no others than its phase. -/
def parts (event : Event) : List Part :=
  ⟨Phase.key, (· = .string event.phaseOf.name), False⟩ :: event.payload

def sofar (name : String) (kind : Kind) (location : Option Location) (seen : List String) :
    Fields :=
  ⟨known seen "name" name, known seen "kind" kind, known seen "location" location⟩

theorem follows (name : String) (kind : Kind) (location : Option Location) :
    shape.Follows Eq (sofar name kind location) (payload (.enter name kind location))
      (.enter name kind location) where
  blank := rfl
  fields := by
    refine .cons (Field.reads_value (fun _ => rfl) ?_ ?_)
      (.cons (Field.reads_slot (fun _ => rfl) ?_ ?_)
      (.cons (Field.reads_slot (fun _ => rfl) ?_ ?_) .nil))
    case refine_2 => rintro _ rfl; rfl
    case refine_4 => rintro _ _ rfl; exact Kind.ofValue_spells
    case refine_6 => rintro _ _ rfl; exact Location.asOption_held
    all_goals simp [sofar, Json.known_other]
  distinct := by simp [payload]
  build := by
    intro seen complete
    simp only [payload, List.forall_mem_cons, or_false] at complete
    obtain ⟨name, kind, location, -⟩ := complete
    simp only [shape, sofar, Json.known_of_mem name, Json.known_of_mem kind,
      Json.join_known location]
    rfl

theorem ofFields_of_bears {event : Event} {fields : List (String × Value)}
    (bears : Bears event.payload fields) : ofFields event.phaseOf fields = .ok event := by
  cases event with
  | leave => rfl
  | enter name kind location => exact (follows name kind location).ofEntries bears

theorem ofKey_of_value {node : Node} {levels : Nat} {phase : Phase}
    (read : node.value levels = .ok (.string phase.name)) :
    Phase.choice.ofKey node = .ok phase := by
  cases Node.has_of_value read with
  | string spelled =>
    rw [Json.Choice.ofKey, spelled]
    cases phase <;> rfl

/-- Fields that are not the phase are kept. -/
theorem collect_others {levels : Nat} (phase : Option Phase) {entries : Entries}
    {values : List (String × Value)} (read : entries.values levels = .ok values)
    (others : Phase.key ∉ values.map Prod.fst) :
    collect levels phase entries = .ok (phase, values) := by
  induction values generalizing entries with
  | nil =>
    rw [Entries.closed_of_values read]
    rfl
  | cons entry rest ih =>
    obtain ⟨name, value⟩ := entry
    obtain ⟨key, node, behind, rfl, spelled, first, after⟩ := Entries.cons_of_values read
    rw [List.map_cons, List.mem_cons, not_or] at others
    simp only [collect, spelled, first, ih after others.2, bind, Except.bind, Ne.symm others.1,
      ↓reduceIte]
    rfl

def withoutPhase (fields : List (String × Value)) : List (String × Value) :=
  fields.filter fun field => field.1 ≠ Phase.key

theorem withoutPhase_phase (value : Value) (rest : List (String × Value)) :
    withoutPhase ((Phase.key, value) :: rest) = withoutPhase rest :=
  List.filter_cons_of_neg (by simp)

theorem withoutPhase_other {name : String} (other : name ≠ Phase.key) (value : Value)
    (rest : List (String × Value)) :
    withoutPhase ((name, value) :: rest) = (name, value) :: withoutPhase rest :=
  List.filter_cons_of_pos (by simpa using other)

theorem withoutPhase_of_not_mem {fields : List (String × Value)}
    (others : Phase.key ∉ fields.map Prod.fst) : withoutPhase fields = fields := by
  apply List.filter_eq_self.mpr
  intro field listed
  apply decide_eq_true
  intro same
  exact others (List.mem_map.mpr ⟨field, listed, same⟩)

/-- The phase is taken out wherever it stands. -/
theorem collect_phase {levels : Nat} {phase : Phase} {entries : Entries}
    {values : List (String × Value)} (read : entries.values levels = .ok values)
    (form : ∀ entry ∈ values, entry.1 = Phase.key → entry.2 = .string phase.name)
    (once : (values.map Prod.fst).count Phase.key = 1) :
    collect levels none entries = .ok (some phase, withoutPhase values) := by
  induction values generalizing entries with
  | nil => contradiction
  | cons entry rest ih =>
    obtain ⟨name, value⟩ := entry
    obtain ⟨key, node, behind, rfl, spelled, first, after⟩ := Entries.cons_of_values read
    rw [List.map_cons, List.count_cons] at once
    by_cases isPhase : name = Phase.key
    · subst isPhase
      -- The phase stands here, so all fields behind it are kept.
      have gone : Phase.key ∉ rest.map Prod.fst := List.count_eq_zero.mp (by simpa using once)
      have named : value = .string phase.name := form _ List.mem_cons_self rfl
      subst named
      simp only [collect, spelled, bind, Except.bind, ↓reduceIte, ofKey_of_value first]
      rw [collect_others (some phase) after gone, withoutPhase_phase,
        withoutPhase_of_not_mem gone]
    · have later := ih after (fun entry listed => form entry (List.mem_cons_of_mem _ listed))
        (by simpa [isPhase] using once)
      simp only [collect, spelled, first, later, bind, Except.bind, isPhase, ↓reduceIte]
      rw [withoutPhase_other isPhase]
      rfl

theorem bears_withoutPhase {parts : List Part} {fields : List (String × Value)}
    (bears : Bears parts fields) (others : ∀ part ∈ parts, part.name ≠ Phase.key) :
    Bears parts (withoutPhase fields) := by
  intro part held
  obtain ⟨form, count⟩ := bears part held
  have names : (withoutPhase fields).map Prod.fst =
      (fields.map Prod.fst).filter (· ≠ Phase.key) := by
    rw [List.filter_map]
    rfl
  refine ⟨fun field listed => form field (List.mem_filter.mp listed).1, ?_⟩
  rw [names, List.count_filter (by simpa using others part held)]
  exact count.imp_right fun ⟨optional, missing⟩ =>
    ⟨optional, fun listed => missing (List.mem_filter.mp listed).1⟩

theorem payload_ne_phase (event : Event) : ∀ part ∈ event.payload, part.name ≠ Phase.key := by
  cases event with
  | leave => simp [payload]
  | enter => simp [payload, Phase.key]

/-- The entries of a map with the parts of an event are read as it. -/
theorem ofEntries_of_bears {event : Event} {levels : Nat} {entries : Entries}
    {values : List (String × Value)} (read : entries.values levels = .ok values)
    (bears : Bears event.parts values) : ofEntries levels entries = .ok event := by
  obtain ⟨⟨form, count⟩, payload⟩ := List.forall_mem_cons.mp bears
  have once : (values.map Prod.fst).count Phase.key = 1 := count.resolve_right fun left => left.1
  simp only [ofEntries, collect_phase read form once, bind, Except.bind, Json.required]
  exact ofFields_of_bears (bears_withoutPhase payload event.payload_ne_phase)

/-- A map with the fields of an event, in any order and among any others, is read as it. -/
theorem readBytes_members (event : Event) (members : List Json.Member) (before after : Gap)
    (bears : Bears event.parts (members.map Json.Member.entry)) :
    readBytes (String.ofList (Json.Member.object before members after)).toUTF8 = .ok [event] := by
  have some : members ≠ [] := by
    rintro rfl
    simpa using (bears _ List.mem_cons_self).2
  obtain ⟨entries, only, values⟩ := Json.Member.nodes_object before after some
  have one : isList (String.ofList (Json.Member.object before members after)) = false := by
    rw [isList, String.toList_ofList, Json.Member.object, List.append_assoc, trimStart_gap]
    rfl
  have read : ofNode Json.nestingLimit (.map entries) = .ok event := ofEntries_of_bears values bears
  rw [readBytes_toUTF8, readReport, one, only, List.mapM_cons, read]
  rfl

/-- Members for an event that enters: the phase is escaped and stands between others, one key is
there twice, and the location is a list. -/
def entering : List Json.Member :=
  [⟨"\"kind\"", "kind", by cbv, "\x7b\"Memoization\":null\x7d", .map [("Memoization", .null)],
      by cbv, by decide⟩,
    ⟨"\"x\"", "x", by cbv, " [\x7b\x7d]", .list [.map []], by cbv, by decide⟩,
    ⟨"\"\\u0070hase\" ", "phase", by cbv, "\"begin\"", .string "begin", by cbv, by decide⟩,
    ⟨"\"x\"", "x", by cbv, "0", .ofNat 0, by cbv, by decide⟩,
    ⟨"\"location\"", "location", by cbv, "[\"a\",1,2]",
      .list [.string "a", .ofNat 1, .ofNat 2], by cbv, by decide⟩,
    ⟨"\"name\"", "name", by cbv, "\"f\"", .string "f", by cbv, by decide⟩]

/-- Members for an event that leaves: its name is there twice, and is no name. -/
def leaving : List Json.Member :=
  [⟨"\"name\"", "name", by cbv, "0", .ofNat 0, by cbv, by decide⟩,
    ⟨"\"phase\"", "phase", by cbv, "\"end\"", .string "end", by cbv, by decide⟩,
    ⟨"\"name\"", "name", by cbv, "null", .null, by cbv, by decide⟩]

theorem readBytes_members_shuffled :
    readBytes ("\x7b\"kind\":\x7b\"Memoization\":null\x7d,\"x\": [\x7b\x7d]," ++
        "\"\\u0070hase\" :\"begin\",\"x\":0,\"location\":[\"a\",1,2],\"name\":\"f\"\x7d").toUTF8 =
      .ok [.enter "f" .memoization (some ⟨"a", 1, 2⟩)] ∧
    readBytes "\x7b\"name\":0,\"phase\":\"end\",\"name\":null\x7d".toUTF8 = .ok [.leave] := by
  have kind : Kind.memoization.Spells (.map [("Memoization", .null)]) := .entry
  have location : Held (Location.parts ⟨"a", 1, 2⟩) (.list [.string "a", .ofNat 1, .ofNat 2]) :=
    .list (.cons rfl (.cons rfl (.cons rfl .nil)))
  constructor
  · apply readBytes_members (.enter "f" .memoization (some ⟨"a", 1, 2⟩)) entering .empty .empty
    simp [Bears, parts, payload, entering, Json.Member.entry, Phase.key, phaseOf, Phase.name,
      Json.Maybe, kind, location]
  · apply readBytes_members .leave leaving .empty .empty
    simp [Bears, parts, payload, leaving, Json.Member.entry, Phase.key, phaseOf, Phase.name]

end Event

end TemplateTrace
