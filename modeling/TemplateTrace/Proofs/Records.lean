import TemplateTrace.Encoding.Snapshot
import TemplateTrace.Proofs.Reports
import TemplateTrace.Proofs.Shapes

namespace TemplateTrace

open Json (Error Field Node Value Part Shaped Plain Items known)

namespace Json

/-! ## Parts -/

/-- A value of something that may be absent: null if it is. -/
def Maybe {α : Type} (form : α → Value → Prop) : Option α → Value → Prop
  | none, value => value = .null
  | some a, value => form a value

/-- A list with a value of each thing in order. -/
def Each {α : Type} (form : α → Value → Prop) (list : List α) (value : Value) : Prop :=
  ∃ items, value = .list items ∧ List.Forall₂ form list items

theorem Maybe.plain {α : Type} {form : α → Value → Prop} {levels : Nat}
    (plain : ∀ a value, form a value → Plain levels value) {option : Option α} {value : Value}
    (h : Maybe form option value) : Plain levels value := by
  cases option with
  | none => cases h; exact .null
  | some a => exact plain a value h

theorem Maybe.ofOption {α : Type} {form : α → Value → Prop} {write : α → Value}
    (own : ∀ a, form a (write a)) (option : Option α) :
    Maybe form option (.ofOption write option) := by
  cases option with
  | none => rfl
  | some a => exact own a

theorem Each.plain {α : Type} {form : α → Value → Prop} {levels : Nat}
    (plain : ∀ a value, form a value → Plain levels value) {list : List α} {value : Value}
    (h : Each form list value) : Plain (levels + 1) value := by
  obtain ⟨items, rfl, forms⟩ := h
  apply Plain.list
  intro item listed
  obtain ⟨a, -, form⟩ := exists_of_forall₂ forms listed
  exact plain a item form

theorem Each.map {α : Type} {form : α → Value → Prop} {write : α → Value}
    (own : ∀ a, form a (write a)) (list : List α) : Each form list (.list (list.map write)) := by
  refine ⟨_, rfl, ?_⟩
  rw [List.forall₂_map_right_iff]
  exact List.forall₂_same.mpr fun a _ => own a

/-! ## Reading values of parts -/

section
variable {node : Node}

theorem asString_of_has {text : String} (h : node.Has (.string text)) :
    node.asString = .ok text := by
  cases h with
  | string read => exact read

theorem asWord32_of_has {n : UInt32} (h : node.Has (.ofNat n.toNat)) : node.asWord32 = .ok n := by
  have small : n.toNat < UInt32.size := n.toNat_lt
  cases h with
  | number read => simp [Node.asWord32, read, Except.bind, Number.word32, small]

theorem asWord64_of_has {n : UInt64} (h : node.Has (.ofNat n.toNat)) : node.asWord64 = .ok n := by
  have small : n.toNat < UInt64.size := n.toNat_lt
  cases h with
  | number read => simp [Node.asWord64, read, Except.bind, Number.word64, small]

theorem asBool_of_has {value : Bool} (h : node.Has (.boolean value)) : node.asBool = .ok value := by
  cases h
  rfl

theorem asOption_of_has {α : Type} {read : Node → Except Error α} {form : α → Value → Prop}
    (back : ∀ a value, node.Has value → form a value → read node = .ok a)
    (something : ∀ a, ¬ form a .null) {option : Option α} {value : Value}
    (h : node.Has value) (formed : Maybe form option value) :
    node.asOption read = .ok option := by
  cases option with
  | none =>
    cases formed
    cases h
    rfl
  | some a =>
    -- Only null is taken for nothing, and no value of a thing is null.
    have whole : node.asOption read = (read node).map some := by
      cases node with
      | null => cases h; exact absurd formed (something a)
      | flawed | boolean | number | string | list | map => rfl
    rw [whole, back a value h formed]
    rfl

theorem readAll_of_values {α : Type} {read : Node → Except Error α} {form : α → Value → Prop}
    (back : ∀ node a value, node.Has value → form a value → read node = .ok a) {list : List α}
    {values : List Value} (forms : List.Forall₂ form list values) {levels : Nat} {items : Items}
    (values_eq : items.values levels = .ok values) : items.readAll read = .ok list := by
  induction forms generalizing items with
  | nil =>
    rw [Items.closed_of_values values_eq]
    rfl
  | cons first _ ih =>
    obtain ⟨item, rest, rfl, has, after⟩ := Items.cons_of_values values_eq
    rw [Items.readAll, back item _ _ has first, ih after]
    rfl

theorem asList_of_has {α : Type} {read : Node → Except Error α} {form : α → Value → Prop}
    (back : ∀ node a value, node.Has value → form a value → read node = .ok a) {list : List α}
    {value : Value} (h : node.Has value) (formed : Each form list value) :
    node.asList read = .ok list := by
  obtain ⟨items, rfl, forms⟩ := formed
  cases h with
  | list values => exact readAll_of_values back forms values

end

/-! ## Texts of a record -/

theorem readOne_of_nodes {α : Type} {text : String} {node : Node} (only : nodes text = [node])
    (read : Node → Except Error α) : readOne read text = read node := by
  rw [readOne, only]

theorem Plain.nodes_text {levels : Nat} {value : Value} (h : Plain levels value) :
    nodes value.text = [value.node] := h.written.nodes

/-- A text read, and what was read written again. -/
def recode {α : Type} (read : Node → Except Error α) (write : α → Value) (text : String) :
    Except Error String := (readOne read text).map fun a => (write a).text

/-- A record is read back from what is written for it, and from every value of either shape, in
whatever text this is the value of. What comes of writing a text again that was accepted stays the
same from then on. -/
structure RoundTrips {α : Type} (read : Node → Except Error α) (write : α → Value)
    (parts : α → List Part) : Prop where
  compact : ∀ a, readOne read (write a).text = .ok a
  shaped : ∀ a value, Shaped (parts a) value → readOne read value.text = .ok a ∧
    ∀ text, Value.ofText text = .ok value → readOne read text = .ok a
  fixed : ∀ text out, recode read write text = .ok out → recode read write out = .ok out

theorem RoundTrips.of {α : Type} {read : Node → Except Error α} {write : α → Value}
    {parts : α → List Part} {levels : Nat}
    (back : ∀ node a value, node.Has value → Shaped (parts a) value → read node = .ok a)
    (own : ∀ a, Shaped (parts a) (write a))
    (plain : ∀ a, ∀ value, Shaped (parts a) value → Plain levels value) :
    RoundTrips read write parts := by
  have texts : ∀ a value, Shaped (parts a) value → readOne read value.text = .ok a := by
    intro a value shaped
    have h := plain a value shaped
    rw [readOne_of_nodes h.nodes_text]
    exact back _ a value (Node.has_of_value h.value) shaped
  refine ⟨fun a => texts a _ (own a), fun a value shaped => ⟨texts a value shaped, ?_⟩, ?_⟩
  · intro text accepted
    obtain ⟨node, only, has⟩ := node_of_readOne accepted
    rw [readOne_of_nodes only]
    exact back node a value (Node.has_of_value has) shaped
  · intro text out written
    -- What was read is all that counts: the text is that of its own value now.
    obtain ⟨a, -, rfl⟩ := ok_of_map written
    rw [recode, texts a _ (own a)]
    rfl

end Json

namespace Kind

/-- The values of a kind: its name, or a map from its name to null. -/
inductive Spells (kind : Kind) : Value → Prop
  | name : Spells kind (.string kind.name)
  | entry : Spells kind (.map [(kind.name, .null)])

theorem ofName_name (kind : Kind) : choice.ofName kind.name = .ok kind := by
  simp only [Json.Choice.ofName, choice, ofName?_name]

theorem ofNode_spells {kind : Kind} {node : Node} {value : Value} (h : node.Has value)
    (spells : kind.Spells value) : choice.ofNode node = .ok kind := by
  cases spells with
  | name =>
    cases h with
    | string read =>
      rw [Json.Choice.ofNode, read]
      exact kind.ofName_name
  | entry =>
    cases h with
    | map values =>
      obtain ⟨key, unit, rest, rfl, spelled, null, after⟩ := Json.Entries.cons_of_values values
      rw [Json.Entries.closed_of_values after]
      cases Node.has_of_value null
      simp only [Json.Choice.ofNode, Json.Choice.ofEntries, spelled, bind, Except.bind,
        kind.ofName_name]
      rfl

theorem ofValue_spells {kind : Kind} {value : Value} (spells : kind.Spells value) :
    choice.ofValue value = .ok kind := by
  cases spells with
  | name => exact kind.ofName_name
  | entry =>
    simp only [Json.Choice.ofValue, kind.ofName_name]
    rfl

theorem Spells.plain {kind : Kind} {value : Value} (h : kind.Spells value) (levels : Nat) :
    Plain (levels + 1) value := by
  cases h with
  | name => exact .string _
  | entry => exact .map (by simpa using Plain.null)

end Kind

namespace Location

/-- The parts of a location. -/
def parts (location : Location) : List Part :=
  [⟨"file", (· = .string location.file), False⟩,
    ⟨"line", (· = .ofNat location.line.toNat), False⟩,
    ⟨"column", (· = .ofNat location.column.toNat), False⟩]

/-- A value of a location, in either shape. -/
def Form (location : Location) : Value → Prop := Shaped location.parts

def sofar (location : Location) (seen : List String) : Fields :=
  ⟨known seen "file" location.file, known seen "line" location.line,
    known seen "column" location.column⟩

theorem follows {ν : Type} {has : ν → Value → Prop} {string : ν → Except Error String}
    {word32 : ν → Except Error UInt32}
    (strings : ∀ source text, has source (.string text) → string source = .ok text)
    (words : ∀ source (n : UInt32), has source (.ofNat n.toNat) → word32 source = .ok n)
    (location : Location) :
    (shape string word32).Follows has location.sofar location.parts location where
  blank := rfl
  fields := by
    refine .cons (Field.reads_value (fun _ => rfl) ?_ fun _ => strings _ _)
      (.cons (Field.reads_value (fun _ => rfl) ?_ fun _ => words _ _)
      (.cons (Field.reads_value (fun _ => rfl) ?_ fun _ => words _ _) .nil))
    all_goals simp [sofar, Json.known_other]
  distinct := by simp [parts]
  build := by
    intro seen complete
    simp only [parts, List.forall_mem_cons, or_false] at complete
    obtain ⟨file, line, column, -⟩ := complete
    simp only [shape, sofar, Json.known_of_mem file, Json.known_of_mem line,
      Json.known_of_mem column]
    rfl

theorem ofNode_form {node : Node} {location : Location} {value : Value} (h : node.Has value)
    (form : location.Form value) : ofNode node = .ok location :=
  (follows (fun _ _ => Json.asString_of_has) (fun _ _ => Json.asWord32_of_has) location).ofNode
    h form

theorem form_toValue (location : Location) : location.Form location.toValue := by
  apply Shaped.map
  · simp [Json.Bears, parts]
  · simp [parts]

theorem Form.plain {location : Location} {value : Value} (h : location.Form value)
    (levels : Nat) : Plain (levels + 1) value := by
  apply Shaped.plain _ h
  simp only [parts, List.forall_mem_cons, forall_eq]
  exact ⟨.string _, Json.plain_word _, Json.plain_word _, by simp⟩

theorem asOption_maybe {node : Node} {location : Option Location} {value : Value}
    (h : node.Has value) (form : Json.Maybe Form location value) :
    node.asOption ofNode = .ok location :=
  Json.asOption_of_has (fun _ _ => ofNode_form) (by rintro _ ⟨⟩) h form

theorem maybe_toValue (location : Option Location) :
    Json.Maybe Form location (.ofOption toValue location) :=
  Json.Maybe.ofOption form_toValue location

end Location

namespace Vertex

def parts (vertex : Vertex) : List Part :=
  [⟨"name", (· = .string vertex.name), False⟩,
    ⟨"point_of_instantiation", Json.Maybe Location.Form vertex.location, vertex.location = none⟩]

def sofar (vertex : Vertex) (seen : List String) : Fields :=
  ⟨known seen "name" vertex.name, known seen "point_of_instantiation" vertex.location⟩

theorem follows (vertex : Vertex) :
    shape.Follows Node.Has vertex.sofar vertex.parts vertex where
  blank := rfl
  fields := by
    refine .cons (Field.reads_value (fun _ => rfl) ?_ fun _ => Json.asString_of_has)
      (.cons (Field.reads_slot (fun _ => rfl) ?_ fun _ _ => Location.asOption_maybe) .nil)
    all_goals simp [sofar, Json.known_other]
  distinct := by simp [parts]
  build := by
    intro seen complete
    simp only [parts, List.forall_mem_cons, or_false] at complete
    obtain ⟨name, location, -⟩ := complete
    simp only [shape, sofar, Json.known_of_mem name, Json.join_known location]
    rfl

theorem shaped_toValue (vertex : Vertex) : Shaped vertex.parts vertex.toValue := by
  apply Shaped.map
  · simp [Json.Bears, parts, Location.maybe_toValue]
  · simp [parts]

theorem shaped_plain {vertex : Vertex} {value : Value} (h : Shaped vertex.parts value) :
    Plain 2 value := by
  apply Shaped.plain _ h
  simp only [parts, List.forall_mem_cons, forall_eq]
  exact ⟨.string _, fun _ => Json.Maybe.plain fun _ _ form => form.plain 0, by simp⟩

end Vertex

namespace VertexRecord

def parts (record : VertexRecord) : List Part :=
  [⟨"id", (· = .ofNat record.id.toNat), False⟩, ⟨"name", (· = .string record.name), False⟩,
    ⟨"location", Json.Maybe Location.Form record.location, record.location = none⟩]

def Form (record : VertexRecord) : Value → Prop := Shaped record.parts

def sofar (record : VertexRecord) (seen : List String) : Fields :=
  ⟨known seen "id" record.id, known seen "name" record.name,
    known seen "location" record.location⟩

theorem follows (record : VertexRecord) :
    shape.Follows Node.Has record.sofar record.parts record where
  blank := rfl
  fields := by
    refine .cons (Field.reads_value (fun _ => rfl) ?_ fun _ => Json.asWord32_of_has)
      (.cons (Field.reads_value (fun _ => rfl) ?_ fun _ => Json.asString_of_has)
      (.cons (Field.reads_slot (fun _ => rfl) ?_ fun _ _ => Location.asOption_maybe) .nil))
    all_goals simp [sofar, Json.known_other]
  distinct := by simp [parts]
  build := by
    intro seen complete
    simp only [parts, List.forall_mem_cons, or_false] at complete
    obtain ⟨id, name, location, -⟩ := complete
    simp only [shape, sofar, Json.known_of_mem id, Json.known_of_mem name,
      Json.join_known location]
    rfl

theorem form_toValue (record : VertexRecord) : record.Form record.toValue := by
  apply Shaped.map
  · simp [Json.Bears, parts, Location.maybe_toValue]
  · simp [parts]

theorem Form.plain {record : VertexRecord} {value : Value} (h : record.Form value)
    (levels : Nat) : Plain (levels + 2) value := by
  apply Shaped.plain _ h
  simp only [parts, List.forall_mem_cons, forall_eq]
  exact ⟨Json.plain_word _, .string _, fun _ => Json.Maybe.plain fun _ _ form => form.plain levels,
    by simp⟩

end VertexRecord

namespace EdgeRecord

def parts (record : EdgeRecord) : List Part :=
  [⟨"from", (· = .ofNat record.source.toNat), False⟩,
    ⟨"to", (· = .ofNat record.target.toNat), False⟩, ⟨"kind", record.kind.Spells, False⟩]

def Form (record : EdgeRecord) : Value → Prop := Shaped record.parts

def sofar (record : EdgeRecord) (seen : List String) : Fields :=
  ⟨known seen "from" record.source, known seen "to" record.target, known seen "kind" record.kind⟩

theorem follows (record : EdgeRecord) :
    shape.Follows Node.Has record.sofar record.parts record where
  blank := rfl
  fields := by
    refine .cons (Field.reads_value (fun _ => rfl) ?_ fun _ => Json.asWord32_of_has)
      (.cons (Field.reads_value (fun _ => rfl) ?_ fun _ => Json.asWord32_of_has)
      (.cons (Field.reads_slot (fun _ => rfl) ?_ fun _ _ => Kind.ofNode_spells) .nil))
    all_goals simp [sofar, Json.known_other]
  distinct := by simp [parts]
  build := by
    intro seen complete
    simp only [parts, List.forall_mem_cons, or_false] at complete
    obtain ⟨source, target, kind, -⟩ := complete
    simp only [shape, sofar, Json.known_of_mem source, Json.known_of_mem target,
      Json.known_of_mem kind]
    rfl

theorem form_toValue (record : EdgeRecord) : record.Form record.toValue := by
  apply Shaped.map
  · simp [Json.Bears, parts, Kind.toValue, Kind.Spells.name]
  · simp [parts]

theorem Form.plain {record : EdgeRecord} {value : Value} (h : record.Form value)
    (levels : Nat) : Plain (levels + 2) value := by
  apply Shaped.plain _ h
  simp only [parts, List.forall_mem_cons, forall_eq]
  exact ⟨Json.plain_word _, Json.plain_word _, fun _ spells => spells.plain levels, by simp⟩

end EdgeRecord

namespace Snapshot

def parts (snapshot : Snapshot) : List Part :=
  [⟨"vertices", Json.Each VertexRecord.Form snapshot.vertices, False⟩,
    ⟨"edges", Json.Each EdgeRecord.Form snapshot.edges, False⟩]

def sofar (snapshot : Snapshot) (seen : List String) : Fields :=
  ⟨known seen "vertices" snapshot.vertices, known seen "edges" snapshot.edges⟩

theorem follows (snapshot : Snapshot) :
    shape.Follows Node.Has snapshot.sofar snapshot.parts snapshot where
  blank := rfl
  fields := by
    refine .cons (Field.reads_slot (fun _ => rfl) ?_ fun _ _ => Json.asList_of_has
        fun _ record _ => record.follows.ofNode)
      (.cons (Field.reads_slot (fun _ => rfl) ?_ fun _ _ => Json.asList_of_has
        fun _ record _ => record.follows.ofNode) .nil)
    all_goals simp [sofar, Json.known_other]
  distinct := by simp [parts]
  build := by
    intro seen complete
    simp only [parts, List.forall_mem_cons, or_false] at complete
    obtain ⟨vertices, edges, -⟩ := complete
    simp only [shape, sofar, Json.known_of_mem vertices, Json.known_of_mem edges]
    rfl

theorem shaped_toValue (snapshot : Snapshot) : Shaped snapshot.parts snapshot.toValue := by
  apply Shaped.map
  · simp [Json.Bears, parts, Json.Each.map VertexRecord.form_toValue,
      Json.Each.map EdgeRecord.form_toValue]
  · simp [parts]

theorem shaped_plain {snapshot : Snapshot} {value : Value} (h : Shaped snapshot.parts value)
    (levels : Nat) : Plain (levels + 4) value := by
  apply Shaped.plain _ h
  simp only [parts, List.forall_mem_cons]
  exact ⟨fun _ => Json.Each.plain fun _ _ form => form.plain levels,
    fun _ => Json.Each.plain fun _ _ form => form.plain levels, by simp⟩

end Snapshot

namespace Config

def parts (config : Config) : List Part :=
  [⟨"width", Json.Maybe (fun width value => value = .ofNat width.toNat) config.width,
      config.width = none⟩,
    ⟨"color", (· = .boolean config.color), False⟩]

def sofar (config : Config) (seen : List String) : Fields :=
  ⟨known seen "width" config.width, known seen "color" config.color⟩

theorem asOption_maybe {node : Node} {width : Option UInt64} {value : Value} (h : node.Has value)
    (form : Json.Maybe (fun width value => value = .ofNat width.toNat) width value) :
    node.asOption Node.asWord64 = .ok width := by
  apply Json.asOption_of_has _ (by rintro _ ⟨⟩) h form
  rintro n _ h rfl
  exact Json.asWord64_of_has h

theorem follows (config : Config) :
    shape.Follows Node.Has config.sofar config.parts config where
  blank := rfl
  fields := by
    refine .cons (Field.reads_slot (fun _ => rfl) ?_ fun _ _ => asOption_maybe)
      (.cons (Field.reads_value (fun _ => rfl) ?_ fun _ => Json.asBool_of_has) .nil)
    all_goals simp [sofar, Json.known_other]
  distinct := by simp [parts]
  build := by
    intro seen complete
    simp only [parts, List.forall_mem_cons, or_false] at complete
    obtain ⟨width, color, -⟩ := complete
    simp only [shape, sofar, Json.join_known width, Json.known_of_mem color]
    rfl

theorem shaped_toValue (config : Config) : Shaped config.parts config.toValue := by
  apply Shaped.map
  · simp [Json.Bears, parts, Json.Maybe.ofOption]
  · simp [parts]

theorem shaped_plain {config : Config} {value : Value} (h : Shaped config.parts value) :
    Plain 1 value := by
  apply Shaped.plain _ h
  simp only [parts, List.forall_mem_cons, forall_eq]
  refine ⟨fun _ => Json.Maybe.plain ?_, .boolean _, by simp⟩
  rintro width _ rfl
  exact .natural width.toNat_lt

end Config

/-- Every record is read back from what is written for it, from a map of its parts in any order,
with or without those that are absent, and from the list of them. -/
theorem records_roundTrip :
    Json.RoundTrips Location.ofNode Location.toValue Location.parts ∧
    Json.RoundTrips Vertex.ofNode Vertex.toValue Vertex.parts ∧
    Json.RoundTrips VertexRecord.ofNode VertexRecord.toValue VertexRecord.parts ∧
    Json.RoundTrips EdgeRecord.ofNode EdgeRecord.toValue EdgeRecord.parts ∧
    Json.RoundTrips Snapshot.ofNode Snapshot.toValue Snapshot.parts ∧
    Json.RoundTrips Config.ofNode Config.toValue Config.parts := by
  refine ⟨.of (fun _ _ _ => Location.ofNode_form) Location.form_toValue
      fun _ _ form => Location.Form.plain form 0,
    .of (fun _ vertex _ => vertex.follows.ofNode) Vertex.shaped_toValue
      fun _ _ => Vertex.shaped_plain,
    .of (fun _ record _ => record.follows.ofNode) VertexRecord.form_toValue
      fun _ _ form => VertexRecord.Form.plain form 0,
    .of (fun _ record _ => record.follows.ofNode) EdgeRecord.form_toValue
      fun _ _ form => EdgeRecord.Form.plain form 0,
    .of (fun _ snapshot _ => snapshot.follows.ofNode) Snapshot.shaped_toValue
      fun _ _ shaped => Snapshot.shaped_plain shaped 0,
    .of (fun _ config _ => config.follows.ofNode) Config.shaped_toValue
      fun _ _ => Config.shaped_plain⟩

example :
    Json.readOne Snapshot.ofNode
      ("\x7b\"edges\":[[0,1,\"Memoization\"]]," ++
        "\"vertices\":[[0,\"<root>\",null],\x7b\"name\":\"a\",\"id\":1\x7d]\x7d") =
    .ok ⟨[⟨0, "<root>", none⟩, ⟨1, "a", none⟩], [⟨0, 1, .memoization⟩]⟩ := by
  decide +kernel

end TemplateTrace
