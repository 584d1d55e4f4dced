import TemplateTrace.Encoding.Location
import TemplateTrace.Event
import TemplateTrace.Text

/-!
# Encoding of events

An event is a map whose field `phase` tells entering from leaving, or a list that starts with the
phase. The phase may stand anywhere in the map, so the other fields are read as values first and
understood once the map is closed.

A report is one list of events or any number of events one after another.
-/

namespace TemplateTrace

open Json (Error Node Value Items Entries)

inductive Phase where
  | enter
  | leave
  deriving DecidableEq, Repr

namespace Phase

def name : Phase → String
  | enter => "begin"
  | leave => "end"

def ofName? (text : String) : Option Phase := [enter, leave].find? (fun phase => phase.name == text)

def choice : Json.Choice Phase := ⟨[enter, leave].map name, ofName?⟩

/-- The field that holds the phase. -/
def key : String := "phase"

end Phase

namespace Event

/-- What has been read of an event that enters. -/
structure Fields where
  name : Option String := none
  kind : Option Kind := none
  location : Option (Option Location) := none

/-- The fields of an event that enters; its location may be absent. -/
def shape : Json.Shape Value Fields Event where
  name := "InstantiationEvent"
  fields :=
    [.slot "name" Value.asString Fields.name (fun a s => { s with name := some a }),
      .slot "kind" Kind.choice.ofValue Fields.kind (fun a s => { s with kind := some a }),
      .slot "location" (Value.asOption Location.ofValue) Fields.location
        (fun a s => { s with location := some a })]
  blank := {}
  build s := do
    let name ← Json.required "name" s.name
    let kind ← Json.required "kind" s.kind
    return .enter name kind s.location.join

/-- An event from its phase and its other fields. An event that leaves has no use for them. -/
def ofFields : Phase → List (String × Value) → Except Error Event
  | .leave, _ => .ok .leave
  | .enter, fields => (Json.readEntries shape.fields shape.blank fields).bind shape.build

/-- An event from its phase and the items behind it. -/
def ofItems : Phase → List Value → Except Error Event
  | .leave, items => (Json.endOfItems 0 items).map (fun _ => .leave)
  | .enter, items => do
    let (state, rest) ←
      Json.readItems (fun count => .invalidLength count (.enterOf 3)) 2 0 shape.blank shape.fields
        items
    let event ← shape.build state
    Json.endOfItems 3 rest
    return event

/-- The phase and the other fields of a map. The phase is understood where it stands, and may stand
only once. -/
def collect (levels : Nat) (phase : Option Phase) :
    Entries → Except Error (Option Phase × List (String × Value))
  | .closed => .ok (phase, [])
  | .broken fault => .error fault.error
  | .cons key value rest => do
    let name ← key.read
    if name = Phase.key then
      match phase with
      | some _ => .error (.duplicateField name)
      | none => collect levels (some (← Phase.choice.ofKey value)) rest
    else
      let field ← value.value levels
      let (found, fields) ← collect levels phase rest
      return (found, (name, field) :: fields)

def ofEntries (levels : Nat) (entries : Entries) : Except Error Event := do
  let (phase, fields) ← collect levels none entries
  ofFields (← Json.required Phase.key phase) fields

def ofList (levels : Nat) : Items → Except Error Event
  | .closed => .error (.missingField Phase.key)
  | .broken fault => .error fault.error
  | .cons item rest => do
    let phase ← Phase.choice.ofKey item
    ofItems phase (← rest.values levels)

/-- An event in a text, with so many levels left to open. -/
def ofNode (levels : Nat) : Node → Except Error Event
  | .map entries => do ofEntries (← Json.enterLevel levels) entries
  | .list items => do ofList (← Json.enterLevel levels) items
  | node => node.refuse .event

/-- An event is written with its phase first. -/
def toValue : Event → Value
  | .enter name kind location =>
    .map [(Phase.key, .string Phase.enter.name), ("name", .string name), ("kind", kind.toValue),
      ("location", .ofOption Location.toValue location)]
  | .leave => .map [(Phase.key, .string Phase.leave.name)]

def listOfNode : Node → Except Error (List Event)
  | .list items => do items.readAll (ofNode (← Json.enterLevel Json.nestingLimit))
  | node => node.refuse .sequence

/-- Whether a report is one list: its first character that is not blank opens a list. -/
def isList (text : String) : Bool := (Text.trimStart text.toList).head? == some '['

def readReport (text : String) : Except Error (List Event) :=
  if isList text then Json.readOne listOfNode text
  else (Json.nodes text).mapM (ofNode Json.nestingLimit)

/-- The events of a report in bytes, which have to be UTF-8. -/
def readBytes (bytes : ByteArray) : Except Error (List Event) :=
  match String.fromUTF8? bytes with
  | some text => readReport text
  | none => .error .notUtf8

end Event

end TemplateTrace
