import TemplateTrace.Json.Value

/-!
# Decoding

Typed readings of trees and of values: numbers, strings, options, lists, choices among names, and
records. A record may be written as a map of its fields or as a list of them in order. Whatever is
wrong first in the order of the text is reported.
-/

namespace TemplateTrace.Json

/-- Refuses a value of the wrong shape; a flaw in it is reported instead. -/
def Node.refuse {α : Type} (node : Node) (wanted : Wanted) : Except Error α :=
  node.found.bind (fun found => .error (.invalidType found wanted))

def Value.refuse {α : Type} (value : Value) (wanted : Wanted) : Except Error α :=
  .error (.invalidType value.found wanted)

/-! ## Numbers -/

def Number.word32 : Number → Except Error UInt32
  | .integer value =>
    if 0 ≤ value ∧ value.toNat < UInt32.size then .ok (UInt32.ofNat value.toNat)
    else .error (.invalidValue (.number (.integer value)) .word32)
  | number => .error (.invalidType (.number number) .word32)

def Number.word64 : Number → Except Error UInt64
  | .integer value =>
    if 0 ≤ value ∧ value.toNat < UInt64.size then .ok (UInt64.ofNat value.toNat)
    else .error (.invalidValue (.number (.integer value)) .word64)
  | number => .error (.invalidType (.number number) .word64)

namespace Node

def asWord32 : Node → Except Error UInt32
  | .number lexeme => lexeme.read.bind Number.word32
  | node => node.refuse .word32

def asWord64 : Node → Except Error UInt64
  | .number lexeme => lexeme.read.bind Number.word64
  | node => node.refuse .word64

def asString : Node → Except Error String
  | .string lexeme => lexeme.read
  | node => node.refuse .string

def asBool : Node → Except Error Bool
  | .boolean value => .ok value
  | node => node.refuse .boolean

/-- Nothing but null. -/
def asUnit : Node → Except Error Unit
  | .null => .ok ()
  | node => node.refuse .unit

/-- Something, or null for nothing. -/
def asOption {α : Type} (read : Node → Except Error α) : Node → Except Error (Option α)
  | .null => .ok none
  | node => (read node).map some

end Node

def Items.readAll {α : Type} (read : Node → Except Error α) : Items → Except Error (List α)
  | .closed => .ok []
  | .broken fault => .error fault.error
  | .cons item rest => do
    let first ← read item
    return first :: (← rest.readAll read)

def Node.asList {α : Type} (read : Node → Except Error α) : Node → Except Error (List α)
  | .list items => items.readAll read
  | node => node.refuse .sequence

namespace Value

def asWord32 : Value → Except Error UInt32
  | .number n => n.word32
  | value => value.refuse .word32

def asString : Value → Except Error String
  | .string text => .ok text
  | value => value.refuse .string

def asOption {α : Type} (read : Value → Except Error α) : Value → Except Error (Option α)
  | .null => .ok none
  | value => (read value).map some

/-- Nothing: null, or a map without entries. -/
def asUnit : Value → Except Error Unit
  | .null => .ok ()
  | .map [] => .ok ()
  | value => value.refuse .unit

end Value

/-! ## Choices -/

/-- A closed set of things with names, in declaration order. -/
structure Choice (α : Type) where
  names : List String
  ofName? : String → Option α

namespace Choice

variable {α : Type} (choice : Choice α)

def ofName (name : String) : Except Error α :=
  match choice.ofName? name with
  | some a => .ok a
  | none => .error (.unknownVariant name choice.names)

/-- The name of a choice where nothing but a name may stand. -/
def ofKey : Node → Except Error α
  | .string lexeme => lexeme.read.bind choice.ofName
  | node => node.refuse .variantName

/-- What is wrong behind the only entry of a choice that is written as a map. -/
def endOfMap : Entries → Except Error Unit
  | .closed => .ok ()
  | .broken .cut => .error .endInObject
  | _ => .error .expectedValue

/-- A choice written as a map: one entry, the name with null. -/
def ofEntries : Entries → Except Error α
  | .closed => .error .expectedValue
  | .broken fault => .error fault.error
  | .cons key value rest => do
    let a ← choice.ofName (← key.read)
    value.asUnit
    endOfMap rest
    return a

/-- What a flaw means where a choice should be: a word is not even looked at. -/
def flawError : Flaw → Error
  | .misspelt _ => .expectedValue
  | flaw => flaw.error

/-- A choice in a text: its name, or a map from its name to null. -/
def ofNode : Node → Except Error α
  | .string lexeme => lexeme.read.bind choice.ofName
  | .map entries => choice.ofEntries entries
  | .flawed flaw => .error (flawError flaw)
  | _ => .error .expectedValue

/-- A choice as a value: its name, or a map from its name to nothing. -/
def ofValue : Value → Except Error α
  | .string name => choice.ofName name
  | .map [(name, value)] => do
    let a ← choice.ofName name
    value.asUnit
    return a
  | .map _ => .error (.invalidValue .map .singleKeyMap)
  | value => value.refuse .stringOrMap

end Choice

/-! ## Records -/

/-- A field of a record: its name, whether it has been read, and how it is read. -/
structure Field (source state : Type) where
  name : String
  isSet : state → Bool
  set : source → state → Except Error state

/-- A field that is kept in a slot of the state, empty until the field is read. -/
def Field.slot {ν σ α : Type} (name : String) (read : ν → Except Error α) (get : σ → Option α)
    (put : α → σ → σ) : Field ν σ where
  name := name
  isSet state := (get state).isSome
  set source state := (read source).map (fun a => put a state)

/-- The fields of a record written as a map. Unknown fields are passed over; a field may occur only
once. -/
def Entries.readFields {σ : Type} (fields : List (Field Node σ)) (state : σ) :
    Entries → Except Error σ
  | .closed => .ok state
  | .broken fault => .error fault.error
  | .cons key value rest => do
    let name ← key.read
    match fields.find? (fun field => field.name == name) with
    | none => do
      value.skip
      rest.readFields fields state
    | some field =>
      if field.isSet state then .error (.duplicateField name)
      else rest.readFields fields (← field.set value state)

/-- What is wrong behind the last field of a record written as a list. -/
def Items.endOfRecord : Items → Except Error Unit
  | .closed => .ok ()
  | .broken .cut => .error .endInList
  | .broken .trailingComma => .error .trailingComma
  | .broken .noSeparator => .error .trailingCharacters
  | .cons _ _ => .error .trailingCharacters

/-- The fields of a record written as a list, in order; none may be missing. `count` fields have
been read already; `short` tells how many there were if the list ends too early. -/
def Items.readFields {σ : Type} (short : Nat → Error) (count : Nat) (state : σ) :
    List (Field Node σ) → Items → Except Error σ
  | [], items => items.endOfRecord.map (fun _ => state)
  | _ :: _, .closed => .error (short count)
  | _ :: _, .broken fault => .error fault.error
  | field :: fields, .cons item rest => do
    Items.readFields short (count + 1) (← field.set item state) fields rest

/-- A record: its name, its fields in order, the state before any is read, and what comes of the
state in the end. -/
structure Shape (source state α : Type) where
  name : String
  fields : List (Field source state)
  blank : state
  build : state → Except Error α

/-- What is wrong with a record written as too short a list. -/
def Shape.tooShort {ν σ α : Type} (shape : Shape ν σ α) (count : Nat) : Error :=
  .invalidLength count (.recordOf shape.name shape.fields.length)

def Shape.ofNode {σ α : Type} (shape : Shape Node σ α) : Node → Except Error α
  | .map entries => (entries.readFields shape.fields shape.blank).bind shape.build
  | .list items => (items.readFields shape.tooShort 0 shape.blank shape.fields).bind shape.build
  | node => node.refuse (.record shape.name)

/-- The fields of a record from entries that have been read before. -/
def readEntries {σ : Type} (fields : List (Field Value σ)) (state : σ) :
    List (String × Value) → Except Error σ
  | [] => .ok state
  | (name, value) :: rest =>
    match fields.find? (fun field => field.name == name) with
    | none => readEntries fields state rest
    | some field =>
      if field.isSet state then .error (.duplicateField name)
      else do readEntries fields (← field.set value state) rest

/-- The fields of a record, in order, from items that have been read before, and the items behind
them. The first `needed` fields have to be there. -/
def readItems {σ : Type} (short : Nat → Error) (needed count : Nat) (state : σ) :
    List (Field Value σ) → List Value → Except Error (σ × List Value)
  | [], rest => .ok (state, rest)
  | _ :: _, [] => if count < needed then .error (short count) else .ok (state, [])
  | field :: fields, item :: rest => do
    readItems short needed (count + 1) (← field.set item state) fields rest

/-- Nothing may follow the fields of a record. -/
def endOfItems (count : Nat) : List Value → Except Error Unit
  | [] => .ok ()
  | rest => .error (.invalidLength (count + rest.length) (.elements count))

def Shape.ofValue {σ α : Type} (shape : Shape Value σ α) : Value → Except Error α
  | .map entries => (readEntries shape.fields shape.blank entries).bind shape.build
  | .list items => do
    let (state, rest) ←
      readItems shape.tooShort shape.fields.length 0 shape.blank shape.fields items
    let a ← shape.build state
    endOfItems shape.fields.length rest
    return a
  | value => value.refuse (.record shape.name)

def required {α : Type} (name : String) : Option α → Except Error α
  | some a => .ok a
  | none => .error (.missingField name)

end TemplateTrace.Json
