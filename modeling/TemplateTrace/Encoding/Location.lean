import TemplateTrace.Display
import TemplateTrace.Event
import TemplateTrace.Json.Decode

namespace TemplateTrace

open Json (Error Node Value)

/-- A natural number as a value. -/
def Json.Value.ofNat (n : Nat) : Value := .number (.integer n)

/-- Something as a value, or null for nothing. -/
def Json.Value.ofOption {α : Type} (write : α → Value) : Option α → Value
  | some a => write a
  | none => .null

namespace Kind

def choice : Json.Choice Kind := ⟨all.map name, ofName?⟩

def toValue (kind : Kind) : Value := .string kind.name

end Kind

namespace Color

def choice : Json.Choice Color := ⟨all.map name, ofName?⟩

def toValue (color : Color) : Value := .string color.name

end Color

namespace Location

structure Fields where
  file : Option String := none
  line : Option UInt32 := none
  column : Option UInt32 := none

/-- The fields of a location, given how strings and numbers are read. -/
def shape {ν : Type} (string : ν → Except Error String) (word32 : ν → Except Error UInt32) :
    Json.Shape ν Fields Location where
  name := "FileLocation"
  fields :=
    [.slot "file" string Fields.file (fun a s => { s with file := some a }),
      .slot "line" word32 Fields.line (fun a s => { s with line := some a }),
      .slot "column" word32 Fields.column (fun a s => { s with column := some a })]
  blank := {}
  build s := do
    let file ← Json.required "file" s.file
    let line ← Json.required "line" s.line
    let column ← Json.required "column" s.column
    return ⟨file, line, column⟩

def ofNode : Node → Except Error Location := (shape Node.asString Node.asWord32).ofNode

def ofValue : Value → Except Error Location := (shape Value.asString Value.asWord32).ofValue

/-- A location is written with its fields in order. -/
def toValue (location : Location) : Value :=
  .map [("file", .string location.file), ("line", .ofNat location.line.toNat),
    ("column", .ofNat location.column.toNat)]

end Location

end TemplateTrace
