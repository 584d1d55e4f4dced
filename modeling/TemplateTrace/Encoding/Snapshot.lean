import TemplateTrace.Display
import TemplateTrace.Encoding.Location
import TemplateTrace.Graph

/-!
# Encoding of snapshots and configurations

A snapshot is a graph as plain records in the order of their numbers, which are 32-bit words here.
Vertices, the records of a snapshot, snapshots and configurations are written with their fields in
declaration order. A location and a width may be absent.
-/

namespace TemplateTrace

open Json (Error Node Value)

structure VertexRecord where
  id : UInt32
  name : String
  location : Option Location
  deriving DecidableEq, Repr

structure EdgeRecord where
  source : UInt32
  target : UInt32
  kind : Kind
  deriving DecidableEq, Repr

structure Snapshot where
  vertices : List VertexRecord
  edges : List EdgeRecord
  deriving DecidableEq, Repr

/-- The records of a graph. -/
def Graph.snapshot (g : Graph) : Snapshot where
  vertices := g.vertices.zipIdx.map fun (vertex, id) =>
    ⟨UInt32.ofNat id, vertex.name, vertex.location⟩
  edges := g.edges.map fun edge =>
    ⟨UInt32.ofNat edge.source, UInt32.ofNat edge.target, edge.kind⟩

namespace Vertex

structure Fields where
  name : Option String := none
  location : Option (Option Location) := none

def shape : Json.Shape Node Fields Vertex where
  name := "Vertex"
  fields :=
    [.slot "name" Node.asString Fields.name (fun a s => { s with name := some a }),
      .slot "point_of_instantiation" (Node.asOption Location.ofNode) Fields.location
        (fun a s => { s with location := some a })]
  blank := {}
  build s := do
    let name ← Json.required "name" s.name
    return ⟨name, s.location.join⟩

def ofNode : Node → Except Error Vertex := shape.ofNode

def toValue (vertex : Vertex) : Value :=
  .map [("name", .string vertex.name),
    ("point_of_instantiation", .ofOption Location.toValue vertex.location)]

end Vertex

namespace VertexRecord

structure Fields where
  id : Option UInt32 := none
  name : Option String := none
  location : Option (Option Location) := none

def shape : Json.Shape Node Fields VertexRecord where
  name := "VertexRecord"
  fields :=
    [.slot "id" Node.asWord32 Fields.id (fun a s => { s with id := some a }),
      .slot "name" Node.asString Fields.name (fun a s => { s with name := some a }),
      .slot "location" (Node.asOption Location.ofNode) Fields.location
        (fun a s => { s with location := some a })]
  blank := {}
  build s := do
    let id ← Json.required "id" s.id
    let name ← Json.required "name" s.name
    return ⟨id, name, s.location.join⟩

def ofNode : Node → Except Error VertexRecord := shape.ofNode

def toValue (record : VertexRecord) : Value :=
  .map [("id", .ofNat record.id.toNat), ("name", .string record.name),
    ("location", .ofOption Location.toValue record.location)]

end VertexRecord

namespace EdgeRecord

structure Fields where
  source : Option UInt32 := none
  target : Option UInt32 := none
  kind : Option Kind := none

def shape : Json.Shape Node Fields EdgeRecord where
  name := "EdgeRecord"
  fields :=
    [.slot "from" Node.asWord32 Fields.source (fun a s => { s with source := some a }),
      .slot "to" Node.asWord32 Fields.target (fun a s => { s with target := some a }),
      .slot "kind" Kind.choice.ofNode Fields.kind (fun a s => { s with kind := some a })]
  blank := {}
  build s := do
    let source ← Json.required "from" s.source
    let target ← Json.required "to" s.target
    let kind ← Json.required "kind" s.kind
    return ⟨source, target, kind⟩

def ofNode : Node → Except Error EdgeRecord := shape.ofNode

def toValue (record : EdgeRecord) : Value :=
  .map [("from", .ofNat record.source.toNat), ("to", .ofNat record.target.toNat),
    ("kind", record.kind.toValue)]

end EdgeRecord

namespace Snapshot

structure Fields where
  vertices : Option (List VertexRecord) := none
  edges : Option (List EdgeRecord) := none

def shape : Json.Shape Node Fields Snapshot where
  name := "GraphSnapshot"
  fields :=
    [.slot "vertices" (Node.asList VertexRecord.ofNode) Fields.vertices
        (fun a s => { s with vertices := some a }),
      .slot "edges" (Node.asList EdgeRecord.ofNode) Fields.edges
        (fun a s => { s with edges := some a })]
  blank := {}
  build s := do
    let vertices ← Json.required "vertices" s.vertices
    let edges ← Json.required "edges" s.edges
    return ⟨vertices, edges⟩

def ofNode : Node → Except Error Snapshot := shape.ofNode

def toValue (snapshot : Snapshot) : Value :=
  .map [("vertices", .list (snapshot.vertices.map VertexRecord.toValue)),
    ("edges", .list (snapshot.edges.map EdgeRecord.toValue))]

end Snapshot

namespace Config

structure Fields where
  width : Option (Option UInt64) := none
  color : Option Bool := none

def shape : Json.Shape Node Fields Config where
  name := "TraceConfig"
  fields :=
    [.slot "width" (Node.asOption Node.asWord64) Fields.width
        (fun a s => { s with width := some a }),
      .slot "color" Node.asBool Fields.color (fun a s => { s with color := some a })]
  blank := {}
  build s := do
    let color ← Json.required "color" s.color
    return ⟨s.width.join, color⟩

def ofNode : Node → Except Error Config := shape.ofNode

def toValue (config : Config) : Value :=
  .map [("width", .ofOption (fun width => .ofNat width.toNat) config.width),
    ("color", .boolean config.color)]

end Config

end TemplateTrace
