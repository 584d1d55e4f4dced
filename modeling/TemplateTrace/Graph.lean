import TemplateTrace.Event

/-!
# Instantiation graphs

Vertices are entities, told apart by their printed names and numbered in the order they are added;
vertex 0 is the root. Edges say which entity instantiated which, at most one for each ordered pair,
and are numbered in the order they are added too. Nothing is ever removed.
-/

namespace TemplateTrace

/-- The cause of a failed operation. Vertices are given by their numbers. -/
inductive Fault where
  | typeNotFound (name : String)
  | vertexNotFound (id : Nat)
  | duplicateEdge (source target : Nat)
  | unrecognizedName (name : String)
  | unbalancedEvents (reason : String)
  deriving DecidableEq, Repr

namespace Fault

def message : Fault → String
  | typeNotFound name => "type \"" ++ name ++ "\" not found"
  | vertexNotFound id => "vertex not found: VertexId(" ++ toString id ++ ")"
  | duplicateEdge source target =>
    "duplicate edge: VertexId(" ++ toString source ++ ") -> VertexId(" ++ toString target ++ ")"
  | unrecognizedName name => "unrecognized name: '" ++ name ++ "'"
  | unbalancedEvents reason => "unbalanced instantiation events: " ++ reason

/-- A fault is internal unless the user asked for a type that is not there. -/
def isInternal : Fault → Bool
  | typeNotFound _ => false
  | _ => true

end Fault

/-- The name of the root, which stands for the whole metaprogram. -/
def rootName : String := "<root>"

/-- An entity, with the point where it was first instantiated. -/
structure Vertex where
  name : String
  location : Option Location
  deriving DecidableEq, Repr

/-- An instantiation of `target` on behalf of `source`. -/
structure Edge where
  id : Nat
  source : Nat
  target : Nat
  kind : Kind
  deriving DecidableEq, Repr

/-- The two ways to follow an edge. -/
inductive Direction where
  | outgoing
  | incoming
  deriving DecidableEq, Repr

namespace Direction

/-- The end of an edge that is walked from. -/
def near : Direction → Edge → Nat
  | outgoing, edge => edge.source
  | incoming, edge => edge.target

/-- The end of an edge that is walked to. -/
def far : Direction → Edge → Nat
  | outgoing, edge => edge.target
  | incoming, edge => edge.source

end Direction

namespace Edge

/-- Puts an edge before the first edge of a larger number. -/
def insertById (edge : Edge) : List Edge → List Edge
  | [] => [edge]
  | other :: rest =>
    if edge.id ≤ other.id then edge :: other :: rest else other :: insertById edge rest

/-- Edges by their numbers. -/
def sortById (edges : List Edge) : List Edge := edges.foldr insertById []

end Edge

/-- Vertices and edges, each in the order of their numbers. -/
structure Graph where
  vertices : List Vertex
  edges : List Edge
  deriving DecidableEq, Repr

namespace Graph

def root : Nat := 0

/-- The graph with the root alone. -/
def empty : Graph := ⟨[⟨rootName, none⟩], []⟩

def vertexCount (g : Graph) : Nat := g.vertices.length

def edgeCount (g : Graph) : Nat := g.edges.length

def vertexIds (g : Graph) : List Nat := List.range g.vertexCount

def vertex? (g : Graph) (id : Nat) : Option Vertex := g.vertices[id]?

/-- The name of a vertex; a number without a vertex has the empty name. -/
def name (g : Graph) (id : Nat) : String := (g.vertex? id).elim "" Vertex.name

def find? (g : Graph) (name : String) : Option Nat :=
  g.vertices.findIdx? (fun vertex => vertex.name == name)

def hasEdge (g : Graph) (source target : Nat) : Bool :=
  g.edges.any (fun edge => edge.source == source && edge.target == target)

def incident (g : Graph) (direction : Direction) (id : Nat) : List Edge :=
  g.edges.filter (fun edge => direction.near edge == id)

/-- The edges at a vertex as they are found: the newest comes first. -/
def newestFirst (g : Graph) (direction : Direction) (id : Nat) : List Edge :=
  (g.incident direction id).reverse

/-- The edges at a vertex in the order they were added. -/
def edgesAt (g : Graph) (direction : Direction) (id : Nat) : List Edge :=
  Edge.sortById (g.newestFirst direction id)

def outEdges (g : Graph) (id : Nat) : List Edge := g.edgesAt .outgoing id

def inEdges (g : Graph) (id : Nat) : List Edge := g.edgesAt .incoming id

/-- The number of the vertex with a name, and the graph with it. A name that is already there keeps
its vertex, and its location with it. -/
def addVertex (g : Graph) (name : String) (location : Option Location) : Nat × Graph :=
  match g.find? name with
  | some id => (id, g)
  | none => (g.vertexCount, { g with vertices := g.vertices ++ [⟨name, location⟩] })

/-- The number of a new edge, and the graph with it. Both ends have to exist and must not be joined
in this direction yet. -/
def addEdge (g : Graph) (source target : Nat) (kind : Kind) : Except Fault (Nat × Graph) :=
  if g.vertexCount ≤ source then .error (.vertexNotFound source)
  else if g.vertexCount ≤ target then .error (.vertexNotFound target)
  else if g.hasEdge source target then .error (.duplicateEdge source target)
  else .ok (g.edgeCount, { g with edges := g.edges ++ [⟨g.edgeCount, source, target, kind⟩] })

end Graph

end TemplateTrace
