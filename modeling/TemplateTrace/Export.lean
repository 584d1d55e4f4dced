import TemplateTrace.Encoding.Snapshot

namespace TemplateTrace

inductive Format where
  | dump
  | dot
  | json
  deriving DecidableEq, Repr

namespace Format

def ofName? : String → Option Format
  | "dump" | "text" => some dump
  | "dot" | "graphviz" => some dot
  | "json" => some json
  | _ => none

def unknownMessage (text : String) : String :=
  "invalid export format '" ++ text ++ "', expected dump/dot/json"

end Format

namespace Graph

def dumpVertex (id : Nat) (vertex : Vertex) : String :=
  toString id ++ " : " ++ vertex.name ++ " instantiated from " ++ Location.describe vertex.location
    ++ "\n"

def dumpEdge (g : Graph) (edge : Edge) : String :=
  g.name edge.source ++ " ---" ++ edge.kind.name ++ "---> " ++ g.name edge.target ++ "\n"

/-- Every vertex with its location, then every edge, each on a line. -/
def dump (g : Graph) : String :=
  "Verticies:\n"
    ++ String.join (g.vertices.zipIdx.map fun (vertex, id) => dumpVertex id vertex)
    ++ "Edges:\n"
    ++ String.join (g.edges.map g.dumpEdge)

/-- A label between quotes: backslashes, quotes and newlines are escaped. -/
def escapeLabel (label : String) : String :=
  String.ofList (label.toList.flatMap fun c =>
    match c with
    | '\\' => ['\\', '\\']
    | '"' => ['\\', '"']
    | '\n' => ['\\', 'n']
    | c => [c])

def dotVertex (id : Nat) (vertex : Vertex) : String :=
  "    N" ++ toString id ++ " [label=\"" ++ escapeLabel vertex.name ++ "\"];\n"

def dotEdge (edge : Edge) : String :=
  "    N" ++ toString edge.source ++ " -> N" ++ toString edge.target ++ " [label=\""
    ++ edge.kind.name ++ "\"];\n"

/-- A directed graph in DOT, a statement to a line. -/
def dot (g : Graph) : String :=
  "digraph \x7b\n"
    ++ String.join (g.vertices.zipIdx.map fun (vertex, id) => dotVertex id vertex)
    ++ String.join (g.edges.map dotEdge)
    ++ "\x7d\n"

def render (g : Graph) : Format → String
  | .dump => g.dump
  | .dot => g.dot
  | .json => g.snapshot.toValue.prettyText

end Graph

end TemplateTrace
