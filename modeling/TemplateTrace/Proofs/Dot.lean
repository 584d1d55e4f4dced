import Mathlib.Data.List.Infix
import TemplateTrace.Export
import TemplateTrace.Proofs.Lexemes
import TemplateTrace.Proofs.Reachable
import TemplateTrace.Text

/-!
# What a DOT text tells

A name may hold anything: quotes, backslashes, newlines, the very syntax of DOT. Between the quotes
of its label it is written so that it can neither end the label nor the line, and reading the label
gives it back (`readLabel_escaped`).

`statements` reads a DOT text line by line. What it reads of an exported graph are its vertices and
edges in their order (`statements_dot`), so graphs with the same text have the same names and the
same edges.
-/

namespace TemplateTrace

namespace Text

theorem pieces_ne_nil (text : List Char) : pieces text ≠ [] := by
  cases text with
  | nil => simp [pieces]
  | cons c rest =>
    unfold pieces
    split
    · simp
    · split <;> simp

theorem pieces_line {line : List Char} (plain : '\n' ∉ line) (rest : List Char) :
    pieces (line ++ '\n' :: rest) = line :: pieces rest := by
  induction line with
  | nil =>
    rw [List.nil_append, pieces]
    split
    · next none => exact absurd none (pieces_ne_nil rest)
    · next piece others some => rw [if_pos rfl, some]
  | cons c line ih =>
    simp only [List.mem_cons, not_or] at plain
    rw [List.cons_append, pieces, ih plain.2]
    exact if_neg (Ne.symm plain.1)

/-- Lines that newlines end are the pieces of a text, with nothing behind the last newline. -/
theorem pieces_lines {lines : List (List Char)} (plain : ∀ line ∈ lines, '\n' ∉ line) :
    pieces (lines.flatMap (· ++ ['\n'])) = lines ++ [[]] := by
  induction lines with
  | nil => rfl
  | cons line rest ih =>
    have others := ih fun other listed => plain other (List.mem_cons_of_mem _ listed)
    rw [List.flatMap_cons, List.append_assoc, List.singleton_append,
      pieces_line (plain line List.mem_cons_self), others]
    rfl

end Text

namespace Dot

/-! ## Labels -/

/-- A text with another text in the place of each occurrence of a character. -/
def replaced (c : Char) (instead : List Char) (text : List Char) : List Char :=
  text.flatMap fun other => if other = c then instead else [other]

/-- A text with its backslashes escaped, then its quotes, then its newlines. -/
def escapedInTurn (text : List Char) : List Char :=
  replaced '\n' ['\\', 'n'] (replaced '"' ['\\', '"'] (replaced '\\' ['\\', '\\'] text))

/-- Reads a label from behind its opening quote: the label without its escapes, and what follows the
first quote that is not escaped. There is no such quote, or no such escape, where there is no
result. -/
def readLabel : List Char → Option (List Char × List Char)
  | [] => none
  | '"' :: rest => some ([], rest)
  | '\\' :: '\\' :: rest => (readLabel rest).map fun (label, behind) => ('\\' :: label, behind)
  | '\\' :: '"' :: rest => (readLabel rest).map fun (label, behind) => ('"' :: label, behind)
  | '\\' :: 'n' :: rest => (readLabel rest).map fun (label, behind) => ('\n' :: label, behind)
  | '\\' :: _ => none
  | c :: rest => (readLabel rest).map fun (label, behind) => (c :: label, behind)

def escapedChar (c : Char) : List Char :=
  match c with
  | '\\' => ['\\', '\\']
  | '"' => ['\\', '"']
  | '\n' => ['\\', 'n']
  | c => [c]

theorem toList_escapeLabel (label : String) :
    (Graph.escapeLabel label).toList = label.toList.flatMap escapedChar := by
  rw [Graph.escapeLabel, String.toList_ofList]
  rfl

/-- Escaping one kind of character after the other comes to escaping each character once: what a
replacement puts in, the later ones leave alone. -/
theorem escapedInTurn_eq (text : List Char) : escapedInTurn text = text.flatMap escapedChar := by
  unfold escapedInTurn replaced
  rw [List.flatMap_assoc, List.flatMap_assoc]
  congr 1
  funext c
  by_cases backslash : c = '\\'
  · subst backslash
    rfl
  by_cases quote : c = '"'
  · subst quote
    rfl
  by_cases newline : c = '\n'
  · subst newline
    rfl
  · simp [escapedChar, backslash, quote, newline]

theorem readLabel_plain {c : Char} (backslash : c ≠ '\\') (quote : c ≠ '"') (rest : List Char) :
    readLabel (c :: rest) =
      (readLabel rest).map fun (label, behind) => (c :: label, behind) := by
  rw [readLabel.eq_def]
  split
  case h_7 first others _ _ _ _ _ same =>
    obtain ⟨rfl, rfl⟩ := List.cons.inj same
    rfl
  all_goals simp_all

theorem readLabel_escapedChar (c : Char) (rest : List Char) :
    readLabel (escapedChar c ++ rest) =
      (readLabel rest).map fun (label, behind) => (c :: label, behind) := by
  unfold escapedChar
  split
  · simp [readLabel]
  · simp [readLabel]
  · simp [readLabel]
  · next backslash quote newline => exact readLabel_plain backslash quote rest

/-- A label is read back up to the quote that closes it, whatever follows. -/
theorem readLabel_escaped (text rest : List Char) :
    readLabel (text.flatMap escapedChar ++ '"' :: rest) = some (text, rest) := by
  induction text with
  | nil => simp [readLabel]
  | cons c text ih =>
    rw [List.flatMap_cons, List.append_assoc, readLabel_escapedChar, ih]
    rfl

theorem newline_not_mem_escaped (text : List Char) : '\n' ∉ text.flatMap escapedChar := by
  intro listed
  obtain ⟨c, -, written⟩ := List.mem_flatMap.mp listed
  unfold escapedChar at written
  split at written
  · simp at written
  · simp at written
  · simp at written
  · next newline => exact newline (List.mem_singleton.mp written).symm

/-! ## Statements -/

/-- What a line of DOT states: a vertex with its label, or an edge whose label is a kind. -/
inductive Statement where
  | vertex (id : Nat) (name : String)
  | edge (source target : Nat) (kind : Kind)
  deriving DecidableEq, Repr

/-- What every statement starts with. -/
def lead : List Char := "    N".toList

def arrow : List Char := " -> N".toList

/-- What stands before a label, its opening quote included. -/
def opening : List Char := " [label=\"".toList

def closing : List Char := "];".toList

/-- The number at the front of a text, and what follows its digits. -/
def readNumber (text : List Char) : Nat × List Char :=
  (Nat.ofDigitChars 10 (text.takeWhile Char.isDigit) 0, text.dropWhile Char.isDigit)

def readCaption (text : List Char) : Option String := do
  let body ← text.dropPrefix? opening
  let (label, behind) ← readLabel body
  if behind = closing then some (String.ofList label) else none

def statement? (line : List Char) : Option Statement := do
  let (id, rest) := readNumber (← line.dropPrefix? lead)
  match rest.dropPrefix? arrow with
  | some far =>
    let (target, rest) := readNumber far
    let kind ← Kind.ofName? (← readCaption rest)
    return .edge id target kind
  | none => return .vertex id (← readCaption rest)

def statements (text : String) : List Statement := (Text.pieces text.toList).filterMap statement?

/-- The label of a text as it ends a statement. -/
def caption (text : List Char) : List Char :=
  opening ++ (text.flatMap escapedChar ++ '"' :: closing)

def vertexLine (id : Nat) (name : String) : List Char :=
  lead ++ (Nat.toDigits 10 id ++ caption name.toList)

def edgeLine (edge : Edge) : List Char :=
  lead ++ (Nat.toDigits 10 edge.source ++
    (arrow ++ (Nat.toDigits 10 edge.target ++ caption edge.kind.name.toList)))

theorem dropPrefix?_append (front rest : List Char) :
    (front ++ rest).dropPrefix? front = some rest :=
  List.dropPrefix?_eq_some_iff.mpr ⟨front, rfl, beq_self_eq_true front⟩

theorem readNumber_toDigits (n : Nat) {rest : List Char} (apart : Json.Apart rest) :
    readNumber (Nat.toDigits 10 n ++ rest) = (n, rest) := by
  have digits : ∀ c ∈ Nat.toDigits 10 n, c.isDigit = true := by
    intro c listed
    exact Nat.isDigit_of_mem_toDigits (by decide) (by decide) listed
  rw [readNumber, List.takeWhile_append_of_pos digits, List.dropWhile_append_of_pos digits,
    Json.takeWhile_apart apart, Json.dropWhile_apart apart, List.append_nil,
    Nat.ofDigitChars_ten_toDigits]

theorem readCaption_caption (text : List Char) :
    readCaption (caption text) = some (String.ofList text) := by
  unfold readCaption caption
  rw [dropPrefix?_append, Option.bind_eq_bind, Option.bind_some, readLabel_escaped,
    Option.bind_eq_bind, Option.bind_some]
  exact if_pos rfl

theorem apart_caption (text : List Char) : Json.Apart (caption text) :=
  .cons (by decide) (by decide) _

theorem apart_arrow (rest : List Char) : Json.Apart (arrow ++ rest) :=
  .cons (by decide) (by decide) _

/-- A bracket is no arrow. -/
theorem dropPrefix?_caption (text : List Char) : (caption text).dropPrefix? arrow = none := rfl

theorem statement?_vertexLine (id : Nat) (name : String) :
    statement? (vertexLine id name) = some (.vertex id name) := by
  unfold statement? vertexLine
  simp only [dropPrefix?_append, Option.bind_eq_bind, Option.bind_some,
    readNumber_toDigits id (apart_caption _), dropPrefix?_caption, readCaption_caption,
    String.ofList_toList]
  rfl

theorem statement?_edgeLine (edge : Edge) :
    statement? (edgeLine edge) = some (.edge edge.source edge.target edge.kind) := by
  unfold statement? edgeLine
  simp only [dropPrefix?_append, Option.bind_eq_bind, Option.bind_some,
    readNumber_toDigits _ (apart_arrow _), readNumber_toDigits _ (apart_caption _),
    readCaption_caption, String.ofList_toList, Kind.ofName?_name]
  rfl

/-! ## Lines -/

/-- The first and the last line of a text. -/
def head : List Char := "digraph \x7b".toList

def foot : List Char := "\x7d".toList

/-- The lines of an exported graph, without their newlines. -/
def lines (g : Graph) : List (List Char) :=
  head :: (g.vertices.zipIdx.map (fun (vertex, id) => vertexLine id vertex.name) ++
    (g.edges.map edgeLine ++ [foot]))

theorem toList_toString (n : Nat) : (toString n).toList = Nat.toDigits 10 n := by
  rw [Nat.toString_eq_ofList_toDigits, String.toList_ofList]

theorem toList_dotVertex (id : Nat) (vertex : Vertex) :
    (Graph.dotVertex id vertex).toList = vertexLine id vertex.name ++ ['\n'] := by
  unfold Graph.dotVertex
  iterate 4 rw [String.toList_append]
  change lead ++ (toString id).toList ++ opening ++ (Graph.escapeLabel vertex.name).toList ++
    '"' :: (closing ++ ['\n']) = _
  rw [toList_toString, toList_escapeLabel, vertexLine, caption]
  simp only [List.append_assoc, List.cons_append]

/-- The names of kinds need no escapes. -/
theorem escaped_kind (kind : Kind) : kind.name.toList.flatMap escapedChar = kind.name.toList := by
  cases kind <;> decide +kernel

theorem toList_dotEdge (edge : Edge) : (Graph.dotEdge edge).toList = edgeLine edge ++ ['\n'] := by
  unfold Graph.dotEdge
  iterate 6 rw [String.toList_append]
  change lead ++ (toString edge.source).toList ++ arrow ++ (toString edge.target).toList ++
    opening ++ edge.kind.name.toList ++ '"' :: (closing ++ ['\n']) = _
  rw [toList_toString, toList_toString, edgeLine, caption, escaped_kind]
  simp only [List.append_assoc, List.cons_append]

theorem toList_dot (g : Graph) : g.dot.toList = (lines g).flatMap (· ++ ['\n']) := by
  have vertices : (String.join (g.vertices.zipIdx.map fun (vertex, id) =>
        Graph.dotVertex id vertex)).toList =
      (g.vertices.zipIdx.map fun (vertex, id) => vertexLine id vertex.name).flatMap
        (· ++ ['\n']) := by
    rw [String.toList_join, List.flatMap_map, List.flatMap_map]
    exact List.flatMap_congr fun numbered _ => toList_dotVertex numbered.2 numbered.1
  have edges : (String.join (g.edges.map Graph.dotEdge)).toList =
      (g.edges.map edgeLine).flatMap (· ++ ['\n']) := by
    rw [String.toList_join, List.flatMap_map, List.flatMap_map]
    exact List.flatMap_congr fun edge _ => toList_dotEdge edge
  unfold Graph.dot
  iterate 3 rw [String.toList_append]
  rw [vertices, edges, lines, List.flatMap_cons, List.flatMap_append, List.flatMap_append,
    List.append_assoc, List.append_assoc]
  rfl

theorem newline_not_mem_toDigits (n : Nat) : '\n' ∉ Nat.toDigits 10 n := by
  intro listed
  have digit := Nat.isDigit_of_mem_toDigits (b := 10) (by decide) (by decide) listed
  simp at digit

theorem newline_not_mem_caption (text : List Char) : '\n' ∉ caption text := by
  simp only [caption, List.mem_append, List.mem_cons, not_or]
  exact ⟨by decide, newline_not_mem_escaped text, by decide, by decide⟩

theorem newline_not_mem_vertexLine (id : Nat) (name : String) : '\n' ∉ vertexLine id name := by
  simp only [vertexLine, List.mem_append, not_or]
  exact ⟨by decide, newline_not_mem_toDigits id, newline_not_mem_caption _⟩

theorem newline_not_mem_edgeLine (edge : Edge) : '\n' ∉ edgeLine edge := by
  simp only [edgeLine, List.mem_append, not_or]
  exact ⟨by decide, newline_not_mem_toDigits _, by decide, newline_not_mem_toDigits _,
    newline_not_mem_caption _⟩

theorem newline_not_mem_lines (g : Graph) : ∀ line ∈ lines g, '\n' ∉ line := by
  intro line listed
  unfold lines at listed
  rcases List.mem_cons.mp listed with rfl | listed
  · decide
  rcases List.mem_append.mp listed with listed | listed
  · obtain ⟨⟨vertex, id⟩, -, rfl⟩ := List.mem_map.mp listed
    exact newline_not_mem_vertexLine id vertex.name
  rcases List.mem_append.mp listed with listed | listed
  · obtain ⟨edge, -, rfl⟩ := List.mem_map.mp listed
    exact newline_not_mem_edgeLine edge
  · obtain rfl := List.mem_singleton.mp listed
    decide

theorem length_lines (g : Graph) : (lines g).length = g.vertexCount + g.edgeCount + 2 := by
  simp only [lines, List.length_cons, List.length_append, List.length_map, List.length_zipIdx,
    List.length_nil, Graph.vertexCount, Graph.edgeCount]
  omega

/-- The line of a vertex is the one of its number, counted behind the first line. -/
theorem getElem?_lines {g : Graph} {id : Nat} {vertex : Vertex}
    (found : g.vertex? id = some vertex) :
    (lines g)[id + 1]? = some (vertexLine id vertex.name) := by
  have bound : id < g.vertices.length := (List.getElem?_eq_some_iff.mp found).1
  have listed : g.vertices[id]? = some vertex := found
  rw [lines, List.getElem?_cons_succ, List.getElem?_append_left (by simpa using bound),
    List.getElem?_map, List.getElem?_zipIdx, listed, Nat.zero_add]
  rfl

theorem vertexLine_eq (id : Nat) (name : String) :
    vertexLine id name =
      ("    N" ++ toString id ++ " [label=\"").toList ++
        (escapedInTurn name.toList ++ '"' :: "];".toList) := by
  rw [String.toList_append, String.toList_append]
  change _ = lead ++ (toString id).toList ++ opening ++ (_ ++ '"' :: closing)
  rw [toList_toString, escapedInTurn_eq, vertexLine, caption, List.append_assoc, List.append_assoc]

/-! ## Reading an exported graph -/

/-- The name of a vertex, if a vertex is stated. -/
def Statement.name? : Statement → Option String
  | vertex _ name => some name
  | edge _ _ _ => none

/-- The ends and the kind of an edge, if an edge is stated. -/
def Statement.link? : Statement → Option (Nat × Nat × Kind)
  | vertex _ _ => none
  | edge source target kind => some (source, target, kind)

theorem filterMap_statement? {α : Type} {write : α → List Char} {said : α → Statement}
    (back : ∀ a, statement? (write a) = some (said a)) (items : List α) :
    (items.map write).filterMap statement? = items.map said := by
  induction items with
  | nil => rfl
  | cons item rest ih =>
    rw [List.map_cons, List.filterMap_cons_some (back item), ih, List.map_cons]

/-- A graph is read back from its text: each vertex with its number and name, then each edge. -/
theorem statements_dot (g : Graph) :
    statements g.dot =
      g.vertices.zipIdx.map (fun (vertex, id) => .vertex id vertex.name) ++
        g.edges.map fun edge => .edge edge.source edge.target edge.kind := by
  have first : statement? head = none := by decide
  have last : ([foot] ++ [[]]).filterMap statement? = [] := by decide
  have vertices : (g.vertices.zipIdx.map fun (vertex, id) =>
        vertexLine id vertex.name).filterMap statement? =
      g.vertices.zipIdx.map fun (vertex, id) => .vertex id vertex.name :=
    filterMap_statement? (fun (vertex, id) => statement?_vertexLine id vertex.name) _
  rw [statements, toList_dot, Text.pieces_lines (newline_not_mem_lines g), lines, List.cons_append,
    List.filterMap_cons_none first, List.append_assoc, List.append_assoc, List.filterMap_append,
    List.filterMap_append, vertices, filterMap_statement? statement?_edgeLine, last,
    List.append_nil]

theorem names_of_dot (g : Graph) :
    (statements g.dot).filterMap Statement.name? = g.vertices.map Vertex.name := by
  have edges : (g.edges.map fun edge =>
      Statement.edge edge.source edge.target edge.kind).filterMap Statement.name? = [] := by
    rw [List.filterMap_map]
    exact List.filterMap_eq_nil_iff.mpr fun _ _ => rfl
  have named : Statement.name? ∘ (fun (vertex, id) => Statement.vertex id vertex.name) =
      some ∘ Vertex.name ∘ Prod.fst := rfl
  rw [statements_dot, List.filterMap_append, edges, List.append_nil, List.filterMap_map, named,
    List.filterMap_eq_map, ← List.map_map, List.zipIdx_map_fst]

theorem links_of_dot (g : Graph) :
    (statements g.dot).filterMap Statement.link? =
      g.edges.map fun edge => (edge.source, edge.target, edge.kind) := by
  have vertices : (g.vertices.zipIdx.map fun (vertex, id) =>
      Statement.vertex id vertex.name).filterMap Statement.link? = [] := by
    rw [List.filterMap_map]
    exact List.filterMap_eq_nil_iff.mpr fun _ _ => rfl
  have linked : Statement.link? ∘ (fun edge : Edge =>
      Statement.edge edge.source edge.target edge.kind) =
      some ∘ fun edge => (edge.source, edge.target, edge.kind) := rfl
  rw [statements_dot, List.filterMap_append, vertices, List.nil_append, List.filterMap_map, linked,
    List.filterMap_eq_map]

end Dot

/-- **A DOT text is well delimited and faithful.** It has a line for each vertex and each edge, and
two around them. The label of a vertex is its name with backslashes, quotes and newlines escaped in
turn; read from behind its opening quote, it gives back the name, and its first unescaped quote is
the one before the brackets close. So graphs with the same text have the same names, by number, and
the same edges, in their order. -/
theorem Graph.dot_faithful (g : Graph) :
    (∃ lines : List (List Char),
      lines.length = g.vertexCount + g.edgeCount + 2 ∧
      (∀ line ∈ lines, '\n' ∉ line) ∧
      g.dot.toList = lines.flatMap (· ++ ['\n']) ∧
      ∀ id vertex, g.vertex? id = some vertex →
        lines[id + 1]? =
          some (("    N" ++ toString id ++ " [label=\"").toList ++
            (Dot.escapedInTurn vertex.name.toList ++ '"' :: "];".toList)) ∧
        Dot.readLabel (Dot.escapedInTurn vertex.name.toList ++ '"' :: "];".toList) =
          some (vertex.name.toList, "];".toList)) ∧
    ∀ other : Graph, g.dot = other.dot →
      g.vertices.map Vertex.name = other.vertices.map Vertex.name ∧
      (g.edges.map fun edge => (edge.source, edge.target, edge.kind)) =
        other.edges.map fun edge => (edge.source, edge.target, edge.kind) := by
  constructor
  · refine ⟨Dot.lines g, Dot.length_lines g, Dot.newline_not_mem_lines g, Dot.toList_dot g, ?_⟩
    intro id vertex found
    rw [Dot.getElem?_lines found, Dot.vertexLine_eq, Dot.escapedInTurn_eq]
    exact ⟨rfl, Dot.readLabel_escaped _ _⟩
  · intro other same
    constructor
    · rw [← Dot.names_of_dot g, ← Dot.names_of_dot other, same]
    · rw [← Dot.links_of_dot g, ← Dot.links_of_dot other, same]

/-- A name that would end its label and its line and add an edge, with a location or without. -/
theorem Graph.dot_faithful_imitation :
    let name := "\"];\n    N1 -> N0 [label=\"\\"
    let g := [Call.addVertex name none, .addEdge 0 1 .memoization].foldl after .empty
    let other := [Call.addVertex name (some ⟨"a.cpp", 1, 2⟩), .addEdge 0 1 .memoization].foldl
      after .empty
    (∃ lines : List (List Char), lines.length = 5 ∧
      g.dot.toList = lines.flatMap (· ++ ['\n']) ∧
      lines[2]? = some (("    N" ++ toString 1 ++ " [label=\"").toList ++
        (Dot.escapedInTurn name.toList ++ '"' :: "];".toList))) ∧
    Dot.readLabel (Dot.escapedInTurn name.toList ++ '"' :: "];".toList) =
      some (name.toList, "];".toList) ∧
    g.dot = other.dot ∧ g.vertices.map Vertex.name = other.vertices.map Vertex.name := by
  intro name g other
  obtain ⟨⟨lines, count, -, text, labelled⟩, told⟩ := dot_faithful g
  obtain ⟨line, label⟩ := labelled 1 ⟨name, none⟩ rfl
  have same : g.dot = other.dot := rfl
  exact ⟨⟨lines, count, text, line⟩, label, same, (told other same).1⟩

end TemplateTrace
