import TemplateTrace.Proofs.Dot
import TemplateTrace.Replay

namespace TemplateTrace

namespace Text

/-- A newline ends the last line before it, whatever that text holds. -/
theorem pieces_append_newline (text rest : List Char) :
    pieces (text ++ '\n' :: rest) = pieces text ++ pieces rest := by
  induction text with
  | nil => exact pieces_line List.not_mem_nil rest
  | cons c text ih =>
    rw [List.cons_append, pieces, ih, pieces]
    cases split : pieces text with
    | nil => exact absurd split (pieces_ne_nil text)
    | cons piece others =>
      simp only [List.cons_append]
      split_ifs <;> rfl

theorem length_pieces (text : List Char) : (pieces text).length = text.count '\n' + 1 := by
  induction text with
  | nil => rfl
  | cons c text ih =>
    rw [pieces]
    cases split : pieces text with
    | nil => exact absurd split (pieces_ne_nil text)
    | cons piece others =>
      rw [split] at ih
      by_cases newline : c = '\n'
      · simp only [newline, ↓reduceIte, List.length_cons, List.count_cons_self] at ih ⊢
        omega
      · simp only [newline, ↓reduceIte, List.length_cons, List.count_cons_of_ne newline] at ih ⊢
        exact ih

theorem pieces_plain {text : List Char} (plain : '\n' ∉ text) : pieces text = [text] := by
  have ended : [text] ++ pieces [] = pieces text ++ pieces [] := by
    rw [← pieces_append_newline, pieces_line plain]
    rfl
  exact (List.append_cancel_right ended).symm

/-- Items that newlines end give their own pieces, one item after the other. -/
theorem pieces_items (items : List (List Char)) :
    pieces (items.flatMap (· ++ ['\n'])) = items.flatMap pieces ++ [[]] := by
  induction items with
  | nil => rfl
  | cons item rest ih =>
    rw [List.flatMap_cons, List.append_assoc, List.singleton_append, pieces_append_newline, ih,
      List.flatMap_cons, List.append_assoc]

theorem length_flatMap_pieces (items : List (List Char)) :
    (items.flatMap pieces).length = items.length + items.flatten.count '\n' := by
  induction items with
  | nil => rfl
  | cons item rest ih =>
    rw [List.flatMap_cons, List.length_append, length_pieces, ih, List.length_cons,
      List.flatten_cons, List.count_append]
    omega

/-- There is a piece to an item exactly if no item holds a newline. -/
theorem length_flatMap_pieces_iff {items : List (List Char)} :
    (items.flatMap pieces).length = items.length ↔ ∀ item ∈ items, '\n' ∉ item := by
  rw [length_flatMap_pieces, Nat.add_eq_left, List.count_eq_zero, List.mem_flatten]
  constructor
  · intro plain item listed newline
    exact plain ⟨item, listed, newline⟩
  · rintro plain ⟨item, listed, newline⟩
    exact plain item listed newline

theorem flatMap_pieces_plain {items : List (List Char)} (plain : ∀ item ∈ items, '\n' ∉ item) :
    items.flatMap pieces = items := by
  have alone : items.flatMap pieces = items.flatMap fun item => [item] :=
    List.flatMap_congr fun item listed => pieces_plain (plain item listed)
  rw [alone, List.flatMap_singleton']

end Text

namespace Graph

def vertexItem (id : Nat) (vertex : Vertex) : String :=
  toString id ++ " : " ++ vertex.name ++ " instantiated from " ++ Location.describe vertex.location

def edgeItem (g : Graph) (edge : Edge) : String :=
  g.name edge.source ++ " ---" ++ edge.kind.name ++ "---> " ++ g.name edge.target

/-- The items of a dump in order: a heading, the vertices, a heading, the edges. -/
def dumpItems (g : Graph) : List String :=
  "Verticies:" :: (g.vertices.zipIdx.map fun (vertex, id) => vertexItem id vertex) ++
    "Edges:" :: g.edges.map g.edgeItem

/-- Neither the name of a vertex nor the file of its location holds a newline. -/
def OneLine (vertex : Vertex) : Prop :=
  '\n' ∉ vertex.name.toList ∧ ∀ location ∈ vertex.location, '\n' ∉ location.file.toList

theorem length_dumpItems (g : Graph) : g.dumpItems.length = g.vertexCount + g.edgeCount + 2 := by
  simp only [dumpItems, List.length_append, List.length_cons, List.length_map, List.length_zipIdx,
    vertexCount, edgeCount]
  omega

theorem toList_dump (g : Graph) :
    g.dump.toList = (g.dumpItems.map String.toList).flatMap (· ++ ['\n']) := by
  have vertices : (String.join (g.vertices.zipIdx.map fun (vertex, id) =>
        dumpVertex id vertex)).toList =
      ((g.vertices.zipIdx.map fun (vertex, id) => vertexItem id vertex).map String.toList).flatMap
        (· ++ ['\n']) := by
    rw [String.toList_join, List.flatMap_map, List.flatMap_map, List.flatMap_map]
    exact List.flatMap_congr fun _ _ => String.toList_append
  have edges : (String.join (g.edges.map g.dumpEdge)).toList =
      ((g.edges.map g.edgeItem).map String.toList).flatMap (· ++ ['\n']) := by
    rw [String.toList_join, List.flatMap_map, List.flatMap_map, List.flatMap_map]
    exact List.flatMap_congr fun _ _ => String.toList_append
  unfold dump
  rw [String.toList_append, String.toList_append, String.toList_append, vertices, edges, dumpItems,
    List.map_append, List.map_cons, List.map_cons, List.flatMap_append, List.flatMap_cons,
    List.flatMap_cons]
  simp only [List.append_assoc]
  rfl

/-- The lines of a dump are those of its items, in the order of these. -/
theorem pieces_dump (g : Graph) :
    Text.pieces g.dump.toList = (g.dumpItems.map String.toList).flatMap Text.pieces ++ [[]] := by
  rw [toList_dump, Text.pieces_items]

theorem newline_not_mem_describe {location : Option Location} :
    '\n' ∉ (Location.describe location).toList ↔
      ∀ place ∈ location, '\n' ∉ place.file.toList := by
  cases location with
  | none => simp [Location.describe]
  | some place =>
    simp [Location.describe, Location.text, Dot.newline_not_mem_toDigits]

theorem newline_not_mem_vertexItem {id : Nat} {vertex : Vertex} :
    '\n' ∉ (vertexItem id vertex).toList ↔ OneLine vertex := by
  simp [vertexItem, OneLine, Dot.newline_not_mem_toDigits, newline_not_mem_describe]

theorem newline_not_mem_kind (kind : Kind) : '\n' ∉ kind.name.toList := by
  cases kind <;> decide

theorem newline_not_mem_name {g : Graph} (plain : ∀ vertex ∈ g.vertices, OneLine vertex)
    (id : Nat) : '\n' ∉ (g.name id).toList := by
  rw [name]
  cases found : g.vertex? id with
  | none => simp
  | some vertex => exact (plain vertex (List.mem_of_getElem? found)).1

theorem newline_not_mem_edgeItem {g : Graph} (plain : ∀ vertex ∈ g.vertices, OneLine vertex)
    (edge : Edge) : '\n' ∉ (g.edgeItem edge).toList := by
  simp [edgeItem, newline_not_mem_name plain, newline_not_mem_kind]

/-- The items of a dump hold no newline exactly if no vertex does: what else an item holds is the
text of a number, a kind or the names of vertices. -/
theorem newline_not_mem_dumpItems {g : Graph} :
    (∀ item ∈ g.dumpItems.map String.toList, '\n' ∉ item) ↔
      ∀ vertex ∈ g.vertices, OneLine vertex := by
  rw [List.forall_mem_map]
  constructor
  · intro plain vertex listed
    obtain ⟨id, found⟩ := List.mem_iff_getElem?.mp listed
    have numbered : (vertex, id) ∈ g.vertices.zipIdx := List.mk_mem_zipIdx_iff_getElem?.mpr found
    have item : vertexItem id vertex ∈
        g.vertices.zipIdx.map fun (vertex, id) => vertexItem id vertex :=
      List.mem_map.mpr ⟨(vertex, id), numbered, rfl⟩
    exact newline_not_mem_vertexItem.mp
      (plain _ (List.mem_append_left _ (List.mem_cons_of_mem _ item)))
  · intro plain item listed
    rcases List.mem_append.mp listed with listed | listed
    · rcases List.mem_cons.mp listed with rfl | listed
      · decide
      · obtain ⟨⟨vertex, id⟩, numbered, rfl⟩ := List.mem_map.mp listed
        exact newline_not_mem_vertexItem.mpr (plain vertex (List.fst_mem_of_mem_zipIdx numbered))
    · rcases List.mem_cons.mp listed with rfl | listed
      · decide
      · obtain ⟨edge, -, rfl⟩ := List.mem_map.mp listed
        exact newline_not_mem_edgeItem plain edge

/-- **The lines of a plain dump.** The lines of every dump are those of its items: the heading of
the vertices, the vertices by number, the heading of the edges, the edges in the order they were
added; and nothing follows the last newline. There are two lines beside one for each vertex and each
edge exactly if no name and no file of a location holds a newline, and then each item is its
line. -/
theorem dump_lines (g : Graph) :
    Text.pieces g.dump.toList = (g.dumpItems.map String.toList).flatMap Text.pieces ++ [[]] ∧
    ((Text.pieces g.dump.toList).length = g.vertexCount + g.edgeCount + 2 + 1 ↔
      ∀ vertex ∈ g.vertices, OneLine vertex) ∧
    ((∀ vertex ∈ g.vertices, OneLine vertex) →
      Text.pieces g.dump.toList = g.dumpItems.map String.toList ++ [[]]) := by
  refine ⟨pieces_dump g, ?_, ?_⟩
  · rw [← newline_not_mem_dumpItems, ← Text.length_flatMap_pieces_iff, pieces_dump,
      List.length_append, List.length_singleton, List.length_map, length_dumpItems,
      Nat.add_right_cancel_iff]
  · intro plain
    rw [pieces_dump, Text.flatMap_pieces_plain (newline_not_mem_dumpItems.mpr plain)]

/-- Names and files with other controls and with the marks of the dump itself. -/
theorem dump_lines_marked :
    let g := [Call.addVertex "a ---Memoization---> b\r" (some ⟨"a : b\t.cpp", 1, 2⟩),
      .addEdge 0 1 .memoization].foldl after .empty
    (∀ vertex ∈ g.vertices, OneLine vertex) ∧
    Text.pieces g.dump.toList = g.dumpItems.map String.toList ++ [[]] := by
  intro g
  have plain : ∀ vertex ∈ g.vertices, OneLine vertex := by
    simp only [show g.vertices = [⟨rootName, none⟩,
      ⟨"a ---Memoization---> b\r", some ⟨"a : b\t.cpp", 1, 2⟩⟩] from rfl, List.forall_mem_cons]
    exact ⟨⟨by decide, by decide⟩, ⟨by decide, by decide⟩, by simp⟩
  exact ⟨plain, (dump_lines g).2.2 plain⟩

/-- A report of one name with a newline: a graph of two vertices and an edge, whose dump has seven
lines in place of five. -/
theorem dump_newline :
    let g := [Call.addVertex "a\nb" none, .addEdge 0 1 .memoization].foldl after .empty
    g.Reachable ∧ ofEvents [.enter "a\nb" .memoization none] = .ok g ∧
    g.vertexCount + g.edgeCount + 2 = 5 ∧
    Text.pieces g.dump.toList =
      ["Verticies:", "0 : <root> instantiated from <unknown>", "1 : a",
        "b instantiated from <unknown>", "Edges:", "<root> ---Memoization---> a", "b",
        ""].map String.toList :=
  ⟨reachable_calls _, by decide, by decide, by decide +kernel⟩

end Graph

end TemplateTrace
