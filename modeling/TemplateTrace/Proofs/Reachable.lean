import Mathlib.Data.List.Sort
import TemplateTrace.Graph

/-!
# Graphs that calls can make

A graph is made by adding vertices and edges to the empty one; a refused call changes nothing.
`reachable_wellFormed` is what every such graph has: the root comes first, names are told apart,
edges are numbered in their order, join vertices that exist, and join no pair twice.

Edges have distinct numbers, so only one order of them is sorted (`sortById_of_perm`). The edges at
a vertex are found the newest first, and listed in the order they were added
(`edgesAt_eq_incident`).
-/

namespace TemplateTrace

/-- A call that may change a graph, with any arguments. -/
inductive Call where
  | addVertex (name : String) (location : Option Location)
  | addEdge (source target : Nat) (kind : Kind)
  deriving DecidableEq, Repr

namespace Edge

theorem insertById_eq_orderedInsert (edge : Edge) (edges : List Edge) :
    edge.insertById edges = edges.orderedInsert (fun a b => a.id ≤ b.id) edge := by
  induction edges with
  | nil => rfl
  | cons other rest ih => simp only [insertById, ih, List.orderedInsert_cons]

theorem sortById_eq_insertionSort (edges : List Edge) :
    sortById edges = edges.insertionSort fun a b => a.id ≤ b.id := by
  induction edges with
  | nil => rfl
  | cons edge rest ih =>
    simp only [sortById] at ih
    simp only [sortById, List.foldr_cons, ih, insertById_eq_orderedInsert,
      List.insertionSort_cons]

/-- Whatever order edges are found in, sorting them gives the one order in which their numbers
rise. -/
theorem sortById_of_perm {found edges : List Edge} (same : found.Perm edges)
    (rising : edges.Pairwise fun a b => a.id < b.id) : sortById found = edges := by
  have total : Std.Total fun a b : Edge => a.id ≤ b.id := ⟨fun a b => Nat.le_total a.id b.id⟩
  have trans : IsTrans Edge fun a b => a.id ≤ b.id := ⟨fun _ _ _ => Nat.le_trans⟩
  have sorted := List.pairwise_insertionSort (fun a b : Edge => a.id ≤ b.id) found
  have reordered := (List.perm_insertionSort (fun a b : Edge => a.id ≤ b.id) found).trans same
  have distinct : (edges.map Edge.id).Nodup := List.pairwise_map.mpr (rising.imp Nat.ne_of_lt)
  rw [sortById_eq_insertionSort]
  -- Two sorted orders can differ only where numbers are equal, and no two edges share one.
  refine List.Perm.eq_of_pairwise ?_ sorted (rising.imp Nat.le_of_lt) reordered
  intro a b listed listed' le ge
  exact List.inj_on_of_nodup_map distinct (reordered.subset listed) listed' (Nat.le_antisymm le ge)

end Edge

namespace Graph

/-- The graph after a call. A refused call leaves it as it was. -/
def after (g : Graph) : Call → Graph
  | .addVertex name location => (g.addVertex name location).2
  | .addEdge source target kind =>
    match g.addEdge source target kind with
    | .ok (_, joined) => joined
    | .error _ => g

/-- The graphs that finitely many calls make of the empty one. -/
inductive Reachable : Graph → Prop
  | start : Reachable .empty
  | next {g : Graph} (call : Call) : Reachable g → Reachable (g.after call)

theorem Reachable.run {g : Graph} (reach : g.Reachable) (calls : List Call) :
    (calls.foldl after g).Reachable := by
  induction calls generalizing g with
  | nil => exact reach
  | cons call rest ih => exact ih (reach.next call)

theorem reachable_calls (calls : List Call) : Reachable (calls.foldl after .empty) :=
  Reachable.start.run calls

/-- Two vertices that instantiate each other, the first of them below the root. -/
def twoWay : Graph :=
  [Call.addVertex "A" none, .addVertex "B" none, .addEdge 0 1 .memoization,
    .addEdge 1 2 .templateInstantiation, .addEdge 2 1 .memoization].foldl after .empty

theorem addEdge_new {g : Graph} {source target : Nat} (hs : source < g.vertexCount)
    (ht : target < g.vertexCount) (apart : g.hasEdge source target = false) (kind : Kind) :
    g.addEdge source target kind =
      .ok (g.edgeCount, { g with edges := g.edges ++ [⟨g.edgeCount, source, target, kind⟩] }) := by
  rw [addEdge, if_neg (by omega), if_neg (by omega), apart, if_neg Bool.false_ne_true]

/-- All that a call can do: nothing, append a vertex of a new name, or append an edge between
vertices that are not joined yet. -/
theorem after_cases (g : Graph) (call : Call) :
    g.after call = g ∨
    (∃ name location, g.find? name = none ∧
      g.after call = { g with vertices := g.vertices ++ [⟨name, location⟩] }) ∨
    (∃ source target kind, source < g.vertexCount ∧ target < g.vertexCount ∧
      g.hasEdge source target = false ∧
      g.after call = { g with edges := g.edges ++ [⟨g.edgeCount, source, target, kind⟩] }) := by
  cases call with
  | addVertex name location =>
    cases found : g.find? name with
    | some id => exact .inl (by simp [after, addVertex, found])
    | none => exact .inr (.inl ⟨name, location, found, by simp [after, addVertex, found]⟩)
  | addEdge source target kind =>
    by_cases hs : g.vertexCount ≤ source
    · exact .inl (by simp [after, addEdge, hs])
    by_cases ht : g.vertexCount ≤ target
    · exact .inl (by simp [after, addEdge, hs, ht])
    cases joined : g.hasEdge source target with
    | true => exact .inl (by simp [after, addEdge, hs, ht, joined])
    | false =>
      exact .inr (.inr ⟨source, target, kind, by omega, by omega, joined,
        by simp [after, addEdge, hs, ht, joined]⟩)

/-- What every graph made by calls has. -/
structure WellFormed (g : Graph) : Prop where
  rooted : g.vertices.head? = some ⟨rootName, none⟩
  named : (g.vertices.map Vertex.name).Nodup
  numbered : g.edges.map Edge.id = List.range g.edgeCount
  ends : ∀ edge ∈ g.edges, edge.source < g.vertexCount ∧ edge.target < g.vertexCount
  single : (g.edges.map fun edge => (edge.source, edge.target)).Nodup

theorem find?_eq_none_iff {g : Graph} {name : String} :
    g.find? name = none ↔ name ∉ g.vertices.map Vertex.name := by
  simp [find?, List.findIdx?_eq_none_iff]

theorem hasEdge_eq_false_iff {g : Graph} {source target : Nat} :
    g.hasEdge source target = false ↔
      (source, target) ∉ g.edges.map fun edge => (edge.source, edge.target) := by
  simp [hasEdge, List.any_eq_false]

theorem wellFormed_empty : WellFormed .empty where
  rooted := rfl
  named := by simp [empty]
  numbered := rfl
  ends := by simp [empty]
  single := by simp [empty]

theorem after_wellFormed {g : Graph} (h : g.WellFormed) (call : Call) :
    (g.after call).WellFormed := by
  obtain same | ⟨name, location, absent, grown⟩ |
    ⟨source, target, kind, hs, ht, apart, joined⟩ := g.after_cases call
  · rw [same]; exact h
  · rw [grown]
    have fresh := find?_eq_none_iff.mp absent
    refine ⟨?_, ?_, h.numbered, ?_, h.single⟩
    · simp [h.rooted]
    · rw [List.map_append]
      exact List.nodup_append.mpr ⟨h.named, by simp, by
        rintro a ha b hb rfl
        obtain rfl : a = name := by simpa using hb
        exact fresh ha⟩
    · intro edge he
      have := h.ends edge he
      simp only [vertexCount, List.length_append] at this ⊢
      omega
  · rw [joined]
    have fresh := hasEdge_eq_false_iff.mp apart
    refine ⟨h.rooted, h.named, ?_, ?_, ?_⟩
    · have numbered := h.numbered
      simp only [edgeCount] at numbered
      simp [edgeCount, List.range_succ, numbered]
    · intro edge he
      rcases List.mem_append.mp he with he | he
      · exact h.ends edge he
      · obtain rfl := List.mem_singleton.mp he
        exact ⟨hs, ht⟩
    · rw [List.map_append]
      exact List.nodup_append.mpr ⟨h.single, by simp, by
        rintro a ha b hb rfl
        obtain rfl : a = (source, target) := by simpa using hb
        exact fresh ha⟩

theorem reachable_wellFormed {g : Graph} (h : g.Reachable) : g.WellFormed := by
  induction h with
  | start => exact wellFormed_empty
  | next call _ ih => exact after_wellFormed ih call

theorem WellFormed.root_lt {g : Graph} (h : g.WellFormed) : root < g.vertexCount := by
  have := h.rooted
  cases listed : g.vertices with
  | nil => simp [listed] at this
  | cons => simp [root, vertexCount, listed]

theorem getElem?_names {g : Graph} {id : Nat} (h : id < g.vertexCount) :
    (g.vertices.map Vertex.name)[id]? = some (g.name id) := by
  have listed : id < g.vertices.length := h
  simp [name, vertex?, List.getElem?_eq_getElem listed]

/-- A vertex keeps its name when others are appended. -/
theorem name_append {g : Graph} {id : Nat} (h : id < g.vertexCount) (more : List Vertex)
    (edges : List Edge) : (Graph.mk (g.vertices ++ more) edges).name id = g.name id := by
  have listed : id < g.vertices.length := h
  simp [name, vertex?, List.getElem?_append_left listed]

theorem WellFormed.name_inj {g : Graph} (h : g.WellFormed) {a b : Nat} (ha : a < g.vertexCount)
    (hb : b < g.vertexCount) (same : g.name a = g.name b) : a = b := by
  have bound : a < (g.vertices.map Vertex.name).length := by
    rw [List.length_map]; exact ha
  apply (List.getElem?_inj bound h.named).mp
  rw [getElem?_names ha, getElem?_names hb, same]

/-- A name finds exactly the vertex that has it. -/
theorem WellFormed.find?_eq_some_iff {g : Graph} (h : g.WellFormed) {name : String} {id : Nat} :
    g.find? name = some id ↔ id < g.vertexCount ∧ g.name id = name := by
  have listed (other : Nat) (bound : other < g.vertices.length) :
      g.vertices[other].name = g.name other := by
    simp [Graph.name, vertex?, List.getElem?_eq_getElem bound]
  rw [find?, List.findIdx?_eq_some_iff_getElem]
  constructor
  · rintro ⟨bound, found, -⟩
    rw [beq_iff_eq, listed id bound] at found
    exact ⟨bound, found⟩
  · rintro ⟨bound, rfl⟩
    refine ⟨bound, by rw [beq_iff_eq, listed id bound], ?_⟩
    intro other less found
    have earlier : other < g.vertices.length := Nat.lt_trans less bound
    rw [beq_iff_eq, listed other earlier] at found
    have := h.name_inj earlier bound found
    omega

theorem WellFormed.found_inj {g : Graph} (h : g.WellFormed) {a b : String} {x y : Nat}
    (foundA : g.find? a = some x) (foundB : g.find? b = some y) : x = y ↔ a = b := by
  obtain ⟨boundX, rfl⟩ := h.find?_eq_some_iff.mp foundA
  obtain ⟨boundY, rfl⟩ := h.find?_eq_some_iff.mp foundB
  exact ⟨congrArg g.name, h.name_inj boundX boundY⟩

theorem WellFormed.find?_rootName {g : Graph} (h : g.WellFormed) :
    g.find? rootName = some root := by
  apply h.find?_eq_some_iff.mpr
  refine ⟨h.root_lt, ?_⟩
  rw [name, vertex?, root, ← List.head?_eq_getElem?, h.rooted]
  rfl

theorem WellFormed.rising {g : Graph} (h : g.WellFormed) :
    g.edges.Pairwise fun a b => a.id < b.id := by
  apply List.pairwise_map.mp
  rw [h.numbered]
  exact List.pairwise_lt_range

/-- The edges at a vertex are listed in the order they were added. -/
theorem WellFormed.edgesAt_eq_incident {g : Graph} (h : g.WellFormed) (direction : Direction)
    (id : Nat) : g.edgesAt direction id = g.incident direction id :=
  Edge.sortById_of_perm (List.reverse_perm _) (h.rising.filter _)

theorem WellFormed.far_lt {g : Graph} (h : g.WellFormed) (direction : Direction) {edge : Edge}
    (he : edge ∈ g.edges) : direction.far edge < g.vertexCount := by
  have := h.ends edge he
  cases direction with
  | outgoing => exact this.2
  | incoming => exact this.1

end Graph

end TemplateTrace
