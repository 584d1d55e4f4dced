import TemplateTrace.Proofs.Course
import TemplateTrace.Proofs.Store

/-!
# Edges at a vertex

A store may find the edges at a vertex in any order, the newest first for one. They are sorted by
their numbers afterwards, and numbers are given in the order edges are added. So what is asked of a
vertex does not depend on the order its edges are found in: the answer is the list of all edges
without those at other vertices (`adjacency_in_order`).

No edge is listed twice, so each is found at one vertex only in each direction, and there once
(`count_edgesAt`).
-/

namespace TemplateTrace

namespace Graph

/-- The list has each edge at a vertex once, in any order, and nothing else. -/
structure Finds (g : Graph) (direction : Direction) (id : Nat) (found : List Edge) : Prop where
  once : found.Nodup
  mem_iff : ∀ edge, edge ∈ found ↔ edge ∈ g.edges ∧ direction.near edge = id

/-- The edges at a vertex by their numbers, from a store that finds them in an order of its own. At
a number without a vertex nothing is looked for. -/
def edgesFound (g : Graph) (found : Direction → Nat → List Edge) (direction : Direction)
    (id : Nat) : List Edge :=
  match g.vertex? id with
  | none => []
  | some _ => Edge.sortById (found direction id)

section
variable {g : Graph} {direction : Direction} {id : Nat}

theorem WellFormed.nodup_edges (h : g.WellFormed) : g.edges.Nodup := List.Nodup.of_map _ h.single

theorem WellFormed.near_lt (h : g.WellFormed) {edge : Edge} (listed : edge ∈ g.edges) :
    direction.near edge < g.vertexCount := by
  have ends := h.ends edge listed
  cases direction with
  | outgoing => exact ends.1
  | incoming => exact ends.2

theorem Finds.perm (h : g.WellFormed) {found : List Edge} (finds : g.Finds direction id found) :
    found.Perm (g.incident direction id) := by
  apply (List.perm_ext_iff_of_nodup finds.once (h.nodup_edges.filter _)).mpr
  intro edge
  exact (finds.mem_iff edge).trans mem_incident.symm

theorem WellFormed.incident_foreign (h : g.WellFormed) (foreign : ¬ g.Holds id) :
    g.incident direction id = [] := by
  apply List.eq_nil_iff_forall_not_mem.mpr
  intro edge found
  obtain ⟨listed, rfl⟩ := mem_incident.mp found
  exact foreign (holds_iff.mpr (h.near_lt listed))

/-- The order in which edges are found does not show. -/
theorem WellFormed.edgesFound_eq (h : g.WellFormed) {found : Direction → Nat → List Edge}
    (finds : g.Holds id → g.Finds direction id (found direction id)) :
    g.edgesFound found direction id = g.edgesAt direction id := by
  rw [h.edgesAt_eq_incident, edgesFound]
  cases held : g.vertex? id with
  | none =>
    have foreign : ¬ g.Holds id := by simp [Holds, held]
    exact (h.incident_foreign foreign).symm
  | some vertex =>
    have reordered := (finds ⟨vertex, held⟩).perm h
    exact Edge.sortById_of_perm reordered (h.rising.filter _)

theorem WellFormed.count_edgesAt (h : g.WellFormed) {edge : Edge} (listed : edge ∈ g.edges) :
    (g.edgesAt direction id).count edge = if id = direction.near edge then 1 else 0 := by
  have once : (g.incident direction id).Nodup := h.nodup_edges.filter _
  rw [h.edgesAt_eq_incident, once.count]
  simp only [mem_incident, listed, true_and, eq_comm]

/-- Two vertices are joined exactly if one edge joins them: there are never two. -/
theorem WellFormed.hasEdge_iff_once (h : g.WellFormed) {source target : Nat} :
    g.hasEdge source target = true ↔
      g.edges.countP (fun edge => edge.source = source ∧ edge.target = target) = 1 := by
  have joins : (fun edge : Edge => decide (edge.source = source ∧ edge.target = target)) =
      (· == (source, target)) ∘ fun edge => (edge.source, edge.target) := by
    funext edge
    apply Bool.eq_iff_iff.mpr
    simp
  have listed : g.Joined source target ↔
      (source, target) ∈ g.edges.map fun edge => (edge.source, edge.target) := by
    simp [Joined]
  rw [hasEdge_iff, listed, joins, ← List.countP_map, ← List.count, h.single.count]
  simp

/-- Edges that are added later come behind those that are there. -/
theorem Reachable.edgesAt_run (reach : g.Reachable) (direction : Direction) (id : Nat)
    (more : List Call) :
    g.edgesAt direction id <+: (more.foldl after g).edgesAt direction id := by
  have h := reachable_wellFormed reach
  have later := reachable_wellFormed (reach.run more)
  rw [h.edgesAt_eq_incident, later.edgesAt_eq_incident]
  exact (run_extends h more).edges.filter _

end

/-- **Edges at a vertex are those of the whole list, in its order.** In every graph that calls can
make, and in whatever order a store finds the edges at its vertices, as long as it finds each of
them once: the edges from a vertex, and those to it, are the edges of the graph that start, or end,
there, in the order of the list of all edges, and calls that follow add to them at the end only; a
number without a vertex has none. Two vertices are joined exactly if one edge of the list joins
them. And each edge has its ends in the graph, and is once among the edges from its source, once
among those to its target, and nowhere else, so that an edge from a vertex to itself is in both
lists of that vertex. -/
theorem adjacency_in_order {g : Graph} (reach : g.Reachable) {found : Direction → Nat → List Edge}
    (finds : ∀ direction id, g.Holds id → g.Finds direction id (found direction id)) :
    (∀ id,
      g.edgesFound found .outgoing id = g.edges.filter (fun edge => edge.source = id) ∧
      g.edgesFound found .incoming id = g.edges.filter (fun edge => edge.target = id) ∧
      g.outEdges id = g.edgesFound found .outgoing id ∧
      g.inEdges id = g.edgesFound found .incoming id ∧
      (¬ g.Holds id → g.outEdges id = [] ∧ g.inEdges id = []) ∧
      ∀ more : List Call, g.outEdges id <+: (more.foldl after g).outEdges id ∧
        g.inEdges id <+: (more.foldl after g).inEdges id) ∧
    (∀ source target, g.hasEdge source target = true ↔
      g.edges.countP (fun edge => edge.source = source ∧ edge.target = target) = 1) ∧
    ∀ edge ∈ g.edges, g.Holds edge.source ∧ g.Holds edge.target ∧
      ∀ id, (g.outEdges id).count edge = (if id = edge.source then 1 else 0) ∧
        (g.inEdges id).count edge = (if id = edge.target then 1 else 0) := by
  have h := reachable_wellFormed reach
  refine ⟨?_, fun _ _ => h.hasEdge_iff_once, ?_⟩
  · intro id
    have sorted (direction : Direction) :
        g.edgesFound found direction id = g.edgesAt direction id :=
      h.edgesFound_eq (finds direction id)
    refine ⟨?_, ?_, (sorted .outgoing).symm, (sorted .incoming).symm, ?_, ?_⟩
    · exact (sorted .outgoing).trans (h.edgesAt_eq_incident .outgoing id)
    · exact (sorted .incoming).trans (h.edgesAt_eq_incident .incoming id)
    · intro foreign
      exact ⟨(h.edgesAt_eq_incident .outgoing id).trans (h.incident_foreign foreign),
        (h.edgesAt_eq_incident .incoming id).trans (h.incident_foreign foreign)⟩
    · intro more
      exact ⟨reach.edgesAt_run .outgoing id more, reach.edgesAt_run .incoming id more⟩
  · intro edge listed
    obtain ⟨source, target⟩ := h.ends edge listed
    refine ⟨holds_iff.mpr source, holds_iff.mpr target, ?_⟩
    intro id
    exact ⟨h.count_edgesAt listed, h.count_edgesAt listed⟩

theorem WellFormed.finds_newestFirst {g : Graph} (h : g.WellFormed) (direction : Direction)
    (id : Nat) : g.Finds direction id (g.newestFirst direction id) where
  once := List.nodup_reverse.mpr (h.nodup_edges.filter _)
  mem_iff := by simp [newestFirst, mem_incident]

/-- A vertex that instantiates itself between the edges to and from two others. -/
theorem adjacency_in_order_loop :
    let g := made [.addVertex "A" none, .addVertex "B" none, .addEdge 0 1 .memoization,
      .addEdge 1 1 .templateInstantiation, .addEdge 1 2 .memoization, .addEdge 2 1 .memoization]
    g.Reachable ∧
    (∀ direction id, g.Holds id → g.Finds direction id (g.newestFirst direction id)) ∧
    g.newestFirst .incoming 1 =
      [⟨3, 2, 1, .memoization⟩, ⟨1, 1, 1, .templateInstantiation⟩, ⟨0, 0, 1, .memoization⟩] ∧
    g.inEdges 1 =
      [⟨0, 0, 1, .memoization⟩, ⟨1, 1, 1, .templateInstantiation⟩, ⟨3, 2, 1, .memoization⟩] ∧
    g.inEdges 1 = g.edgesFound g.newestFirst .incoming 1 ∧
    g.inEdges 3 = [] ∧
    (g.outEdges 1).count ⟨1, 1, 1, .templateInstantiation⟩ = 1 ∧
    (g.inEdges 1).count ⟨1, 1, 1, .templateInstantiation⟩ = 1 := by
  intro g
  have reach : g.Reachable := reachable_calls _
  have finds (direction : Direction) (id : Nat) (_ : g.Holds id) :
      g.Finds direction id (g.newestFirst direction id) :=
    (reachable_wellFormed reach).finds_newestFirst direction id
  obtain ⟨lists, -, edges⟩ := adjacency_in_order reach finds
  obtain ⟨-, -, counts⟩ := edges ⟨1, 1, 1, .templateInstantiation⟩ (by decide)
  obtain ⟨-, -, -, incoming, -, -⟩ := lists 1
  obtain ⟨-, -, -, -, foreign, -⟩ := lists 3
  refine ⟨reach, finds, by decide, by decide, incoming, (foreign ?_).2, (counts 1).1, (counts 1).2⟩
  exact fun held => absurd (holds_iff.mp held) (by decide)

end Graph

end TemplateTrace
