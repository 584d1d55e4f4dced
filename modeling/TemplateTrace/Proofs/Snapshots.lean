import TemplateTrace.Export
import TemplateTrace.Proofs.Indented
import TemplateTrace.Proofs.Records
import TemplateTrace.Proofs.Store

namespace TemplateTrace

open Json (Node Plain)

/-! ## Decoding a snapshot -/

namespace Snapshot

theorem toValue_plain (snapshot : Snapshot) (levels : Nat) :
    Plain (levels + 4) snapshot.toValue := shaped_plain snapshot.shaped_toValue levels

theorem ofNode_toValue (snapshot : Snapshot) : ofNode snapshot.toValue.node = .ok snapshot :=
  snapshot.follows.ofNode (Node.has_of_value (snapshot.toValue_plain 0).value)
    snapshot.shaped_toValue

end Snapshot

/-! ## Making the calls of a snapshot -/

def Vertex.call (vertex : Vertex) : Call := .addVertex vertex.name vertex.location

def Edge.call (edge : Edge) : Call := .addEdge edge.source edge.target edge.kind

/-- The calls that the records of a snapshot stand for: each vertex in order, then each edge. -/
def Snapshot.calls (snapshot : Snapshot) : List Call :=
  snapshot.vertices.map (fun record => .addVertex record.name record.location) ++
    snapshot.edges.map fun record =>
      .addEdge record.source.toNat record.target.toNat record.kind

namespace Graph

/-- Makes calls one after another: what each is answered, and the graph in the end. -/
def serve (g : Graph) : List Call → List (Except Fault Nat) × Graph
  | [] => ([], g)
  | call :: rest =>
    let (answers, last) := (g.after call).serve rest
    (g.answer call :: answers, last)

theorem serve_cons {g later : Graph} {call : Call} {answered : Except Fault Nat}
    (answers : g.answer call = answered) (leaves : g.after call = later) (rest : List Call) :
    g.serve (call :: rest) = (answered :: (later.serve rest).1, (later.serve rest).2) := by
  rw [serve, answers, leaves]

theorem serve_append {g later : Graph} {calls : List Call} {answers : List (Except Fault Nat)}
    (served : g.serve calls = (answers, later)) (more : List Call) :
    g.serve (calls ++ more) = (answers ++ (later.serve more).1, (later.serve more).2) := by
  induction calls generalizing g answers with
  | nil =>
    obtain ⟨rfl, rfl⟩ := Prod.mk.inj served
    rfl
  | cons call rest ih =>
    rw [serve_cons rfl rfl] at served
    obtain ⟨rfl, rfl⟩ := Prod.mk.inj served
    rw [List.cons_append, serve_cons rfl rfl, ih rfl]
    rfl

/-- A vertex of a new name gets the next number. -/
theorem answer_vertex {g : Graph} {vertex : Vertex}
    (fresh : vertex.name ∉ g.vertices.map Vertex.name) :
    g.answer vertex.call = .ok g.vertexCount ∧
      g.after vertex.call = { g with vertices := g.vertices ++ [vertex] } := by
  have absent := find?_eq_none_iff.mpr fresh
  simp [Vertex.call, answer, after, addVertex, absent]

/-- An edge that can be added gets the next number. -/
theorem answer_edge {g : Graph} {edge : Edge} (next : edge.id = g.edgeCount)
    (source : edge.source < g.vertexCount) (target : edge.target < g.vertexCount)
    (apart : (edge.source, edge.target) ∉ g.edges.map fun edge => (edge.source, edge.target)) :
    g.answer edge.call = .ok edge.id ∧
      g.after edge.call = { g with edges := g.edges ++ [edge] } := by
  have added := addEdge_new source target (hasEdge_eq_false_iff.mpr apart) edge.kind
  rw [← next] at added
  simp only [Edge.call, answer, after, added]
  exact ⟨rfl, trivial⟩

theorem not_mem_map_of_nodup {α β : Type} {f : α → β} {front rest : List α} {a : α}
    (distinct : ((front ++ a :: rest).map f).Nodup) : f a ∉ front.map f := by
  intro listed
  rw [List.map_append, List.map_cons, List.nodup_append] at distinct
  exact distinct.2.2 _ listed _ List.mem_cons_self rfl

/-- Vertices of names that are new, one after another. -/
theorem serve_vertices {vertices rest : List Vertex} {edges : List Edge}
    (named : ((vertices ++ rest).map Vertex.name).Nodup) :
    (Graph.mk vertices edges).serve (rest.map Vertex.call) =
      ((List.range' vertices.length rest.length).map .ok, ⟨vertices ++ rest, edges⟩) := by
  induction rest generalizing vertices with
  | nil => simp [serve]
  | cons vertex rest ih =>
    obtain ⟨answered, left⟩ :=
      answer_vertex (g := ⟨vertices, edges⟩) (not_mem_map_of_nodup named)
    have others : (Graph.mk (vertices ++ [vertex]) edges).serve (rest.map Vertex.call) = _ :=
      ih (by simpa using named)
    rw [List.map_cons, serve_cons answered left, others]
    simp [vertexCount, List.range'_succ]

/-- The edges that a sound graph still lacks, one after another. -/
theorem serve_edges {vertices : List Vertex} {edges rest : List Edge}
    (h : (Graph.mk vertices (edges ++ rest)).WellFormed) :
    (Graph.mk vertices edges).serve (rest.map Edge.call) =
      (rest.map (fun edge => .ok edge.id), ⟨vertices, edges ++ rest⟩) := by
  induction rest generalizing edges with
  | nil => simp [serve]
  | cons edge rest ih =>
    -- Edges are numbered in their order, so this one has as its number how many came before.
    have next : edge.id = edges.length := by
      have numbered := congrArg (fun ids => ids[edges.length]?) h.numbered
      simpa [edgeCount] using numbered
    obtain ⟨source, target⟩ := h.ends edge (by simp)
    obtain ⟨answered, left⟩ :=
      answer_edge (g := ⟨vertices, edges⟩) next source target (not_mem_map_of_nodup h.single)
    have others : (Graph.mk vertices (edges ++ [edge])).serve (rest.map Edge.call) = _ :=
      ih (by simpa using h)
    rw [List.map_cons, serve_cons answered left, others]
    simp

/-- The records of a graph, added to the empty one in order, make it again. The root is there
already, and is answered with its number. -/
theorem WellFormed.serve_records {g : Graph} (h : g.WellFormed) :
    empty.serve (g.vertices.map Vertex.call ++ g.edges.map Edge.call) =
      ((List.range g.vertexCount).map .ok ++ (List.range g.edgeCount).map .ok, g) := by
  obtain ⟨vertices, edges⟩ := g
  obtain ⟨others, rfl⟩ : ∃ others, vertices = ⟨rootName, none⟩ :: others :=
    List.head?_eq_some_iff.mp h.rooted
  have root : empty.answer (Vertex.call ⟨rootName, none⟩) = .ok 0 ∧
      empty.after (Vertex.call ⟨rootName, none⟩) = empty := ⟨rfl, rfl⟩
  have rest : empty.serve (others.map Vertex.call) = _ := serve_vertices h.named
  have first : empty.serve ((⟨rootName, none⟩ :: others).map Vertex.call) =
      ((List.range (others.length + 1)).map .ok, ⟨⟨rootName, none⟩ :: others, []⟩) := by
    rw [List.map_cons, serve_cons root.1 root.2, rest, List.range_eq_range', List.range'_succ]
    rfl
  have numbers : edges.map (fun edge => Except.ok (ε := Fault) edge.id) =
      (List.range edges.length).map .ok := by
    have numbered : edges.map Edge.id = List.range edges.length := h.numbered
    rw [← numbered, List.map_map]
    rfl
  rw [serve_append first, serve_edges h, numbers]
  rfl

theorem snapshot_ids {g : Graph} (small : g.vertexCount ≤ UInt32.size) :
    g.snapshot.vertices.map (fun record => record.id.toNat) = List.range g.vertexCount := by
  apply List.ext_getElem
  · simp [snapshot, vertexCount]
  · intro id bound _
    have fits : id < UInt32.size := by
      simp only [snapshot, List.length_map, List.length_zipIdx] at bound
      exact Nat.lt_of_lt_of_le bound small
    simp [snapshot, UInt32.toNat_ofNat_of_lt' fits]

theorem WellFormed.snapshot_calls {g : Graph} (h : g.WellFormed)
    (small : g.vertexCount ≤ UInt32.size) :
    g.snapshot.calls = g.vertices.map Vertex.call ++ g.edges.map Edge.call := by
  have vertices : g.snapshot.vertices.map
      (fun record => Call.addVertex record.name record.location) = g.vertices.map Vertex.call := by
    have numberless : (fun record : VertexRecord => Call.addVertex record.name record.location) ∘
        (fun (vertex, id) => ⟨UInt32.ofNat id, vertex.name, vertex.location⟩) =
        Vertex.call ∘ Prod.fst := rfl
    rw [snapshot, List.map_map, numberless, ← List.map_map, List.zipIdx_map_fst]
  have edges : g.snapshot.edges.map
      (fun record => Call.addEdge record.source.toNat record.target.toNat record.kind) =
      g.edges.map Edge.call := by
    rw [snapshot, List.map_map]
    apply List.map_congr_left
    intro edge listed
    -- Both ends are vertices, so neither is cut short in a word.
    obtain ⟨source, target⟩ := h.ends edge listed
    have sourceFits := UInt32.toNat_ofNat_of_lt' (Nat.lt_of_lt_of_le source small)
    have targetFits := UInt32.toNat_ofNat_of_lt' (Nat.lt_of_lt_of_le target small)
    simp only [Function.comp_apply, sourceFits, targetFits, Edge.call]
  rw [Snapshot.calls, vertices, edges]

/-- **A JSON export loses nothing.** It is read back as the snapshot it was written from. The calls
of this snapshot, made on the empty graph, are all answered: each with the number of its record, or
with the place of its edge. What they make is the graph itself, so that whatever it is asked, it
answers alike. The numbers in records are 32-bit words, and a store has no room for more vertices
than these can number. -/
theorem snapshot_restores {g : Graph} (reach : g.Reachable) :
    Json.readOne Snapshot.ofNode (g.render .json) = .ok g.snapshot ∧
    (g.vertexCount ≤ UInt32.size →
      empty.serve g.snapshot.calls =
        (g.snapshot.vertices.map (fun record => .ok record.id.toNat) ++
          (List.range g.snapshot.edges.length).map .ok, g)) := by
  have h := reachable_wellFormed reach
  constructor
  · rw [render, (g.snapshot.toValue_plain 0).readOne_prettyText]
    exact g.snapshot.ofNode_toValue
  · intro small
    have count : g.snapshot.edges.length = g.edgeCount := by simp [snapshot, edgeCount]
    have ids : g.snapshot.vertices.map (fun record => Except.ok (ε := Fault) record.id.toNat) =
        (List.range g.vertexCount).map .ok := by
      rw [← snapshot_ids small, List.map_map]
      rfl
    rw [h.snapshot_calls small, h.serve_records, ids, count]

/-- A name that has to be escaped, a location, and an edge from a vertex to itself. -/
theorem snapshot_restores_loop :
    let g := made [.addVertex "\"\\\n" (some ⟨"a.cpp", 1, 2⟩), .addEdge 0 1 .memoization,
      .addEdge 1 1 .templateInstantiation]
    Json.readOne Snapshot.ofNode (g.render .json) =
      .ok ⟨[⟨0, rootName, none⟩, ⟨1, "\"\\\n", some ⟨"a.cpp", 1, 2⟩⟩],
        [⟨0, 1, .memoization⟩, ⟨1, 1, .templateInstantiation⟩]⟩ ∧
    empty.serve [.addVertex rootName none, .addVertex "\"\\\n" (some ⟨"a.cpp", 1, 2⟩),
        .addEdge 0 1 .memoization, .addEdge 1 1 .templateInstantiation] =
      ([.ok 0, .ok 1, .ok 0, .ok 1], g) := by
  obtain ⟨read, served⟩ := snapshot_restores (reachable_calls
    [.addVertex "\"\\\n" (some ⟨"a.cpp", 1, 2⟩), .addEdge 0 1 .memoization,
      .addEdge 1 1 .templateInstantiation])
  exact ⟨read, served (by decide)⟩

end Graph

end TemplateTrace
