import TemplateTrace.Proofs.Course
import TemplateTrace.Proofs.Store

/-!
# Traces reach what paths reach

A trace from a vertex starts with nothing discovered. What it expands is then closed under the edges
it follows, so a vertex is expanded exactly if edges lead to it from the start (`mem_expanded_iff`),
and visited exactly if it is expanded (`mem_frames_iff`). This holds in both directions alike.

Forward and backward traces follow different edges at each vertex, but along the same paths:
`traces_dual` says that one vertex shows in the forward trace of another exactly if the other shows
in the backward trace of the one.
-/

namespace TemplateTrace

namespace Discovered

theorem lacks_forGraph {g : Graph} {id : Nat} (vertex : id < g.vertexCount) :
    (forGraph g).lacks id = true := by
  have bound : id < (forGraph g).marks.length := by
    rw [length_forGraph]
    exact vertex
  rw [lacks_eq bound, contains_forGraph]
  rfl

end Discovered

namespace Walk

section
variable {g : Graph} (h : g.WellFormed) {direction : Direction} {id other : Nat}
  (vertex : id < g.vertexCount)
include vertex

theorem inside_forGraph : Inside g (start id (.forGraph g)) := by
  constructor
  · exact Discovered.length_forGraph g
  · intro frame stacked
    obtain rfl : frame = ⟨id, 0, none⟩ := by simpa [start] using stacked
    exact vertex

theorem start_mem_expanded : id ∈ (start id (.forGraph g)).expanded g direction := by
  rw [start, expanded_fresh g direction [] [1] (Discovered.lacks_forGraph vertex)]
  exact List.mem_cons_self

include h

/-- With nothing discovered before, a vertex is visited exactly if it is expanded. -/
theorem visited_iff_expanded :
    (∃ visit ∈ ((start id (.forGraph g)).run g direction).1, visit.frame.vertex = other) ↔
      other ∈ (start id (.forGraph g)).expanded g direction := by
  constructor
  · rintro ⟨visit, visited, rfl⟩
    have found := contains_of_visited h (inside_forGraph vertex) visited
    rcases (contains_run _ _).mp found with known | expanded
    · simp [start] at known
    · exact expanded
  · exact visited_of_mem_expanded

/-- What is expanded is closed under the edges that are followed: the far end of each is visited. -/
theorem expanded_closed {far : Nat}
    (expanded : other ∈ (start id (.forGraph g)).expanded g direction)
    (leads : g.Leads direction other far) :
    far ∈ (start id (.forGraph g)).expanded g direction := by
  obtain ⟨edge, listed, rfl, rfl⟩ := leads
  apply (visited_iff_expanded h vertex).mp
  exact visited_of_edge h listed expanded

/-- A trace expands exactly the vertices that edges lead to from its start. -/
theorem mem_expanded_iff :
    other ∈ (start id (.forGraph g)).expanded g direction ↔
      Relation.ReflTransGen (g.Leads direction) id other := by
  constructor
  · intro expanded
    obtain ⟨frame, stacked, leads⟩ := leads_of_mem_expanded h expanded
    obtain rfl : frame = ⟨id, 0, none⟩ := by simpa [start] using stacked
    exact leads
  · intro leads
    induction leads with
    | refl => exact start_mem_expanded vertex
    | tail _ edge ih => exact expanded_closed h vertex ih edge

end

end Walk

namespace Trace

/-- The vertices that a trace shows are those that edges lead to from its start. -/
theorem mem_frames_iff {g : Graph} (h : g.WellFormed) {direction : Direction} {id other : Nat}
    (vertex : id < g.vertexCount) :
    other ∈ ((visitsFrom g direction id).map Visit.frame).map Frame.vertex ↔
      Relation.ReflTransGen (g.Leads direction) id other := by
  rw [← Walk.mem_expanded_iff h vertex, ← Walk.visited_iff_expanded h vertex, visitsFrom_eq_run,
    List.map_map, List.mem_map]
  rfl

theorem lookup_of_names {g : Graph} (h : g.WellFormed) {id : Nat} {name : String}
    (named : g.Names id name) : lookup g name = .ok id := by
  rw [lookup, h.find?_iff.mpr named]

/-- **Forward and backward traces are dual.** In every graph that calls can make, both traces of two
vertices by their names can be made. The second vertex shows in the forward trace of the first
exactly if a path leads from the first to the second, and exactly then the first shows in the
backward trace of the second. -/
theorem traces_dual {g : Graph} (reach : g.Reachable) {u v : Nat} {nameU nameV : String}
    (namedU : g.Names u nameU) (namedV : g.Names v nameV) :
    ∃ ahead behind,
      Trace.frames g (.forward nameU) = .ok ahead ∧
      Trace.frames g (.backward nameV) = .ok behind ∧
      (v ∈ ahead.map Frame.vertex ↔ g.Path u v) ∧
      (g.Path u v ↔ u ∈ behind.map Frame.vertex) := by
  have h := Graph.reachable_wellFormed reach
  have boundU := (Graph.names_iff.mp namedU).1
  have boundV := (Graph.names_iff.mp namedV).1
  refine ⟨(visitsFrom g .outgoing u).map Visit.frame, (visitsFrom g .incoming v).map Visit.frame,
    ?_, ?_, mem_frames_iff h boundU, ?_⟩
  · rw [frames, visits, lookup_of_names h namedU]
    rfl
  · rw [frames, visits, lookup_of_names h namedV]
    rfl
  · rw [Graph.path_iff_incoming]
    exact (mem_frames_iff h boundV).symm

/-- Around a cycle, against the order in which its vertices were added. -/
theorem traces_dual_twoWay :
    Graph.twoWay.Reachable ∧ Graph.twoWay.Names 2 "B" ∧ Graph.twoWay.Names 1 "A" ∧
    Graph.twoWay.Path 2 1 ∧
    ∃ ahead behind,
      Trace.frames Graph.twoWay (.forward "B") = .ok ahead ∧
      Trace.frames Graph.twoWay (.backward "A") = .ok behind ∧
      1 ∈ ahead.map Frame.vertex ∧ 2 ∈ behind.map Frame.vertex := by
  have reach : Graph.twoWay.Reachable := Graph.reachable_calls _
  have namedB : Graph.twoWay.Names 2 "B" := ⟨_, rfl, rfl⟩
  have namedA : Graph.twoWay.Names 1 "A" := ⟨_, rfl, rfl⟩
  have path : Graph.twoWay.Path 2 1 := .single ⟨⟨2, 2, 1, .memoization⟩, by decide, rfl, rfl⟩
  obtain ⟨ahead, behind, forward, backward, shown, dual⟩ := traces_dual reach namedB namedA
  exact ⟨reach, namedB, namedA, path, ahead, behind, forward, backward, shown.mpr path,
    dual.mp path⟩

end Trace

end TemplateTrace
