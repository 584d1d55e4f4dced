import TemplateTrace.Proofs.Duality

/-!
# Traces look no further than they reach

A graph that has grown numbers its new vertices and edges behind the old ones, and marks for its
walks are made anew. None of this shows in a trace as long as the vertices it reaches have kept
their edges: two walks that meet the same edges at every vertex of a zone they do not leave take the
same steps (`sweep_alike`). For a trace the zone is what edges lead to from its start
(`alike_of_grown`), so only an edge added there can change it (`traces_local`).
-/

namespace TemplateTrace

namespace Graph

/-- At the vertices of a zone two graphs have the same edges to follow, and none leads out of it. -/
structure Alike (g later : Graph) (direction : Direction) (zone : Nat → Prop) : Prop where
  edgesAt : ∀ id, zone id → later.edgesAt direction id = g.edgesAt direction id
  closed : ∀ id, zone id → ∀ edge ∈ g.edgesAt direction id, zone (direction.far edge)

end Graph

namespace Walk

/-- Two sweeps from the same stack in a zone that is alike visit the same frames, whatever is
discovered outside of it. -/
theorem sweep_alike {g later : Graph} {direction : Direction} {zone : Nat → Prop}
    (alike : g.Alike later direction zone) {stack : List Frame}
    (inside : ∀ frame ∈ stack, zone frame.vertex) {d other : Discovered}
    (agree : ∀ id, zone id → other.lacks id = d.lacks id) :
    (sweep later direction stack other).1 = (sweep g direction stack d).1 := by
  fun_induction sweep g direction stack d generalizing other with
  | case1 d => rw [sweep_nil]
  | case2 frame rest d lacks frames last swept ih =>
    have here : zone frame.vertex := inside frame List.mem_cons_self
    have unfolded : below later direction frame = below g direction frame := by
      rw [below, below, alike.edgesAt _ here]
    have below_inside : ∀ next ∈ below g direction frame ++ rest, zone next.vertex := by
      intro next stacked
      rcases List.mem_append.mp stacked with fresh | stacked
      · obtain ⟨edge, listed, rfl⟩ := List.mem_map.mp fresh
        exact alike.closed _ here edge listed
      · exact inside next (List.mem_cons_of_mem _ stacked)
    have marked : ∀ id, zone id →
        (other.mark frame.vertex).lacks id = (d.mark frame.vertex).lacks id := by
      intro id held
      rw [Discovered.lacks_mark, Discovered.lacks_mark, agree id held]
    have others := ih below_inside marked
    rw [swept] at others
    rw [sweep_fresh later direction rest ((agree _ here).trans lacks), unfolded, others]
  | case3 frame rest d known frames last swept ih =>
    have here : zone frame.vertex := inside frame List.mem_cons_self
    have others := ih (fun next stacked => inside next (List.mem_cons_of_mem _ stacked)) agree
    rw [swept] at others
    rw [sweep_known later direction rest ((agree _ here).trans (by simpa using known)), others]

end Walk

namespace Graph

theorem WellFormed.leads_lt {g : Graph} (h : g.WellFormed) {direction : Direction} {id other : Nat}
    (vertex : id < g.vertexCount) (leads : Relation.ReflTransGen (g.Leads direction) id other) :
    other < g.vertexCount := by
  cases leads with
  | refl => exact vertex
  | tail _ last =>
    obtain ⟨edge, listed, -, rfl⟩ := last
    exact h.far_lt direction listed

/-- A grown graph has the edges it had, and those that were added. -/
theorem Extends.incident_eq {later g : Graph} (grown : later.Extends g) {direction : Direction}
    {id : Nat} (spared : ∀ edge ∈ later.edges, edge ∉ g.edges → direction.near edge ≠ id)
    (distinct : later.edges.Nodup) : later.incident direction id = g.incident direction id := by
  obtain ⟨added, same⟩ := grown.edges
  have none : added.filter (fun edge => direction.near edge == id) = [] := by
    apply List.filter_eq_nil_iff.mpr
    intro edge listed at_id
    refine spared edge (same ▸ List.mem_append_right _ listed) ?_ (beq_iff_eq.mp at_id)
    intro old
    rw [← same] at distinct
    exact (List.nodup_append.mp distinct).2.2 edge old edge listed rfl
  rw [incident, ← same, List.filter_append, none, List.append_nil]
  rfl

/-- What edges lead to from a vertex is a zone that is alike in a grown graph, unless an edge was
added there. -/
theorem alike_of_grown {g later : Graph} (h : g.WellFormed) (h' : later.WellFormed)
    (grown : later.Extends g) {direction : Direction} {id : Nat}
    (spared : ∀ edge ∈ later.edges, edge ∉ g.edges →
      ¬ Relation.ReflTransGen (g.Leads direction) id (direction.near edge)) :
    g.Alike later direction (Relation.ReflTransGen (g.Leads direction) id) where
  edgesAt := by
    intro other leads
    rw [h.edgesAt_eq_incident, h'.edgesAt_eq_incident]
    refine grown.incident_eq ?_ (List.Nodup.of_map _ h'.single)
    rintro edge listed fresh rfl
    exact spared edge listed fresh leads
  closed := by
    intro other leads edge listed
    rw [h.edgesAt_eq_incident] at listed
    obtain ⟨listed, near⟩ := mem_incident.mp listed
    exact leads.tail ⟨edge, listed, near, rfl⟩

end Graph

namespace Trace

theorem frames_of_names {g : Graph} (h : g.WellFormed) {id : Nat} {name : String}
    (named : g.Names id name) :
    frames g (.forward name) = .ok ((visitsFrom g .outgoing id).map Visit.frame) ∧
      frames g (.backward name) = .ok ((visitsFrom g .incoming id).map Visit.frame) := by
  rw [frames, visits, frames, visits, lookup_of_names h named]
  exact ⟨rfl, rfl⟩

theorem visitsFrom_eq_sweep (g : Graph) (direction : Direction) (id : Nat) :
    (visitsFrom g direction id).map Visit.frame =
      (Walk.sweep g direction [⟨id, 0, none⟩] (.forGraph g)).1 := by
  rw [← Walk.visits_eq_sweep g direction (by simp)]
  rfl

theorem visitsFrom_alike {g later : Graph} (h : g.WellFormed) (grown : later.Extends g)
    {direction : Direction} {id : Nat} (vertex : id < g.vertexCount)
    (alike : g.Alike later direction (Relation.ReflTransGen (g.Leads direction) id)) :
    (visitsFrom later direction id).map Visit.frame =
      (visitsFrom g direction id).map Visit.frame := by
  rw [visitsFrom_eq_sweep, visitsFrom_eq_sweep]
  refine Walk.sweep_alike alike ?_ ?_
  · intro frame stacked
    obtain rfl := List.mem_singleton.mp stacked
    exact .refl
  · intro other leads
    have held := h.leads_lt vertex leads
    have more : g.vertexCount ≤ later.vertexCount := grown.vertices.length_le
    rw [Discovered.lacks_forGraph held, Discovered.lacks_forGraph (Nat.lt_of_lt_of_le held more)]

/-- **Traces are local.** Let a graph that calls can make grow by any further calls. If no edge that
was added leaves a vertex that paths lead to from the one of a name, the forward trace of that name
lists the same frames as before. If no edge that was added enters a vertex that paths lead from to
it, neither does its backward trace change. -/
theorem traces_local {g : Graph} (reach : g.Reachable) {id : Nat} {name : String}
    (named : g.Names id name) (more : List Call) :
    ((∀ edge ∈ (more.foldl Graph.after g).edges, edge ∉ g.edges → ¬ g.Path id edge.source) →
      ∃ listed, frames g (.forward name) = .ok listed ∧
        frames (more.foldl Graph.after g) (.forward name) = .ok listed) ∧
    ((∀ edge ∈ (more.foldl Graph.after g).edges, edge ∉ g.edges → ¬ g.Path edge.target id) →
      ∃ listed, frames g (.backward name) = .ok listed ∧
        frames (more.foldl Graph.after g) (.backward name) = .ok listed) := by
  have h := Graph.reachable_wellFormed reach
  have h' := Graph.reachable_wellFormed (reach.run more)
  have grown := Graph.run_extends h more
  have vertex := (Graph.names_iff.mp named).1
  obtain ⟨held, found, called⟩ := named
  obtain ⟨ahead, behind⟩ := frames_of_names h ⟨held, found, called⟩
  obtain ⟨ahead', behind'⟩ := frames_of_names h' ⟨held, grown.vertex? found, called⟩
  constructor
  · intro spared
    have alike := Graph.alike_of_grown h h' grown spared
    exact ⟨_, ahead, visitsFrom_alike h grown vertex alike ▸ ahead'⟩
  · intro spared
    have turned : ∀ edge ∈ (more.foldl Graph.after g).edges, edge ∉ g.edges →
        ¬ Relation.ReflTransGen (g.Leads .incoming) id (Direction.incoming.near edge) :=
      fun edge listed fresh leads => spared edge listed fresh (Graph.path_iff_incoming.mpr leads)
    have alike := Graph.alike_of_grown h h' grown turned
    exact ⟨_, behind, visitsFrom_alike h grown vertex alike ▸ behind'⟩

/-- A new vertex below the root leads into a cycle, which no path leaves. Then the cycle leads to
it, and still no edge enters the root. -/
theorem traces_local_twoWay :
    let into := [Call.addVertex "C" none, .addEdge 0 3 .memoization, .addEdge 3 1 .memoization]
    let out := into ++ [.addEdge 1 3 .memoization]
    Graph.twoWay.Reachable ∧ Graph.twoWay.Names 1 "A" ∧ Graph.twoWay.Names 0 rootName ∧
    (∀ edge ∈ (into.foldl Graph.after Graph.twoWay).edges, edge ∉ Graph.twoWay.edges →
      ¬ Graph.twoWay.Path 1 edge.source) ∧
    (∀ edge ∈ (out.foldl Graph.after Graph.twoWay).edges, edge ∉ Graph.twoWay.edges →
      ¬ Graph.twoWay.Path edge.target 0) ∧
    (∃ listed, frames Graph.twoWay (.forward "A") = .ok listed ∧
      frames (into.foldl Graph.after Graph.twoWay) (.forward "A") = .ok listed) ∧
    ∃ listed, frames Graph.twoWay (.backward rootName) = .ok listed ∧
      frames (out.foldl Graph.after Graph.twoWay) (.backward rootName) = .ok listed := by
  intro into out
  have reach : Graph.twoWay.Reachable := Graph.reachable_calls _
  have namedA : Graph.twoWay.Names 1 "A" := ⟨_, rfl, rfl⟩
  have namedRoot : Graph.twoWay.Names 0 rootName := ⟨_, rfl, rfl⟩
  have cycle : ∀ id, Graph.twoWay.Path 1 id → id = 1 ∨ id = 2 := by
    intro id path
    induction path with
    | refl => exact .inl rfl
    | tail _ last ih =>
      obtain ⟨edge, listed, rfl, rfl⟩ := last
      revert ih
      exact (by decide : ∀ edge ∈ Graph.twoWay.edges, edge.source = 1 ∨ edge.source = 2 →
        edge.target = 1 ∨ edge.target = 2) edge listed
  have unentered : ∀ id, Graph.twoWay.Path id 0 → id = 0 := by
    intro id path
    cases path with
    | refl => rfl
    | tail _ last =>
      obtain ⟨edge, listed, -, entered⟩ := last
      exact absurd entered
        ((by decide : ∀ edge ∈ Graph.twoWay.edges, edge.target ≠ 0) edge listed)
  have sparedA : ∀ edge ∈ (into.foldl Graph.after Graph.twoWay).edges,
      edge ∉ Graph.twoWay.edges → ¬ Graph.twoWay.Path 1 edge.source := by
    intro edge listed fresh path
    exact (by decide : ∀ edge ∈ (into.foldl Graph.after Graph.twoWay).edges,
      edge ∉ Graph.twoWay.edges → ¬ (edge.source = 1 ∨ edge.source = 2)) edge listed fresh
      (cycle _ path)
  have sparedRoot : ∀ edge ∈ (out.foldl Graph.after Graph.twoWay).edges,
      edge ∉ Graph.twoWay.edges → ¬ Graph.twoWay.Path edge.target 0 := by
    intro edge listed fresh path
    exact (by decide : ∀ edge ∈ (out.foldl Graph.after Graph.twoWay).edges,
      edge ∉ Graph.twoWay.edges → edge.target ≠ 0) edge listed fresh (unentered _ path)
  exact ⟨reach, namedA, namedRoot, sparedA, sparedRoot,
    (traces_local reach namedA into).1 sparedA, (traces_local reach namedRoot out).2 sparedRoot⟩

end Trace

end TemplateTrace
