import Mathlib.Data.Fintype.Card
import Mathlib.Data.Fintype.Fin
import Mathlib.Data.List.Find
import TemplateTrace.Proofs.Course

/-!
# What a full backtrace covers

A full backtrace starts a backward walk wherever all edges lead to discovered vertices. What is
discovered between two walks is closed under predecessors (`Closed`), and so the next walk starts
where no edge leads anywhere: at the first sink that is not discovered yet (`nextComplete?_eq`).
Walk after walk takes one sink off the list of those that wait (`waiting_run`), and a backtrace ends
when all sinks had their turn.

`fullBackwardFrames_coverage` says what that comes to: every vertex from which a sink can be reached
is visited and expanded once, every edge to such a vertex is walked once, and nothing else happens.
-/

namespace TemplateTrace

namespace Graph

/-- The vertices that no edge leaves, in their order. -/
def sinks (g : Graph) : List Nat := g.vertexIds.filter fun id => (g.outEdges id).isEmpty

/-- Some sink can be reached from a vertex. -/
def Drains (g : Graph) (id : Nat) : Prop := ∃ sink ∈ g.sinks, g.Path id sink

/-- No edges lead from a vertex back to it. -/
def Acyclic (g : Graph) : Prop := ∀ id, ¬ Relation.TransGen (g.Leads .outgoing) id id

theorem WellFormed.mem_sinks {g : Graph} (h : g.WellFormed) {id : Nat} :
    id ∈ g.sinks ↔ id < g.vertexCount ∧ ∀ edge ∈ g.edges, edge.source ≠ id := by
  simp [sinks, vertexIds, outEdges, h.edgesAt_eq_incident, incident, Direction.near]

theorem nodup_sinks (g : Graph) : g.sinks.Nodup := List.nodup_range.filter _

/-- From a sink only the sink itself is reached. -/
theorem WellFormed.eq_of_path {g : Graph} (h : g.WellFormed) {sink id : Nat}
    (isSink : sink ∈ g.sinks) (path : g.Path sink id) : sink = id := by
  cases Relation.ReflTransGen.cases_head path with
  | inl same => exact same
  | inr on =>
    obtain ⟨next, ⟨edge, listed, near, -⟩, -⟩ := on
    exact absurd near ((h.mem_sinks.mp isSink).2 edge listed)

/-- With finitely many vertices and no cycle, every path that is followed on ends in a sink. -/
theorem WellFormed.drains_of_acyclic {g : Graph} (h : g.WellFormed) (acyclic : g.Acyclic) {id : Nat}
    (vertex : id < g.vertexCount) : g.Drains id := by
  let after (b a : Fin g.vertexCount) : Prop :=
    Relation.TransGen (g.Leads .outgoing) a.val b.val
  have : IsTrans (Fin g.vertexCount) after := ⟨fun _ _ _ first second => second.trans first⟩
  have : Std.Irrefl after := ⟨fun a cycle => acyclic a.val cycle⟩
  have wellFounded : WellFounded after := Finite.wellFounded_of_trans_of_irrefl after
  have all : ∀ a : Fin g.vertexCount, g.Drains a.val := by
    intro a
    induction a using wellFounded.induction with
    | h a ih =>
      by_cases isSink : a.val ∈ g.sinks
      · exact ⟨a.val, isSink, .refl⟩
      · have leaves : ∃ edge ∈ g.edges, edge.source = a.val := by
          by_contra no
          exact isSink (h.mem_sinks.mpr ⟨a.isLt, fun edge listed source =>
            no ⟨edge, listed, source⟩⟩)
        obtain ⟨edge, listed, source⟩ := leaves
        have leads : g.Leads .outgoing a.val edge.target := ⟨edge, listed, source, rfl⟩
        obtain ⟨sink, isSink, path⟩ := ih ⟨edge.target, (h.ends edge listed).2⟩ (.single leads)
        exact ⟨sink, isSink, .head leads path⟩
  exact all ⟨id, vertex⟩

end Graph

namespace Walk

/-- What is discovered of a graph when no edge leads from an undiscovered vertex to a discovered
one. -/
structure Closed (g : Graph) (d : Discovered) : Prop where
  sized : d.marks.length = g.vertexCount
  closed : ∀ edge ∈ g.edges, d.contains edge.target = true → d.contains edge.source = true

/-- The sinks that are not discovered yet. -/
def waiting (g : Graph) (d : Discovered) : List Nat := g.sinks.filter fun id => !d.contains id

/-- The vertices that a full backtrace expands, in its order. -/
def backwardExpanded (g : Graph) (d : Discovered) : List Nat :=
  (passes g d).flatMap fun (id, d) => (start id d).expanded g .incoming

/-- A full backtrace that came to its end: each walk starts at the next complete vertex and takes
its steps until its stack is empty, and after the last one there is no such vertex. -/
inductive Completed (g : Graph) : Discovered → List Visit → Discovered → Prop
  | done {d : Discovered} : nextComplete? g d = none → Completed g d [] d
  | next {d final : Discovered} {id : Nat} {visits more : List Visit} {last : Walk} :
      nextComplete? g d = some id → Steps g .incoming (start id d) visits last →
      last.stack = [] → Completed g last.discovered more final →
      Completed g d (visits ++ more) final

theorem completed_backwardPasses (g : Graph) (d : Discovered) :
    ∃ final, Completed g d (backwardPasses g d) final := by
  fun_induction backwardPasses g d with
  | case1 d stuck => exact ⟨d, .done stuck⟩
  | case2 d id found ih =>
    obtain ⟨last, steps, empty, discovered⟩ := run_steps g .incoming (start id d)
    rw [visits_of_lacks (lacks_of_nextComplete found), ← discovered] at ih
    obtain ⟨final, completed⟩ := ih
    rw [visits_of_lacks (lacks_of_nextComplete found), ← discovered]
    exact ⟨final, .next found steps empty completed⟩

section
variable {g : Graph} (h : g.WellFormed)
include h

omit h in
theorem closed_forGraph : Closed g (.forGraph g) where
  sized := Discovered.length_forGraph g
  closed edge _ found := by simp at found

/-- The next walk starts at the first sink that waits: of an undiscovered vertex no edge leads to a
discovered one. -/
theorem nextComplete?_eq {d : Discovered} (closed : Closed g d) :
    nextComplete? g d = (waiting g d).head? := by
  rw [waiting, Graph.sinks, List.filter_filter, List.head?_filter, nextComplete?]
  apply List.find?_congr
  intro id listed
  have vertex : id < d.marks.length := closed.sized ▸ List.mem_range.mp listed
  rw [Discovered.lacks_eq vertex]
  cases known : d.contains id with
  | true => simp
  | false =>
    simp only [Bool.not_false, Bool.true_and]
    cases out : g.outEdges id with
    | nil => rfl
    | cons edge rest =>
      have leaves : edge ∈ g.edges ∧ Direction.outgoing.near edge = id := by
        apply Graph.mem_incident.mp
        rw [← h.edgesAt_eq_incident, ← Graph.outEdges, out]
        exact List.mem_cons_self
      have ahead : d.contains edge.target = false := by
        rw [← Bool.not_eq_true]
        intro found
        have back := closed.closed edge leaves.1 found
        have same : edge.source = id := leaves.2
        rw [same, known] at back
        contradiction
      simp [ahead]

variable {d : Discovered} {id : Nat}

omit h in
theorem mem_waiting : id ∈ waiting g d ↔ id ∈ g.sinks ∧ d.contains id = false := by
  simp [waiting]

theorem inside_start (closed : Closed g d) (waits : id ∈ waiting g d) : Inside g (start id d) where
  sized := closed.sized
  stacked frame stacked := by
    obtain rfl : frame = ⟨id, 0, none⟩ := by simpa [start] using stacked
    exact (h.mem_sinks.mp (mem_waiting.mp waits).1).1

theorem path_of_expanded {sink : Nat} (expanded : id ∈ (start sink d).expanded g .incoming) :
    g.Path id sink := by
  obtain ⟨frame, stacked, leads⟩ := leads_of_mem_expanded h expanded
  obtain rfl : frame = ⟨sink, 0, none⟩ := by simpa [start] using stacked
  exact Graph.path_iff_incoming.mpr leads

theorem start_expanded (closed : Closed g d) (waits : id ∈ waiting g d) :
    id ∈ (start id d).expanded g .incoming := by
  obtain ⟨isSink, unknown⟩ := mem_waiting.mp waits
  have markable : id < d.marks.length := closed.sized ▸ (h.mem_sinks.mp isSink).1
  have lacks := Discovered.lacks_eq markable
  rw [unknown, Bool.not_false] at lacks
  rw [start, expanded_fresh g .incoming [] [1] lacks]
  exact List.mem_cons_self

/-- A walk leaves what is discovered closed: of every vertex it expands, it visits all
predecessors. -/
theorem closed_run (closed : Closed g d) (waits : id ∈ waiting g d) :
    Closed g ((start id d).run g .incoming).2 where
  sized := (length_run _).trans closed.sized
  closed edge listed found := by
    rcases (contains_run _ _).mp found with known | expanded
    · exact (contains_run _ _).mpr (.inl (closed.closed edge listed known))
    · obtain ⟨visit, visited, same⟩ := visited_of_edge h listed expanded
      have source : visit.frame.vertex = edge.source := same
      exact source ▸ contains_of_visited h (inside_start h closed waits) visited

/-- A walk from a sink takes this one sink off those that wait. -/
theorem waiting_run (closed : Closed g d) {rest : List Nat} (waits : waiting g d = id :: rest) :
    waiting g ((start id d).run g .incoming).2 = rest := by
  have first : id ∈ waiting g d := waits ▸ List.mem_cons_self
  have found (sink : Nat) (isSink : sink ∈ g.sinks) :
      (!((start id d).run g .incoming).2.contains sink) = (!(sink == id) && !d.contains sink) := by
    rw [← Bool.not_or, Bool.not_inj_iff, Bool.eq_iff_iff, Bool.or_eq_true, beq_iff_eq,
      contains_run, or_comm]
    constructor
    · rintro (expanded | known)
      · exact .inl (h.eq_of_path isSink (path_of_expanded h expanded))
      · exact .inr known
    · rintro (rfl | known)
      · exact .inl (start_expanded h closed first)
      · exact .inr known
  have apart : id ∉ rest := by
    have nodup : (waiting g d).Nodup := g.nodup_sinks.filter _
    rw [waits] at nodup
    exact (List.nodup_cons.mp nodup).1
  have others : ∀ sink ∈ rest, (!(sink == id)) = true := by
    intro sink listed
    simp only [Bool.not_eq_true', beq_eq_false_iff_ne]
    rintro rfl
    exact apart listed
  calc waiting g ((start id d).run g .incoming).2
      = g.sinks.filter (fun sink => !(sink == id) && !d.contains sink) := List.filter_congr found
    _ = (waiting g d).filter (fun sink => !(sink == id)) := by rw [waiting, List.filter_filter]
    _ = rest := by
      rw [waits, List.filter_cons, if_neg (by simp)]
      exact List.filter_eq_self.mpr others

/-- What holds once no sink waits, and holds before a walk whenever it holds after it, holds of
every full backtrace. -/
theorem backtrace {motive : ∀ d, Closed g d → Prop}
    (done : ∀ d (closed : Closed g d), waiting g d = [] → passes g d = [] → motive d closed)
    (next : ∀ d id (closed : Closed g d) (closedNext : Closed g ((start id d).run g .incoming).2),
      id ∈ waiting g d → waiting g d = id :: waiting g ((start id d).run g .incoming).2 →
      passes g d = (id, d) :: passes g ((start id d).run g .incoming).2 →
      motive _ closedNext → motive d closed)
    {d : Discovered} (closed : Closed g d) : motive d closed := by
  generalize left : waiting g d = sinks
  induction sinks generalizing d with
  | nil =>
    have stuck : nextComplete? g d = none := by rw [nextComplete?_eq h closed, left]; rfl
    exact done d closed left (passes_of_none stuck)
  | cons id rest ih =>
    have found : nextComplete? g d = some id := by rw [nextComplete?_eq h closed, left]; rfl
    have first : id ∈ waiting g d := left ▸ List.mem_cons_self
    have fewer := waiting_run h closed left
    exact next d id closed (closed_run h closed first) first (by rw [fewer, left])
      (passes_of_some found) (ih _ fewer)

theorem starts_backwardPasses (closed : Closed g d) :
    ((backwardPasses g d).map Visit.frame).filter (fun frame => frame.depth == 0) =
      (waiting g d).map fun id => ⟨id, 0, none⟩ := by
  rw [backwardPasses_eq_flatMap]
  induction closed using backtrace h with
  | done d closed left ended => simp [left, ended]
  | next d id closed closedNext waits left turn ih =>
    rw [turn, left, List.flatMap_cons, List.map_append, List.filter_append, ih, starts_run]
    rfl

theorem arrivals_backwardPasses (closed : Closed g d) :
    ((((backwardPasses g d).map Visit.frame).filter fun frame => frame.depth != 0).map
        Frame.arrival).Perm
      (((backwardExpanded g d).flatMap (g.incident .incoming)).map (Edge.arrival .incoming)) := by
  rw [backwardPasses_eq_flatMap, backwardExpanded]
  induction closed using backtrace h with
  | done d closed left ended => simp [ended]
  | next d id closed closedNext waits left turn ih =>
    have first := @arrivals_perm g .incoming h (start id d)
    rw [turn, List.flatMap_cons, List.map_append, List.filter_append, List.map_append,
      List.flatMap_cons, List.flatMap_append, List.map_append]
    exact first.append ih

theorem not_contains_of_mem_backwardExpanded (closed : Closed g d)
    (expanded : id ∈ backwardExpanded g d) : d.contains id = false := by
  rw [backwardExpanded] at expanded
  induction closed using backtrace h with
  | done d closed left ended => simp [ended] at expanded
  | next d sink closed closedNext waits left turn ih =>
    rw [turn, List.flatMap_cons, List.mem_append] at expanded
    rcases expanded with here | later
    · exact not_contains_of_mem_expanded here
    · have absent := ih later
      rw [← Bool.not_eq_true, contains_run, not_or, Bool.not_eq_true] at absent
      exact absent.1

theorem nodup_backwardExpanded (closed : Closed g d) : (backwardExpanded g d).Nodup := by
  have later : ∀ d, Closed g d → ∀ id, id ∈ backwardExpanded g d → d.contains id = false :=
    fun d closed id => not_contains_of_mem_backwardExpanded h closed
  rw [backwardExpanded]
  induction closed using backtrace h with
  | done d closed left ended => simp [ended]
  | next d sink closed closedNext waits left turn ih =>
    rw [turn, List.flatMap_cons]
    refine List.nodup_append.mpr ⟨nodup_expanded _, ih, ?_⟩
    rintro id here other there rfl
    have absent := later _ closedNext id there
    have found := (contains_run (start sink d) id).mpr (.inr here)
    rw [absent] at found
    contradiction

theorem contains_of_mem_backwardPasses (closed : Closed g d) {visit : Visit}
    (visited : visit ∈ backwardPasses g d) :
    d.contains visit.frame.vertex = true ∨ visit.frame.vertex ∈ backwardExpanded g d := by
  rw [backwardPasses_eq_flatMap] at visited
  rw [backwardExpanded]
  induction closed using backtrace h with
  | done d closed left ended => simp [ended] at visited
  | next d sink closed closedNext waits left turn ih =>
    rw [turn, List.flatMap_cons, List.mem_append] at visited ⊢
    have found : ((start sink d).run g .incoming).2.contains visit.frame.vertex = true ∨
        visit.frame.vertex ∈ (passes g ((start sink d).run g .incoming).2).flatMap
          fun (id, d) => (start id d).expanded g .incoming := by
      rcases visited with here | later
      · exact .inl (contains_of_visited h (inside_start h closed waits) here)
      · exact ih later
    rw [contains_run] at found
    exact or_assoc.mp found

omit h in
theorem visited_of_mem_backwardExpanded (expanded : id ∈ backwardExpanded g d) :
    ∃ visit ∈ backwardPasses g d, visit.frame.vertex = id := by
  rw [backwardPasses_eq_flatMap]
  obtain ⟨first, listed, here⟩ := List.mem_flatMap.mp expanded
  obtain ⟨visit, visited, same⟩ := visited_of_mem_expanded here
  exact ⟨visit, List.mem_flatMap.mpr ⟨first, listed, visited⟩, same⟩

theorem drains_of_mem_backwardExpanded (closed : Closed g d)
    (expanded : id ∈ backwardExpanded g d) : g.Drains id := by
  rw [backwardExpanded] at expanded
  induction closed using backtrace h with
  | done d closed left ended => simp [ended] at expanded
  | next d sink closed closedNext waits left turn ih =>
    rw [turn, List.flatMap_cons, List.mem_append] at expanded
    rcases expanded with here | later
    · exact ⟨sink, (mem_waiting.mp waits).1, path_of_expanded h here⟩
    · exact ih later

/-- At the end of a full backtrace what is discovered is closed and holds every sink. -/
theorem ends_backtrace (closed : Closed g d) :
    ∃ last, Closed g last ∧ waiting g last = [] ∧
      ∀ id, last.contains id = true ↔ d.contains id = true ∨ id ∈ backwardExpanded g d := by
  simp only [backwardExpanded]
  induction closed using backtrace h with
  | done d closed left ended => exact ⟨d, closed, left, by simp [ended]⟩
  | next d sink closed closedNext waits left turn ih =>
    obtain ⟨last, closedLast, ended, found⟩ := ih
    refine ⟨last, closedLast, ended, ?_⟩
    intro id
    rw [found, contains_run, turn, List.flatMap_cons, List.mem_append, or_assoc]
    exact Iff.rfl

omit h in
theorem contains_of_drains (closed : Closed g d) (ended : waiting g d = []) (drains : g.Drains id) :
    d.contains id = true := by
  obtain ⟨sink, isSink, path⟩ := drains
  induction path using Relation.ReflTransGen.head_induction_on with
  | refl =>
    rw [← Bool.not_eq_false]
    intro unknown
    have waits := mem_waiting.mpr ⟨isSink, unknown⟩
    rw [ended] at waits
    contradiction
  | head leads _ ih =>
    obtain ⟨edge, listed, rfl, rfl⟩ := leads
    exact closed.closed edge listed ih

/-- A full backtrace expands exactly the vertices from which a sink can be reached. -/
theorem mem_backwardExpanded_forGraph :
    id ∈ backwardExpanded g (.forGraph g) ↔ g.Drains id := by
  constructor
  · exact drains_of_mem_backwardExpanded h closed_forGraph
  · intro drains
    obtain ⟨last, closed, ended, found⟩ := ends_backtrace h (closed_forGraph (g := g))
    have known := (found id).mp (contains_of_drains closed ended drains)
    simpa using known

theorem mem_backwardPasses_forGraph :
    id ∈ (Trace.fullBackwardFrames g).map Frame.vertex ↔ g.Drains id := by
  rw [← mem_backwardExpanded_forGraph h, Trace.fullBackwardFrames, List.map_map]
  constructor
  · intro occurs
    obtain ⟨visit, visited, rfl⟩ := List.mem_map.mp occurs
    simpa using contains_of_mem_backwardPasses h closed_forGraph visited
  · intro expanded
    obtain ⟨visit, visited, rfl⟩ := visited_of_mem_backwardExpanded expanded
    exact List.mem_map_of_mem visited

omit h in
theorem waiting_forGraph : waiting g (.forGraph g) = g.sinks := by
  simp [waiting]

/-- The edges that a full backtrace walks, in the order of its frames: each edge to a vertex from
which a sink can be reached, once. -/
theorem walked_edges :
    ∃ walked : List Edge, walked.Nodup ∧
      (∀ edge, edge ∈ walked ↔ edge ∈ g.edges ∧ g.Drains edge.target) ∧
      ((Trace.fullBackwardFrames g).filter fun frame => frame.depth != 0).map Frame.arrival =
        walked.map (Edge.arrival .incoming) := by
  have perm := arrivals_backwardPasses h (closed_forGraph (g := g))
  obtain ⟨walked, arrivals, same⟩ :=
    (iff_of_eq (congrFun (congrFun (List.eq_map_comp_perm (Edge.arrival .incoming)) _) _)).mpr perm
  refine ⟨walked, ?_, ?_, arrivals⟩
  · apply same.nodup_iff.mpr
    exact h.nodup_flatMap_incident .incoming (nodup_backwardExpanded h closed_forGraph)
  · intro edge
    rw [same.mem_iff, List.mem_flatMap]
    constructor
    · rintro ⟨id, expanded, atId⟩
      obtain ⟨listed, rfl⟩ := Graph.mem_incident.mp atId
      exact ⟨listed, (mem_backwardExpanded_forGraph h).mp expanded⟩
    · rintro ⟨listed, drains⟩
      exact ⟨edge.target, (mem_backwardExpanded_forGraph h).mpr drains,
        Graph.mem_incident.mpr ⟨listed, rfl⟩⟩

end

end Walk

/-- **A full backtrace covers what drains into a sink, exactly.** In every graph that calls can
make, its walks come to their end; they start at the sinks, each once and in their order; the
vertices visited are those with a path to a sink, each expanded once; and beside the starts there is
one frame for every edge to such a vertex, with the edge's source and kind. Without cycles that is
every vertex and every edge. -/
theorem fullBackwardFrames_coverage {g : Graph} (reach : g.Reachable) :
    (∃ final, Walk.Completed g (.forGraph g) (Walk.backwardPasses g (.forGraph g)) final) ∧
    (Trace.fullBackwardFrames g).filter (fun frame => frame.depth == 0) =
      g.sinks.map (fun id => ⟨id, 0, none⟩) ∧
    (∀ id, id ∈ (Trace.fullBackwardFrames g).map Frame.vertex ↔ g.Drains id) ∧
    (∀ id, g.Drains id → (Walk.backwardExpanded g (.forGraph g)).count id = 1) ∧
    (∃ walked : List Edge, walked.Nodup ∧
      (∀ edge, edge ∈ walked ↔ edge ∈ g.edges ∧ g.Drains edge.target) ∧
      ((Trace.fullBackwardFrames g).filter fun frame => frame.depth != 0).map
          (fun frame => (frame.vertex, frame.kind)) =
        walked.map fun edge => (edge.source, some edge.kind)) ∧
    (g.Acyclic →
      (∀ id, id < g.vertexCount → id ∈ (Trace.fullBackwardFrames g).map Frame.vertex ∧
        (Walk.backwardExpanded g (.forGraph g)).count id = 1) ∧
      (Trace.fullBackwardFrames g).length = g.sinks.length + g.edgeCount) := by
  have h := Graph.reachable_wellFormed reach
  have starts := Walk.starts_backwardPasses h (Walk.closed_forGraph (g := g))
  rw [Walk.waiting_forGraph] at starts
  have once : ∀ id, g.Drains id → (Walk.backwardExpanded g (.forGraph g)).count id = 1 := by
    intro id drains
    have expanded := (Walk.mem_backwardExpanded_forGraph h).mpr drains
    exact List.count_eq_one_of_mem (Walk.nodup_backwardExpanded h Walk.closed_forGraph) expanded
  refine ⟨Walk.completed_backwardPasses g _, starts, fun id => Walk.mem_backwardPasses_forGraph h,
    once, Walk.walked_edges h, ?_⟩
  intro acyclic
  constructor
  · intro id vertex
    have drains := h.drains_of_acyclic acyclic vertex
    exact ⟨(Walk.mem_backwardPasses_forGraph h).mpr drains, once id drains⟩
  · obtain ⟨walked, nodup, listed, arrivals⟩ := Walk.walked_edges h
    have all : walked.Perm g.edges := by
      apply (List.perm_ext_iff_of_nodup nodup (List.Nodup.of_map _ h.single)).mpr
      intro edge
      rw [listed]
      exact ⟨And.left, fun he => ⟨he, h.drains_of_acyclic acyclic (h.ends edge he).2⟩⟩
    have others := congrArg List.length arrivals
    have first := congrArg List.length starts
    rw [List.length_map, List.length_map, all.length_eq] at others
    rw [List.length_map] at first
    have both := List.length_eq_length_filter_add (l := Trace.fullBackwardFrames g)
      (fun frame => frame.depth == 0)
    exact both.trans (congrArg₂ (· + ·) first others)

theorem fullBackwardFrames_coverage_diamond :
    Graph.diamond.Reachable ∧ Graph.diamond.Acyclic ∧
    (Trace.fullBackwardFrames Graph.diamond).filter (fun frame => frame.depth == 0) =
      [⟨3, 0, none⟩] ∧
    (Trace.fullBackwardFrames Graph.diamond).length = 1 + 4 := by
  have reach : Graph.diamond.Reachable := Graph.reachable_calls _
  have rising : ∀ edge ∈ Graph.diamond.edges, edge.source < edge.target := by decide
  have up : ∀ a b, Relation.TransGen (Graph.diamond.Leads .outgoing) a b → a < b := by
    intro a b leads
    induction leads with
    | single one =>
      obtain ⟨edge, listed, rfl, rfl⟩ := one
      exact rising edge listed
    | tail _ one ih =>
      obtain ⟨edge, listed, rfl, rfl⟩ := one
      exact Nat.lt_trans ih (rising edge listed)
  have acyclic : Graph.diamond.Acyclic := fun id cycle => Nat.lt_irrefl id (up id id cycle)
  have sinks : Graph.diamond.sinks = [3] := by decide
  have edges : Graph.diamond.edgeCount = 4 := by decide
  obtain ⟨-, starts, -, -, -, all⟩ := fullBackwardFrames_coverage reach
  have length := (all acyclic).2
  rw [sinks] at starts length
  rw [edges] at length
  exact ⟨reach, acyclic, starts, length⟩

end TemplateTrace
