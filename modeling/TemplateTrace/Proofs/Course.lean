import Mathlib.Data.List.Flatten
import Mathlib.Data.List.Perm.Lattice
import Mathlib.Logic.Relation
import TemplateTrace.Proofs.Search

/-!
# The course of a walk

A walk is followed step by step to its end (`Walk.course`): every step visits the frame on top of
the stack, and expands its vertex if it is not discovered yet. `expanded` lists the vertices that
the steps of a walk expand. From it all else is told:

* `contains_run`: discovered in the end is what was discovered before and what is expanded;
* `nodup_expanded`: nothing is expanded twice, or if it was discovered before;
* `arrivals_perm`: below the frames it starts with, a walk visits one frame for each edge at a
  vertex it expands;
* `leads_of_mem_expanded`: a vertex is expanded only if edges lead to it from the stack.
-/

namespace TemplateTrace

namespace Graph

/-- An edge leads from one vertex to the other, walked in a direction. -/
def Leads (g : Graph) (direction : Direction) (near far : Nat) : Prop :=
  ∃ edge ∈ g.edges, direction.near edge = near ∧ direction.far edge = far

/-- A directed path, possibly empty, from one vertex to another. -/
def Path (g : Graph) : Nat → Nat → Prop := Relation.ReflTransGen (g.Leads .outgoing)

/-- A path walked backward. -/
theorem path_iff_incoming {g : Graph} {u v : Nat} :
    g.Path u v ↔ Relation.ReflTransGen (g.Leads .incoming) v u := by
  have swapped : g.Leads .incoming = Function.swap (g.Leads .outgoing) := by
    funext near far
    simp only [Leads, Function.swap, Direction.near, Direction.far, and_comm]
  rw [swapped, Relation.reflTransGen_swap]
  rfl

/-- A vertex that two others share, below the root. -/
def diamond : Graph :=
  [Call.addVertex "A" none, .addVertex "B" none, .addVertex "C" none,
    .addEdge 0 1 .templateInstantiation, .addEdge 0 2 .memoization, .addEdge 1 3 .memoization,
    .addEdge 2 3 .templateInstantiation].foldl after .empty

theorem mem_incident {g : Graph} {direction : Direction} {id : Nat} {edge : Edge} :
    edge ∈ g.incident direction id ↔ edge ∈ g.edges ∧ direction.near edge = id := by
  simp [incident]

/-- At different vertices there are different edges, so no edge is met twice. -/
theorem WellFormed.nodup_flatMap_incident {g : Graph} (h : g.WellFormed) (direction : Direction)
    {ids : List Nat} (distinct : ids.Nodup) : (ids.flatMap (g.incident direction)).Nodup := by
  have single : g.edges.Nodup := List.Nodup.of_map _ h.single
  apply List.nodup_flatMap.mpr
  constructor
  · intro id _
    exact single.filter _
  · apply distinct.imp
    intro a b apart edge atA atB
    exact apart ((mem_incident.mp atA).2.symm.trans (mem_incident.mp atB).2)

end Graph

namespace Discovered

theorem lt_of_lacks {d : Discovered} {id : Nat} (h : d.lacks id = true) : id < d.marks.length := by
  simp only [lacks, beq_iff_eq] at h
  exact (List.getElem?_eq_some_iff.mp h).1

theorem contains_of_lacks {d : Discovered} {id : Nat} (h : d.lacks id = true) :
    d.contains id = false := by
  have same := lacks_eq (lt_of_lacks h)
  rw [h] at same
  simpa using same.symm

end Discovered

/-- Where a frame stands, without its depth: its vertex, and the kind it was reached by. -/
def Frame.arrival (frame : Frame) : Nat × Option Kind := (frame.vertex, frame.kind)

/-- Where an edge leads, with its kind. -/
def Edge.arrival (direction : Direction) (edge : Edge) : Nat × Option Kind :=
  (direction.far edge, some edge.kind)

namespace Walk

section
variable (g : Graph) (direction : Direction)

/-- The vertices that the steps of a walk expand, in their order. -/
def expanded (walk : Walk) : List Nat :=
  match _h : walk.step g direction with
  | none => []
  | some (visit, next) =>
    if walk.discovered.lacks visit.frame.vertex then
      visit.frame.vertex :: next.expanded
    else next.expanded
termination_by (walk.discovered.missing, walk.stack.length)
decreasing_by
  all_goals
    rcases step_decreases _h with less | ⟨same, less⟩
    · exact Prod.Lex.left _ _ less
    · exact same ▸ Prod.Lex.right _ less

/-- The walk after a step that expands the vertex of the frame on top. -/
def expand (frame : Frame) (rest : List Frame) (pending : List Nat) (d : Discovered) : Walk :=
  ⟨below g direction frame ++ rest,
    raise (lower pending frame.depth) (frame.depth + 1) (below g direction frame).length,
    d.mark frame.vertex⟩

/-- The walk after a step whose frame has a vertex that is discovered already. -/
def pass (frame : Frame) (rest : List Frame) (pending : List Nat) (d : Discovered) : Walk :=
  ⟨rest, lower pending frame.depth, d⟩

theorem expand_stack (frame : Frame) (rest : List Frame) (pending : List Nat) (d : Discovered) :
    (expand g direction frame rest pending d).stack = below g direction frame ++ rest := rfl

variable {frame : Frame} (rest : List Frame) (pending : List Nat) {d : Discovered}

theorem step_fresh (h : d.lacks frame.vertex = true) :
    (Walk.mk (frame :: rest) pending d).step g direction =
      some (⟨frame, lower pending frame.depth⟩, expand g direction frame rest pending d) := by
  simp [step, h, expand]

theorem step_known (h : d.lacks frame.vertex = false) :
    (Walk.mk (frame :: rest) pending d).step g direction =
      some (⟨frame, lower pending frame.depth⟩, pass frame rest pending d) := by
  simp [step, h, pass]

theorem run_done (d : Discovered) : (Walk.mk [] pending d).run g direction = ([], d) := by
  rw [run]
  rfl

theorem run_of_step {walk next : Walk} {visit : Visit}
    (h : walk.step g direction = some (visit, next)) :
    walk.run g direction = (visit :: (next.run g direction).1, (next.run g direction).2) := by
  rw [run]
  split
  · next stuck => rw [h] at stuck; contradiction
  · next other after stepped =>
    rw [h] at stepped
    cases stepped
    rfl

theorem run_fresh (h : d.lacks frame.vertex = true) :
    (Walk.mk (frame :: rest) pending d).run g direction =
      (⟨frame, lower pending frame.depth⟩ ::
          ((expand g direction frame rest pending d).run g direction).1,
        ((expand g direction frame rest pending d).run g direction).2) :=
  run_of_step g direction (step_fresh g direction rest pending h)

theorem run_known (h : d.lacks frame.vertex = false) :
    (Walk.mk (frame :: rest) pending d).run g direction =
      (⟨frame, lower pending frame.depth⟩ :: ((pass frame rest pending d).run g direction).1,
        ((pass frame rest pending d).run g direction).2) :=
  run_of_step g direction (step_known g direction rest pending h)

theorem expanded_done (d : Discovered) : (Walk.mk [] pending d).expanded g direction = [] := by
  rw [expanded]
  rfl

theorem expanded_of_step {walk next : Walk} {visit : Visit}
    (h : walk.step g direction = some (visit, next)) :
    walk.expanded g direction =
      if walk.discovered.lacks visit.frame.vertex then
        visit.frame.vertex :: next.expanded g direction
      else next.expanded g direction := by
  rw [expanded]
  split
  · next stuck => rw [h] at stuck; contradiction
  · next other after stepped =>
    rw [h] at stepped
    cases stepped
    rfl

theorem expanded_fresh (h : d.lacks frame.vertex = true) :
    (Walk.mk (frame :: rest) pending d).expanded g direction =
      frame.vertex :: (expand g direction frame rest pending d).expanded g direction := by
  rw [expanded_of_step g direction (step_fresh g direction rest pending h), if_pos h]

theorem expanded_known (h : d.lacks frame.vertex = false) :
    (Walk.mk (frame :: rest) pending d).expanded g direction =
      (pass frame rest pending d).expanded g direction := by
  rw [expanded_of_step g direction (step_known g direction rest pending h), if_neg (by simp [h])]

end

/-- What holds of a finished walk, and of a walk whenever it holds after its step, holds of every
walk. -/
theorem course (g : Graph) (direction : Direction) {motive : Walk → Prop}
    (done : ∀ pending d, motive ⟨[], pending, d⟩)
    (fresh : ∀ frame rest pending d, d.lacks frame.vertex = true →
      motive (expand g direction frame rest pending d) → motive ⟨frame :: rest, pending, d⟩)
    (known : ∀ frame rest pending d, d.lacks frame.vertex = false →
      motive (pass frame rest pending d) → motive ⟨frame :: rest, pending, d⟩)
    (walk : Walk) : motive walk := by
  fun_induction run g direction walk with
  | case1 walk h =>
    obtain ⟨stack, pending, d⟩ := walk
    obtain rfl : stack = [] := stack_of_step_none h
    exact done pending d
  | case2 walk visit next h visits discovered rest ih =>
    obtain ⟨stack, pending, d⟩ := walk
    obtain ⟨frame, others, rfl, -, ⟨lacks, rfl⟩ | ⟨lacks, rfl⟩⟩ := step_cases h
    · exact fresh frame others pending d lacks ih
    · exact known frame others pending d lacks ih

section
variable {g : Graph} {direction : Direction}

theorem contains_run (walk : Walk) (id : Nat) :
    (walk.run g direction).2.contains id = true ↔
      walk.discovered.contains id = true ∨ id ∈ walk.expanded g direction := by
  induction walk using course g direction with
  | done pending d => simp [run_done, expanded_done]
  | fresh frame rest pending d lacks ih =>
    have marked := Discovered.contains_mark (Discovered.lt_of_lacks lacks) id
    rw [run_fresh g direction rest pending lacks, expanded_fresh g direction rest pending lacks, ih,
      List.mem_cons]
    simp only [expand, marked]
    rw [or_assoc, or_left_comm]
  | known frame rest pending d lacks ih =>
    rw [run_known g direction rest pending lacks, expanded_known g direction rest pending lacks, ih]
    rfl

theorem length_run (walk : Walk) :
    (walk.run g direction).2.marks.length = walk.discovered.marks.length := by
  have swept := congrArg Prod.snd (run_eq_sweep g direction walk)
  simp only at swept
  rw [swept, sweep_length_marks]

theorem not_contains_of_mem_expanded {walk : Walk} {id : Nat}
    (h : id ∈ walk.expanded g direction) : walk.discovered.contains id = false := by
  induction walk using course g direction with
  | done pending d => simp [expanded_done] at h
  | fresh frame rest pending d lacks ih =>
    rw [expanded_fresh g direction rest pending lacks, List.mem_cons] at h
    rcases h with rfl | h
    · exact Discovered.contains_of_lacks lacks
    · have absent := ih h
      have marked := Discovered.contains_mark (Discovered.lt_of_lacks lacks) id
      simp only [expand] at absent
      rw [← Bool.not_eq_true, marked, not_or, Bool.not_eq_true] at absent
      exact absent.2
  | known frame rest pending d lacks ih =>
    rw [expanded_known g direction rest pending lacks] at h
    exact ih h

theorem nodup_expanded (walk : Walk) : (walk.expanded g direction).Nodup := by
  induction walk using course g direction with
  | done pending d => simp [expanded_done]
  | fresh frame rest pending d lacks ih =>
    rw [expanded_fresh g direction rest pending lacks, List.nodup_cons]
    refine ⟨?_, ih⟩
    intro again
    have absent := not_contains_of_mem_expanded again
    have marked := Discovered.contains_mark (Discovered.lt_of_lacks lacks) frame.vertex
    simp only [expand] at absent
    rw [← Bool.not_eq_true, marked, not_or] at absent
    exact absent.1 rfl
  | known frame rest pending d lacks ih =>
    rw [expanded_known g direction rest pending lacks]
    exact ih

theorem visited_of_mem_expanded {walk : Walk} {id : Nat} (h : id ∈ walk.expanded g direction) :
    ∃ visit ∈ (walk.run g direction).1, visit.frame.vertex = id := by
  induction walk using course g direction with
  | done pending d => simp [expanded_done] at h
  | fresh frame rest pending d lacks ih =>
    rw [expanded_fresh g direction rest pending lacks, List.mem_cons] at h
    rw [run_fresh g direction rest pending lacks]
    rcases h with rfl | h
    · exact ⟨_, List.mem_cons_self, rfl⟩
    · obtain ⟨visit, visited, same⟩ := ih h
      exact ⟨visit, List.mem_cons_of_mem _ visited, same⟩
  | known frame rest pending d lacks ih =>
    rw [expanded_known g direction rest pending lacks] at h
    rw [run_known g direction rest pending lacks]
    obtain ⟨visit, visited, same⟩ := ih h
    exact ⟨visit, List.mem_cons_of_mem _ visited, same⟩

/-- A walk of which every frame has a vertex that can be marked. -/
structure Inside (g : Graph) (walk : Walk) : Prop where
  sized : walk.discovered.marks.length = g.vertexCount
  stacked : ∀ frame ∈ walk.stack, frame.vertex < g.vertexCount

theorem mem_below {frame other : Frame} (h : g.WellFormed)
    (below : other ∈ below g direction frame) :
    ∃ edge ∈ g.edges, direction.near edge = frame.vertex ∧
      other = ⟨direction.far edge, frame.depth + 1, some edge.kind⟩ := by
  rw [below_eq_reached h] at below
  obtain ⟨edge, at_vertex, rfl⟩ := List.mem_map.mp below
  obtain ⟨listed, near⟩ := Graph.mem_incident.mp at_vertex
  exact ⟨edge, listed, near, rfl⟩

variable {frame : Frame} {rest : List Frame} {pending : List Nat} {d : Discovered}

theorem Inside.expand (h : g.WellFormed) (inside : Inside g ⟨frame :: rest, pending, d⟩) :
    Inside g (Walk.expand g direction frame rest pending d) := by
  constructor
  · simp only [Walk.expand, Discovered.length_mark]
    exact inside.sized
  · intro other stacked
    rcases List.mem_append.mp stacked with below | stacked
    · obtain ⟨edge, listed, -, rfl⟩ := mem_below h below
      exact h.far_lt direction listed
    · exact inside.stacked other (List.mem_cons_of_mem _ stacked)

theorem Inside.pass (inside : Inside g ⟨frame :: rest, pending, d⟩) :
    Inside g (Walk.pass frame rest pending d) :=
  ⟨inside.sized, fun other stacked => inside.stacked other (List.mem_cons_of_mem _ stacked)⟩

/-- Every vertex that a walk visits is discovered in the end. -/
theorem contains_of_visited (h : g.WellFormed) {walk : Walk} (inside : Inside g walk)
    {visit : Visit} (visited : visit ∈ (walk.run g direction).1) :
    (walk.run g direction).2.contains visit.frame.vertex = true := by
  induction walk using course g direction with
  | done pending d => simp [run_done] at visited
  | fresh frame rest pending d lacks ih =>
    rw [run_fresh g direction rest pending lacks] at visited ⊢
    rcases List.mem_cons.mp visited with rfl | visited
    · apply (contains_run _ _).mpr
      exact .inl ((Discovered.contains_mark (Discovered.lt_of_lacks lacks) _).mpr (.inl rfl))
    · exact ih (inside.expand h) visited
  | known frame rest pending d lacks ih =>
    rw [run_known g direction rest pending lacks] at visited ⊢
    rcases List.mem_cons.mp visited with rfl | visited
    · have markable : frame.vertex < d.marks.length :=
        inside.sized ▸ inside.stacked frame List.mem_cons_self
      have contained := Discovered.lacks_eq markable
      rw [lacks] at contained
      exact (contains_run _ _).mpr (.inl (by simpa [Walk.pass] using contained.symm))
    · exact ih inside.pass visited

/-- The frames that a walk starts from stay in their order; all others lie below one of them. -/
theorem starts_run (walk : Walk) :
    ((walk.run g direction).1.map Visit.frame).filter (fun frame => frame.depth == 0) =
      walk.stack.filter (fun frame => frame.depth == 0) := by
  induction walk using course g direction with
  | done pending d => simp [run_done]
  | fresh frame rest pending d lacks ih =>
    have deeper : (below g direction frame).filter (fun frame => frame.depth == 0) = [] := by
      simp [below]
    rw [expand_stack, List.filter_append, deeper, List.nil_append] at ih
    rw [run_fresh g direction rest pending lacks, List.map_cons, List.filter_cons,
      List.filter_cons, ih]
  | known frame rest pending d lacks ih =>
    rw [run_known g direction rest pending lacks, List.map_cons, List.filter_cons,
      List.filter_cons, ih]
    rfl

/-- Beside the frames it starts with, a walk visits one frame for each edge at a vertex that it
expands. -/
theorem arrivals_perm (h : g.WellFormed) (walk : Walk) :
    ((((walk.run g direction).1.map Visit.frame).filter fun frame => frame.depth != 0).map
        Frame.arrival).Perm
      ((walk.stack.filter fun frame => frame.depth != 0).map Frame.arrival ++
        ((walk.expanded g direction).flatMap (g.incident direction)).map
          (Edge.arrival direction)) := by
  induction walk using course g direction with
  | done pending d => simp [run_done, expanded_done]
  | fresh frame rest pending d lacks ih =>
    have deeper : (below g direction frame).filter (fun frame => frame.depth != 0) =
        below g direction frame := by
      simp [below]
    have led : (below g direction frame).map Frame.arrival =
        (g.incident direction frame.vertex).map (Edge.arrival direction) := by
      rw [below_eq_reached h, List.map_map]
      rfl
    rw [expand_stack, List.filter_append, deeper, List.map_append, led, List.append_assoc] at ih
    -- The frames below come before the rest of the stack, the edges they come by behind it.
    have moved := ih.trans (List.perm_append_comm_assoc _ _ _)
    rw [run_fresh g direction rest pending lacks, expanded_fresh g direction rest pending lacks,
      List.flatMap_cons, List.map_append, List.map_cons, List.filter_cons, List.filter_cons]
    split
    · exact moved.cons _
    · exact moved
  | known frame rest pending d lacks ih =>
    rw [run_known g direction rest pending lacks, expanded_known g direction rest pending lacks,
      List.map_cons, List.filter_cons, List.filter_cons]
    split
    · exact ih.cons _
    · exact ih

/-- Every edge at an expanded vertex is followed to its far end. -/
theorem visited_of_edge (h : g.WellFormed) {walk : Walk} {edge : Edge} (listed : edge ∈ g.edges)
    (expanded : direction.near edge ∈ walk.expanded g direction) :
    ∃ visit ∈ (walk.run g direction).1, visit.frame.vertex = direction.far edge := by
  have followed : edge ∈ (walk.expanded g direction).flatMap (g.incident direction) :=
    List.mem_flatMap.mpr ⟨_, expanded, Graph.mem_incident.mpr ⟨listed, rfl⟩⟩
  have arrives := (arrivals_perm h walk).symm.subset
    (List.mem_append_right _ (List.mem_map_of_mem followed))
  obtain ⟨frame, deeper, same⟩ := List.mem_map.mp arrives
  obtain ⟨visit, visited, rfl⟩ := List.mem_map.mp (List.mem_filter.mp deeper).1
  exact ⟨visit, visited, congrArg Prod.fst same⟩

/-- A vertex is expanded only if edges lead to it from a frame of the stack. -/
theorem leads_of_mem_expanded (h : g.WellFormed) {walk : Walk} {id : Nat}
    (expanded : id ∈ walk.expanded g direction) :
    ∃ frame ∈ walk.stack, Relation.ReflTransGen (g.Leads direction) frame.vertex id := by
  induction walk using course g direction with
  | done pending d => simp [expanded_done] at expanded
  | fresh frame rest pending d lacks ih =>
    rw [expanded_fresh g direction rest pending lacks, List.mem_cons] at expanded
    rcases expanded with rfl | expanded
    · exact ⟨frame, List.mem_cons_self, .refl⟩
    · obtain ⟨other, stacked, leads⟩ := ih expanded
      rcases List.mem_append.mp stacked with below | stacked
      · obtain ⟨edge, listed, near, rfl⟩ := mem_below h below
        exact ⟨frame, List.mem_cons_self, .head ⟨edge, listed, near, rfl⟩ leads⟩
      · exact ⟨other, List.mem_cons_of_mem _ stacked, leads⟩
  | known frame rest pending d lacks ih =>
    rw [expanded_known g direction rest pending lacks] at expanded
    obtain ⟨other, stacked, leads⟩ := ih expanded
    exact ⟨other, List.mem_cons_of_mem _ stacked, leads⟩

end

/-! ## The passes of a full backtrace -/

theorem lacks_of_nextComplete {g : Graph} {d : Discovered} {id : Nat}
    (h : nextComplete? g d = some id) : d.lacks id = true := by
  have found := List.find?_some h
  simp only [Bool.and_eq_true] at found
  exact found.1

/-- The walk from a vertex that can be marked and is not. -/
theorem visits_of_lacks {g : Graph} {direction : Direction} {id : Nat} {d : Discovered}
    (h : d.lacks id = true) : visits g direction id d = (start id d).run g direction := by
  rw [visits, Discovered.contains_of_lacks h, if_neg Bool.false_ne_true]

/-- The backward walks of a full backtrace: where each one starts, and what is discovered when it
does. -/
def passes (g : Graph) (d : Discovered) : List (Nat × Discovered) :=
  match _h : nextComplete? g d with
  | none => []
  | some id => (id, d) :: passes g ((start id d).run g .incoming).2
termination_by d.missing
decreasing_by
  have lacks := lacks_of_nextComplete _h
  exact visits_of_lacks lacks ▸ visits_missing_lt lacks

theorem passes_of_none {g : Graph} {d : Discovered} (h : nextComplete? g d = none) :
    passes g d = [] := by
  rw [passes]
  split
  · rfl
  · next found => rw [h] at found; contradiction

theorem passes_of_some {g : Graph} {d : Discovered} {id : Nat} (h : nextComplete? g d = some id) :
    passes g d = (id, d) :: passes g ((start id d).run g .incoming).2 := by
  rw [passes]
  split
  · next found => rw [h] at found; contradiction
  · next found =>
    rw [h] at found
    cases found
    rfl

theorem backwardPasses_eq_flatMap (g : Graph) (d : Discovered) :
    backwardPasses g d = (passes g d).flatMap fun (id, d) => ((start id d).run g .incoming).1 := by
  fun_induction backwardPasses g d with
  | case1 d stuck => rw [passes_of_none stuck, List.flatMap_nil]
  | case2 d id found ih =>
    rw [passes_of_some found, List.flatMap_cons, ih, visits_of_lacks (lacks_of_nextComplete found)]

end Walk

theorem Trace.visitsFrom_eq_run (g : Graph) (direction : Direction) (id : Nat) :
    visitsFrom g direction id = ((Walk.start id (.forGraph g)).run g direction).1 := by
  rw [visitsFrom, Walk.visits, Discovered.contains_forGraph, if_neg Bool.false_ne_true]

end TemplateTrace
