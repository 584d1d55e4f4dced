import TemplateTrace.Graph

/-!
# Walks

A depth-first walk of a graph with the frames still to visit on a stack. Every frame taken off the
stack is visited, so a vertex shows once for each way into it, but only the first visit expands it:
then the frames below it are put on top of the stack, in the order of their edges.

Beside the stack a walk counts, level by level, the frames that are waiting. `step_decreases` is why
every walk ends, on cyclic graphs too: a step marks a vertex or shortens the stack.
-/

namespace TemplateTrace

/-- A mark for each vertex of the graph the set was made for. A vertex past its end is never in the
set and cannot be marked. -/
structure Discovered where
  marks : List Bool
  deriving DecidableEq, Repr

namespace Discovered

def forGraph (g : Graph) : Discovered := ⟨List.replicate g.vertexCount false⟩

def contains (d : Discovered) (id : Nat) : Bool := d.marks.getD id false

/-- Whether a vertex can be marked and is not. -/
def lacks (d : Discovered) (id : Nat) : Bool := d.marks[id]? == some false

def mark (d : Discovered) (id : Nat) : Discovered := ⟨d.marks.set id true⟩

/-- Marks a vertex, and says whether that was new. -/
def insert (d : Discovered) (id : Nat) : Bool × Discovered := (d.lacks id, d.mark id)

def size (d : Discovered) : Nat := d.marks.count true

def isEmpty (d : Discovered) : Bool := d.size == 0

/-- How many vertices can still be marked. -/
def missing (d : Discovered) : Nat := d.marks.count false

theorem missing_mark_lt {d : Discovered} {id : Nat} (h : d.lacks id) :
    (d.mark id).missing < d.missing := by
  obtain ⟨marks⟩ := d
  simp only [lacks, beq_iff_eq] at h
  simp only [mark, missing]
  induction marks generalizing id with
  | nil => simp at h
  | cons head tail ih =>
    cases id with
    | zero =>
      simp only [List.getElem?_cons_zero, Option.some.injEq] at h
      simp [h]
    | succ id =>
      simp only [List.getElem?_cons_succ] at h
      have less := ih h
      simp only [List.set_cons_succ, List.count_cons]
      omega

end Discovered

/-- A vertex at a depth of a walk, with the kind of the edge it was reached by. -/
structure Frame where
  vertex : Nat
  depth : Nat
  kind : Option Kind
  deriving DecidableEq, Repr

/-- A frame as it is visited, with the number of frames waiting at each level. -/
structure Visit where
  frame : Frame
  pending : List Nat
  deriving DecidableEq, Repr

/-- The frames to visit, the next one first, their number at each level, and the vertices expanded
so far. -/
structure Walk where
  stack : List Frame
  pending : List Nat
  discovered : Discovered
  deriving DecidableEq, Repr

namespace Walk

/-- The walk that is about to visit one vertex. -/
def start (id : Nat) (d : Discovered) : Walk := ⟨[⟨id, 0, none⟩], [1], d⟩

/-- The frames right below a frame, in the order of their edges. -/
def below (g : Graph) (direction : Direction) (frame : Frame) : List Frame :=
  (g.edgesAt direction frame.vertex).map fun edge =>
    ⟨direction.far edge, frame.depth + 1, some edge.kind⟩

/-- One frame fewer waits at a level. -/
def lower (pending : List Nat) (level : Nat) : List Nat := pending.modify level (· - 1)

/-- So many frames more wait at a level; the counts are extended up to it. -/
def raise (pending : List Nat) (level count : Nat) : List Nat :=
  (pending ++ List.replicate (level + 1 - pending.length) 0).modify level (· + count)

/-- Visits the frame on top of the stack. -/
def step (g : Graph) (direction : Direction) (walk : Walk) : Option (Visit × Walk) :=
  match walk.stack with
  | [] => none
  | frame :: rest =>
    let pending := lower walk.pending frame.depth
    if walk.discovered.lacks frame.vertex then
      let fresh := below g direction frame
      some (⟨frame, pending⟩,
        ⟨fresh ++ rest, raise pending (frame.depth + 1) fresh.length,
          walk.discovered.mark frame.vertex⟩)
    else
      some (⟨frame, pending⟩, ⟨rest, pending, walk.discovered⟩)

theorem step_decreases {g : Graph} {direction : Direction} {walk next : Walk} {visit : Visit}
    (h : walk.step g direction = some (visit, next)) :
    next.discovered.missing < walk.discovered.missing ∨
      next.discovered.missing = walk.discovered.missing ∧
        next.stack.length < walk.stack.length := by
  unfold step at h
  split at h
  · contradiction
  · next frame rest stack =>
    by_cases fresh : walk.discovered.lacks frame.vertex
    · simp only [fresh, if_true, Option.some.injEq, Prod.mk.injEq] at h
      exact .inl (h.2 ▸ Discovered.missing_mark_lt fresh)
    · simp only [fresh, Bool.false_eq_true, if_false, Option.some.injEq, Prod.mk.injEq] at h
      refine .inr ?_
      simp [← h.2, stack]

/-- Every visit up to the end of the walk, and the vertices discovered by then. -/
def run (g : Graph) (direction : Direction) (walk : Walk) : List Visit × Discovered :=
  match _h : walk.step g direction with
  | none => ([], walk.discovered)
  | some (visit, next) =>
    let (visits, discovered) := next.run g direction
    (visit :: visits, discovered)
termination_by (walk.discovered.missing, walk.stack.length)
decreasing_by
  rcases step_decreases _h with less | ⟨same, less⟩
  · exact Prod.Lex.left _ _ less
  · exact same ▸ Prod.Lex.right _ less

theorem run_missing_le (g : Graph) (direction : Direction) (walk : Walk) :
    (walk.run g direction).2.missing ≤ walk.discovered.missing := by
  fun_induction run g direction walk with
  | case1 => exact Nat.le_refl _
  | case2 walk visit next h visits discovered rest ih =>
    have := step_decreases h
    simp only [rest] at ih
    simp only
    omega

/-- The visits of a walk from a vertex; there are none if the vertex is already discovered. -/
def visits (g : Graph) (direction : Direction) (id : Nat) (d : Discovered) :
    List Visit × Discovered :=
  if d.contains id then ([], d) else (start id d).run g direction

theorem visits_missing_lt {g : Graph} {direction : Direction} {id : Nat} {d : Discovered}
    (h : d.lacks id) : (visits g direction id d).2.missing < d.missing := by
  have unmarked : d.contains id = false := by
    simp only [Discovered.lacks, beq_iff_eq] at h
    simp [Discovered.contains, h]
  have first : (start id d).step g direction =
      some (⟨⟨id, 0, none⟩, lower [1] 0⟩,
        ⟨below g direction ⟨id, 0, none⟩ ++ [],
          raise (lower [1] 0) 1 (below g direction ⟨id, 0, none⟩).length, d.mark id⟩) := by
    simp [step, start, h]
  have rest := run_missing_le g direction
    ⟨below g direction ⟨id, 0, none⟩ ++ [],
      raise (lower [1] 0) 1 (below g direction ⟨id, 0, none⟩).length, d.mark id⟩
  have less := Discovered.missing_mark_lt h
  rw [visits, unmarked, if_neg Bool.false_ne_true, run]
  split
  · next stuck => rw [first] at stuck; contradiction
  · next visit next stepped =>
    rw [first] at stepped
    cases stepped
    exact Nat.lt_of_le_of_lt rest less

/-- The first undiscovered vertex from which every edge leads to a discovered one. -/
def nextComplete? (g : Graph) (d : Discovered) : Option Nat :=
  g.vertexIds.find? fun id =>
    d.lacks id && (g.outEdges id).all (fun edge => d.contains edge.target)

/-- Backward walks, each from the next vertex whose edges all lead to discovered vertices, until
there is none. The walks share what they discover. -/
def backwardPasses (g : Graph) (d : Discovered) : List Visit :=
  match _h : nextComplete? g d with
  | none => []
  | some id =>
    (visits g .incoming id d).1 ++ backwardPasses g (visits g .incoming id d).2
termination_by d.missing
decreasing_by
  have found := List.find?_some _h
  simp only [Bool.and_eq_true] at found
  exact visits_missing_lt found.1

end Walk

end TemplateTrace
