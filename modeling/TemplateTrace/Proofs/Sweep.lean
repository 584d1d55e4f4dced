import TemplateTrace.Proofs.Reachable
import TemplateTrace.Trace

/-!
# Sweeps

Which frames a walk visits, and which vertices it discovers, depends on its stack and on what is
discovered already, never on the counts beside the stack. `sweep` is a walk without the counts:

* `run_eq_sweep`: a walk visits the frames of the sweep of its stack;
* `sweep_append`: the frames on top of a stack are swept first, with all that is below them, and
  what they discover is discovered for the rest.
-/

namespace TemplateTrace

namespace Discovered

@[simp] theorem length_mark (d : Discovered) (id : Nat) :
    (d.mark id).marks.length = d.marks.length := by
  simp [mark]

theorem lacks_eq {d : Discovered} {id : Nat} (h : id < d.marks.length) :
    d.lacks id = !d.contains id := by
  simp [lacks, contains, h]

theorem contains_mark {d : Discovered} {id : Nat} (h : id < d.marks.length) (other : Nat) :
    (d.mark id).contains other = true ↔ other = id ∨ d.contains other = true := by
  by_cases same : other = id
  · subst same
    simp [contains, mark, h]
  · simp [contains, mark, same, Ne.symm same]

theorem lacks_mark (d : Discovered) (id other : Nat) :
    (d.mark id).lacks other = (other != id && d.lacks other) := by
  by_cases same : other = id
  · subst same
    simp [lacks, mark, List.getElem?_set]
  · simp [lacks, mark, same, Ne.symm same]

@[simp] theorem length_forGraph (g : Graph) : (forGraph g).marks.length = g.vertexCount := by
  simp [forGraph]

@[simp] theorem contains_forGraph (g : Graph) (id : Nat) : (forGraph g).contains id = false := by
  simp only [contains, forGraph, List.getD_eq_getElem?_getD, List.getElem?_replicate]
  split <;> rfl

end Discovered

namespace Walk

/-- All that a step can do: it visits the frame on top, and either expands its vertex or leaves the
rest of the stack as it is. -/
theorem step_cases {g : Graph} {direction : Direction} {walk next : Walk} {visit : Visit}
    (h : walk.step g direction = some (visit, next)) :
    ∃ frame rest, walk.stack = frame :: rest ∧ visit = ⟨frame, lower walk.pending frame.depth⟩ ∧
      (walk.discovered.lacks frame.vertex = true ∧
          next = ⟨below g direction frame ++ rest,
            raise (lower walk.pending frame.depth) (frame.depth + 1)
              (below g direction frame).length,
            walk.discovered.mark frame.vertex⟩ ∨
        walk.discovered.lacks frame.vertex = false ∧
          next = ⟨rest, lower walk.pending frame.depth, walk.discovered⟩) := by
  unfold step at h
  split at h
  · contradiction
  · next frame rest stack =>
    cases fresh : walk.discovered.lacks frame.vertex <;>
      simp only [fresh, Bool.false_eq_true, if_false, if_true, Option.some.injEq,
        Prod.mk.injEq] at h
    · exact ⟨frame, rest, stack, h.1.symm, .inr ⟨fresh, h.2.symm⟩⟩
    · exact ⟨frame, rest, stack, h.1.symm, .inl ⟨fresh, h.2.symm⟩⟩

theorem stack_of_step_none {g : Graph} {direction : Direction} {walk : Walk}
    (h : walk.step g direction = none) : walk.stack = [] := by
  unfold step at h
  split at h
  · assumption
  · dsimp only at h
    split at h <;> contradiction

/-- The frames visited from a stack, and the vertices discovered by the end. -/
def sweep (g : Graph) (direction : Direction) : List Frame → Discovered → List Frame × Discovered
  | [], d => ([], d)
  | frame :: rest, d =>
    if d.lacks frame.vertex then
      let (frames, last) := sweep g direction (below g direction frame ++ rest)
        (d.mark frame.vertex)
      (frame :: frames, last)
    else
      let (frames, last) := sweep g direction rest d
      (frame :: frames, last)
termination_by stack d => (d.missing, stack.length)
decreasing_by
  · exact Prod.Lex.left _ _ (Discovered.missing_mark_lt ‹_›)
  · exact Prod.Lex.right _ (by simp)

section
variable (g : Graph) (direction : Direction)

@[simp] theorem sweep_nil (d : Discovered) : sweep g direction [] d = ([], d) := by
  rw [sweep]

theorem sweep_fresh {frame : Frame} {d : Discovered} (rest : List Frame)
    (h : d.lacks frame.vertex = true) :
    sweep g direction (frame :: rest) d =
      (frame :: (sweep g direction (below g direction frame ++ rest) (d.mark frame.vertex)).1,
        (sweep g direction (below g direction frame ++ rest) (d.mark frame.vertex)).2) := by
  rw [sweep, if_pos h]

theorem sweep_known {frame : Frame} {d : Discovered} (rest : List Frame)
    (h : d.lacks frame.vertex = false) :
    sweep g direction (frame :: rest) d =
      (frame :: (sweep g direction rest d).1, (sweep g direction rest d).2) := by
  rw [sweep, if_neg (by simp [h])]

/-- A sweep visits the frame on top of the stack first. -/
theorem sweep_head? (stack : List Frame) (d : Discovered) :
    (sweep g direction stack d).1.head? = stack.head? := by
  cases stack with
  | nil => simp
  | cons frame rest =>
    cases fresh : d.lacks frame.vertex with
    | true => rw [sweep_fresh g direction rest fresh]; rfl
    | false => rw [sweep_known g direction rest fresh]; rfl

theorem run_eq_sweep (walk : Walk) :
    ((walk.run g direction).1.map Visit.frame, (walk.run g direction).2) =
      sweep g direction walk.stack walk.discovered := by
  fun_induction run g direction walk with
  | case1 walk h => simp [stack_of_step_none h]
  | case2 walk visit next h visits discovered rest ih =>
    simp only [rest] at ih
    obtain ⟨frame, others, stack, rfl, ⟨fresh, rfl⟩ | ⟨known, rfl⟩⟩ := step_cases h
    · rw [stack, sweep_fresh g direction others fresh, ← ih]
      rfl
    · rw [stack, sweep_known g direction others known, ← ih]
      rfl

/-- The walk from a vertex that is not discovered yet. -/
theorem visits_eq_sweep {id : Nat} {d : Discovered} (h : d.contains id = false) :
    ((visits g direction id d).1.map Visit.frame, (visits g direction id d).2) =
      sweep g direction [⟨id, 0, none⟩] d := by
  rw [visits, h, if_neg Bool.false_ne_true]
  exact run_eq_sweep g direction (start id d)

theorem sweep_append (top rest : List Frame) (d : Discovered) :
    sweep g direction (top ++ rest) d =
      ((sweep g direction top d).1 ++ (sweep g direction rest (sweep g direction top d).2).1,
        (sweep g direction rest (sweep g direction top d).2).2) := by
  fun_induction sweep g direction top d with
  | case1 d => simp
  | case2 frame top d fresh frames last swept ih =>
    rw [List.cons_append, sweep_fresh g direction _ fresh, ← List.append_assoc, ih, swept]
    rfl
  | case3 frame top d known frames last swept ih =>
    rw [List.cons_append, sweep_known g direction _ (by simpa using known), ih, swept]
    rfl

theorem sweep_missing_le (stack : List Frame) (d : Discovered) :
    (sweep g direction stack d).2.missing ≤ d.missing := by
  fun_induction sweep g direction stack d with
  | case1 d => exact Nat.le_refl _
  | case2 frame rest d fresh frames last swept ih =>
    rw [swept] at ih
    exact Nat.le_trans ih (Nat.le_of_lt (Discovered.missing_mark_lt fresh))
  | case3 frame rest d known frames last swept ih =>
    rw [swept] at ih
    exact ih

@[simp] theorem sweep_length_marks (stack : List Frame) (d : Discovered) :
    (sweep g direction stack d).2.marks.length = d.marks.length := by
  fun_induction sweep g direction stack d with
  | case1 d => rfl
  | case2 frame rest d fresh frames last swept ih =>
    rw [swept] at ih
    rw [ih, Discovered.length_mark]
  | case3 frame rest d known frames last swept ih =>
    rw [swept] at ih
    exact ih

end

end Walk

/-- The full forward trace is the sweep of the root alone. -/
theorem Trace.fullForwardFrames_eq_sweep (g : Graph) :
    fullForwardFrames g = (Walk.sweep g .outgoing [⟨Graph.root, 0, none⟩] (.forGraph g)).1 := by
  rw [← Walk.visits_eq_sweep g .outgoing (by simp)]
  rfl

end TemplateTrace
