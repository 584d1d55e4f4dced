import Mathlib.Data.List.Chain
import Mathlib.Data.List.Permutation
import TemplateTrace.Proofs.Course

/-!
# Connectors tell what is still to come

A line of a trace shows a bar at a level while frames of that level are waiting. What waits is known
from counts that a walk keeps up beside its stack, long before the frames in question are shown.
`displayed_connectors` says that the bars tell the truth about the output itself: a bar stands at a
level exactly if the next frame that is not deeper stands at this level, and so exactly if a later
frame hangs below the same parent there.

`Counted` carries the proof: the counts are those of the stack, and the deeper frames lie on top of
it. `find?_run` turns what is on the stack into what comes next in the output.
-/

namespace TemplateTrace

namespace Walk

theorem getD_lower (pending : List Nat) (level other : Nat) :
    (lower pending level).getD other 0 =
      if other = level then pending.getD level 0 - 1 else pending.getD other 0 := by
  by_cases same : other = level
  · subst same
    by_cases inside : other < pending.length
    · simp [lower, inside]
    · simp [lower, List.getElem?_eq_none (Nat.le_of_not_lt inside)]
  · simp [lower, same, Ne.symm same]

theorem getD_raise (pending : List Nat) (level count other : Nat) :
    (raise pending level count).getD other 0 =
      pending.getD other 0 + if other = level then count else 0 := by
  have extended (k : Nat) :
      (pending ++ List.replicate (level + 1 - pending.length) 0).getD k 0 = pending.getD k 0 := by
    by_cases inside : k < pending.length
    · simp [List.getElem?_append_left inside]
    · have beyond := Nat.le_of_not_lt inside
      simp only [List.getD_eq_getElem?_getD, List.getElem?_append_right beyond,
        List.getElem?_eq_none beyond, List.getElem?_replicate]
      split <;> rfl
  by_cases same : other = level
  · subst same
    have inside : other < (pending ++ List.replicate (other + 1 - pending.length) 0).length := by
      rw [List.length_append, List.length_replicate]
      omega
    rw [← extended other]
    simp only [raise, List.getD_eq_getElem?_getD, List.getElem?_modify,
      List.getElem?_eq_getElem inside]
    simp
  · rw [← extended other]
    simp [raise, same, Ne.symm same]

/-- The counts of a walk are those of its stack, where no frame lies on a deeper one. -/
structure Counted (walk : Walk) : Prop where
  counts : ∀ level,
    walk.pending.getD level 0 = walk.stack.countP fun frame => frame.depth == level
  sorted : walk.stack.Pairwise fun upper lower => lower.depth ≤ upper.depth

theorem counted_start (id : Nat) (d : Discovered) : Counted (start id d) where
  counts level := by cases level <;> simp [start]
  sorted := by simp [start]

section
variable {g : Graph} {direction : Direction} {frame : Frame} {rest : List Frame}
  {pending : List Nat} {d : Discovered}

theorem Counted.lowered (h : Counted ⟨frame :: rest, pending, d⟩) (level : Nat) :
    (lower pending frame.depth).getD level 0 = rest.countP fun frame => frame.depth == level := by
  have counts := h.counts
  simp only [List.countP_cons] at counts
  rw [getD_lower]
  by_cases same : level = frame.depth
  · rw [if_pos same, counts, same, beq_self_eq_true, if_pos rfl, Nat.add_sub_cancel]
  · have other : (frame.depth == level) = false := by
      simpa using Ne.symm same
    rw [if_neg same, counts, other]
    simp

theorem Counted.pass (h : Counted ⟨frame :: rest, pending, d⟩) :
    Counted (Walk.pass frame rest pending d) :=
  ⟨h.lowered, (List.pairwise_cons.mp h.sorted).2⟩

theorem depth_of_mem_below {other : Frame} (h : other ∈ below g direction frame) :
    other.depth = frame.depth + 1 := by
  obtain ⟨edge, -, rfl⟩ := List.mem_map.mp h
  rfl

theorem Counted.expand (h : Counted ⟨frame :: rest, pending, d⟩) :
    Counted (Walk.expand g direction frame rest pending d) := by
  obtain ⟨top, sorted⟩ := List.pairwise_cons.mp h.sorted
  constructor
  · intro level
    have fresh : (below g direction frame).countP (fun other => other.depth == level) =
        if level = frame.depth + 1 then (below g direction frame).length else 0 := by
      split
      · next same =>
        refine List.countP_eq_length.mpr fun other listed => ?_
        rw [depth_of_mem_below listed, same, beq_self_eq_true]
      · next apart =>
        refine List.countP_eq_zero.mpr fun other listed => ?_
        rw [depth_of_mem_below listed, beq_iff_eq]
        exact Ne.symm apart
    simp only [Walk.expand]
    rw [getD_raise, h.lowered, List.countP_append, fresh, Nat.add_comm]
  · refine List.pairwise_append.mpr ⟨?_, sorted, ?_⟩
    · rw [below, List.pairwise_map]
      exact List.pairwise_of_forall fun _ _ => Nat.le_refl _
    · intro upper atUpper lower atLower
      have := top lower atLower
      rw [depth_of_mem_below atUpper]
      omega

/-- The first frame up to a depth that a walk visits is the first one on its stack: whatever it
visits in between lies below deeper frames. -/
theorem find?_run (walk : Walk) (level : Nat) :
    ((walk.run g direction).1.map Visit.frame).find? (fun frame => frame.depth ≤ level) =
      walk.stack.find? (fun frame => frame.depth ≤ level) := by
  induction walk using course g direction with
  | done pending d => simp [run_done]
  | fresh frame rest pending d lacks ih =>
    rw [run_fresh g direction rest pending lacks, List.map_cons]
    by_cases shallow : frame.depth ≤ level
    · simp [shallow]
    · have deeper : (below g direction frame).find? (fun frame => frame.depth ≤ level) = none := by
        refine List.find?_eq_none.mpr fun other listed => ?_
        rw [decide_eq_true_eq, depth_of_mem_below listed]
        omega
      rw [expand_stack, List.find?_append, deeper, Option.none_or] at ih
      simp [shallow, ih]
  | known frame rest pending d lacks ih =>
    rw [run_known g direction rest pending lacks, List.map_cons]
    by_cases shallow : frame.depth ≤ level
    · simp [shallow]
    · rw [pass] at ih
      simp [shallow, ih, pass]

theorem head_depth_run {walk : Walk} {bound : Nat}
    (shallow : ∀ frame ∈ walk.stack, frame.depth ≤ bound) {depth : Nat}
    (first : depth ∈ ((walk.run g direction).1.map fun visit => visit.frame.depth).head?) :
    depth ≤ bound := by
  have swept := congrArg Prod.fst (run_eq_sweep g direction walk)
  simp only at swept
  have depths : (walk.run g direction).1.map (fun visit => visit.frame.depth) =
      ((walk.run g direction).1.map Visit.frame).map Frame.depth := by
    rw [List.map_map]
    rfl
  rw [depths, swept, List.head?_map, sweep_head?, Option.mem_def, Option.map_eq_some_iff] at first
  obtain ⟨frame, top, rfl⟩ := first
  exact shallow frame (List.mem_of_mem_head? top)

/-- On a sorted stack, the first frame up to a depth is the deepest one. -/
theorem find?_sorted {stack : List Frame} {level : Nat}
    (sorted : stack.Pairwise fun upper lower => lower.depth ≤ upper.depth) :
    0 < stack.countP (fun frame => frame.depth == level) ↔
      ∃ next, stack.find? (fun frame => frame.depth ≤ level) = some next ∧ next.depth = level := by
  rw [List.countP_pos_iff]
  constructor
  · rintro ⟨frame, listed, same⟩
    rw [beq_iff_eq] at same
    have isSome : (stack.find? fun frame => frame.depth ≤ level).isSome := by
      rw [List.find?_isSome]
      exact ⟨frame, listed, by simp [same]⟩
    obtain ⟨next, found⟩ := Option.isSome_iff_exists.mp isSome
    refine ⟨next, found, ?_⟩
    obtain ⟨shallow, before, behind, rfl, deeper⟩ := List.find?_eq_some_iff_append.mp found
    rw [decide_eq_true_eq] at shallow
    rcases List.mem_append.mp listed with early | late
    · have := deeper frame early
      simp [same] at this
    · rcases List.mem_cons.mp late with rfl | late
      · exact same
      · have := (List.pairwise_cons.mp (List.pairwise_append.mp sorted).2.1).1 frame late
        omega
  · rintro ⟨next, found, same⟩
    exact ⟨next, List.mem_of_find?_eq_some found, by simp [same]⟩

end

/-- The counts beside the visits tell what comes behind them: frames wait at a level that is not
below the visited frame exactly if the next visit that is not deeper than the level is at the
level. -/
def Truthful (visits : List Visit) : Prop :=
  ∀ i visit, visits[i]? = some visit → ∀ level, level ≤ visit.frame.depth →
    (0 < visit.pending.getD level 0 ↔
      ∃ next, (visits.drop (i + 1)).find? (fun later => later.frame.depth ≤ level) = some next ∧
        next.frame.depth = level)

theorem truthful_cons {visit : Visit} {visits : List Visit}
    (first : ∀ level, level ≤ visit.frame.depth → (0 < visit.pending.getD level 0 ↔
      ∃ next, (visits.map Visit.frame).find? (fun frame => frame.depth ≤ level) = some next ∧
        next.depth = level))
    (rest : Truthful visits) : Truthful (visit :: visits) := by
  intro i other at_i
  cases i with
  | zero =>
    obtain rfl : visit = other := by simpa using at_i
    intro level above
    rw [first level above, List.find?_map]
    simp only [Option.map_eq_some_iff]
    constructor
    · rintro ⟨_, ⟨later, found, rfl⟩, same⟩
      exact ⟨later, found, same⟩
    · rintro ⟨later, found, same⟩
      exact ⟨later.frame, ⟨later, found, rfl⟩, same⟩
  | succ i =>
    rw [List.getElem?_cons_succ] at at_i
    exact rest i other at_i

theorem truthful_run {g : Graph} {direction : Direction} {walk : Walk} (h : Counted walk) :
    Truthful (walk.run g direction).1 := by
  induction walk using course g direction with
  | done pending d =>
    intro i visit visited
    simp [run_done] at visited
  | fresh frame rest pending d lacks ih =>
    rw [run_fresh g direction rest pending lacks]
    refine truthful_cons ?_ (ih h.expand)
    intro level above
    -- The frames put on the stack by this step are deeper than the level.
    have deeper : (below g direction frame).find? (fun frame => frame.depth ≤ level) = none := by
      refine List.find?_eq_none.mpr fun other listed => ?_
      rw [decide_eq_true_eq, depth_of_mem_below listed]
      have : level ≤ frame.depth := above
      omega
    rw [h.lowered, find?_run, expand_stack, List.find?_append, deeper, Option.none_or]
    exact find?_sorted (List.pairwise_cons.mp h.sorted).2
  | known frame rest pending d lacks ih =>
    rw [run_known g direction rest pending lacks]
    refine truthful_cons ?_ (ih h.pass)
    intro level above
    rw [h.lowered, find?_run]
    exact find?_sorted (List.pairwise_cons.mp h.sorted).2

/-- A walk goes down one level at a time. -/
theorem depths_run (g : Graph) (direction : Direction) {walk : Walk} (h : Counted walk) :
    ((walk.run g direction).1.map fun visit => visit.frame.depth).IsChain
      fun depth next => next ≤ depth + 1 := by
  induction walk using course g direction with
  | done pending d => simp [run_done]
  | fresh frame rest pending d lacks ih =>
    rw [run_fresh g direction rest pending lacks, List.map_cons]
    refine (ih h.expand).cons fun next first => ?_
    apply head_depth_run _ first
    intro other stacked
    rcases List.mem_append.mp stacked with fresh | stacked
    · exact Nat.le_of_eq (depth_of_mem_below fresh)
    · exact Nat.le_succ_of_le ((List.pairwise_cons.mp h.sorted).1 other stacked)
  | known frame rest pending d lacks ih =>
    rw [run_known g direction rest pending lacks, List.map_cons]
    refine (ih h.pass).cons fun next first => ?_
    apply head_depth_run _ first
    intro other stacked
    exact Nat.le_succ_of_le ((List.pairwise_cons.mp h.sorted).1 other stacked)

/-- Only the first frame of a walk has no depth. -/
theorem start_run (g : Graph) (direction : Direction) (id : Nat) (d : Discovered) :
    ∃ first rest, ((start id d).run g direction).1 = first :: rest ∧
      first.frame = ⟨id, 0, none⟩ ∧ ∀ visit ∈ rest, 0 < visit.frame.depth := by
  obtain ⟨first, rest, ran, top⟩ : ∃ first rest,
      ((start id d).run g direction).1 = first :: rest ∧ first.frame = ⟨id, 0, none⟩ := by
    cases lacks : d.lacks id with
    | true => exact ⟨_, _, by rw [start, run_fresh g direction [] [1] lacks], rfl⟩
    | false => exact ⟨_, _, by rw [start, run_known g direction [] [1] lacks], rfl⟩
  refine ⟨first, rest, ran, top, ?_⟩
  have starts := @starts_run g direction (start id d)
  rw [ran, List.map_cons, List.filter_cons, top] at starts
  have others : (rest.map Visit.frame).filter (fun frame => frame.depth == 0) = [] := by
    simpa [start] using starts
  intro visit visited
  have deep := List.filter_eq_nil_iff.mp others visit.frame (List.mem_map_of_mem visited)
  simp only [beq_iff_eq] at deep
  exact Nat.pos_of_ne_zero deep

end Walk

/-! ## Siblings in a list of depths -/

namespace Depths

/-- The place of the last frame of a depth up to a place. For a frame that is deeper, that is the
frame of this depth it hangs below. -/
def ancestor? (depths : List Nat) (i depth : Nat) : Option Nat :=
  (List.range (i + 1)).reverse.find? fun k => depths[k]? == some depth

/-- Behind a place there is a frame at a level below the same parent. -/
def LaterSibling (depths : List Nat) (i level : Nat) : Prop :=
  ∃ j, i < j ∧ depths[j]? = some level ∧
    ancestor? depths j (level - 1) = ancestor? depths i (level - 1)

theorem ancestor?_succ (depths : List Nat) (i depth : Nat) :
    ancestor? depths (i + 1) depth =
      if depths[i + 1]? = some depth then some (i + 1) else ancestor? depths i depth := by
  rw [ancestor?, List.range_succ, List.reverse_append, List.reverse_singleton,
    List.singleton_append, List.find?_cons]
  by_cases same : depths[i + 1]? = some depth
  · simp [same]
  · have other : (depths[i + 1]? == some depth) = false := by simpa using same
    rw [if_neg same, other]
    rfl

theorem ancestor?_of_gap {depths : List Nat} {i j depth : Nat} (order : i ≤ j)
    (gap : ∀ k, i < k → k ≤ j → depths[k]? ≠ some depth) :
    ancestor? depths j depth = ancestor? depths i depth := by
  induction j with
  | zero =>
    obtain rfl : i = 0 := by omega
    rfl
  | succ j ih =>
    by_cases last : i = j + 1
    · rw [last]
    · rw [ancestor?_succ, if_neg (gap (j + 1) (by omega) (Nat.le_refl _))]
      exact ih (by omega) fun k after before => gap k after (by omega)

theorem ancestor?_le {depths : List Nat} {i depth k : Nat} (h : ancestor? depths i depth = some k) :
    k ≤ i := by
  have listed := List.mem_of_find?_eq_some h
  simp only [List.mem_reverse, List.mem_range] at listed
  omega

theorem le_ancestor? {depths : List Nat} {j depth k : Nat} (order : k ≤ j)
    (at_k : depths[k]? = some depth) : ∃ last, k ≤ last ∧ ancestor? depths j depth = some last := by
  induction j with
  | zero =>
    obtain rfl : k = 0 := by omega
    exact ⟨0, Nat.le_refl _, by simp [ancestor?, List.range_succ, at_k]⟩
  | succ j ih =>
    by_cases here : depths[j + 1]? = some depth
    · exact ⟨j + 1, order, by rw [ancestor?_succ, if_pos here]⟩
    · have before : k ≠ j + 1 := by
        rintro rfl
        exact here at_k
      rw [ancestor?_succ, if_neg here]
      exact ih (by omega)

/-- Depths that rise by at most one pass every depth on their way up. -/
theorem passes_depth {depths : List Nat} (chain : depths.IsChain fun depth next => next ≤ depth + 1)
    {k j low high level : Nat} (order : k ≤ j) (at_k : depths[k]? = some low)
    (at_j : depths[j]? = some high) (below : low ≤ level) (above : level < high) :
    ∃ m, k ≤ m ∧ m ≤ j ∧ depths[m]? = some level := by
  generalize away : j - k = distance
  induction distance generalizing k low with
  | zero =>
    obtain rfl : k = j := by omega
    rw [at_k, Option.some.injEq] at at_j
    omega
  | succ distance ih =>
    by_cases here : low = level
    · exact ⟨k, Nat.le_refl _, order, here ▸ at_k⟩
    · obtain ⟨inside_k, value_k⟩ := List.getElem?_eq_some_iff.mp at_k
      obtain ⟨inside_j, -⟩ := List.getElem?_eq_some_iff.mp at_j
      have inside : k + 1 < depths.length := by omega
      have rise := List.isChain_iff_getElem.mp chain k inside
      obtain ⟨m, after, before, found⟩ := ih (k := k + 1) (by omega)
        (List.getElem?_eq_getElem inside) (by omega) (by omega)
      exact ⟨m, by omega, before, found⟩

/-- Which depth up to a level comes next behind a place. -/
theorem find?_drop_iff {depths : List Nat} {i level depth : Nat} :
    (depths.drop (i + 1)).find? (fun depth => depth ≤ level) = some depth ↔
      depth ≤ level ∧ ∃ j, i < j ∧ depths[j]? = some depth ∧
        ∀ k other, i < k → k < j → depths[k]? = some other → level < other := by
  rw [List.find?_eq_some_iff_getElem, decide_eq_true_eq]
  refine and_congr_right fun _ => ?_
  constructor
  · rintro ⟨j, inside, at_j, deeper⟩
    rw [List.length_drop] at inside
    refine ⟨i + 1 + j, by omega, ?_, ?_⟩
    · rw [← List.getElem?_drop, List.getElem?_eq_getElem (by simpa using inside), at_j]
    · intro k other after before at_k
      have deep := deeper (k - (i + 1)) (by omega)
      rw [List.getElem_drop] at deep
      have place : i + 1 + (k - (i + 1)) = k := by omega
      obtain ⟨_, value⟩ := List.getElem?_eq_some_iff.mp at_k
      simp only [place, value, Bool.not_eq_true', decide_eq_false_iff_not] at deep
      omega
  · rintro ⟨j, after, at_j, deeper⟩
    obtain ⟨inside, value⟩ := List.getElem?_eq_some_iff.mp at_j
    refine ⟨j - (i + 1), by rw [List.length_drop]; omega, ?_, ?_⟩
    · have place : i + 1 + (j - (i + 1)) = j := by omega
      simp only [List.getElem_drop, place, value]
    · intro k before
      have deep := deeper (i + 1 + k) _ (by omega) (by omega)
        (List.getElem?_eq_getElem (by omega))
      simp only [List.getElem_drop, Bool.not_eq_true', decide_eq_false_iff_not]
      omega

theorem laterSibling_iff {depths : List Nat}
    (chain : depths.IsChain fun depth next => next ≤ depth + 1) {i level : Nat}
    (positive : 1 ≤ level) :
    LaterSibling depths i level ↔
      (depths.drop (i + 1)).find? (fun depth => depth ≤ level) = some level := by
  constructor
  · rintro ⟨j, order, at_j, same⟩
    have isSome : ((depths.drop (i + 1)).find? fun depth => depth ≤ level).isSome := by
      rw [List.find?_isSome]
      refine ⟨level, ?_, by simp⟩
      apply List.mem_of_getElem? (i := j - (i + 1))
      rw [List.getElem?_drop, show i + 1 + (j - (i + 1)) = j by omega, at_j]
    obtain ⟨next, found⟩ := Option.isSome_iff_exists.mp isSome
    obtain ⟨shallow, k, after, at_k, deeper⟩ := find?_drop_iff.mp found
    have first : k ≤ j := by
      apply Nat.le_of_not_lt
      intro late
      exact Nat.lt_irrefl level (deeper j level order late at_j)
    by_cases equal : next = level
    · rw [found, equal]
    · -- Then the way up to the sibling passes the parent's depth, and the sibling hangs below that
      -- frame, which comes behind the place.
      obtain ⟨m, afterK, beforeJ, at_m⟩ : ∃ m, k ≤ m ∧ m ≤ j ∧ depths[m]? = some (level - 1) :=
        passes_depth chain first at_k at_j (by omega) (by omega)
      obtain ⟨last, afterM, parent⟩ := le_ancestor? beforeJ at_m
      have early := ancestor?_le (same.symm.trans parent)
      omega
  · intro found
    obtain ⟨-, j, order, at_j, deeper⟩ := find?_drop_iff.mp found
    refine ⟨j, order, at_j, ancestor?_of_gap (Nat.le_of_lt order) ?_⟩
    intro k after before at_k
    by_cases last : k = j
    · rw [last, at_j, Option.some.injEq] at at_k
      omega
    · have := deeper k (level - 1) after (by omega) at_k
      omega

end Depths

/-! ## Cells and passes -/

namespace Layout

/-- What a connector shows at a level. -/
theorem connector_text (pending : List Nat) (isFirst : Bool) {depth level : Nat}
    (positive : 1 ≤ level) (within : level ≤ depth) :
    (connector pending isFirst depth)[level - 1]?.map Segment.text =
      some (if isFirst = true ∧ level = depth then "+ "
        else if isPending pending level then "| " else "  ") := by
  cases depth with
  | zero => omega
  | succ above =>
    rw [connector]
    by_cases own : level = above + 1
    · subst own
      rw [List.getElem?_append_right (by simp)]
      cases isFirst <;> cases waits : isPending pending (above + 1) <;> simp [ownCell, waits]
    · have before : level - 1 < above := by omega
      have place : level - 1 + 1 = level := by omega
      rw [List.getElem?_append_left (by simpa using before), if_neg (by simp [own])]
      simp [before, place, cell]

theorem line_text {name : String} {kind : Option Kind} {depth : Nat} {pending : List Nat}
    {width l level : Nat} {line : Line}
    (shown : (lines name kind depth pending width)[l]? = some line)
    (positive : 1 ≤ level) (within : level ≤ depth) :
    line.segments[level - 1]?.map Segment.text =
      some (if l = 0 ∧ level = depth then "+ "
        else if isPending pending level then "| " else "  ") := by
  rw [lines, List.getElem?_mapIdx, Option.map_eq_some_iff] at shown
  obtain ⟨chunk, -, rfl⟩ := shown
  have cells := connector_text pending (l == 0) positive within
  have listed : level - 1 < (connector pending (l == 0) depth).length := by
    apply Nat.lt_of_not_le
    intro beyond
    rw [List.getElem?_eq_none beyond] at cells
    contradiction
  rw [List.getElem?_append_left listed, cells]
  simp only [beq_iff_eq]

end Layout

namespace Trace

/-- The type a trace is asked for, if it is not of the whole metaprogram. -/
def subject? : Trace → Option String
  | forward name => some name
  | backward name => some name
  | fullForward => none
  | fullBackward => none

/-- The walks of a trace, each with its visits. -/
def passes (g : Graph) : Trace → Except Fault (List (List Visit))
  | forward name => (lookup g name).map fun id => [visitsFrom g .outgoing id]
  | backward name => (lookup g name).map fun id => [visitsFrom g .incoming id]
  | fullForward => .ok [visitsFrom g .outgoing Graph.root]
  | fullBackward =>
    .ok ((Walk.passes g (.forGraph g)).map fun (id, d) => ((Walk.start id d).run g .incoming).1)

theorem visits_eq_passes (g : Graph) (trace : Trace) :
    trace.visits g = (trace.passes g).map List.flatten := by
  cases trace with
  | forward name =>
    rw [visits, passes]
    cases lookup g name <;> simp [Except.map]
  | backward name =>
    rw [visits, passes]
    cases lookup g name <;> simp [Except.map]
  | fullForward => simp [visits, passes, Except.map]
  | fullBackward =>
    rw [visits, passes, Walk.backwardPasses_eq_flatMap, List.flatMap_def]
    rfl

theorem passes_present {g : Graph} {trace : Trace}
    (present : ∀ name ∈ trace.subject?, name ∈ g.vertices.map Vertex.name) :
    ∃ passes, trace.passes g = .ok passes := by
  have found (name : String) (listed : name ∈ g.vertices.map Vertex.name) :
      ∃ id, lookup g name = .ok id := by
    cases known : g.find? name with
    | some id => exact ⟨id, by rw [lookup, known]⟩
    | none => exact absurd listed (Graph.find?_eq_none_iff.mp known)
  cases trace with
  | forward name =>
    obtain ⟨id, known⟩ := found name (present name rfl)
    exact ⟨_, by rw [passes, known]; rfl⟩
  | backward name =>
    obtain ⟨id, known⟩ := found name (present name rfl)
    exact ⟨_, by rw [passes, known]; rfl⟩
  | fullForward => exact ⟨_, rfl⟩
  | fullBackward => exact ⟨_, rfl⟩

theorem passes_named {g : Graph} {direction : Direction} {name : String}
    {passes : List (List Visit)}
    (h : (lookup g name).map (fun id => [visitsFrom g direction id]) = .ok passes) :
    ∃ id, passes = [visitsFrom g direction id] := by
  cases known : lookup g name with
  | error fault =>
    rw [known] at h
    cases h
  | ok id =>
    rw [known] at h
    cases h
    exact ⟨id, rfl⟩

/-- Each walk of a trace is the whole run from one vertex. -/
theorem run_of_mem_passes {g : Graph} {trace : Trace} {passes : List (List Visit)}
    (h : trace.passes g = .ok passes) {pass : List Visit} (listed : pass ∈ passes) :
    ∃ direction id d, pass = ((Walk.start id d).run g direction).1 := by
  cases trace with
  | forward name =>
    obtain ⟨id, rfl⟩ := passes_named h
    rw [List.mem_singleton.mp listed]
    exact ⟨_, _, _, visitsFrom_eq_run g _ _⟩
  | backward name =>
    obtain ⟨id, rfl⟩ := passes_named h
    rw [List.mem_singleton.mp listed]
    exact ⟨_, _, _, visitsFrom_eq_run g _ _⟩
  | fullForward =>
    cases h
    rw [List.mem_singleton.mp listed]
    exact ⟨_, _, _, visitsFrom_eq_run g _ _⟩
  | fullBackward =>
    cases h
    obtain ⟨⟨id, d⟩, -, rfl⟩ := List.mem_map.mp listed
    exact ⟨.incoming, id, d, rfl⟩

def visitLines (g : Graph) (config : Config) (width : UInt64) (visit : Visit) : List Line :=
  Layout.lines (g.name visit.frame.vertex) visit.frame.kind visit.frame.depth visit.pending
    (config.effectiveWidth width).toNat

end Trace

theorem Recording.segments_received (recording : Recording) (segments : List Segment) :
    (segments.foldl display recording).segments = recording.segments ++ segments := by
  induction segments generalizing recording with
  | nil => simp
  | cons segment rest ih => simp [ih, display]

namespace Walk

/-- The next visit up to a level is at this level exactly if there is a later sibling. -/
theorem next_iff_laterSibling {visits : List Visit}
    (chain : (visits.map fun visit => visit.frame.depth).IsChain fun depth next => next ≤ depth + 1)
    {i level : Nat} (positive : 1 ≤ level) :
    (∃ next, (visits.drop (i + 1)).find? (fun later => later.frame.depth ≤ level) = some next ∧
        next.frame.depth = level) ↔
      Depths.LaterSibling (visits.map fun visit => visit.frame.depth) i level := by
  rw [Depths.laterSibling_iff chain positive, ← List.map_drop, List.find?_map,
    Option.map_eq_some_iff]
  rfl

end Walk

/-- **Connectors are truthful.** What a display receives of a trace is, for each visit in turn, the
lines of its frame, in colour or not, each with a newline behind it. The counts that the lines are
laid out with have frames at a level exactly if the next frame of the same walk that is not deeper
than the level is at the level. So wherever a line has no plus it shows a bar at a level if a later
frame at this level hangs below the same parent, and a blank if none does. -/
theorem displayed_connectors {g : Graph} {trace : Trace}
    (present : ∀ name ∈ trace.subject?, name ∈ g.vertices.map Vertex.name) (config : Config)
    (width : UInt64) :
    ∃ passes, trace.passes g = .ok passes ∧
      trace.frames g = .ok (passes.flatten.map Visit.frame) ∧
      (trace.displayed g config width).2 = .ok () ∧
      ((trace.displayed g config width).1.foldl Recording.display ⟨width, []⟩).segments =
        passes.flatten.flatMap (fun visit =>
          (Trace.visitLines g config width visit).flatMap fun line =>
            line.segments.map (fun segment =>
              ⟨segment.text, if config.color then segment.color else none⟩) ++ [⟨"\n", none⟩]) ∧
      ∀ pass ∈ passes,
        (∃ first rest, pass = first :: rest ∧ first.frame.depth = 0 ∧
          ∀ visit ∈ rest, 0 < visit.frame.depth) ∧
        ∀ i visit, pass[i]? = some visit → ∀ level, 1 ≤ level → level ≤ visit.frame.depth →
          (0 < visit.pending.getD level 0 ↔
            ∃ next, (pass.drop (i + 1)).find? (fun later => later.frame.depth ≤ level) =
              some next ∧ next.frame.depth = level) ∧
          ∀ l line, (Trace.visitLines g config width visit)[l]? = some line →
            ¬ (l = 0 ∧ level = visit.frame.depth) →
            (line.segments[level - 1]?.map Segment.text = some "| " ↔
              Depths.LaterSibling (pass.map fun visit => visit.frame.depth) i level) ∧
            (line.segments[level - 1]?.map Segment.text = some "  " ↔
              ¬ Depths.LaterSibling (pass.map fun visit => visit.frame.depth) i level) := by
  obtain ⟨passes, made⟩ := Trace.passes_present present
  have visits : trace.visits g = .ok passes.flatten := by
    rw [Trace.visits_eq_passes, made]
    rfl
  refine ⟨passes, made, ?_, ?_, ?_, ?_⟩
  · rw [Trace.frames, visits]
    rfl
  · rw [Trace.displayed, visits]
  · rw [Recording.segments_received, Trace.displayed, visits]
    rfl
  · intro pass listed
    obtain ⟨direction, id, d, rfl⟩ := Trace.run_of_mem_passes made listed
    have counted := Walk.counted_start id d
    have chain := Walk.depths_run g direction counted
    constructor
    · obtain ⟨first, rest, ran, top, deep⟩ := Walk.start_run g direction id d
      exact ⟨first, rest, ran, by rw [top], deep⟩
    · intro i visit at_i level positive within
      have next := Walk.truthful_run counted i visit at_i level within
      refine ⟨next, ?_⟩
      intro l line shown plain
      have text := Layout.line_text shown positive within
      rw [if_neg plain] at text
      rw [text, ← Walk.next_iff_laterSibling chain positive, ← next]
      simp [Layout.isPending]

/-- Between the two ways down to the shared vertex, a bar leads on to the second one, and a blank
stands below that one. -/
theorem displayed_connectors_diamond :
    (∀ name ∈ (Trace.forward rootName).subject?,
      name ∈ Graph.diamond.vertices.map Vertex.name) ∧
    (Trace.forward rootName).frames Graph.diamond = .ok [⟨0, 0, none⟩,
      ⟨1, 1, some .templateInstantiation⟩, ⟨3, 2, some .memoization⟩, ⟨2, 1, some .memoization⟩,
      ⟨3, 2, some .templateInstantiation⟩] ∧
    (((Trace.forward rootName).displayed Graph.diamond {} 80).1.foldl Recording.display
        ⟨80, []⟩).text =
      "<root>\n+ A (TemplateInstantiation)\n| + C (Memoization)\n+ B (Memoization)\n" ++
        "  + C (TemplateInstantiation)\n" ∧
    ⟨"| ", some .green⟩ ∈ (((Trace.forward rootName).displayed Graph.diamond {} 80).1.foldl
      Recording.display ⟨80, []⟩).segments ∧
    Depths.LaterSibling [0, 1, 2, 1, 2] 2 1 := by
  have present : ∀ name ∈ (Trace.forward rootName).subject?,
      name ∈ Graph.diamond.vertices.map Vertex.name := by
    intro name subject
    obtain rfl : rootName = name := by simpa [Trace.subject?] using subject
    decide
  obtain ⟨passes, made, frames, -, received, all⟩ := displayed_connectors present {} 80
  have ran : (Trace.forward rootName).passes Graph.diamond =
      .ok [[⟨⟨0, 0, none⟩, [0]⟩, ⟨⟨1, 1, some .templateInstantiation⟩, [0, 1]⟩,
        ⟨⟨3, 2, some .memoization⟩, [0, 1, 0]⟩, ⟨⟨2, 1, some .memoization⟩, [0, 0, 0, 0]⟩,
        ⟨⟨3, 2, some .templateInstantiation⟩, [0, 0, 0, 0]⟩]] := by cbv
  rw [ran] at made
  cases made
  obtain ⟨-, tells⟩ := all _ List.mem_cons_self
  have third := (tells 2 ⟨⟨3, 2, some .memoization⟩, [0, 1, 0]⟩ rfl 1 (by decide) (by decide)).2
    0 ((Trace.visitLines Graph.diamond {} 80 ⟨⟨3, 2, some .memoization⟩, [0, 1, 0]⟩).head
      (by decide +kernel)) (by decide +kernel) (by decide)
  refine ⟨present, frames, ?_, ?_, third.1.mp (by decide +kernel)⟩
  · rw [Recording.text, received]
    decide +kernel
  · rw [received]
    decide +kernel

end TemplateTrace
