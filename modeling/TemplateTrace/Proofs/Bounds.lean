import Mathlib.Algebra.Order.Ring.Nat
import TemplateTrace.Proofs.Tree

/-!
# Walks stay within bounds

The counts of a walk are taken down one by one, in a list that is extended only where a vertex is
expanded. `step?` has no result if a count is missing, or if it would be taken below zero, and
`Counted.step?_eq` says that a walk never comes to such a step.

How deep a walk goes is bounded on cyclic graphs too, since a vertex is expanded once: every frame
hangs below the first frame of a vertex, so the frames above a frame (`ancestors`) are of different
vertices. `visits_within_bounds` puts both together.
-/

namespace TemplateTrace

/-! ## Counting frame by frame -/

namespace Walk

/-- One frame fewer waits at a level. There is no result without a count for the level, or if no
frame waits there. -/
def lower? (pending : List Nat) (level : Nat) : Option (List Nat) :=
  match pending[level]? with
  | some (count + 1) => some (pending.set level count)
  | _ => none

/-- One frame more waits at a level. There is no result without a count for the level. -/
def raise? (pending : List Nat) (level : Nat) : Option (List Nat) :=
  pending[level]?.map fun count => pending.set level (count + 1)

/-- Puts a frame on a stack, and counts it. -/
def push? (waiting : List Frame × List Nat) (frame : Frame) : Option (List Frame × List Nat) :=
  (raise? waiting.2 frame.depth).map fun pending => (frame :: waiting.1, pending)

/-- Visits the frame on top of the stack, with every count looked up before it is changed. The
frames below are put on the stack one at a time, the last one first. -/
def step? (g : Graph) (direction : Direction) (walk : Walk) : Option (Visit × Walk) :=
  match walk.stack with
  | [] => none
  | frame :: rest => do
    let pending ← lower? walk.pending frame.depth
    if walk.discovered.lacks frame.vertex then
      let extended := pending ++ List.replicate (frame.depth + 2 - pending.length) 0
      let waiting ← (below g direction frame).reverse.foldlM push? (rest, extended)
      some (⟨frame, pending⟩, ⟨waiting.1, waiting.2, walk.discovered.mark frame.vertex⟩)
    else
      some (⟨frame, pending⟩, ⟨rest, pending, walk.discovered⟩)

theorem lower?_eq {pending : List Nat} {level : Nat} (waits : 0 < pending.getD level 0) :
    lower? pending level = some (lower pending level) := by
  rw [List.getD_eq_getElem?_getD] at waits
  cases known : pending[level]? with
  | none => simp [known] at waits
  | some count =>
    cases count with
    | zero => simp [known] at waits
    | succ count => simp [lower?, lower, List.modify_eq_set, known]

theorem raise?_eq {pending : List Nat} {level : Nat} (inside : level < pending.length) :
    raise? pending level = some (pending.modify level (· + 1)) := by
  simp [raise?, List.modify_eq_set, inside]

theorem foldlM_push? {frames : List Frame} {level : Nat}
    (deep : ∀ frame ∈ frames, frame.depth = level) (stack : List Frame) {pending : List Nat}
    (inside : level < pending.length) :
    frames.foldlM push? (stack, pending) =
      some (frames.reverse ++ stack, pending.modify level (· + frames.length)) := by
  induction frames generalizing stack pending with
  | nil => exact congrArg (fun counts => some (stack, counts)) (List.modify_id level pending).symm
  | cons frame rest ih =>
    have others : ∀ other ∈ rest, other.depth = level := fun other listed =>
      deep other (List.mem_cons_of_mem _ listed)
    have counted : (pending.modify level (· + 1)).modify level (· + rest.length) =
        pending.modify level (· + (frame :: rest).length) := by
      rw [List.modify_modify_eq]
      congr 1
      funext count
      simp only [Function.comp_apply, List.length_cons]
      omega
    rw [List.foldlM_cons, push?, deep frame List.mem_cons_self, raise?_eq inside]
    simp only [Option.map_some, Option.bind_eq_bind, Option.bind_some]
    rw [ih others (frame :: stack) (by simpa using inside), counted]
    simp

section
variable {g : Graph} {direction : Direction} {walk : Walk}

/-- A frame on the stack is counted. -/
theorem Counted.pos (h : Counted walk) {frame : Frame} (stacked : frame ∈ walk.stack) :
    0 < walk.pending.getD frame.depth 0 := by
  rw [h.counts, List.countP_pos_iff]
  exact ⟨frame, stacked, beq_self_eq_true _⟩

theorem Counted.depth_lt (h : Counted walk) {frame : Frame} (stacked : frame ∈ walk.stack) :
    frame.depth < walk.pending.length := by
  by_contra beyond
  have counted := h.pos stacked
  simp [List.getElem?_eq_none (Nat.le_of_not_lt beyond)] at counted

theorem Counted.steps {last : Walk} {visits : List Visit} (h : Counted walk)
    (steps : Steps g direction walk visits last) : Counted last := by
  induction steps with
  | refl => exact h
  | @head walk next last visit visits step _ ih =>
    obtain ⟨stack, pending, d⟩ := walk
    obtain ⟨frame, rest, rfl, -, ⟨-, rfl⟩ | ⟨-, rfl⟩⟩ := step_cases step
    · exact ih h.expand
    · exact ih h.pass

/-- Where the counts are those of the stack, none is missing when it is looked up. -/
theorem Counted.step?_eq (h : Counted walk) : walk.step? g direction = walk.step g direction := by
  obtain ⟨stack, pending, d⟩ := walk
  cases stack with
  | nil => rfl
  | cons frame rest =>
    have lowered := lower?_eq (h.pos List.mem_cons_self)
    cases lacks : d.lacks frame.vertex with
    | true =>
      have deep : ∀ other ∈ (below g direction frame).reverse, other.depth = frame.depth + 1 :=
        fun other listed => depth_of_mem_below (List.mem_reverse.mp listed)
      have inside : frame.depth + 1 < (lower pending frame.depth ++
          List.replicate (frame.depth + 2 - (lower pending frame.depth).length) 0).length := by
        rw [List.length_append, List.length_replicate]
        omega
      have pushed := foldlM_push? deep rest inside
      rw [List.reverse_reverse, List.length_reverse] at pushed
      rw [step_fresh g direction rest pending lacks]
      simp only [step?, lowered, lacks, if_true, Option.bind_eq_bind, Option.bind_some, pushed]
      rfl
    | false =>
      rw [step_known g direction rest pending lacks]
      simp only [step?, lowered, lacks, Bool.false_eq_true, if_false, Option.bind_eq_bind,
        Option.bind_some]
      rfl

end

end Walk

/-! ## The frames above a frame -/

theorem parent?_depth {frames : List Frame} {place parent : Nat} {frame : Frame}
    (at_place : frames[place]? = some frame) (below : parent? frames place = some parent) :
    ∃ above, frames[parent]? = some above ∧ above.depth + 1 = frame.depth := by
  rw [parent?, at_place, Option.bind_some] at below
  split at below
  · cases below
  · next deep =>
    have found := List.find?_some below
    rw [beq_iff_eq, List.getElem?_map, Option.map_eq_some_iff] at found
    obtain ⟨above, at_parent, depth⟩ := found
    exact ⟨above, at_parent, by omega⟩

theorem parent?_lt {frames : List Frame} {place parent : Nat}
    (below : parent? frames place = some parent) : parent < place := by
  obtain ⟨frame, at_place, found⟩ := Option.bind_eq_some_iff.mp below
  obtain ⟨above, at_parent, depth⟩ := parent?_depth at_place below
  split at found
  · cases found
  · have upto := Depths.ancestor?_le found
    apply Nat.lt_of_le_of_ne upto
    rintro rfl
    rw [at_place] at at_parent
    cases at_parent
    omega

/-- The frames that the frame at a place hangs below, the nearest one first. -/
def ancestors (frames : List Frame) (place : Nat) : List Frame :=
  match _h : parent? frames place with
  | none => []
  | some parent => frames[parent]?.toList ++ ancestors frames parent
termination_by place
decreasing_by exact parent?_lt _h

/-- Every frame with a depth hangs below the first frame of some vertex, by an edge of the graph. -/
def Branching (g : Graph) (direction : Direction) (frames : List Frame) : Prop :=
  ∀ place frame, frames[place]? = some frame → frame.depth ≠ 0 →
    ∃ parent edge, Hangs g direction frames place parent edge ∧ FirstAt frames parent

section
variable {g : Graph} {direction : Direction} {frames : List Frame} {place : Nat}

theorem mem_take_of_mem_ancestors {above : Frame} (listed : above ∈ ancestors frames place) :
    above ∈ frames.take place := by
  fun_induction ancestors frames place with
  | case1 => cases listed
  | case2 place parent below ih =>
    have before := parent?_lt below
    rcases List.mem_append.mp listed with nearest | further
    · apply List.mem_of_getElem? (i := parent)
      rw [List.getElem?_take_of_lt before]
      exact Option.mem_toList.mp nearest
    · exact List.take_subset_take_left frames (Nat.le_of_lt before) (ih further)

variable {frame : Frame}

/-- Above the first frame of a vertex there are other vertices only. -/
theorem FirstAt.not_mem_ancestors (first : FirstAt frames place)
    (at_place : frames[place]? = some frame) :
    frame.vertex ∉ (ancestors frames place).map Frame.vertex := by
  intro again
  obtain ⟨earlier, listed, same⟩ := List.mem_map.mp again
  exact first frame at_place earlier (mem_take_of_mem_ancestors listed) same

theorem Branching.above (h : Branching g direction frames) (at_place : frames[place]? = some frame)
    {parent : Nat} (below : parent? frames place = some parent) :
    ∃ above, frames[parent]? = some above ∧ above.depth + 1 = frame.depth ∧
      FirstAt frames parent ∧ g.Leads direction above.vertex frame.vertex := by
  obtain ⟨above, at_parent, depth⟩ := parent?_depth at_place below
  obtain ⟨other, edge, hangs, first⟩ := h place frame at_place (by omega)
  obtain rfl : other = parent := Option.some.inj (hangs.below.symm.trans below)
  have near := hangs.near
  have arrival := hangs.arrival
  rw [at_parent] at near
  rw [at_place] at arrival
  refine ⟨above, at_parent, depth, first, edge, hangs.listed, ?_, ?_⟩
  · exact (Option.some.inj near).symm
  · exact (congrArg Prod.fst (Option.some.inj arrival)).symm

theorem Branching.length_ancestors (h : Branching g direction frames)
    (at_place : frames[place]? = some frame) :
    (ancestors frames place).length = frame.depth := by
  fun_induction ancestors frames place generalizing frame with
  | case1 place top =>
    by_contra deep
    obtain ⟨parent, edge, hangs, -⟩ := h place frame at_place (Ne.symm deep)
    rw [hangs.below] at top
    cases top
  | case2 place parent below ih =>
    obtain ⟨above, at_parent, depth, -, -⟩ := h.above at_place below
    rw [at_parent, Option.toList_some, List.singleton_append, List.length_cons, ih at_parent, depth]

/-- An edge leads from each frame above a frame to the next one below. -/
theorem Branching.chain_ancestors (h : Branching g direction frames)
    (at_place : frames[place]? = some frame) :
    (frame :: ancestors frames place).IsChain
      fun lower upper => g.Leads direction upper.vertex lower.vertex := by
  fun_induction ancestors frames place generalizing frame with
  | case1 => exact .singleton _
  | case2 place parent below ih =>
    obtain ⟨above, at_parent, -, -, leads⟩ := h.above at_place below
    rw [at_parent]
    exact .cons_cons leads (ih at_parent)

/-- No vertex is twice above a frame: each frame there is the first of its vertex, and comes behind
those further up. -/
theorem Branching.nodup_ancestors (h : Branching g direction frames)
    (at_place : frames[place]? = some frame) :
    ((ancestors frames place).map Frame.vertex).Nodup := by
  fun_induction ancestors frames place generalizing frame with
  | case1 => exact .nil
  | case2 place parent below ih =>
    obtain ⟨above, at_parent, -, first, -⟩ := h.above at_place below
    rw [at_parent, Option.toList_some, List.singleton_append, List.map_cons, List.nodup_cons]
    exact ⟨first.not_mem_ancestors at_parent, ih at_parent⟩

theorem length_le_of_nodup {ids : List Nat} {bound : Nat} (distinct : ids.Nodup)
    (below : ∀ id ∈ ids, id < bound) : ids.length ≤ bound := by
  have among : ids ⊆ List.range bound := fun id listed => List.mem_range.mpr (below id listed)
  have fewer := (List.subperm_of_subset distinct among).length_le
  rwa [List.length_range] at fewer

variable (inside : ∀ frame ∈ frames, frame.vertex < g.vertexCount)
include inside

theorem vertex_lt_of_ancestor {id : Nat} (listed : id ∈ (ancestors frames place).map Frame.vertex) :
    id < g.vertexCount := by
  obtain ⟨above, among, rfl⟩ := List.mem_map.mp listed
  exact inside above (List.mem_of_mem_take (mem_take_of_mem_ancestors among))

theorem Branching.depth_le (h : Branching g direction frames)
    (at_place : frames[place]? = some frame) : frame.depth ≤ g.vertexCount := by
  rw [← h.length_ancestors at_place, ← List.length_map (f := Frame.vertex)]
  apply length_le_of_nodup (h.nodup_ancestors at_place)
  intro id listed
  exact vertex_lt_of_ancestor inside listed

theorem Branching.depth_lt (h : Branching g direction frames)
    (at_place : frames[place]? = some frame) (first : FirstAt frames place) :
    frame.depth < g.vertexCount := by
  have distinct := List.nodup_cons.mpr
    ⟨first.not_mem_ancestors at_place, h.nodup_ancestors at_place⟩
  have bounded : ∀ id ∈ frame.vertex :: (ancestors frames place).map Frame.vertex,
      id < g.vertexCount := by
    intro id listed
    rcases List.mem_cons.mp listed with rfl | listed
    · exact inside frame (List.mem_of_getElem? at_place)
    · exact vertex_lt_of_ancestor inside listed
  have fewer := length_le_of_nodup distinct bounded
  rwa [List.length_cons, List.length_map, h.length_ancestors at_place] at fewer

end

/-! ## Walks and traces -/

namespace Walk

variable {g : Graph}

/-- A walk visits nothing, or its first frame and then links that have their parents at the right
places. -/
theorem placed_visits (h : g.WellFormed) (direction : Direction) (id : Nat) (d : Discovered) :
    (visits g direction id d).1 = [] ∨
      ∃ visited : List Link,
        (visits g direction id d).1.map Visit.frame =
          ⟨id, 0, none⟩ :: visited.map (Link.frame direction) ∧
        Placed g direction [⟨id, 0, none⟩] visited := by
  rw [visits]
  split
  · exact .inl rfl
  · exact .inr (placed_run h direction id d)

theorem vertex_lt_visits (h : g.WellFormed) {direction : Direction} {id : Nat} {d : Discovered}
    (vertex : id < g.vertexCount) :
    ∀ frame ∈ (visits g direction id d).1.map Visit.frame, frame.vertex < g.vertexCount := by
  rcases placed_visits h direction id d with nothing | ⟨visited, frames, placed⟩
  · simp [nothing]
  · rw [frames]
    intro frame listed
    rcases List.mem_cons.mp listed with rfl | listed
    · exact vertex
    · obtain ⟨link, among, rfl⟩ := List.mem_map.mp listed
      obtain ⟨i, at_i⟩ := List.mem_iff_getElem?.mp among
      exact h.far_lt direction (placed i link at_i).listed

theorem branching_visits (h : g.WellFormed) (direction : Direction) (id : Nat) (d : Discovered) :
    Branching g direction ((visits g direction id d).1.map Visit.frame) := by
  rcases placed_visits h direction id d with nothing | ⟨visited, frames, placed⟩
  · intro place frame at_place
    simp [nothing] at at_place
  · rw [frames]
    intro place frame at_place deep
    cases place with
    | zero =>
      cases at_place
      exact absurd rfl deep
    | succ i =>
      rw [List.getElem?_cons_succ, List.getElem?_map, Option.map_eq_some_iff] at at_place
      obtain ⟨link, at_i, -⟩ := at_place
      obtain ⟨hangs, -, first⟩ := placed.hangs at_i
      exact ⟨_, _, hangs, first⟩

theorem mem_backwardPasses {d : Discovered} {visit : Visit} (visited : visit ∈ backwardPasses g d) :
    ∃ id d, id < g.vertexCount ∧ visit ∈ (visits g .incoming id d).1 := by
  fun_induction backwardPasses g d with
  | case1 => cases visited
  | case2 d id found ih =>
    rcases List.mem_append.mp visited with here | later
    · exact ⟨id, d, List.mem_range.mp (List.mem_of_find?_eq_some found), here⟩
    · exact ih later

end Walk

namespace Trace

theorem lookup_lt {g : Graph} (h : g.WellFormed) {name : String} {id : Nat}
    (found : lookup g name = .ok id) : id < g.vertexCount := by
  rw [lookup] at found
  split at found
  · next known =>
    cases found
    exact (h.find?_eq_some_iff.mp known).1
  · cases found

/-- What a trace visits is visited by a walk from some vertex. -/
theorem mem_visits {g : Graph} (h : g.WellFormed) {trace : Trace} {visits : List Visit}
    (made : trace.visits g = .ok visits) {visit : Visit} (visited : visit ∈ visits) :
    ∃ direction id d, id < g.vertexCount ∧ visit ∈ (Walk.visits g direction id d).1 := by
  have named {direction : Direction} {name : String}
      (made : (lookup g name).map (visitsFrom g direction) = .ok visits) :
      ∃ id, id < g.vertexCount ∧ visit ∈ visitsFrom g direction id := by
    cases found : lookup g name with
    | error fault =>
      rw [found] at made
      cases made
    | ok id =>
      rw [found] at made
      cases made
      exact ⟨id, lookup_lt h found, visited⟩
  cases trace with
  | forward name =>
    obtain ⟨id, vertex, visited⟩ := named made
    exact ⟨_, id, _, vertex, visited⟩
  | backward name =>
    obtain ⟨id, vertex, visited⟩ := named made
    exact ⟨_, id, _, vertex, visited⟩
  | fullForward =>
    cases made
    exact ⟨_, _, _, h.root_lt, visited⟩
  | fullBackward =>
    cases made
    obtain ⟨id, d, vertex, visited⟩ := Walk.mem_backwardPasses visited
    exact ⟨_, id, d, vertex, visited⟩

end Trace

/-- **A walk stays within bounds.** In every graph that calls can make, from every vertex, in both
directions and whatever is discovered before: after any number of steps, the counts are those of the
stack, and reach up to all its depths. So the next step finds every count that it looks up, takes
none below zero, and there is such a step as long as a frame is left. All frames visited are of
vertices of the graph. Above a frame there are as many as its depth, each leading to the next one
below by an edge, and no two of the same vertex; so no frame is deeper than there are vertices, and
the first frame of a vertex is less deep. With fewer than `2 ^ 32` vertices, the width of a
connector in any trace fits in 64 bits. -/
theorem visits_within_bounds {g : Graph} (reach : g.Reachable) :
    (∀ direction id d, id < g.vertexCount →
      (∀ visits walk, Walk.Steps g direction (Walk.start id d) visits walk →
        (∀ frame ∈ walk.stack, frame.depth < walk.pending.length) ∧
        (∀ level,
          walk.pending.getD level 0 = walk.stack.countP fun frame => frame.depth == level) ∧
        walk.step? g direction = walk.step g direction ∧
        (walk.stack ≠ [] → (walk.step? g direction).isSome)) ∧
      let frames := (Walk.visits g direction id d).1.map Visit.frame
      ∀ i frame, frames[i]? = some frame →
        frame.vertex < g.vertexCount ∧
        (ancestors frames i).length = frame.depth ∧
        (frame :: ancestors frames i).IsChain
          (fun lower upper => g.Leads direction upper.vertex lower.vertex) ∧
        ((ancestors frames i).map Frame.vertex).Nodup ∧
        frame.depth ≤ g.vertexCount ∧
        (FirstAt frames i → frame.depth < g.vertexCount)) ∧
    (g.vertexCount < 2 ^ 32 → ∀ trace visits, Trace.visits g trace = .ok visits →
      ∀ visit ∈ visits, 2 * visit.frame.depth < 2 ^ 64) := by
  have h := Graph.reachable_wellFormed reach
  refine ⟨?_, ?_⟩
  · intro direction id d vertex
    refine ⟨?_, ?_⟩
    · intro visits walk steps
      have counted := (Walk.counted_start id d).steps steps
      refine ⟨fun frame => counted.depth_lt, counted.counts, counted.step?_eq, ?_⟩
      intro waits
      rw [counted.step?_eq, Option.isSome_iff_ne_none]
      intro stuck
      exact waits (Walk.stack_of_step_none stuck)
    · intro frames i frame at_i
      have inside : ∀ frame ∈ frames, frame.vertex < g.vertexCount :=
        Walk.vertex_lt_visits h vertex
      have branching : Branching g direction frames := Walk.branching_visits h direction id d
      exact ⟨inside frame (List.mem_of_getElem? at_i), branching.length_ancestors at_i,
        branching.chain_ancestors at_i, branching.nodup_ancestors at_i,
        branching.depth_le inside at_i, branching.depth_lt inside at_i⟩
  · intro few trace visits made visit visited
    obtain ⟨direction, id, d, vertex, visited⟩ := Trace.mem_visits h made visited
    have listed := List.mem_map_of_mem (f := Visit.frame) visited
    obtain ⟨i, at_i⟩ := List.mem_iff_getElem?.mp listed
    have deep := (Walk.branching_visits h direction id d).depth_le
      (Walk.vertex_lt_visits h vertex) at_i
    omega

/-- Backward around a cycle with the root discovered before: the frame where the cycle closes has
both its vertices above it. -/
theorem visits_within_bounds_twoWay :
    Graph.twoWay.Reachable ∧ 1 < Graph.twoWay.vertexCount ∧ Graph.twoWay.vertexCount < 2 ^ 32 ∧
    ((Walk.visits Graph.twoWay .incoming 1 ⟨[true, false, false]⟩).1.map Visit.frame)[3]? =
      some ⟨1, 2, some .templateInstantiation⟩ ∧
    (ancestors ((Walk.visits Graph.twoWay .incoming 1 ⟨[true, false, false]⟩).1.map Visit.frame)
      3).length = 2 ∧
    ∀ visit ∈ Trace.visitsFrom Graph.twoWay .outgoing Graph.root,
      2 * visit.frame.depth < 2 ^ 64 := by
  have reach : Graph.twoWay.Reachable := Graph.reachable_calls _
  have vertex : 1 < Graph.twoWay.vertexCount := by decide
  have few : Graph.twoWay.vertexCount < 2 ^ 32 := by decide
  have last : ((Walk.visits Graph.twoWay .incoming 1 ⟨[true, false, false]⟩).1.map
      Visit.frame)[3]? = some ⟨1, 2, some .templateInstantiation⟩ := by cbv
  obtain ⟨walks, narrow⟩ := visits_within_bounds reach
  have bounds := (walks .incoming 1 ⟨[true, false, false]⟩ vertex).2 3 _ last
  exact ⟨reach, vertex, few, last, bounds.2.1, narrow few .fullForward _ rfl⟩

end TemplateTrace
