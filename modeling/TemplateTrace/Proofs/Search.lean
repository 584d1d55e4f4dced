import TemplateTrace.Proofs.Sweep

namespace TemplateTrace

/-- Shows a vertex. If it is not discovered yet, it is marked, and its edges are followed in the
order they were added, each with what the ones before it discovered. There is no result if the
recursion goes deeper than `levels`. -/
def search (g : Graph) (direction : Direction) (levels id depth : Nat) (kind : Option Kind)
    (d : Discovered) : Option (List Frame × Discovered) :=
  match levels with
  | 0 => none
  | levels + 1 =>
    if d.contains id then some ([⟨id, depth, kind⟩], d)
    else
      (g.edges.filter fun edge => direction.near edge == id).foldlM
        (fun so edge => do
          let found ← search g direction levels (direction.far edge) (depth + 1) (some edge.kind)
            so.2
          some (so.1 ++ found.1, found.2))
        ([⟨id, depth, kind⟩], d.mark id)

/-- Searches from the far end of an edge, after what is shown and discovered already. -/
def follow (g : Graph) (direction : Direction) (levels depth : Nat)
    (so : List Frame × Discovered) (edge : Edge) : Option (List Frame × Discovered) := do
  let found ← search g direction levels (direction.far edge) depth (some edge.kind) so.2
  some (so.1 ++ found.1, found.2)

def reached (direction : Direction) (depth : Nat) (edge : Edge) : Frame :=
  ⟨direction.far edge, depth, some edge.kind⟩

theorem Walk.below_eq_reached {g : Graph} (h : g.WellFormed) (direction : Direction)
    (frame : Frame) :
    below g direction frame =
      (g.incident direction frame.vertex).map (reached direction (frame.depth + 1)) := by
  rw [below, h.edgesAt_eq_incident]
  rfl

section
variable (g : Graph) (direction : Direction) (levels : Nat)

theorem search_known {id : Nat} {d : Discovered} (h : d.contains id = true) (depth : Nat)
    (kind : Option Kind) :
    search g direction (levels + 1) id depth kind d = some ([⟨id, depth, kind⟩], d) := by
  rw [search, if_pos h]

theorem search_fresh {id : Nat} {d : Discovered} (h : d.contains id = false) (depth : Nat)
    (kind : Option Kind) :
    search g direction (levels + 1) id depth kind d =
      (g.incident direction id).foldlM (follow g direction levels (depth + 1))
        ([⟨id, depth, kind⟩], d.mark id) := by
  rw [search, if_neg (by simp [h])]
  rfl

end

/-- If each edge is followed to the frames of a sweep, so are all of them in turn. What an edge
discovers leaves fewer to discover for the edges after it, so the levels stay enough. -/
theorem foldlM_follow_eq_sweep {g : Graph} {direction : Direction} {levels depth : Nat}
    (one : ∀ edge ∈ g.edges, ∀ d : Discovered, d.missing < levels →
      d.marks.length = g.vertexCount →
      search g direction levels (direction.far edge) depth (some edge.kind) d =
        some (Walk.sweep g direction [reached direction depth edge] d))
    {edges : List Edge} (own : ∀ edge ∈ edges, edge ∈ g.edges) (shown : List Frame)
    {d : Discovered} (enough : d.missing < levels) (sized : d.marks.length = g.vertexCount) :
    edges.foldlM (follow g direction levels depth) (shown, d) =
      some (shown ++ (Walk.sweep g direction (edges.map (reached direction depth)) d).1,
        (Walk.sweep g direction (edges.map (reached direction depth)) d).2) := by
  induction edges generalizing shown d with
  | nil =>
    rw [List.foldlM_nil, List.map_nil, Walk.sweep_nil, List.append_nil]
    rfl
  | cons edge rest ih =>
    have first := one edge (own edge List.mem_cons_self) d enough sized
    have fewer := Walk.sweep_missing_le g direction [reached direction depth edge] d
    have ownRest : ∀ other ∈ rest, other ∈ g.edges := fun other ho =>
      own other (List.mem_cons_of_mem _ ho)
    have others := ih ownRest (shown ++ (Walk.sweep g direction [reached direction depth edge] d).1)
      (Nat.lt_of_le_of_lt fewer enough) (by simp [sized])
    rw [List.foldlM_cons, follow, List.map_cons, ← List.singleton_append, Walk.sweep_append]
    simp only [first, Option.bind_eq_bind, Option.bind_some, others, List.append_assoc]

/-- Each level down has one more vertex marked, so as many levels as there are vertices to discover
are enough, and one for what is known. -/
theorem search_eq_sweep {g : Graph} (h : g.WellFormed) (direction : Direction) {levels id : Nat}
    (vertex : id < g.vertexCount) (depth : Nat) (kind : Option Kind) {d : Discovered}
    (enough : d.missing < levels) (sized : d.marks.length = g.vertexCount) :
    search g direction levels id depth kind d =
      some (Walk.sweep g direction [⟨id, depth, kind⟩] d) := by
  induction levels generalizing id depth kind d with
  | zero => omega
  | succ levels ih =>
    have lacks := Discovered.lacks_eq (sized ▸ vertex : id < d.marks.length)
    cases known : d.contains id with
    | true =>
      rw [known] at lacks
      rw [search_known g direction levels known, Walk.sweep_known g direction _ lacks,
        Walk.sweep_nil]
    | false =>
      rw [known] at lacks
      have less := Discovered.missing_mark_lt lacks
      have one : ∀ edge ∈ g.edges, ∀ d : Discovered, d.missing < levels →
          d.marks.length = g.vertexCount →
          search g direction levels (direction.far edge) (depth + 1) (some edge.kind) d =
            some (Walk.sweep g direction [reached direction (depth + 1) edge] d) :=
        fun edge he d => ih (h.far_lt direction he) (depth + 1) (some edge.kind)
      have own : ∀ edge ∈ g.incident direction id, edge ∈ g.edges :=
        fun edge he => (List.mem_filter.mp he).1
      rw [search_fresh g direction levels known,
        foldlM_follow_eq_sweep one own [⟨id, depth, kind⟩] (by omega) (by simp [sized]),
        Walk.sweep_fresh g direction _ lacks, Walk.below_eq_reached h, List.append_nil]
      rfl

namespace Walk

/-- A walk that took some steps, one visit each, and came to another. -/
inductive Steps (g : Graph) (direction : Direction) : Walk → List Visit → Walk → Prop
  | refl (walk : Walk) : Steps g direction walk [] walk
  | head {walk next last : Walk} {visit : Visit} {visits : List Visit}
      (step : walk.step g direction = some (visit, next)) :
      Steps g direction next visits last → Steps g direction walk (visit :: visits) last

theorem run_steps (g : Graph) (direction : Direction) (walk : Walk) :
    ∃ last, Steps g direction walk (walk.run g direction).1 last ∧ last.stack = [] ∧
      last.discovered = (walk.run g direction).2 := by
  fun_induction run g direction walk with
  | case1 walk h => exact ⟨walk, .refl walk, stack_of_step_none h, rfl⟩
  | case2 walk visit next h visits discovered rest ih =>
    obtain ⟨last, steps, empty, found⟩ := ih
    rw [rest] at steps found
    exact ⟨last, .head h steps, empty, found⟩

/-- **A walk is a depth-first search.** In every graph that calls can make, from every vertex that
is not discovered yet, in both directions: the steps of the walk end with an empty stack, and the
frames visited and the vertices discovered by then are those of the search by recursion, which comes
to its end within one level more than there are vertices to discover. -/
theorem visits_refine_search {g : Graph} (reach : g.Reachable) (direction : Direction) {id : Nat}
    (vertex : id < g.vertexCount) {d : Discovered} (sized : d.marks.length = g.vertexCount)
    (unknown : d.contains id = false) :
    (∃ last, Steps g direction (start id d) (visits g direction id d).1 last ∧
      last.stack = [] ∧ last.discovered = (visits g direction id d).2) ∧
    ∀ levels, d.missing < levels →
      search g direction levels id 0 none d =
        some ((visits g direction id d).1.map Visit.frame, (visits g direction id d).2) := by
  constructor
  · rw [visits, unknown, if_neg Bool.false_ne_true]
    exact run_steps g direction (start id d)
  · intro levels enough
    rw [visits_eq_sweep g direction unknown]
    exact search_eq_sweep (Graph.reachable_wellFormed reach) direction vertex 0 none enough sized

/-- Backward around a cycle, with the root discovered before. -/
theorem visits_refine_search_twoWay :
    Graph.twoWay.Reachable ∧ 1 < Graph.twoWay.vertexCount ∧
    (Discovered.mk [true, false, false]).marks.length = Graph.twoWay.vertexCount ∧
    (Discovered.mk [true, false, false]).contains 1 = false ∧
    (Discovered.mk [true, false, false]).missing < 3 ∧
    ((visits Graph.twoWay .incoming 1 ⟨[true, false, false]⟩).1.map Visit.frame,
        (visits Graph.twoWay .incoming 1 ⟨[true, false, false]⟩).2) =
      ([⟨1, 0, none⟩, ⟨0, 1, some .memoization⟩, ⟨2, 1, some .memoization⟩,
        ⟨1, 2, some .templateInstantiation⟩], ⟨[true, true, true]⟩) := by
  have reach : Graph.twoWay.Reachable := Graph.reachable_calls _
  have vertex : 1 < Graph.twoWay.vertexCount := by decide
  have sized : (Discovered.mk [true, false, false]).marks.length = Graph.twoWay.vertexCount := by
    decide
  have unknown : (Discovered.mk [true, false, false]).contains 1 = false := by decide
  have enough : (Discovered.mk [true, false, false]).missing < 3 := by decide
  have searched : search Graph.twoWay .incoming 3 1 0 none ⟨[true, false, false]⟩ =
      some ([⟨1, 0, none⟩, ⟨0, 1, some .memoization⟩, ⟨2, 1, some .memoization⟩,
        ⟨1, 2, some .templateInstantiation⟩], ⟨[true, true, true]⟩) := by decide
  rw [(visits_refine_search reach .incoming vertex sized unknown).2 3 enough] at searched
  exact ⟨reach, vertex, sized, unknown, enough, Option.some.inj searched⟩

end Walk

end TemplateTrace
