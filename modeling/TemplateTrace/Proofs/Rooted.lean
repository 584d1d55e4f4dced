import TemplateTrace.CommandLine.Run
import TemplateTrace.Proofs.Duality
import TemplateTrace.Proofs.Lockstep

/-!
# Replayed graphs are walked completely

Whatever is entered is joined to what is open, and all that is open can be reached from the root. So
replay, which may merge names and cross paths in any way, never leaves a vertex apart: `Rooted` is
what every event keeps.

From the root a walk then expands every vertex, and follows every edge once: a full forward trace
has one frame more than there are edges (`length_fullForwardFrames`), and stepping to the end takes
as many steps.
-/

namespace TemplateTrace

namespace Graph

/-- A path leads from the root to every vertex. -/
def Rooted (g : Graph) : Prop := ∀ id, id < g.vertexCount → g.Path root id

theorem Extends.path {later earlier : Graph} (h : later.Extends earlier) {u v : Nat}
    (path : earlier.Path u v) : later.Path u v := by
  induction path with
  | refl => exact .refl
  | tail _ leads ih =>
    obtain ⟨edge, listed, ends⟩ := leads
    exact ih.tail ⟨edge, h.edges.subset listed, ends⟩

/-- A graph stays rooted when it grows by one vertex that is joined to an old one. -/
theorem Rooted.extend {later earlier : Graph} (rooted : earlier.Rooted)
    (grown : later.Extends earlier) {parent id : Nat} (held : parent < earlier.vertexCount)
    (joined : later.Joined parent id)
    (only : ∀ other, other < later.vertexCount → other < earlier.vertexCount ∨ other = id) :
    later.Rooted := by
  intro other bound
  rcases only other bound with old | rfl
  · exact grown.path (rooted other old)
  · have above := grown.path (rooted parent held)
    exact above.tail joined

theorem WellFormed.path_lt {g : Graph} (h : g.WellFormed) {u v : Nat} (path : g.Path u v)
    (bound : u < g.vertexCount) : v < g.vertexCount := by
  cases path with
  | refl => exact bound
  | tail _ leads =>
    obtain ⟨edge, listed, -, rfl⟩ := leads
    exact h.far_lt .outgoing listed

/-- A vertex is found or appended; nothing else is new. -/
theorem WellFormed.addVertex_bounds {g grown : Graph} (h : g.WellFormed) {name : String}
    {location : Option Location} {id : Nat} (added : g.addVertex name location = (id, grown)) :
    id < grown.vertexCount ∧
      ∀ other, other < grown.vertexCount → other < g.vertexCount ∨ other = id := by
  have step := h.outcome (.addVertex name location)
  rw [answer, after, added] at step
  cases step with
  | known _ named =>
    constructor
    · exact (names_iff.mp named).1
    · exact fun other bound => .inl bound
  | added =>
    simp only [vertexCount, List.length_append, List.length_singleton]
    constructor
    · omega
    · intro other bound
      omega

theorem eq_of_addEdge {g joined : Graph} {source target number : Nat} {kind : Kind}
    (added : g.addEdge source target kind = .ok (number, joined)) :
    joined = { g with edges := g.edges ++ [⟨g.edgeCount, source, target, kind⟩] } := by
  unfold addEdge at added
  split at added
  · cases added
  split at added
  · cases added
  split at added
  · cases added
  · cases added
    rfl

end Graph

namespace Replay

/-- A replay whose open vertices exist and whose graph is rooted. -/
structure Rooted (replay : Replay) : Prop where
  reach : replay.graph.Reachable
  inside : ∀ id ∈ replay.opened, id < replay.graph.vertexCount
  rooted : replay.graph.Rooted

theorem rooted_start : Rooted start where
  reach := .start
  inside := by simp [start, Graph.root, Graph.vertexCount, Graph.empty]
  rooted := by
    intro id bound
    obtain rfl : id = Graph.root := Nat.lt_one_iff.mp bound
    exact .refl

/-- What entering a name comes to if there is no fault: some calls leave the vertex of the name
joined to the innermost open one, and no other vertex is new. -/
theorem enter_joins {replay next : Replay} (sound : replay.graph.WellFormed) {name : String}
    {kind : Kind} {location : Option Location}
    (entered : replay.enter name kind location = (.ok (), next)) :
    ∃ parent id calls, replay.opened.head? = some parent ∧ next.opened = id :: replay.opened ∧
      next.graph = List.foldl Graph.after replay.graph calls ∧
      next.graph.Joined parent id ∧ id < next.graph.vertexCount ∧
      ∀ other, other < next.graph.vertexCount → other < replay.graph.vertexCount ∨ other = id := by
  unfold enter at entered
  split at entered
  · cases entered
  next parent rest listed =>
  cases added : replay.graph.addVertex name location with
  | mk id grown =>
    have first : replay.opened.head? = some parent := by rw [listed]; rfl
    have grew : grown = replay.graph.after (.addVertex name location) := by
      rw [Graph.after, added]
    obtain ⟨bound, only⟩ := sound.addVertex_bounds added
    rw [added] at entered
    dsimp only at entered
    split at entered
    next has =>
      cases entered
      exact ⟨parent, id, [.addVertex name location], first, rfl, grew, Graph.hasEdge_iff.mp has,
        bound, only⟩
    next =>
      split at entered
      next number joined edge =>
        cases entered
        have later : joined = grown.after (.addEdge parent id kind) := by
          rw [Graph.after, edge]
        refine ⟨parent, id, [.addVertex name location, .addEdge parent id kind], first, rfl, ?_⟩
        refine ⟨by rw [later, grew]; rfl, ?_⟩
        rw [Graph.eq_of_addEdge edge]
        exact ⟨⟨_, List.mem_append_right _ (List.mem_singleton_self _), rfl, rfl⟩, bound, only⟩
      next => cases entered

theorem leave_cases {replay next : Replay} (left : replay.leave = (.ok (), next)) :
    next.graph = replay.graph ∧ ∀ id ∈ next.opened, id ∈ replay.opened := by
  unfold leave at left
  split at left
  next innermost outer rest listed =>
    cases left
    rw [listed]
    exact ⟨rfl, fun id => List.mem_cons_of_mem innermost⟩
  next => cases left

theorem Rooted.enter {replay next : Replay} (h : replay.Rooted) {name : String} {kind : Kind}
    {location : Option Location} (entered : replay.enter name kind location = (.ok (), next)) :
    next.Rooted := by
  have sound := Graph.reachable_wellFormed h.reach
  obtain ⟨parent, id, calls, first, opened, made, joined, bound, only⟩ := enter_joins sound entered
  have grown : next.graph.Extends replay.graph := made ▸ Graph.run_extends sound calls
  constructor
  · rw [made]
    exact h.reach.run calls
  · intro other stacked
    rw [opened] at stacked
    rcases List.mem_cons.mp stacked with rfl | stacked
    · exact bound
    · exact Nat.lt_of_lt_of_le (h.inside other stacked) grown.vertices.length_le
  · exact h.rooted.extend grown (h.inside parent (List.mem_of_mem_head? first)) joined only

theorem Rooted.leave {replay next : Replay} (h : replay.Rooted)
    (left : replay.leave = (.ok (), next)) : next.Rooted := by
  obtain ⟨same, fewer⟩ := leave_cases left
  constructor
  · rw [same]
    exact h.reach
  · intro id stacked
    rw [same]
    exact h.inside id (fewer id stacked)
  · rw [same]
    exact h.rooted

theorem Rooted.apply {replay next : Replay} (h : replay.Rooted) {event : Event}
    (applied : replay.apply event = (.ok (), next)) : next.Rooted := by
  cases event with
  | enter name kind location => exact h.enter applied
  | leave => exact h.leave applied

theorem Rooted.run {replay last : Replay} (h : replay.Rooted) {events : List Event}
    (ran : replay.run events = .ok last) : last.Rooted := by
  induction events generalizing replay with
  | nil =>
    cases ran
    exact h
  | cons event rest ih =>
    unfold Replay.run at ran
    split at ran
    next next applied => exact ih (h.apply applied) ran
    next => cases ran

end Replay

/-- The graph of a report can be made by calls, and is rooted. -/
theorem Graph.rooted_ofEvents {events : List Event} {g : Graph} (made : ofEvents events = .ok g) :
    g.Reachable ∧ g.Rooted := by
  unfold ofEvents at made
  cases ran : Replay.start.run events with
  | error fault =>
    rw [ran] at made
    cases made
  | ok last =>
    rw [ran] at made
    cases made
    have rooted := Replay.rooted_start.run ran
    exact ⟨rooted.reach, rooted.rooted⟩

section
variable {g : Graph} (h : g.WellFormed) (rooted : g.Rooted)
include h rooted

theorem Trace.mem_fullForwardFrames {id : Nat} :
    id ∈ (fullForwardFrames g).map Frame.vertex ↔ id < g.vertexCount := by
  rw [fullForwardFrames, mem_frames_iff h h.root_lt]
  constructor
  · intro path
    exact h.path_lt path h.root_lt
  · exact rooted id

/-- The edges at the vertices that a walk from the root expands are all edges, each once. -/
theorem Walk.walked_perm :
    (((start Graph.root (.forGraph g)).expanded g .outgoing).flatMap (g.incident .outgoing)).Perm
      g.edges := by
  have distinct : ((start Graph.root (.forGraph g)).expanded g .outgoing).Nodup :=
    nodup_expanded _
  have once := h.nodup_flatMap_incident .outgoing distinct
  apply (List.perm_ext_iff_of_nodup once (List.Nodup.of_map _ h.single)).mpr
  intro edge
  rw [List.mem_flatMap]
  constructor
  · rintro ⟨id, -, atId⟩
    exact (Graph.mem_incident.mp atId).1
  · intro listed
    have reached := rooted edge.source (h.ends edge listed).1
    exact ⟨edge.source, (mem_expanded_iff h h.root_lt).mpr reached,
      Graph.mem_incident.mpr ⟨listed, rfl⟩⟩

/-- One frame is where a full forward trace starts; every other comes by an edge of its own. -/
theorem Trace.length_fullForwardFrames : (fullForwardFrames g).length = 1 + g.edgeCount := by
  have starts : ((fullForwardFrames g).filter fun frame => frame.depth == 0).length = 1 := by
    rw [fullForwardFrames, visitsFrom_eq_run, Walk.starts_run]
    rfl
  have others : ((fullForwardFrames g).filter fun frame => frame.depth != 0).length =
      g.edgeCount := by
    have arrivals := (@Walk.arrivals_perm g .outgoing h
      (Walk.start Graph.root (.forGraph g))).length_eq
    have edges := (Walk.walked_perm h rooted).length_eq
    rw [List.length_map, List.length_append, List.length_map, List.length_map, edges] at arrivals
    rw [fullForwardFrames, visitsFrom_eq_run, arrivals]
    exact Nat.zero_add _
  have both := List.length_eq_length_filter_add (l := fullForwardFrames g)
    (fun frame => frame.depth == 0)
  exact both.trans (congrArg₂ (· + ·) starts others)

theorem Session.run_start :
    ∃ last, (start g).run g = (1 + g.edgeCount, last) ∧ last.discovered.size = g.vertexCount := by
  have ran : (start g).run g = _ := run_paused h (Nat.zero_le _)
  rw [Nat.sub_zero, Trace.length_fullForwardFrames h rooted] at ran
  refine ⟨_, ran, ?_⟩
  have within : 1 + g.edgeCount ≤ (Trace.fullForwardFrames g).length :=
    Nat.le_of_eq (Trace.length_fullForwardFrames h rooted).symm
  have all : ((Trace.fullForwardFrames g).map Frame.vertex).toFinset =
      Finset.range g.vertexCount := by
    ext id
    rw [List.mem_toFinset, Finset.mem_range]
    exact Trace.mem_fullForwardFrames h rooted
  rw [size_discovered_paused h within, ← Trace.length_fullForwardFrames h rooted, List.take_length,
    all, Finset.card_range]

end

/-- **A replayed metaprogram is always walked completely.** Whatever graph a report leads to, every
vertex can be reached from the root; the full forward trace shows every vertex, in one frame more
than there are edges; and a session that runs to the end takes as many steps, discovers every vertex
and tells this number, in green where colour is on. -/
theorem ofEvents_walked {events : List Event} {g : Graph} (made : Graph.ofEvents events = .ok g) :
    (∀ id, id < g.vertexCount → g.Path Graph.root id) ∧
    (∀ id, id < g.vertexCount → id ∈ (Trace.fullForwardFrames g).map Frame.vertex) ∧
    (Trace.fullForwardFrames g).length = 1 + g.edgeCount ∧
    (∃ last, (Session.start g).run g = (1 + g.edgeCount, last) ∧
      last.discovered.size = g.vertexCount) ∧
    ∀ config width, CommandLine.perform g config width .finish =
      .done { exit := 0, shown :=
        [⟨"Metaprogram finished after " ++ toString (1 + g.edgeCount) ++ " steps\n",
          if config.color then some .green else none⟩] } := by
  obtain ⟨reach, rooted⟩ := Graph.rooted_ofEvents made
  have h := Graph.reachable_wellFormed reach
  refine ⟨rooted, ?_, Trace.length_fullForwardFrames h rooted, Session.run_start h rooted, ?_⟩
  · intro id bound
    exact (Trace.mem_fullForwardFrames h rooted).mpr bound
  · intro config width
    obtain ⟨last, ran, -⟩ := Session.run_start h rooted
    simp only [CommandLine.perform, ran, CommandLine.finished, Segment.tinted]

/-- A vertex that two others share, a cycle through the root, and instantiations left open. -/
theorem ofEvents_walked_open :
    ∃ g, Graph.ofEvents [.enter "A" .templateInstantiation none, .enter "C" .memoization none,
        .leave, .leave, .enter "B" .templateInstantiation none, .enter "C" .memoization none,
        .enter rootName .memoization none] = .ok g ∧
      g.vertexCount = 4 ∧ g.edgeCount = 5 ∧ (Trace.fullForwardFrames g).length = 6 ∧
      (∃ last, (Session.start g).run g = (6, last) ∧ last.discovered.size = 4) ∧
      ∀ width,
        CommandLine.perform g { color := true } width .finish =
          .done { exit := 0, shown := [⟨"Metaprogram finished after 6 steps\n", some .green⟩] } ∧
        CommandLine.perform g { color := false } width .finish =
          .done { exit := 0, shown := [⟨"Metaprogram finished after 6 steps\n", none⟩] } := by
  have made : Graph.ofEvents [.enter "A" .templateInstantiation none,
      .enter "C" .memoization none, .leave, .leave, .enter "B" .templateInstantiation none,
      .enter "C" .memoization none, .enter rootName .memoization none] =
    .ok ⟨[⟨rootName, none⟩, ⟨"A", none⟩, ⟨"C", none⟩, ⟨"B", none⟩],
      [⟨0, 0, 1, .templateInstantiation⟩, ⟨1, 1, 2, .memoization⟩,
        ⟨2, 0, 3, .templateInstantiation⟩, ⟨3, 3, 2, .memoization⟩, ⟨4, 2, 0, .memoization⟩]⟩ := rfl
  obtain ⟨-, -, frames, ran, told⟩ := ofEvents_walked made
  exact ⟨_, made, rfl, rfl, frames, ran, fun width => ⟨told _ width, told _ width⟩⟩

end TemplateTrace
