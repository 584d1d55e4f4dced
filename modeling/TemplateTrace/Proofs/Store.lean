import Mathlib.Data.List.Induction
import TemplateTrace.Proofs.Reachable

/-!
# Graphs as a store

What can be relied on while a graph is filled by calls, refused ones among them. `Outcome` lists all
that a call can answer and leave behind, and `outcome` says that every call has one of these. What
is recorded stays (`Extends`), and each vertex and edge goes back to the call that recorded it
(`Recorded`).

A store that looks names up in an index of its own (`Indexed`) stays in step with the graph:
the index finds exactly what a search through the vertices finds.
-/

namespace TemplateTrace

namespace Graph

/-- What a call answers: the number of the vertex or of the new edge, or why it is refused. -/
def answer (g : Graph) : Call → Except Fault Nat
  | .addVertex name location => .ok (g.addVertex name location).1
  | .addEdge source target kind => (g.addEdge source target kind).map Prod.fst

/-- The graph that calls make of the empty one. -/
def made (calls : List Call) : Graph := calls.foldl after .empty

theorem made_append (calls more : List Call) :
    made (calls ++ more) = more.foldl after (made calls) := by
  simp [made]

def Holds (g : Graph) (id : Nat) : Prop := ∃ vertex, g.vertex? id = some vertex

def Joined (g : Graph) (source target : Nat) : Prop :=
  ∃ edge ∈ g.edges, edge.source = source ∧ edge.target = target

def Names (g : Graph) (id : Nat) (name : String) : Prop :=
  ∃ vertex, g.vertex? id = some vertex ∧ vertex.name = name

theorem holds_iff {g : Graph} {id : Nat} : g.Holds id ↔ id < g.vertexCount := by
  rw [Holds, ← Option.isSome_iff_exists]
  simp [vertex?, vertexCount]

theorem hasEdge_iff {g : Graph} {source target : Nat} :
    g.hasEdge source target = true ↔ g.Joined source target := by
  simp [hasEdge, Joined]

theorem names_iff {g : Graph} {id : Nat} {name : String} :
    g.Names id name ↔ id < g.vertexCount ∧ g.name id = name := by
  constructor
  · rintro ⟨vertex, found, rfl⟩
    exact ⟨holds_iff.mp ⟨vertex, found⟩, by simp [Graph.name, found]⟩
  · rintro ⟨bound, rfl⟩
    obtain ⟨vertex, found⟩ := holds_iff.mpr bound
    exact ⟨vertex, found, by simp [Graph.name, found]⟩

theorem WellFormed.find?_iff {g : Graph} (h : g.WellFormed) {name : String} {id : Nat} :
    g.find? name = some id ↔ g.Names id name :=
  h.find?_eq_some_iff.trans names_iff.symm

theorem WellFormed.absent_iff {g : Graph} (h : g.WellFormed) {name : String} :
    g.find? name = none ↔ ∀ id, ¬ g.Names id name := by
  constructor
  · intro absent id named
    rw [← h.find?_iff, absent] at named
    exact Option.some_ne_none id named.symm
  · intro unnamed
    exact Option.eq_none_iff_forall_ne_some.mpr fun id found => unnamed id (h.find?_iff.mp found)

theorem find?_concat {g : Graph} {name : String} (absent : g.find? name = none)
    (location : Option Location) (other : String) :
    Graph.find? { g with vertices := g.vertices ++ [⟨name, location⟩] } other =
      if other = name then some g.vertexCount else g.find? other := by
  by_cases same : other = name
  · subst same
    rw [find?, List.findIdx?_append]
    rw [find?] at absent
    simp [absent, vertexCount]
  · have last : name ≠ other := fun h => same h.symm
    rw [find?, List.findIdx?_append]
    simp [same, last, find?]

theorem vertices_addEdge (g : Graph) (source target : Nat) (kind : Kind) :
    (g.after (.addEdge source target kind)).vertices = g.vertices := by
  rw [after, addEdge]
  split_ifs <;> rfl

/-- All that a call can do to a graph: what it answers and the graph it leaves. -/
inductive Outcome (g : Graph) : Call → Except Fault Nat → Graph → Prop
  | known {name : String} {id : Nat} (location : Option Location) :
    g.Names id name → Outcome g (.addVertex name location) (.ok id) g
  | added {name : String} (location : Option Location) :
    (∀ id, ¬ g.Names id name) →
    Outcome g (.addVertex name location) (.ok g.vertexCount)
      { g with vertices := g.vertices ++ [⟨name, location⟩] }
  | sourceless {source : Nat} (target : Nat) (kind : Kind) :
    ¬ g.Holds source →
    Outcome g (.addEdge source target kind) (.error (.vertexNotFound source)) g
  | targetless {source target : Nat} (kind : Kind) :
    g.Holds source → ¬ g.Holds target →
    Outcome g (.addEdge source target kind) (.error (.vertexNotFound target)) g
  | repeated {source target : Nat} (kind : Kind) :
    g.Holds source → g.Holds target → g.Joined source target →
    Outcome g (.addEdge source target kind) (.error (.duplicateEdge source target)) g
  | joined {source target : Nat} (kind : Kind) :
    g.Holds source → g.Holds target → ¬ g.Joined source target →
    Outcome g (.addEdge source target kind) (.ok g.edgeCount)
      { g with edges := g.edges ++ [⟨g.edgeCount, source, target, kind⟩] }

theorem WellFormed.outcome {g : Graph} (h : g.WellFormed) (call : Call) :
    g.Outcome call (g.answer call) (g.after call) := by
  cases call with
  | addVertex name location =>
    cases found : g.find? name with
    | some id =>
      simp only [answer, after, addVertex, found]
      exact .known location (h.find?_iff.mp found)
    | none =>
      simp only [answer, after, addVertex, found]
      exact .added location (h.absent_iff.mp found)
  | addEdge source target kind =>
    simp only [answer, after, addEdge]
    by_cases hs : g.vertexCount ≤ source
    · simp only [hs, ↓reduceIte]
      exact .sourceless target kind fun held => by have := holds_iff.mp held; omega
    have sourceHeld : g.Holds source := holds_iff.mpr (by omega)
    by_cases ht : g.vertexCount ≤ target
    · simp only [hs, ht, ↓reduceIte]
      exact .targetless kind sourceHeld fun held => by have := holds_iff.mp held; omega
    have targetHeld : g.Holds target := holds_iff.mpr (by omega)
    by_cases pair : g.hasEdge source target = true
    · simp only [hs, ht, pair, ↓reduceIte]
      exact .repeated kind sourceHeld targetHeld (hasEdge_iff.mp pair)
    · simp only [hs, ht, pair, ↓reduceIte]
      exact .joined kind sourceHeld targetHeld fun linked => pair (hasEdge_iff.mpr linked)

theorem answer_addEdge_error {g : Graph} {source target : Nat} {kind : Kind} {fault : Fault} :
    g.answer (.addEdge source target kind) = .error fault ↔
      g.addEdge source target kind = .error fault := by
  rw [answer]
  cases g.addEdge source target kind <;> simp [Except.map]

/-- An edge is refused for the first of three reasons that holds. -/
theorem WellFormed.addEdge_error_iff {g : Graph} (h : g.WellFormed) {source target : Nat}
    {kind : Kind} {fault : Fault} :
    g.addEdge source target kind = .error fault ↔
      ¬ g.Holds source ∧ fault = .vertexNotFound source ∨
      g.Holds source ∧ ¬ g.Holds target ∧ fault = .vertexNotFound target ∨
      g.Holds source ∧ g.Holds target ∧ g.Joined source target ∧
        fault = .duplicateEdge source target := by
  rw [← answer_addEdge_error]
  have step := h.outcome (.addEdge source target kind)
  generalize g.answer (.addEdge source target kind) = answered at step ⊢
  generalize g.after (.addEdge source target kind) = later at step
  cases step with
  | sourceless _ _ lacking => simp [lacking, eq_comm]
  | targetless _ held lacking => simp [held, lacking, eq_comm]
  | repeated _ held held' linked => simp [held, held', linked, eq_comm]
  | joined _ held held' apart => simp [held, held', apart]

theorem WellFormed.addVertex_known {g : Graph} (h : g.WellFormed) {name : String} {id : Nat}
    (named : g.Names id name) (location : Option Location) :
    g.addVertex name location = (id, g) := by
  rw [addVertex, h.find?_iff.mpr named]

/-- A later graph has all that an earlier one has, under the same numbers and in front. -/
structure Extends (later earlier : Graph) : Prop where
  vertices : earlier.vertices <+: later.vertices
  edges : earlier.edges <+: later.edges

theorem Extends.refl (g : Graph) : g.Extends g := ⟨List.prefix_rfl, List.prefix_rfl⟩

theorem Extends.trans {a b c : Graph} (h : b.Extends a) (h' : c.Extends b) : c.Extends a :=
  ⟨h.vertices.trans h'.vertices, h.edges.trans h'.edges⟩

theorem Extends.vertex? {later earlier : Graph} (h : later.Extends earlier) {id : Nat}
    {vertex : Vertex} (found : earlier.vertex? id = some vertex) :
    later.vertex? id = some vertex := by
  obtain ⟨more, grown⟩ := h.vertices
  obtain ⟨bound, -⟩ := List.getElem?_eq_some_iff.mp found
  rw [Graph.vertex?, ← grown, List.getElem?_append_left bound]
  exact found

theorem Outcome.extends {g later : Graph} {call : Call} {answered : Except Fault Nat}
    (h : g.Outcome call answered later) : later.Extends g := by
  cases h with
  | added => exact ⟨List.prefix_append _ _, List.prefix_rfl⟩
  | joined => exact ⟨List.prefix_rfl, List.prefix_append _ _⟩
  | known | sourceless | targetless | repeated => exact .refl g

theorem Outcome.unchanged {g later : Graph} {call : Call} {fault : Fault}
    (h : g.Outcome call (.error fault) later) : later = g := by
  cases h <;> rfl

theorem run_extends {g : Graph} (h : g.WellFormed) (more : List Call) :
    (more.foldl after g).Extends g := by
  induction more generalizing g with
  | nil => exact .refl g
  | cons call rest ih => exact (h.outcome call).extends.trans (ih (after_wellFormed h call))

/-- Each vertex but the root, and each edge, was recorded by a call of its own. There were then as
many vertices, or edges, as its number says, and none yet of its name, or between its ends. -/
structure Recorded (calls : List Call) (g : Graph) : Prop where
  vertex : ∀ id vertex, g.vertex? id = some vertex → id ≠ root →
    ∃ before rest, calls = before ++ .addVertex vertex.name vertex.location :: rest ∧
      (made before).vertexCount = id ∧ ∀ other, ¬ (made before).Names other vertex.name
  edge : ∀ edge ∈ g.edges,
    ∃ before rest, calls = before ++ .addEdge edge.source edge.target edge.kind :: rest ∧
      (made before).edgeCount = edge.id ∧ ¬ (made before).Joined edge.source edge.target

theorem Recorded.empty : Recorded [] .empty where
  vertex := by
    intro id vertex found other
    have bound := holds_iff.mp ⟨vertex, found⟩
    simp only [Graph.empty, vertexCount, List.length_singleton] at bound
    exact absurd (Nat.lt_one_iff.mp bound) other
  edge := by simp [Graph.empty]

theorem Recorded.later {calls : List Call} {g : Graph} (h : Recorded calls g) (call : Call) :
    Recorded (calls ++ [call]) g where
  vertex := by
    intro id vertex found other
    obtain ⟨before, rest, rfl, place⟩ := h.vertex id vertex found other
    exact ⟨before, rest ++ [call], by simp, place⟩
  edge := by
    intro edge listed
    obtain ⟨before, rest, rfl, place⟩ := h.edge edge listed
    exact ⟨before, rest ++ [call], by simp, place⟩

theorem Recorded.outcome {calls : List Call} {call : Call} {answered : Except Fault Nat}
    {later : Graph} (h : Recorded calls (made calls))
    (step : (made calls).Outcome call answered later) : Recorded (calls ++ [call]) later := by
  have kept := h.later call
  cases step with
  | added location fresh =>
    refine ⟨?_, kept.edge⟩
    intro id vertex found other
    rw [vertex?, List.getElem?_append] at found
    split at found
    next bound => exact kept.vertex id vertex found other
    next bound =>
      -- The number is past the old vertices, so it is the one just given.
      obtain ⟨position, last⟩ := List.getElem?_eq_some_iff.mp found
      simp only [List.length_singleton] at position
      simp only [List.getElem_singleton] at last
      subst last
      exact ⟨calls, [], rfl, by simp only [vertexCount]; omega, fresh⟩
  | joined kind _ _ apart =>
    refine ⟨kept.vertex, ?_⟩
    intro edge listed
    rcases List.mem_append.mp listed with listed | listed
    · exact kept.edge edge listed
    · obtain rfl := List.mem_singleton.mp listed
      exact ⟨calls, [], rfl, rfl, apart⟩
  | known | sourceless | targetless | repeated => exact kept

theorem made_wellFormed (calls : List Call) : (made calls).WellFormed :=
  reachable_wellFormed (reachable_calls calls)

theorem made_recorded (calls : List Call) : Recorded calls (made calls) := by
  induction calls using List.reverseRecOn with
  | nil => exact Recorded.empty
  | append_singleton calls call ih =>
    rw [made_append]
    exact ih.outcome ((made_wellFormed calls).outcome call)

end Graph

/-- A graph beside an index of its names. -/
structure Indexed where
  graph : Graph
  index : List (String × Nat)

namespace Indexed

/-- A name is looked up in the index alone, and a new one is entered in both. -/
def addVertex (s : Indexed) (name : String) (location : Option Location) : Nat × Indexed :=
  match s.index.lookup name with
  | some id => (id, s)
  | none =>
    (s.graph.vertexCount,
      ⟨{ s.graph with vertices := s.graph.vertices ++ [⟨name, location⟩] },
        (name, s.graph.vertexCount) :: s.index⟩)

/-- The root is added to a store that is empty throughout. -/
def empty : Indexed := (addVertex ⟨⟨[], []⟩, []⟩ rootName none).2

def answer (s : Indexed) : Call → Except Fault Nat
  | .addVertex name location => .ok (s.addVertex name location).1
  | .addEdge source target kind => s.graph.answer (.addEdge source target kind)

def after (s : Indexed) : Call → Indexed
  | .addVertex name location => (s.addVertex name location).2
  | .addEdge source target kind => { s with graph := s.graph.after (.addEdge source target kind) }

/-- The index agrees with a search through the vertices. -/
def InStep (s : Indexed) (g : Graph) : Prop :=
  s.graph = g ∧ ∀ name, s.index.lookup name = g.find? name

theorem lookup_cons_of_ne {name other : String} (ne : name ≠ other) (id : Nat)
    (index : List (String × Nat)) :
    List.lookup name ((other, id) :: index) = index.lookup name := by
  simp [List.lookup_cons, beq_false_of_ne ne]

theorem inStep_empty : InStep empty .empty := by
  refine ⟨rfl, fun name => ?_⟩
  by_cases same : name = rootName
  · subst same; rfl
  · have other : rootName ≠ name := fun h => same h.symm
    rw [empty, addVertex, List.lookup_nil]
    simp [lookup_cons_of_ne same, Graph.find?, Graph.empty, other]

theorem InStep.step {s : Indexed} {g : Graph} (h : s.InStep g) (call : Call) :
    s.answer call = g.answer call ∧ (s.after call).InStep (g.after call) := by
  obtain ⟨rfl, agree⟩ := h
  cases call with
  | addVertex name location =>
    simp only [answer, after, Graph.answer, Graph.after, addVertex, Graph.addVertex, agree]
    cases found : s.graph.find? name with
    | some id => exact ⟨rfl, rfl, agree⟩
    | none =>
      refine ⟨rfl, rfl, fun other => ?_⟩
      rw [Graph.find?_concat found]
      by_cases same : other = name
      · subst same
        simp
      · rw [lookup_cons_of_ne same, if_neg same]
        exact agree other
  | addEdge source target kind =>
    refine ⟨rfl, rfl, fun name => ?_⟩
    rw [Graph.find?, Graph.vertices_addEdge]
    exact agree name

/-- The store that calls make of the empty one. -/
def made (calls : List Call) : Indexed := calls.foldl after .empty

theorem made_inStep (calls : List Call) : (made calls).InStep (Graph.made calls) := by
  induction calls using List.reverseRecOn with
  | nil => exact inStep_empty
  | append_singleton calls call ih =>
    rw [Graph.made_append, made, List.foldl_append]
    exact (ih.step call).2

end Indexed

namespace Graph

/-- Whatever the calls, refused ones included, the graph they make is sound, accounts for each of
its records, does with the next call what `Outcome` says, keeps what it has under all later calls,
and is what a store with an index of the names makes. -/
theorem made_sound (calls : List Call) :
    let g := made calls
    (g.vertexIds = List.range g.vertexCount ∧ ∀ id, id ∈ g.vertexIds ↔ g.Holds id) ∧
    g.vertex? root = some ⟨rootName, none⟩ ∧
    (∀ name id, g.find? name = some id ↔ g.Names id name) ∧
    (g.vertices.map Vertex.name).Nodup ∧
    (∀ edge ∈ g.edges, g.Holds edge.source ∧ g.Holds edge.target) ∧
    (g.edges.map fun edge => (edge.source, edge.target)).Nodup ∧
    g.edges.map Edge.id = List.range g.edgeCount ∧
    Recorded calls g ∧
    (∀ call, g.Outcome call (g.answer call) (g.after call)) ∧
    (∀ source target kind fault, g.addEdge source target kind = .error fault ↔
      ¬ g.Holds source ∧ fault = .vertexNotFound source ∨
      g.Holds source ∧ ¬ g.Holds target ∧ fault = .vertexNotFound target ∨
      g.Holds source ∧ g.Holds target ∧ g.Joined source target ∧
        fault = .duplicateEdge source target) ∧
    (∀ call fault, g.answer call = .error fault → g.after call = g) ∧
    (∀ name location id, g.Names id name → g.addVertex name location = (id, g)) ∧
    (∀ more, (made (calls ++ more)).Extends g ∧
      (∀ id vertex, g.vertex? id = some vertex →
        (made (calls ++ more)).vertex? id = some vertex) ∧
      ∀ name id, g.find? name = some id → (made (calls ++ more)).find? name = some id) ∧
    (Indexed.made calls).InStep g ∧
    ∀ call, (Indexed.made calls).answer call = g.answer call := by
  have sound := made_wellFormed calls
  refine ⟨⟨rfl, ?_⟩, ?_, ?_, sound.named, ?_, sound.single, sound.numbered, made_recorded calls,
    sound.outcome, ?_, ?_, ?_, ?_, Indexed.made_inStep calls, ?_⟩
  · intro id
    rw [vertexIds, List.mem_range, holds_iff]
  · rw [vertex?, root, ← List.head?_eq_getElem?]
    exact sound.rooted
  · intro name id
    exact sound.find?_iff
  · intro edge listed
    have bounds := sound.ends edge listed
    exact ⟨holds_iff.mpr bounds.1, holds_iff.mpr bounds.2⟩
  · intro source target kind fault
    exact sound.addEdge_error_iff
  · intro call fault refused
    have step := sound.outcome call
    rw [refused] at step
    exact step.unchanged
  · intro name location id named
    exact sound.addVertex_known named location
  · intro more
    have later : (made (calls ++ more)).Extends (made calls) := by
      rw [made_append]
      exact run_extends sound more
    refine ⟨later, fun id vertex => later.vertex?, ?_⟩
    intro name id found
    obtain ⟨vertex, held, named⟩ := sound.find?_iff.mp found
    exact (made_wellFormed _).find?_iff.mpr ⟨vertex, later.vertex? held, named⟩
  · intro call
    exact ((Indexed.made_inStep calls).step call).1

-- Naming the root again, joining a pair twice and joining what is not there record nothing; a loop
-- and the reverse of an edge do.
example :
    (made [.addVertex "A" none, .addVertex rootName none, .addEdge 0 1 .memoization,
      .addEdge 1 1 .memoization, .addEdge 1 0 .memoization, .addEdge 0 1 .templateInstantiation,
      .addEdge 0 2 .memoization]).edges.map (fun edge => (edge.id, edge.source, edge.target)) =
    [(0, 0, 1), (1, 1, 1), (2, 1, 0)] := by
  decide

end Graph

end TemplateTrace
