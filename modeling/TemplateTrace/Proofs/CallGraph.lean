import Mathlib.Data.List.Infix
import TemplateTrace.Proofs.Reachable
import TemplateTrace.Replay

/-!
# The graph of a report

What a report says, told without a graph: each entry of it with what is open around it. The graph
that replay makes of a balanced report has the first entry of each name for a vertex and the first
entry of each pair of parent and name for an edge, in their order (`ofEvents_firsts`).

`Tracks` is what replay keeps up with one event after the other: the graph so far is the one of the
entries so far, and what is open bears the names of the entries that are open.
-/

namespace TemplateTrace

section
variable {α κ : Type} [DecidableEq κ] (key : α → κ)

/-- The items whose key neither was seen before nor is the key of an item before them. -/
def firsts (seen : List κ) : List α → List α
  | [] => []
  | item :: rest =>
    if key item ∈ seen then firsts seen rest else item :: firsts (key item :: seen) rest

theorem firsts_congr {seen others : List κ} (same : ∀ k, k ∈ seen ↔ k ∈ others)
    (items : List α) : firsts key seen items = firsts key others items := by
  induction items generalizing seen others with
  | nil => rfl
  | cons item rest ih =>
    have more : ∀ k, k ∈ key item :: seen ↔ k ∈ key item :: others := by
      intro k
      simp only [List.mem_cons, same]
    simp only [firsts, same]
    rw [ih same, ih more]

theorem firsts_append (seen : List κ) (items more : List α) :
    firsts key seen (items ++ more) =
      firsts key seen items ++ firsts key (seen ++ items.map key) more := by
  induction items generalizing seen with
  | nil => simp [firsts]
  | cons item rest ih =>
    by_cases known : key item ∈ seen
    · have same : ∀ k, k ∈ seen ++ rest.map key ↔ k ∈ seen ++ (item :: rest).map key := by
        intro k
        simp only [List.map_cons, List.mem_append, List.mem_cons]
        constructor
        · rintro (h | h)
          · exact .inl h
          · exact .inr (.inr h)
        · rintro (h | rfl | h)
          · exact .inl h
          · exact .inl known
          · exact .inr h
      simp only [List.cons_append, firsts, known, if_true]
      rw [ih, firsts_congr key same]
    · have same : ∀ k, k ∈ key item :: seen ++ rest.map key ↔
          k ∈ seen ++ (item :: rest).map key := by
        intro k
        simp only [List.map_cons, List.mem_append, List.mem_cons]
        rw [or_assoc, or_left_comm]
      simp only [List.cons_append, firsts, known, if_false]
      rw [ih, firsts_congr key same]

theorem firsts_cons (seen : List κ) (item : α) (rest : List α) :
    firsts key seen (item :: rest) =
      firsts key seen [item] ++ firsts key (seen ++ [key item]) rest :=
  firsts_append key seen [item] rest

theorem firsts_cons_known {seen : List κ} {item : α} (known : key item ∈ seen) (rest : List α) :
    firsts key seen (item :: rest) = firsts key (seen ++ [key item]) rest := by
  rw [firsts_cons, firsts, if_pos known, firsts, List.nil_append]

theorem firsts_cons_new {seen : List κ} {item : α} (fresh : key item ∉ seen) (rest : List α) :
    firsts key seen (item :: rest) = item :: firsts key (seen ++ [key item]) rest := by
  rw [firsts_cons, firsts, if_neg fresh, firsts, List.singleton_append]

theorem firsts_snoc_known {seen : List κ} {items : List α} {item : α}
    (known : key item ∈ seen ++ items.map key) :
    firsts key seen (items ++ [item]) = firsts key seen items := by
  rw [firsts_append, firsts, if_pos known, firsts, List.append_nil]

theorem firsts_snoc_new {seen : List κ} {items : List α} {item : α}
    (fresh : key item ∉ seen ++ items.map key) :
    firsts key seen (items ++ [item]) = firsts key seen items ++ [item] := by
  rw [firsts_append, firsts, if_neg fresh, firsts]

theorem mem_of_mem_firsts {seen : List κ} {item : α} {items : List α}
    (h : item ∈ firsts key seen items) : item ∈ items := by
  induction items generalizing seen with
  | nil => exact h
  | cons first rest ih =>
    rw [firsts] at h
    split at h
    · exact List.mem_cons_of_mem _ (ih h)
    · rcases List.mem_cons.mp h with rfl | h
      · exact List.mem_cons_self
      · exact List.mem_cons_of_mem _ (ih h)

theorem mem_keys_firsts (seen : List κ) (items : List α) (k : κ) :
    k ∈ (firsts key seen items).map key ↔ k ∈ items.map key ∧ k ∉ seen := by
  induction items generalizing seen with
  | nil => simp [firsts]
  | cons item rest ih =>
    by_cases known : key item ∈ seen
    · simp only [firsts, known, if_true, ih, List.map_cons, List.mem_cons]
      constructor
      · exact fun h => ⟨.inr h.1, h.2⟩
      · rintro ⟨rfl | h, fresh⟩
        · exact absurd known fresh
        · exact ⟨h, fresh⟩
    · simp only [firsts, known, if_false, List.map_cons, List.mem_cons, ih, not_or]
      constructor
      · rintro (rfl | ⟨h, -, fresh⟩)
        · exact ⟨.inl rfl, known⟩
        · exact ⟨.inr h, fresh⟩
      · rintro ⟨rfl | h, fresh⟩
        · exact .inl rfl
        · by_cases same : k = key item
          · exact .inl same
          · exact .inr ⟨h, same, fresh⟩

end

/-- What is entered, and the entries open before it, innermost first, by number and name. -/
structure Entry where
  opened : List (Nat × String)
  name : String
  kind : Kind
  location : Option Location
  deriving DecidableEq, Repr

namespace Entry

/-- The name of the innermost open entry; at the outermost level, the root. -/
def parent (entry : Entry) : String := entry.opened.head?.elim rootName Prod.snd

def depth (entry : Entry) : Nat := entry.opened.length

def pair (entry : Entry) : String × String := (entry.parent, entry.name)

def vertex (entry : Entry) : Vertex := ⟨entry.name, entry.location⟩

def link (entry : Entry) : String × String × Kind := (entry.parent, entry.name, entry.kind)

end Entry

namespace Event

/-- The entries of the rest of a report, numbered from `count` on. -/
def entriesFrom (count : Nat) (opened : List (Nat × String)) : List Event → List Entry
  | [] => []
  | .enter name kind location :: rest =>
    ⟨opened, name, kind, location⟩ :: entriesFrom (count + 1) ((count, name) :: opened) rest
  | .leave :: rest => entriesFrom count opened.tail rest

def entries (events : List Event) : List Entry := entriesFrom 0 [] events

def isEnter : Event → Bool
  | .enter .. => true
  | .leave => false

/-- With so many entries open already, no front of a report leaves more than are open. -/
def Balanced (opened : Nat) (events : List Event) : Prop :=
  ∀ front, front <+: events → front.count .leave ≤ opened + front.countP isEnter

instance (opened : Nat) (events : List Event) : Decidable (Balanced opened events) :=
  decidable_of_iff
    (∀ front ∈ events.inits, front.count .leave ≤ opened + front.countP isEnter)
    (by simp only [List.mem_inits, Balanced])

theorem balanced_enter {opened : Nat} {name : String} {kind : Kind} {location : Option Location}
    {rest : List Event} (h : Balanced opened (.enter name kind location :: rest)) :
    Balanced (opened + 1) rest := by
  intro front hf
  have := h (.enter name kind location :: front) (List.cons_prefix_cons.mpr ⟨rfl, hf⟩)
  simp only [List.count_cons, List.countP_cons, isEnter] at this
  simp at this
  omega

theorem balanced_leave {opened : Nat} {rest : List Event}
    (h : Balanced opened (.leave :: rest)) : 0 < opened ∧ Balanced (opened - 1) rest := by
  have some : 0 < opened := by
    have := h [.leave] (by simp)
    simp [isEnter] at this
    omega
  refine ⟨some, ?_⟩
  intro front hf
  have := h (.leave :: front) (List.cons_prefix_cons.mpr ⟨rfl, hf⟩)
  simp only [List.count_cons_self, List.countP_cons, isEnter] at this
  simp at this
  omega

theorem Balanced.enter {opened : Nat} {rest : List Event} (h : Balanced (opened + 1) rest)
    (name : String) (kind : Kind) (location : Option Location) :
    Balanced opened (.enter name kind location :: rest) := by
  intro front hf
  cases front with
  | nil => exact Nat.zero_le _
  | cons event front =>
    obtain ⟨rfl, shorter⟩ := List.cons_prefix_cons.mp hf
    have := h front shorter
    simp only [List.count_cons, List.countP_cons, isEnter]
    simp
    omega

theorem Balanced.leave {opened : Nat} {rest : List Event} (h : Balanced opened rest) :
    Balanced (opened + 1) (.leave :: rest) := by
  intro front hf
  cases front with
  | nil => exact Nat.zero_le _
  | cons event front =>
    obtain ⟨rfl, shorter⟩ := List.cons_prefix_cons.mp hf
    have := h front shorter
    simp only [List.count_cons_self, List.countP_cons, isEnter]
    simp
    omega

end Event

namespace Graph

/-- The edges by the names they join. -/
def links (g : Graph) : List (String × String × Kind) :=
  g.edges.map fun edge => (g.name edge.source, g.name edge.target, edge.kind)

/-- Both ways to add a vertex: its name is there, or it is appended. Vertices that were there before
keep their names, so edges join the same names. -/
theorem addVertex_cases {g : Graph} (h : g.WellFormed) (name : String)
    (location : Option Location) :
    ∃ id grown, g.addVertex name location = (id, grown) ∧ id < grown.vertexCount ∧
      grown.name id = name ∧ grown.links = g.links ∧
      (∀ other, other < g.vertexCount →
        other < grown.vertexCount ∧ grown.name other = g.name other) ∧
      (name ∈ g.vertices.map Vertex.name ∧ grown.vertices = g.vertices ∨
        name ∉ g.vertices.map Vertex.name ∧ grown.vertices = g.vertices ++ [⟨name, location⟩]) := by
  cases found : g.find? name with
  | some id =>
    obtain ⟨bound, named⟩ := h.find?_eq_some_iff.mp found
    have there : name ∈ g.vertices.map Vertex.name :=
      List.mem_of_getElem? (named ▸ getElem?_names bound)
    exact ⟨id, g, by simp [addVertex, found], bound, named, rfl, fun _ ho => ⟨ho, rfl⟩,
      .inl ⟨there, rfl⟩⟩
  | none =>
    refine ⟨g.vertexCount, ⟨g.vertices ++ [⟨name, location⟩], g.edges⟩,
      by simp [addVertex, found], by simp [vertexCount], by simp [Graph.name, vertex?, vertexCount],
      ?_, ?_, .inr ⟨find?_eq_none_iff.mp found, rfl⟩⟩
    · apply List.map_congr_left
      intro edge he
      rw [name_append (h.ends edge he).1, name_append (h.ends edge he).2]
    · intro other ho
      exact ⟨by simp only [vertexCount, List.length_append] at ho ⊢; omega, name_append ho _ _⟩

theorem hasEdge_iff_links {g : Graph} (h : g.WellFormed) {source target : Nat}
    (hs : source < g.vertexCount) (ht : target < g.vertexCount) :
    g.hasEdge source target = true ↔
      (g.name source, g.name target) ∈ g.links.map fun link => (link.1, link.2.1) := by
  simp only [hasEdge, List.any_eq_true, Bool.and_eq_true, beq_iff_eq, links, List.map_map,
    List.mem_map, Function.comp_apply, Prod.mk.injEq]
  constructor
  · rintro ⟨edge, he, rfl, rfl⟩
    exact ⟨edge, he, rfl, rfl⟩
  · rintro ⟨edge, he, source, target⟩
    exact ⟨edge, he, h.name_inj (h.ends edge he).1 hs source,
      h.name_inj (h.ends edge he).2 ht target⟩

end Graph

namespace Replay

/-- A replay that has come past the entries `done`, with the entries `opened` still open. -/
structure Tracks (done : List Entry) (opened : List (Nat × String)) (replay : Replay) : Prop where
  reach : replay.graph.Reachable
  vertices : replay.graph.vertices =
    ⟨rootName, none⟩ :: (firsts Entry.name [rootName] done).map Entry.vertex
  links : replay.graph.links = (firsts Entry.pair [] done).map Entry.link
  inside : ∀ id ∈ replay.opened, id < replay.graph.vertexCount
  named : replay.opened.map replay.graph.name = opened.map Prod.snd ++ [rootName]

theorem tracks_start : Tracks [] [] start where
  reach := .start
  vertices := rfl
  links := rfl
  inside := by simp [start, Graph.root, Graph.vertexCount, Graph.empty]
  named := rfl

theorem Tracks.mem_names {done : List Entry} {opened : List (Nat × String)} {replay : Replay}
    (t : Tracks done opened replay) {name : String} :
    name ∈ replay.graph.vertices.map Vertex.name ↔ name ∈ rootName :: done.map Entry.name := by
  have keys := mem_keys_firsts Entry.name [rootName] done name
  have names : replay.graph.vertices.map Vertex.name =
      rootName :: (firsts Entry.name [rootName] done).map Entry.name := by
    rw [t.vertices, List.map_cons, List.map_map]
    rfl
  rw [List.mem_singleton] at keys
  rw [names, List.mem_cons, keys, List.mem_cons]
  constructor
  · rintro (same | ⟨there, -⟩)
    · exact .inl same
    · exact .inr there
  · rintro (same | there)
    · exact .inl same
    · by_cases same : name = rootName
      · exact .inl same
      · exact .inr ⟨there, same⟩

theorem Tracks.mem_pairs {done : List Entry} {opened : List (Nat × String)} {replay : Replay}
    (t : Tracks done opened replay) {pair : String × String} :
    (pair ∈ replay.graph.links.map fun link => (link.1, link.2.1)) ↔
      pair ∈ done.map Entry.pair := by
  have pairs : (replay.graph.links.map fun link => (link.1, link.2.1)) =
      (firsts Entry.pair [] done).map Entry.pair := by
    rw [t.links, List.map_map]
    rfl
  rw [pairs, mem_keys_firsts]
  simp

theorem Tracks.vertices_grown {done : List Entry} {opened : List (Nat × String)}
    {replay : Replay} (t : Tracks done opened replay) {entry : Entry} {grown : Graph}
    (grew : entry.name ∈ replay.graph.vertices.map Vertex.name ∧
        grown.vertices = replay.graph.vertices ∨
      entry.name ∉ replay.graph.vertices.map Vertex.name ∧
        grown.vertices = replay.graph.vertices ++ [entry.vertex]) :
    grown.vertices =
      ⟨rootName, none⟩ :: (firsts Entry.name [rootName] (done ++ [entry])).map Entry.vertex := by
  rw [t.mem_names] at grew
  rcases grew with ⟨known, same⟩ | ⟨fresh, more⟩
  · rw [same, t.vertices, firsts_snoc_known Entry.name known]
  · rw [more, t.vertices, firsts_snoc_new Entry.name fresh, List.map_append]
    rfl

theorem Tracks.parent_opened {done : List Entry} {entry : Entry} {replay : Replay}
    (t : Tracks done entry.opened replay) :
    ∃ parent rest, replay.opened = parent :: rest ∧ parent < replay.graph.vertexCount ∧
      replay.graph.name parent = entry.parent := by
  have named := t.named
  cases listed : replay.opened with
  | nil => simp [listed] at named
  | cons parent rest =>
    refine ⟨parent, rest, rfl, t.inside parent (by simp [listed]), ?_⟩
    rw [listed] at named
    have first := congrArg List.head? named
    rw [Entry.parent]
    cases opened : entry.opened with
    | nil => simpa [opened] using first
    | cons innermost outer => simpa [opened] using first

/-- Entering a name keeps up: the entry is added, and opened. -/
theorem Tracks.enter {done : List Entry} {entry : Entry} {replay : Replay}
    (t : Tracks done entry.opened replay) :
    ∃ next, replay.enter entry.name entry.kind entry.location = (.ok (), next) ∧
      Tracks (done ++ [entry]) ((done.length, entry.name) :: entry.opened) next := by
  obtain ⟨id, grown, added, bound, called, links, kept, grew⟩ :=
    Graph.addVertex_cases (Graph.reachable_wellFormed t.reach) entry.name entry.location
  obtain ⟨parent, rest, listed, parentBound, above⟩ := t.parent_opened
  have reach : grown.Reachable := by
    have := t.reach.next (.addVertex entry.name entry.location)
    rwa [Graph.after, added] at this
  have vertices := t.vertices_grown grew
  have inside : ∀ other ∈ id :: replay.opened, other < grown.vertexCount := by
    intro other ho
    rcases List.mem_cons.mp ho with rfl | ho
    · exact bound
    · exact (kept other (t.inside other ho)).1
  have named : (id :: replay.opened).map grown.name =
      ((done.length, entry.name) :: entry.opened).map Prod.snd ++ [rootName] := by
    have same : replay.opened.map grown.name = replay.opened.map replay.graph.name :=
      List.map_congr_left fun other ho => (kept other (t.inside other ho)).2
    rw [List.map_cons, called, same, t.named]
    rfl
  obtain ⟨parentBound, parentKept⟩ := kept parent parentBound
  have joined : grown.hasEdge parent id = true ↔ entry.pair ∈ done.map Entry.pair := by
    rw [Graph.hasEdge_iff_links (Graph.reachable_wellFormed reach) parentBound bound, links,
      t.mem_pairs, parentKept, above, called]
    rfl
  cases has : grown.hasEdge parent id with
  | true =>
    refine ⟨⟨grown, id :: replay.opened⟩, ?_, reach, vertices, ?_, inside, named⟩
    · simp [Replay.enter, listed, added, has]
    · rw [firsts_snoc_known Entry.pair (joined.mp has), links, t.links]
  | false =>
    have edge := Graph.addEdge_new parentBound bound has entry.kind
    have fresh : entry.pair ∉ done.map Entry.pair := by
      rw [← joined, has]
      exact Bool.false_ne_true
    refine ⟨⟨{ grown with edges := grown.edges ++ [⟨grown.edgeCount, parent, id, entry.kind⟩] },
      id :: replay.opened⟩, ?_, ?_, vertices, ?_, inside, named⟩
    · simp [Replay.enter, listed, added, has, edge]
    · have := reach.next (.addEdge parent id entry.kind)
      rwa [Graph.after, edge] at this
    · rw [firsts_snoc_new Entry.pair fresh, List.map_append, ← t.links, ← links, Graph.links,
        List.map_append]
      change _ ++ [(grown.name parent, grown.name id, entry.kind)] = _ ++ [entry.link]
      rw [parentKept, above, called]
      rfl

/-- Leaving keeps up: the innermost open entry is closed. -/
theorem Tracks.leave {done : List Entry} {innermost : Nat × String}
    {opened : List (Nat × String)} {replay : Replay}
    (t : Tracks done (innermost :: opened) replay) :
    ∃ next, replay.leave = (.ok (), next) ∧ Tracks done opened next := by
  have named := t.named
  cases listed : replay.opened with
  | nil => simp [listed] at named
  | cons first rest =>
    rw [listed, List.map_cons, List.map_cons, List.cons_append] at named
    have tail := List.tail_eq_of_cons_eq named
    cases rest with
    | nil => simp at tail
    | cons outer rest =>
      refine ⟨{ replay with opened := outer :: rest }, by simp [Replay.leave, listed],
        t.reach, t.vertices, t.links, ?_, tail⟩
      intro id hid
      exact t.inside id (by rw [listed]; exact List.mem_cons_of_mem _ hid)

/-- A balanced rest of a report is replayed to its end. -/
theorem Tracks.run {done : List Entry} {opened : List (Nat × String)} {replay : Replay}
    (t : Tracks done opened replay) {events : List Event}
    (balanced : Event.Balanced opened.length events) :
    ∃ last left, replay.run events = .ok last ∧
      Tracks (done ++ Event.entriesFrom done.length opened events) left last := by
  induction events generalizing done opened replay with
  | nil => exact ⟨replay, opened, rfl, by simpa [Event.entriesFrom] using t⟩
  | cons event rest ih =>
    cases event with
    | enter name kind location =>
      obtain ⟨next, entered, t⟩ := @Tracks.enter done ⟨opened, name, kind, location⟩ replay t
      obtain ⟨last, left, ran, t⟩ := ih t (Event.balanced_enter balanced)
      refine ⟨last, left, ?_, ?_⟩
      · simp only [Replay.run, Replay.apply, entered, ran]
      · simpa [Event.entriesFrom] using t
    | leave =>
      obtain ⟨some, balanced⟩ := Event.balanced_leave balanced
      cases opened with
      | nil => simp at some
      | cons innermost outer =>
        obtain ⟨next, left, t⟩ := t.leave
        obtain ⟨last, remaining, ran, t⟩ := ih t (by simpa using balanced)
        refine ⟨last, remaining, ?_, ?_⟩
        · simp only [Replay.run, Replay.apply, left, ran]
        · simpa [Event.entriesFrom] using t

/-- What is said of a report that leaves more than is open. -/
def unmatched : Fault := .unbalancedEvents "end event without a matching begin"

/-- Nothing but the root is open, so there is nothing to leave. -/
theorem Tracks.leave_none {done : List Entry} {replay : Replay} (t : Tracks done [] replay) :
    replay.leave = (.error unmatched, replay) := by
  have one := congrArg List.length t.named
  rw [List.length_map, List.length_append] at one
  unfold Replay.leave
  split
  next innermost outer rest listed =>
    rw [listed] at one
    simp at one
  next => rfl

/-- A rest of a report that leaves more than is open fails, and this is what it is blamed for. -/
theorem Tracks.run_unbalanced {done : List Entry} {opened : List (Nat × String)} {replay : Replay}
    (t : Tracks done opened replay) {events : List Event}
    (unbalanced : ¬ Event.Balanced opened.length events) :
    replay.run events = .error unmatched := by
  induction events generalizing done opened replay with
  | nil =>
    have balanced : Event.Balanced opened.length [] := by
      intro front hf
      rw [List.prefix_nil.mp hf]
      exact Nat.zero_le _
    exact absurd balanced unbalanced
  | cons event rest ih =>
    cases event with
    | enter name kind location =>
      obtain ⟨next, entered, t⟩ := @Tracks.enter done ⟨opened, name, kind, location⟩ replay t
      have ran := ih t fun balanced => unbalanced (balanced.enter name kind location)
      simp only [Replay.run, Replay.apply, entered, ran]
    | leave =>
      cases opened with
      | nil => simp only [Replay.run, Replay.apply, t.leave_none]
      | cons innermost outer =>
        obtain ⟨next, left, t⟩ := t.leave
        have ran := ih t fun balanced => unbalanced balanced.leave
        simp only [Replay.run, Replay.apply, left, ran]

theorem run_append {replay last : Replay} {front : List Event}
    (ran : replay.run front = .ok last) (rest : List Event) :
    replay.run (front ++ rest) = last.run rest := by
  induction front generalizing replay with
  | nil => cases ran; rfl
  | cons event front ih =>
    rw [Replay.run] at ran
    rw [List.cons_append, Replay.run]
    split at ran
    · exact ih ran
    · contradiction

theorem run_leaves {replay last : Replay} {n : Nat}
    (ran : replay.run (List.replicate n .leave) = .ok last) : last.graph = replay.graph := by
  induction n generalizing replay with
  | zero => cases ran; rfl
  | succ n ih =>
    rw [List.replicate_succ, Replay.run, Replay.apply, Replay.leave] at ran
    split at ran
    · next next left =>
      rw [ih ran]
      split at left <;> cases left
      rfl
    · contradiction

theorem tracks_entries {events : List Event} (balanced : Event.Balanced 0 events) :
    ∃ last left, start.run events = .ok last ∧ Tracks (Event.entries events) left last :=
  tracks_start.run balanced

end Replay

/-- **Replay makes the graph of the first entries.** A balanced report is replayed without a fault.
The vertices of its graph are the root and then the first entry of each other name, with its
location; the edges, numbered in their order, lead from the parent to the name of the first entry of
each such pair, with its kind. What is left open at the end changes nothing: with leavings for it,
the graph is the same. -/
theorem Graph.ofEvents_firsts {events : List Event} (balanced : Event.Balanced 0 events) :
    ∃ g, ofEvents events = .ok g ∧
      g.vertices = ⟨rootName, none⟩ ::
        (firsts Entry.name [rootName] (Event.entries events)).map Entry.vertex ∧
      g.edges.map Edge.id = List.range g.edgeCount ∧
      (∀ edge ∈ g.edges, edge.source < g.vertexCount ∧ edge.target < g.vertexCount) ∧
      g.links = (firsts Entry.pair [] (Event.entries events)).map Entry.link ∧
      ∀ n, Event.Balanced 0 (events ++ List.replicate n .leave) →
        ofEvents (events ++ List.replicate n .leave) = .ok g := by
  obtain ⟨last, left, ran, t⟩ := Replay.tracks_entries balanced
  have made := reachable_wellFormed t.reach
  refine ⟨last.graph, by rw [ofEvents, ran]; rfl, t.vertices, made.numbered, made.ends, t.links, ?_⟩
  intro n closed
  obtain ⟨final, _, ranOn, -⟩ := Replay.tracks_entries closed
  have leaves := ranOn
  rw [Replay.run_append ran] at leaves
  rw [ofEvents, ranOn, ← Replay.run_leaves leaves]
  rfl

/-- A name entered below itself, the root entered by name, and both left open. -/
theorem Graph.ofEvents_firsts_open :
    Event.Balanced 0 [.enter "A" .templateInstantiation (some ⟨"a.cpp", 1, 2⟩),
      .enter "A" .memoization none, .leave, .enter rootName .memoization none] ∧
    ∃ g, ofEvents [.enter "A" .templateInstantiation (some ⟨"a.cpp", 1, 2⟩),
        .enter "A" .memoization none, .leave, .enter rootName .memoization none] = .ok g ∧
      g.vertices = [⟨rootName, none⟩, ⟨"A", some ⟨"a.cpp", 1, 2⟩⟩] ∧
      g.links = [(rootName, "A", .templateInstantiation), ("A", "A", .memoization),
        ("A", rootName, .memoization)] := by
  have balanced : Event.Balanced 0 [.enter "A" .templateInstantiation (some ⟨"a.cpp", 1, 2⟩),
      .enter "A" .memoization none, .leave, .enter rootName .memoization none] := by decide
  obtain ⟨g, made, vertices, -, -, links, -⟩ := ofEvents_firsts balanced
  exact ⟨balanced, g, made, vertices, links⟩

end TemplateTrace
