import Mathlib.Data.List.Chain
import TemplateTrace.Proofs.ExitCodes
import TemplateTrace.Proofs.Rooted

/-!
# Unmatched leavings

A replay that goes on after a fault. The only event it can refuse is a leaving where nothing but the
root is open, and then it stays as it was: `Outcome` lists all that an event can do. Entering adds a
vertex before it adds an edge, and the edge could be refused; it never is, because what is open
exists and a pair that is joined is not joined again (`Descends`).

So a refused event may as well be left out of the report: `run_accepted` says that the events that
are not refused are replayed without a fault to the same end.
-/

namespace TemplateTrace

/-- A report is balanced unless some front of it leaves more than it enters. -/
theorem Event.not_balanced_iff {events : List Event} :
    ¬ Balanced 0 events ↔
      ∃ front, front <+: events ∧ front.countP isEnter < front.count .leave := by
  simp only [Balanced, Nat.zero_add, not_forall, exists_prop, Nat.not_le]

namespace Replay

/-- The replay after events, refused ones among them. -/
def feed (replay : Replay) (events : List Event) : Replay :=
  events.foldl (fun replay event => (replay.apply event).2) replay

/-- The events that are not refused. -/
def accepted (replay : Replay) : List Event → List Event
  | [] => []
  | event :: rest =>
    match replay.apply event with
    | (.ok (), next) => event :: next.accepted rest
    | (.error _, next) => next.accepted rest

/-- All that an event can do: what is entered is opened, the innermost open instantiation is left,
or there is none to leave. -/
inductive Outcome (replay : Replay) : Event → Except Fault Unit → Replay → Prop
  | entered {next : Replay} (name : String) (kind : Kind) (location : Option Location) :
    next.depth = replay.depth + 1 → Outcome replay (.enter name kind location) (.ok ()) next
  | left {next : Replay} :
    next.graph = replay.graph → next.depth + 1 = replay.depth → Outcome replay .leave (.ok ()) next
  | refused : replay.depth = 0 → Outcome replay .leave (.error unmatched) replay

theorem Outcome.error_iff {replay next : Replay} {event : Event} {answer : Except Fault Unit}
    (h : replay.Outcome event answer next) (fault : Fault) :
    answer = .error fault ↔ event = .leave ∧ replay.depth = 0 ∧ fault = unmatched := by
  cases h with
  | entered => simp
  | left _ fewer =>
    constructor
    · intro absurd
      cases absurd
    · rintro ⟨-, none, -⟩
      omega
  | refused none => simp [none, eq_comm]

theorem Outcome.deeper {replay next : Replay} {name : String} {kind : Kind}
    {location : Option Location} {answer : Except Fault Unit}
    (h : replay.Outcome (.enter name kind location) answer next) :
    next.depth = replay.depth + 1 := by
  cases h with
  | entered _ _ _ deeper => exact deeper

theorem Outcome.unchanged {replay next : Replay} {event : Event} {fault : Fault}
    (h : replay.Outcome event (.error fault) next) : next = replay := by
  cases h
  rfl

/-- A replay whose open vertices are a way down from the root, each joined to the one it was entered
below. -/
structure Descends (replay : Replay) : Prop extends Rooted replay where
  outermost : replay.opened.getLast? = some Graph.root
  joined : replay.opened.IsChain fun inner outer => replay.graph.Joined outer inner

theorem descends_start : Descends start where
  toRooted := rooted_start
  outermost := rfl
  joined := .singleton _

theorem Descends.opened_ne_nil {replay : Replay} (h : replay.Descends) : replay.opened ≠ [] := by
  intro none
  have last := h.outermost
  rw [none] at last
  cases last

/-- Nothing stands in the way of entering a name: its vertex is there or new, the innermost open
one exists, and an edge is added only between vertices that are not joined yet. -/
theorem Rooted.enter_ok {replay : Replay} (h : replay.Rooted) (some : replay.opened ≠ [])
    (name : String) (kind : Kind) (location : Option Location) :
    ∃ next, replay.enter name kind location = (.ok (), next) := by
  have sound := Graph.reachable_wellFormed h.reach
  obtain ⟨parent, rest, listed⟩ := List.exists_cons_of_ne_nil some
  cases added : replay.graph.addVertex name location with
  | mk id grown =>
    by_cases has : grown.hasEdge parent id = true
    · exact ⟨_, by simp [Replay.enter, listed, added, has]; rfl⟩
    · have later : grown.Extends replay.graph := by
        have step := (sound.outcome (.addVertex name location)).extends
        rwa [Graph.after, added] at step
      have held : parent < grown.vertexCount :=
        Nat.lt_of_lt_of_le (h.inside parent (by simp [listed])) later.vertices.length_le
      have edge := Graph.addEdge_new held (sound.addVertex_bounds added).1
        (Bool.eq_false_of_not_eq_true has) kind
      exact ⟨_, by simp [Replay.enter, listed, added, has, edge]; rfl⟩

/-- What is entered is joined to what was innermost, and all that was joined stays so. -/
theorem Descends.enter {replay next : Replay} (h : replay.Descends) {name : String} {kind : Kind}
    {location : Option Location} (entered : replay.enter name kind location = (.ok (), next)) :
    next.Descends ∧ next.depth = replay.depth + 1 := by
  have sound := Graph.reachable_wellFormed h.reach
  obtain ⟨parent, id, calls, first, opened, made, joined, -, -⟩ := enter_joins sound entered
  obtain ⟨rest, listed⟩ := List.head?_eq_some_iff.mp first
  refine ⟨⟨h.toRooted.enter entered, ?_, ?_⟩, ?_⟩
  · rw [opened, listed, List.getLast?_cons_cons, ← listed]
    exact h.outermost
  · have grown : next.graph.Extends replay.graph := made ▸ Graph.run_extends sound calls
    have kept : replay.opened.IsChain fun inner outer => next.graph.Joined outer inner := by
      apply h.joined.imp
      rintro inner outer ⟨edge, held, ends⟩
      exact ⟨edge, grown.edges.subset held, ends⟩
    rw [opened]
    apply kept.cons
    intro outer innermost
    rw [first] at innermost
    cases innermost
    exact joined
  · simp only [depth, opened, listed, List.length_cons]
    omega

theorem Descends.leave {replay next : Replay} (h : replay.Descends)
    (left : replay.leave = (.ok (), next)) :
    next.Descends ∧ next.graph = replay.graph ∧ next.depth + 1 = replay.depth := by
  have rooted := h.toRooted.leave left
  unfold Replay.leave at left
  split at left
  next innermost outer rest listed =>
    have last := h.outermost
    have chain := h.joined
    rw [listed] at last chain
    cases left
    refine ⟨⟨rooted, ?_, chain.tail⟩, rfl, ?_⟩
    · rw [List.getLast?_cons_cons] at last
      exact last
    · simp only [depth, listed, List.length_cons]
      omega
  next => cases left

/-- Leaving fails exactly if the root alone is open. -/
theorem Descends.leave_cases {replay : Replay} (h : replay.Descends) :
    (∃ next, replay.leave = (.ok (), next)) ∨
      replay.leave = (.error unmatched, replay) ∧ replay.depth = 0 := by
  obtain ⟨innermost, rest, listed⟩ := List.exists_cons_of_ne_nil h.opened_ne_nil
  cases rest with
  | nil =>
    refine .inr ⟨?_, ?_⟩
    · simp [Replay.leave, listed, unmatched]
    · simp [depth, listed]
  | cons outer rest => exact .inl ⟨_, by simp [Replay.leave, listed]; rfl⟩

theorem Descends.apply {replay : Replay} (h : replay.Descends) (event : Event) :
    replay.Outcome event (replay.apply event).1 (replay.apply event).2 ∧
      (replay.apply event).2.Descends := by
  cases event with
  | enter name kind location =>
    obtain ⟨next, entered⟩ := h.enter_ok h.opened_ne_nil name kind location
    obtain ⟨descends, deeper⟩ := h.enter entered
    simp only [Replay.apply, entered]
    exact ⟨.entered name kind location deeper, descends⟩
  | leave =>
    obtain ⟨next, left⟩ | ⟨failed, none⟩ := h.leave_cases
    · obtain ⟨descends, same, fewer⟩ := h.leave left
      simp only [Replay.apply, left]
      exact ⟨.left same fewer, descends⟩
    · simp only [Replay.apply, failed]
      exact ⟨.refused none, h⟩

theorem Descends.feed {replay : Replay} (h : replay.Descends) (events : List Event) :
    (replay.feed events).Descends := by
  induction events generalizing replay with
  | nil => exact h
  | cons event rest ih => exact ih (h.apply event).2

/-- The events that are not refused come to the same end as all of them. -/
theorem Descends.run_accepted {replay : Replay} (h : replay.Descends) (events : List Event) :
    replay.run (replay.accepted events) = .ok (replay.feed events) := by
  induction events generalizing replay with
  | nil => rfl
  | cons event rest ih =>
    obtain ⟨step, descends⟩ := h.apply event
    have later := ih descends
    have fed : replay.feed (event :: rest) = (replay.apply event).2.feed rest := rfl
    rw [fed, Replay.accepted]
    split
    next next applied =>
      rw [applied] at later ⊢
      simp only [Replay.run, applied, later]
    next fault next applied =>
      rw [applied] at later step ⊢
      simp only at later step ⊢
      rw [step.unchanged] at later ⊢
      exact later

/-- **Replay refuses only what is left without being open, and stays as it was.** After any events,
refused ones among them: the open vertices are not none, the root is the outermost, and each is
joined to the next one inside. An event is refused exactly if it leaves where nothing but the root
is open, for being unmatched, and then nothing has changed. Each entering makes the depth one more,
and each leaving that is not refused one less. The graph in the end is that of the events that were
not refused; and the whole report has no graph exactly if some front of it leaves more than it
enters. -/
theorem feed_harmless (events : List Event) :
    let replay := start.feed events
    replay.opened ≠ [] ∧
    replay.opened.getLast? = some Graph.root ∧
    replay.opened.IsChain (fun inner outer => replay.graph.Joined outer inner) ∧
    (∀ event fault, (replay.apply event).1 = .error fault ↔
      event = .leave ∧ replay.depth = 0 ∧
        fault = .unbalancedEvents "end event without a matching begin") ∧
    (∀ event fault, (replay.apply event).1 = .error fault → (replay.apply event).2 = replay) ∧
    (∀ name kind location,
      (replay.apply (.enter name kind location)).2.depth = replay.depth + 1) ∧
    ((replay.apply .leave).1 = .ok () → (replay.apply .leave).2.depth + 1 = replay.depth) ∧
    Graph.ofEvents (start.accepted events) = .ok replay.graph ∧
    ((∃ fault, Graph.ofEvents events = .error fault) ↔
      ∃ front, front <+: events ∧ front.countP Event.isEnter < front.count .leave) := by
  have h := descends_start.feed events
  refine ⟨h.opened_ne_nil, h.outermost, h.joined, ?_, ?_, ?_, ?_, ?_, ?_⟩
  · intro event fault
    exact (h.apply event).1.error_iff fault
  · intro event fault failed
    have step := (h.apply event).1
    rw [failed] at step
    exact step.unchanged
  · intro name kind location
    exact (h.apply (.enter name kind location)).1.deeper
  · intro succeeded
    have step := (h.apply .leave).1
    rw [succeeded] at step
    cases step with
    | left _ fewer => exact fewer
  · rw [Graph.ofEvents, descends_start.run_accepted]
    rfl
  · rw [← Event.not_balanced_iff]
    constructor
    · rintro ⟨fault, failed⟩ balanced
      obtain ⟨g, made, -⟩ := Graph.ofEvents_balanced balanced
      rw [made] at failed
      cases failed
    · intro unbalanced
      exact ⟨_, Graph.ofEvents_unbalanced unbalanced⟩

-- The second leaving is refused, and the name entered behind it hangs below the root.
example :
    let events : List Event := [.enter "A" .memoization none, .leave, .leave,
      .enter "B" .templateInstantiation none]
    start.accepted events = [.enter "A" .memoization none, .leave,
      .enter "B" .templateInstantiation none] ∧
    (start.feed events).opened = [2, 0] := by
  decide

end Replay

end TemplateTrace
