import TemplateTrace.Event
import TemplateTrace.Graph

/-!
# Replay of events

Events are replayed into a graph: whatever is entered was instantiated by what is open. The stack of
open vertices has the root at its bottom and never loses it.
-/

namespace TemplateTrace

/-- The graph so far and the open vertices, innermost first. -/
structure Replay where
  graph : Graph
  opened : List Nat
  deriving DecidableEq, Repr

namespace Replay

/-- Nothing but the root is there, and it is open. -/
def start : Replay := ⟨.empty, [Graph.root]⟩

/-- How many instantiations are open, the root not counted. -/
def depth (replay : Replay) : Nat := replay.opened.length - 1

/-- Enters a name below the innermost open vertex. A pair that is already joined keeps its edge. -/
def enter (replay : Replay) (name : String) (kind : Kind) (location : Option Location) :
    Except Fault Unit × Replay :=
  match replay.opened with
  | [] => (.error (.unbalancedEvents "no open instantiation"), replay)
  | parent :: _ =>
    let (id, graph) := replay.graph.addVertex name location
    if graph.hasEdge parent id then
      (.ok (), ⟨graph, id :: replay.opened⟩)
    else
      match graph.addEdge parent id kind with
      | .ok (_, joined) => (.ok (), ⟨joined, id :: replay.opened⟩)
      | .error fault => (.error fault, { replay with graph })

/-- Leaves the innermost open instantiation; the root stays open. -/
def leave (replay : Replay) : Except Fault Unit × Replay :=
  match replay.opened with
  | _ :: outer :: rest => (.ok (), { replay with opened := outer :: rest })
  | _ => (.error (.unbalancedEvents "end event without a matching begin"), replay)

def apply (replay : Replay) : Event → Except Fault Unit × Replay
  | .enter name kind location => replay.enter name kind location
  | .leave => replay.leave

/-- Replays events up to the first fault. -/
def run (replay : Replay) : List Event → Except Fault Replay
  | [] => .ok replay
  | event :: rest =>
    match replay.apply event with
    | (.ok (), next) => next.run rest
    | (.error fault, _) => .error fault

end Replay

/-- The graph of a report. Instantiations that are never left are allowed, since a failed
compilation stops in the middle. -/
def Graph.ofEvents (events : List Event) : Except Fault Graph :=
  (Replay.start.run events).map Replay.graph

end TemplateTrace
