import TemplateTrace.Display
import TemplateTrace.Layout
import TemplateTrace.Walk

namespace TemplateTrace

inductive Trace where
  /-- What the type with this name instantiated. -/
  | forward (name : String)
  /-- What led to the type with this name being instantiated. -/
  | backward (name : String)
  /-- The whole metaprogram from the root. -/
  | fullForward
  /-- Backward traces that start where nothing more is instantiated. -/
  | fullBackward
  deriving DecidableEq, Repr

namespace Trace

def lookup (g : Graph) (name : String) : Except Fault Nat :=
  match g.find? name with
  | some id => .ok id
  | none => .error (.typeNotFound name)

/-- The visits of one walk of a graph of which nothing is discovered yet. -/
def visitsFrom (g : Graph) (direction : Direction) (id : Nat) : List Visit :=
  (Walk.visits g direction id (.forGraph g)).1

def visits (g : Graph) : Trace → Except Fault (List Visit)
  | forward name => (lookup g name).map (visitsFrom g .outgoing)
  | backward name => (lookup g name).map (visitsFrom g .incoming)
  | fullForward => .ok (visitsFrom g .outgoing Graph.root)
  | fullBackward => .ok (Walk.backwardPasses g (.forGraph g))

/-- The frames of a trace, in the order they are visited. -/
def frames (g : Graph) (trace : Trace) : Except Fault (List Frame) :=
  (trace.visits g).map (fun visits => visits.map Visit.frame)

/-- The frames of the whole metaprogram. -/
def fullForwardFrames (g : Graph) : List Frame :=
  (visitsFrom g .outgoing Graph.root).map Visit.frame

/-- The frames of the backward traces that cover a graph. -/
def fullBackwardFrames (g : Graph) : List Frame :=
  (Walk.backwardPasses g (.forGraph g)).map Visit.frame

def showVisit (g : Graph) (config : Config) (width : UInt64) (visit : Visit) : List Segment :=
  (Layout.lines (g.name visit.frame.vertex) visit.frame.kind visit.frame.depth visit.pending
      (config.effectiveWidth width).toNat).flatMap (fun line => line.shown config.color)

def showFault (config : Config) (fault : Fault) : List Segment :=
  [(Segment.mk fault.message (some .failure)).tinted config.color]

/-- What a display of a certain width receives of a trace, and whether the trace could be made. A
trace of an unknown type shows only that it is not there. -/
def displayed (g : Graph) (config : Config) (width : UInt64) (trace : Trace) :
    List Segment × Except Fault Unit :=
  match trace.visits g with
  | .ok visits => (visits.flatMap (showVisit g config width), .ok ())
  | .error fault => (showFault config fault, .error fault)

end Trace

end TemplateTrace
