import TemplateTrace.CommandLine.Arguments
import TemplateTrace.CommandLine.Terminal
import TemplateTrace.Encoding.Event
import TemplateTrace.Export
import TemplateTrace.Replay
import TemplateTrace.Session
import TemplateTrace.Trace

/-!
# Runs of the command line

What a command does, given what its files hold. A run ends with 0 for success, 1 for an unknown type
or format, 2 for a broken report and 3 for a file that cannot be read or written.
-/

namespace TemplateTrace.CommandLine

inductive FileError where
  | cannotOpen (reason : String)
  | cannotRead (reason : String)
  deriving DecidableEq, Repr

structure Environment where
  columns : Option String := none
  width : Option String := none
  noColor : Option String := none
  forceColor : Option String := none
  deriving DecidableEq, Repr

/-- The end of a run: its exit code, what was displayed, what went to the error output, and the file
that was written. -/
structure Outcome where
  exit : Nat
  shown : List Segment := []
  complaint : String := ""
  written : Option (String × String) := none
  deriving DecidableEq, Repr

def Outcome.failure (exit : Nat) (complaint : String) : Outcome where
  exit := exit
  complaint := complaint ++ "\n"

/-- A run that ends with a fault: internal ones tell so. -/
def Outcome.ofFault (fault : Fault) : Outcome :=
  if fault.isInternal then .failure 2 ("Internal error: " ++ fault.message)
  else .failure 1 ("Error: " ++ fault.message)

/-- The graph of an events file, or how the run ends without one. -/
def load (path : String) (contents : Except FileError ByteArray) : Except Outcome Graph :=
  match contents with
  | .error (.cannotOpen reason) =>
    .error (.failure 3 ("Error: failed to open '" ++ path ++ "': " ++ reason))
  | .error (.cannotRead reason) =>
    .error (.failure 3 ("Error: failed to read events from '" ++ path ++ "': " ++ reason))
  | .ok bytes =>
    match Event.readBytes bytes with
    | .error error =>
      .error (.failure 3 ("Error: failed to read events from '" ++ path ++ "': " ++ error.message))
    | .ok events => (Graph.ofEvents events).mapError .ofFault

/-- What is left to do once the graph is there: nothing, or to write a file and see how that
goes. -/
inductive Plan where
  | done (outcome : Outcome)
  | save (path : String) (contents : String)
  deriving DecidableEq, Repr

/-- Shows a trace. A type that is not there is told on the display. -/
def showTrace (g : Graph) (config : Config) (width : UInt64) (trace : Trace) : Outcome :=
  match trace.displayed g config width with
  | (shown, .ok ()) => { exit := 0, shown }
  | (shown, .error fault) =>
    if fault.isInternal then { Outcome.ofFault fault with shown }
    else { exit := 1, shown := shown ++ [⟨"\n", none⟩] }

def finished (config : Config) (steps : Nat) : Segment :=
  (Segment.mk ("Metaprogram finished after " ++ toString steps ++ " steps\n") (some .green)).tinted
    config.color

def perform (g : Graph) (config : Config) (width : UInt64) : Command → Plan
  | .forward (some name) => .done (showTrace g config width (.forward name))
  | .forward none => .done (showTrace g config width .fullForward)
  | .backward (some name) => .done (showTrace g config width (.backward name))
  | .backward none => .done (showTrace g config width .fullBackward)
  | .step count =>
    .done { exit := 0, shown := [((Session.start g).stepMany g count.toNat).2.showCurrent g] }
  | .finish => .done { exit := 0, shown := [finished config ((Session.start g).run g).1] }
  | .frame => .done { exit := 0, shown := [(Session.start g).showCurrent g] }
  | .save format output =>
    match Format.ofName? format with
    | some format => .save output (g.render format)
    | none => .done (.failure 1 ("Error: " ++ Format.unknownMessage format))

/-- The configuration of a run: options win over variables. -/
def Invocation.config (invocation : Invocation) (environment : Environment) : Config :=
  let config := Config.ofVariables environment.width environment.noColor
  { width := invocation.width.or config.width
    color := config.color && !invocation.noColor }

/-- What a run does, given what its events file holds. -/
def Invocation.plan (invocation : Invocation) (environment : Environment)
    (contents : Except FileError ByteArray) : Plan :=
  match load invocation.events contents with
  | .error outcome => .done outcome
  | .ok g =>
    perform g (invocation.config environment) (terminalWidth environment.columns)
      invocation.command

/-- The end of a run whose file was written, or could not be. -/
def Plan.saved (path contents : String) : Except String Unit → Outcome
  | .ok () =>
    { exit := 0, shown := [⟨"Graph written to " ++ path ++ "\n", none⟩],
      written := some (path, contents) }
  | .error reason => .failure 3 ("I/O error: " ++ reason)

/-- The end of a plan, given whether files can be written. -/
def Plan.outcome (writing : String → Except String Unit) : Plan → Outcome
  | .done outcome => outcome
  | .save path contents => saved path contents (writing path)

def Invocation.run (invocation : Invocation) (environment : Environment)
    (contents : Except FileError ByteArray) (writing : String → Except String Unit) : Outcome :=
  (invocation.plan environment contents).outcome writing

/-- The text on the standard output. -/
def Outcome.output (outcome : Outcome) (environment : Environment) : String :=
  ansiTexts (wantsEscapes environment.forceColor) outcome.shown

end TemplateTrace.CommandLine
