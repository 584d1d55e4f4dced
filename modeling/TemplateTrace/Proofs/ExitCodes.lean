import TemplateTrace.CommandLine.Run
import TemplateTrace.Proofs.CallGraph
import TemplateTrace.Proofs.Connectors

namespace TemplateTrace

namespace Event

def entered? : Event → Option String
  | .enter name _ _ => some name
  | .leave => none

/-- What a report speaks of: the root, and every name it enters. -/
def Mentions (events : List Event) (name : String) : Prop :=
  name = rootName ∨ name ∈ events.filterMap entered?

instance (events : List Event) (name : String) : Decidable (Mentions events name) :=
  inferInstanceAs (Decidable (_ ∨ _))

theorem names_entriesFrom (count : Nat) (opened : List (Nat × String)) (events : List Event) :
    (entriesFrom count opened events).map Entry.name = events.filterMap entered? := by
  induction events generalizing count opened with
  | nil => rfl
  | cons event rest ih =>
    cases event with
    | enter name kind location =>
      rw [entriesFrom, List.map_cons, ih]
      rfl
    | leave =>
      rw [entriesFrom, ih]
      rfl

end Event

theorem Graph.ofEvents_balanced {events : List Event} (balanced : Event.Balanced 0 events) :
    ∃ g, ofEvents events = .ok g ∧
      ∀ name, name ∈ g.vertices.map Vertex.name ↔ Event.Mentions events name := by
  obtain ⟨last, left, ran, t⟩ := Replay.tracks_entries balanced
  refine ⟨last.graph, by rw [ofEvents, ran]; rfl, ?_⟩
  intro name
  rw [t.mem_names, List.mem_cons, Event.entries, Event.names_entriesFrom, Event.Mentions]

theorem Graph.ofEvents_unbalanced {events : List Event} (h : ¬ Event.Balanced 0 events) :
    ofEvents events = .error Replay.unmatched := by
  rw [ofEvents, Replay.tracks_start.run_unbalanced h]
  rfl

namespace Trace

theorem visits_known {g : Graph} {trace : Trace}
    (present : ∀ name ∈ trace.subject?, name ∈ g.vertices.map Vertex.name) :
    ∃ visits, trace.visits g = .ok visits := by
  obtain ⟨passes, made⟩ := passes_present present
  exact ⟨passes.flatten, by rw [visits_eq_passes, made]; rfl⟩

theorem visits_unknown {g : Graph} {trace : Trace} {name : String}
    (subject : trace.subject? = some name) (absent : name ∉ g.vertices.map Vertex.name) :
    trace.visits g = .error (.typeNotFound name) := by
  have missed : lookup g name = .error (.typeNotFound name) := by
    rw [lookup, Graph.find?_eq_none_iff.mpr absent]
  cases trace with
  | forward other =>
    cases subject
    rw [visits, missed]
    rfl
  | backward other =>
    cases subject
    rw [visits, missed]
    rfl
  | fullForward => cases subject
  | fullBackward => cases subject

end Trace

namespace CommandLine

/-! ## What is asked for -/

def Command.trace? : Command → Option Trace
  | .forward (some name) => some (.forward name)
  | .forward none => some .fullForward
  | .backward (some name) => some (.backward name)
  | .backward none => some .fullBackward
  | .step _ => none
  | .finish => none
  | .frame => none
  | .save _ _ => none

theorem perform_trace {command : Command} {trace : Trace} (h : command.trace? = some trace)
    (g : Graph) (config : Config) (width : UInt64) :
    perform g config width command = .done (showTrace g config width trace) := by
  unfold Command.trace? at h
  split at h <;> cases h <;> rfl

theorem showTrace_known {g : Graph} {trace : Trace}
    (present : ∀ name ∈ trace.subject?, name ∈ g.vertices.map Vertex.name) (config : Config)
    (width : UInt64) :
    ∃ shown, showTrace g config width trace = { exit := 0, shown } := by
  obtain ⟨visits, made⟩ := Trace.visits_known present
  exact ⟨_, by rw [showTrace, Trace.displayed, made]⟩

/-- What is shown in place of a trace of an unknown type. -/
def notFound (config : Config) (name : String) : List Segment :=
  [⟨"type \"" ++ name ++ "\" not found", if config.color then some .red else none⟩, ⟨"\n", none⟩]

theorem showTrace_unknown {g : Graph} {trace : Trace} {name : String}
    (subject : trace.subject? = some name) (absent : name ∉ g.vertices.map Vertex.name)
    (config : Config) (width : UInt64) :
    showTrace g config width trace = { exit := 1, shown := notFound config name } := by
  rw [showTrace, Trace.displayed, Trace.visits_unknown subject absent]
  rfl

def formatNames : List String := ["dump", "text", "dot", "graphviz", "json"]

theorem ofName?_eq_none_iff (name : String) :
    Format.ofName? name = none ↔ name ∉ formatNames := by
  unfold Format.ofName?
  split <;> simp_all [formatNames]

/-! ## What the file holds -/

/-- The events that a file holds; there are none if it cannot be opened or is no report. -/
def report : Except FileError ByteArray → Option (List Event)
  | .ok bytes => (Event.readBytes bytes).toOption
  | .error _ => none

/-- The file holds a balanced report. -/
def Loads (contents : Except FileError ByteArray) : Prop :=
  ∃ events, report contents = some events ∧ Event.Balanced 0 events

/-- All that loading can come to: there is no report, the report is not balanced, or the report has
a graph, of the names that it mentions. -/
theorem load_cases (path : String) (contents : Except FileError ByteArray) :
    (report contents = none ∧
      ∃ complaint, load path contents = .error (.failure 3 complaint)) ∨
    (∃ events, report contents = some events ∧ ¬ Event.Balanced 0 events ∧
      ∃ complaint, load path contents = .error (.failure 2 complaint)) ∨
    ∃ events g, report contents = some events ∧ Event.Balanced 0 events ∧
      Graph.ofEvents events = .ok g ∧ load path contents = .ok g ∧
      ∀ name, name ∈ g.vertices.map Vertex.name ↔ Event.Mentions events name := by
  cases contents with
  | error reason => cases reason <;> exact .inl ⟨rfl, _, rfl⟩
  | ok bytes =>
    cases read : Event.readBytes bytes with
    | error error => exact .inl ⟨by rw [report, read]; rfl, _, by rw [load, read]⟩
    | ok events =>
      have held : report (.ok bytes) = some events := by
        rw [report, read]
        rfl
      have loaded : load path (.ok bytes) = (Graph.ofEvents events).mapError .ofFault := by
        rw [load, read]
      refine .inr ?_
      by_cases balanced : Event.Balanced 0 events
      · obtain ⟨g, made, names⟩ := Graph.ofEvents_balanced balanced
        rw [made] at loaded
        exact .inr ⟨events, g, held, balanced, made, loaded, names⟩
      · rw [Graph.ofEvents_unbalanced balanced] at loaded
        exact .inl ⟨events, held, balanced, _, loaded⟩

/-! ## How a run ends -/

/-- How a command has to end, given the events and whether files can be written. -/
def commandCode (events : List Event) (writing : String → Except String Unit) : Command → Nat
  | .forward (some name) => if Event.Mentions events name then 0 else 1
  | .backward (some name) => if Event.Mentions events name then 0 else 1
  | .save format output =>
    if format ∉ formatNames then 1
    else
      match writing output with
      | .ok () => 0
      | .error _ => 3
  | _ => 0

/-- How a run has to end. -/
def exitCode (contents : Except FileError ByteArray) (writing : String → Except String Unit)
    (command : Command) : Nat :=
  match report contents with
  | none => 3
  | some events =>
    if Event.Balanced 0 events then commandCode events writing command else 2

theorem commandCode_ne_two (events : List Event) (writing : String → Except String Unit)
    (command : Command) : commandCode events writing command ≠ 2 := by
  unfold commandCode
  repeat' split
  all_goals decide

theorem exitCode_eq_two_iff (contents : Except FileError ByteArray)
    (writing : String → Except String Unit) (command : Command) :
    exitCode contents writing command = 2 ↔
      ∃ events, report contents = some events ∧ ¬ Event.Balanced 0 events := by
  unfold exitCode
  cases report contents with
  | none => simp
  | some events =>
    by_cases balanced : Event.Balanced 0 events
    · simp [balanced, commandCode_ne_two]
    · simp [balanced]

section
variable {g : Graph} {events : List Event}
  (names : ∀ name, name ∈ g.vertices.map Vertex.name ↔ Event.Mentions events name)
  (config : Config) (width : UInt64)
include names

theorem showTrace_exit {trace : Trace} {name : String} (subject : trace.subject? = some name) :
    (showTrace g config width trace).exit = if Event.Mentions events name then 0 else 1 := by
  by_cases mentioned : Event.Mentions events name
  · have present : ∀ other ∈ trace.subject?, other ∈ g.vertices.map Vertex.name := by
      intro other asked
      rw [subject] at asked
      cases asked
      exact (names name).mpr mentioned
    obtain ⟨shown, ended⟩ := showTrace_known present config width
    rw [ended, if_pos mentioned]
  · have absent : name ∉ g.vertices.map Vertex.name := mt (names name).mp mentioned
    rw [showTrace_unknown subject absent, if_neg mentioned]

theorem perform_exit (writing : String → Except String Unit) (command : Command) :
    ((perform g config width command).outcome writing).exit =
      commandCode events writing command := by
  have whole (trace : Trace) (full : trace.subject? = none) :
      (showTrace g config width trace).exit = 0 := by
    have present : ∀ name ∈ trace.subject?, name ∈ g.vertices.map Vertex.name := by simp [full]
    obtain ⟨shown, ended⟩ := showTrace_known present config width
    rw [ended]
  cases command with
  | forward name =>
    cases name with
    | none => exact whole .fullForward rfl
    | some name => exact showTrace_exit names config width rfl
  | backward name =>
    cases name with
    | none => exact whole .fullBackward rfl
    | some name => exact showTrace_exit names config width rfl
  | step count => rfl
  | finish => rfl
  | frame => rfl
  | save format output =>
    rw [perform, commandCode]
    cases named : Format.ofName? format with
    | none =>
      rw [if_pos ((ofName?_eq_none_iff format).mp named)]
      rfl
    | some known =>
      have listed : ¬ format ∉ formatNames := by
        rw [← ofName?_eq_none_iff, named]
        exact Option.some_ne_none known
      rw [if_neg listed, Plan.outcome]
      cases writing output <;> rfl

end

theorem perform_save {g : Graph} {config : Config} {width : UInt64} {command : Command}
    {path text : String} (h : perform g config width command = .save path text) :
    ∃ name format, command = .save name path ∧ Format.ofName? name = some format ∧
      text = g.render format := by
  cases command with
  | forward name => cases name <;> cases h
  | backward name => cases name <;> cases h
  | step count => cases h
  | finish => cases h
  | frame => cases h
  | save name output =>
    rw [perform] at h
    split at h
    next format named =>
      cases h
      exact ⟨name, format, rfl, named, rfl⟩
    next => cases h

theorem showTrace_written (g : Graph) (config : Config) (width : UInt64) (trace : Trace) :
    (showTrace g config width trace).written = none := by
  unfold showTrace
  split
  next => rfl
  next shown fault failed =>
    unfold Outcome.ofFault
    split <;> rfl

theorem perform_written {g : Graph} {config : Config} {width : UInt64} {command : Command}
    {outcome : Outcome} (h : perform g config width command = .done outcome) :
    outcome.written = none := by
  cases command with
  | forward name =>
    cases name <;>
      · cases h
        exact showTrace_written g config width _
  | backward name =>
    cases name <;>
      · cases h
        exact showTrace_written g config width _
  | step count =>
    cases h
    rfl
  | finish =>
    cases h
    rfl
  | frame =>
    cases h
    rfl
  | save name output =>
    rw [perform] at h
    split at h
    next => cases h
    next =>
      cases h
      rfl

section
variable (invocation : Invocation) (environment : Environment)
  (writing : String → Except String Unit)

theorem run_of_error {contents : Except FileError ByteArray} {outcome : Outcome}
    (h : load invocation.events contents = .error outcome) :
    invocation.run environment contents writing = outcome := by
  rw [Invocation.run, Invocation.plan, h]
  rfl

theorem run_of_ok {contents : Except FileError ByteArray} {g : Graph}
    (h : load invocation.events contents = .ok g) :
    invocation.run environment contents writing =
      (perform g (invocation.config environment) (terminalWidth environment.columns)
        invocation.command).outcome writing := by
  rw [Invocation.run, Invocation.plan, h]

theorem run_exit (contents : Except FileError ByteArray) :
    (invocation.run environment contents writing).exit =
      exitCode contents writing invocation.command := by
  rcases load_cases invocation.events contents with ⟨held, complaint, failed⟩ |
    ⟨events, held, unbalanced, complaint, failed⟩ | ⟨events, g, held, balanced, -, loaded, names⟩
  · rw [run_of_error invocation environment writing failed, exitCode, held]
    rfl
  · rw [run_of_error invocation environment writing failed, exitCode, held]
    simp only [unbalanced, if_false]
    rfl
  · rw [run_of_ok invocation environment writing loaded, perform_exit names, exitCode, held]
    simp only [balanced, if_true]

theorem run_unloaded {contents : Except FileError ByteArray} (h : ¬ Loads contents) :
    (invocation.run environment contents writing).shown = [] := by
  rcases load_cases invocation.events contents with ⟨-, complaint, failed⟩ |
    ⟨-, -, -, complaint, failed⟩ | ⟨events, g, held, balanced, -⟩
  · rw [run_of_error invocation environment writing failed]
    rfl
  · rw [run_of_error invocation environment writing failed]
    rfl
  · exact absurd ⟨events, held, balanced⟩ h

theorem run_unknown {contents : Except FileError ByteArray} {events : List Event} {name : String}
    (held : report contents = some events) (balanced : Event.Balanced 0 events)
    (asked : invocation.command.trace?.bind Trace.subject? = some name)
    (unknown : ¬ Event.Mentions events name) :
    (invocation.run environment contents writing).shown =
      notFound (invocation.config environment) name := by
  rcases load_cases invocation.events contents with ⟨none, -⟩ |
    ⟨others, other, unbalanced, -⟩ | ⟨others, g, same, -, -, loaded, names⟩
  · rw [held] at none
    cases none
  · rw [held] at other
    cases other
    exact absurd balanced unbalanced
  · rw [held] at same
    cases same
    obtain ⟨trace, shows, subject⟩ := Option.bind_eq_some_iff.mp asked
    have absent : name ∉ g.vertices.map Vertex.name := mt (names name).mp unknown
    rw [run_of_ok invocation environment writing loaded, perform_trace shows,
      showTrace_unknown subject absent]
    rfl

/-- A file is written only with a format for the graph of a balanced report. -/
theorem plan_save {contents : Except FileError ByteArray} {path text : String}
    (planned : invocation.plan environment contents = .save path text) :
    ∃ events g name format, report contents = some events ∧ Event.Balanced 0 events ∧
      Graph.ofEvents events = .ok g ∧ invocation.command = .save name path ∧
      Format.ofName? name = some format ∧ text = g.render format := by
  rcases load_cases invocation.events contents with ⟨-, complaint, failed⟩ |
    ⟨-, -, -, complaint, failed⟩ | ⟨events, g, held, balanced, made, loaded, -⟩
  · rw [Invocation.plan, failed] at planned
    cases planned
  · rw [Invocation.plan, failed] at planned
    cases planned
  · rw [Invocation.plan, loaded] at planned
    obtain ⟨name, format, saves, named, rendered⟩ := perform_save planned
    exact ⟨events, g, name, format, held, balanced, made, saves, named, rendered⟩

theorem plan_done {contents : Except FileError ByteArray} {outcome : Outcome}
    (planned : invocation.plan environment contents = .done outcome) : outcome.written = none := by
  rcases load_cases invocation.events contents with ⟨-, complaint, failed⟩ |
    ⟨-, -, -, complaint, failed⟩ | ⟨-, g, -, -, -, loaded, -⟩
  · rw [Invocation.plan, failed] at planned
    cases planned
    rfl
  · rw [Invocation.plan, failed] at planned
    cases planned
    rfl
  · rw [Invocation.plan, loaded] at planned
    exact perform_written planned

theorem run_written {contents : Except FileError ByteArray} {path text : String} :
    (invocation.run environment contents writing).written = some (path, text) ↔
      invocation.plan environment contents = .save path text ∧ writing path = .ok () := by
  rw [Invocation.run]
  cases planned : invocation.plan environment contents with
  | done outcome =>
    rw [Plan.outcome, plan_done invocation environment planned]
    simp
  | save output rendered =>
    rw [Plan.outcome]
    cases written : writing output with
    | ok =>
      constructor
      · intro same
        cases same
        exact ⟨rfl, written⟩
      · rintro ⟨same, -⟩
        cases same
        rfl
    | error reason =>
      constructor
      · intro absurd
        cases absurd
      · rintro ⟨same, done⟩
        cases same
        rw [written] at done
        cases done

end

/-- **Exit codes classify failures.** A run ends with 3 if its file cannot be opened or is no
report, else with 2 if the report leaves more than it has entered, else with 1 for a type that the
report does not mention or a format without a name, else with 3 if the file to write cannot be
written, and else with 0. So 2 says that the report is not balanced and nothing else. Where the
report is not loaded nothing is displayed, of an unknown type it is told that it is not found, and a
file is written only for a loaded report and a known format. -/
theorem run_classified (invocation : Invocation) (environment : Environment)
    (contents : Except FileError ByteArray) (writing : String → Except String Unit) :
    (invocation.run environment contents writing).exit =
      exitCode contents writing invocation.command ∧
    ((invocation.run environment contents writing).exit = 2 ↔
      ∃ events, report contents = some events ∧ ¬ Event.Balanced 0 events) ∧
    (¬ Loads contents →
      (invocation.run environment contents writing).shown = [] ∧
      (invocation.run environment contents writing).output environment = "") ∧
    (∀ events name, report contents = some events → Event.Balanced 0 events →
      invocation.command = .forward (some name) ∨ invocation.command = .backward (some name) →
      ¬ Event.Mentions events name →
      (invocation.run environment contents writing).shown =
        [⟨"type \"" ++ name ++ "\" not found",
            if (invocation.config environment).color then some .red else none⟩,
          ⟨"\n", none⟩]) ∧
    (∀ path text, invocation.plan environment contents = .save path text →
      ∃ events g name format, report contents = some events ∧ Event.Balanced 0 events ∧
        Graph.ofEvents events = .ok g ∧ invocation.command = .save name path ∧
        name ∈ formatNames ∧ Format.ofName? name = some format ∧ text = g.render format) ∧
    ∀ path text, (invocation.run environment contents writing).written = some (path, text) ↔
      invocation.plan environment contents = .save path text ∧ writing path = .ok () := by
  have exit := run_exit invocation environment writing contents
  refine ⟨exit, ?_, ?_, ?_, ?_, ?_⟩
  · rw [exit]
    exact exitCode_eq_two_iff contents writing invocation.command
  · intro unloaded
    have nothing := run_unloaded invocation environment writing unloaded
    refine ⟨nothing, ?_⟩
    rw [Outcome.output, nothing]
    rfl
  · intro events name held balanced asked unknown
    apply run_unknown invocation environment writing held balanced ?_ unknown
    rcases asked with asked | asked <;> rw [asked] <;> rfl
  · intro path text planned
    obtain ⟨events, g, name, format, held, balanced, made, saves, named, rendered⟩ :=
      plan_save invocation environment planned
    have listed : name ∈ formatNames := by
      by_contra absent
      rw [(ofName?_eq_none_iff name).mpr absent] at named
      cases named
    exact ⟨events, g, name, format, held, balanced, made, saves, listed, named, rendered⟩
  · intro path text
    exact run_written invocation environment writing

end CommandLine

end TemplateTrace
