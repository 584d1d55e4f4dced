import TemplateTrace.Proofs.ExitCodes
import TemplateTrace.Proofs.Lockstep

namespace TemplateTrace

def Segment.bare (segments : List Segment) : List Segment :=
  segments.map fun segment => segment.tinted false

namespace Segment

theorem color_bare {segments : List Segment} {segment : Segment} (h : segment ∈ bare segments) :
    segment.color = none := by
  obtain ⟨tinted, -, rfl⟩ := List.mem_map.mp h
  rfl

theorem texts_bare (segments : List Segment) : (bare segments).map text = segments.map text := by
  rw [bare, List.map_map]
  rfl

theorem bare_flatMap {α : Type} (items : List α) (shown : α → List Segment) :
    bare (items.flatMap shown) = items.flatMap fun item => bare (shown item) :=
  List.map_flatMap

theorem tinted_of_colorless {segment : Segment} (h : segment.color = none) :
    segment.tinted false = segment := by
  cases segment
  cases h
  rfl

end Segment

theorem Line.shown_bare (line : Line) : line.shown false = Segment.bare (line.shown true) := by
  simp only [shown, Segment.bare, List.map_append, List.map_map]
  rfl

theorem Trace.showVisit_bare (g : Graph) (wide : Option UInt64) (width : UInt64) (visit : Visit) :
    showVisit g ⟨wide, false⟩ width visit =
      Segment.bare (showVisit g ⟨wide, true⟩ width visit) := by
  simp only [showVisit, Segment.bare_flatMap, ← Line.shown_bare]
  rfl

theorem Trace.displayed_bare (g : Graph) (wide : Option UInt64) (width : UInt64) (trace : Trace) :
    trace.displayed g ⟨wide, false⟩ width =
      (Segment.bare (trace.displayed g ⟨wide, true⟩ width).1,
        (trace.displayed g ⟨wide, true⟩ width).2) := by
  unfold displayed
  cases trace.visits g with
  | error fault => rfl
  | ok visits => simp only [Segment.bare_flatMap, ← showVisit_bare]

namespace Session

section
variable {g : Graph} (h : g.WellFormed)
include h

theorem fullForwardFrames_pos : 0 < (Trace.fullForwardFrames g).length := by
  have top := (lockstep_start h).next_frame
  exact (List.getElem?_eq_some_iff.mp top).1

/-- At a pause within the trace a name is shown, in the default style. -/
theorem color_showCurrent_paused {k : Nat} (more : k < (Trace.fullForwardFrames g).length) :
    ((paused g k).showCurrent g).color = none := by
  rw [showCurrent, current?_paused h more.le, List.getElem?_eq_getElem more]
  rfl

theorem showCurrent_paused_end :
    (paused g (Trace.fullForwardFrames g).length).showCurrent g = emptyStack := by
  rw [showCurrent, current?_paused h (Nat.le_refl _), List.getElem?_eq_none (Nat.le_refl _)]
  rfl

theorem start_stepMany (n : Nat) :
    ((start g).stepMany g n).2 = paused g (min n (Trace.fullForwardFrames g).length) := by
  have taken := stepMany_paused h n (Nat.zero_le _)
  rw [Nat.sub_zero, Nat.zero_add] at taken
  exact congrArg Prod.snd taken

end

end Session

namespace CommandLine

def Outcome.bare (outcome : Outcome) : Outcome :=
  { outcome with shown := Segment.bare outcome.shown }

/-- The command steps past the last frame of the full forward trace. -/
def Exhausts (g : Graph) (command : Command) : Prop :=
  ∃ count, command = .step count ∧ (Trace.fullForwardFrames g).length ≤ count.toNat

/-- What is shown in the default style with colour on is shown so without. -/
theorem Outcome.bare_showing {segment : Segment} (h : segment.color = none) (exit : Nat) :
    ({ exit, shown := [segment] } : Outcome).bare = { exit, shown := [segment] } := by
  rw [bare, Segment.bare, List.map_singleton, Segment.tinted_of_colorless h]

theorem showTrace_bare (g : Graph) (wide : Option UInt64) (width : UInt64) (trace : Trace) :
    showTrace g ⟨wide, false⟩ width trace = (showTrace g ⟨wide, true⟩ width trace).bare := by
  unfold showTrace
  rw [Trace.displayed_bare]
  cases trace.displayed g ⟨wide, true⟩ width with
  | mk shown result =>
    cases result with
    | ok => rfl
    | error fault =>
      dsimp only
      split
      next => rfl
      next => simp [Outcome.bare, Segment.bare, Segment.tinted]

section
variable {g : Graph} (h : g.WellFormed) (wide : Option UInt64) (width : UInt64)
include h

theorem perform_bare {command : Command} (shows : ∀ format output, command ≠ .save format output)
    (inside : ¬ Exhausts g command) :
    ∃ outcome, perform g ⟨wide, true⟩ width command = .done outcome ∧
      perform g ⟨wide, false⟩ width command = .done outcome.bare := by
  -- The commands that show a frame do not see the configuration: what they show has to be bare
  -- with colour on already.
  cases command with
  | forward name =>
    cases name <;> exact ⟨_, rfl, congrArg Plan.done (showTrace_bare g wide width _)⟩
  | backward name =>
    cases name <;> exact ⟨_, rfl, congrArg Plan.done (showTrace_bare g wide width _)⟩
  | step count =>
    have more : count.toNat < (Trace.fullForwardFrames g).length := by
      apply Nat.lt_of_not_le
      intro past
      exact inside ⟨count, rfl, past⟩
    have plain : (((Session.start g).stepMany g count.toNat).2.showCurrent g).color = none := by
      rw [Session.start_stepMany h, Nat.min_eq_left more.le]
      exact Session.color_showCurrent_paused h more
    exact ⟨_, rfl, congrArg Plan.done (Outcome.bare_showing plain 0).symm⟩
  | finish => exact ⟨_, rfl, rfl⟩
  | frame =>
    have plain : ((Session.start g).showCurrent g).color = none :=
      Session.color_showCurrent_paused h (Session.fullForwardFrames_pos h)
    exact ⟨_, rfl, congrArg Plan.done (Outcome.bare_showing plain 0).symm⟩
  | save format output => exact absurd rfl (shows format output)

theorem perform_exhausted {command : Command} (past : Exhausts g command) (config : Config) :
    perform g config width command = .done { exit := 0, shown := [Session.emptyStack] } := by
  obtain ⟨count, rfl, past⟩ := past
  rw [perform, Session.start_stepMany h, Nat.min_eq_right past, Session.showCurrent_paused_end h]

end

/-- **Disabling colour changes no text, and drops every colour but one.** A command that shows
something ends alike with and without colour and shows the same texts in the same order. Without
colour all of them are in the default style, unless the command steps past the end of the trace:
then there is one message, and it is red. -/
theorem perform_colorless {g : Graph} (reach : g.Reachable) (wide : Option UInt64) (width : UInt64)
    (command : Command) (shows : ∀ format output, command ≠ .save format output) :
    ∃ plain colored : Outcome,
      perform g ⟨wide, false⟩ width command = .done plain ∧
      perform g ⟨wide, true⟩ width command = .done colored ∧
      plain.exit = colored.exit ∧
      plain.shown.map Segment.text = colored.shown.map Segment.text ∧
      ((∀ segment ∈ plain.shown, segment.color = none) ↔ ¬ Exhausts g command) ∧
      (Exhausts g command → plain.shown = [⟨"Stack is empty\n", some .red⟩]) := by
  have h := Graph.reachable_wellFormed reach
  by_cases past : Exhausts g command
  · have same := perform_exhausted h width past
    refine ⟨_, _, same _, same _, rfl, rfl, ?_, fun _ => rfl⟩
    have red : ¬ ∀ segment ∈ [Session.emptyStack], segment.color = none := by decide
    exact iff_of_false red (not_not_intro past)
  · obtain ⟨outcome, colored, plain⟩ := perform_bare h wide width shows past
    refine ⟨_, _, plain, colored, rfl, Segment.texts_bare _, ?_, fun reached => absurd reached past⟩
    exact iff_of_true (fun segment => Segment.color_bare) past

/-- On a cycle of two, the frame after three steps is shown in the default style; the fourth step
leaves the trace. -/
theorem perform_colorless_twoWay :
    Graph.twoWay.Reachable ∧
    ¬ Exhausts .twoWay (.step 3) ∧ Exhausts .twoWay (.step 4) ∧
    (∃ plain colored : Outcome,
      perform .twoWay ⟨none, false⟩ 80 (.step 3) = .done plain ∧
      perform .twoWay ⟨none, true⟩ 80 (.step 3) = .done colored ∧
      plain.shown.map Segment.text = colored.shown.map Segment.text ∧
      ∀ segment ∈ plain.shown, segment.color = none) ∧
    ∃ plain : Outcome, perform .twoWay ⟨none, false⟩ 80 (.step 4) = .done plain ∧
      plain.shown = [⟨"Stack is empty\n", some .red⟩] := by
  have reach : Graph.twoWay.Reachable := Graph.reachable_calls _
  have frames : (Trace.fullForwardFrames .twoWay).length = 4 := by cbv
  have inside : ¬ Exhausts .twoWay (.step 3) := by
    rintro ⟨count, same, past⟩
    cases same
    rw [frames] at past
    exact absurd past (by decide)
  have past : Exhausts .twoWay (.step 4) := ⟨4, rfl, frames.le⟩
  refine ⟨reach, inside, past, ?_, ?_⟩
  · obtain ⟨plain, colored, left, right, -, texts, colorless, -⟩ :=
      perform_colorless reach none 80 (.step 3) (by simp)
    exact ⟨plain, colored, left, right, texts, colorless.mpr inside⟩
  · obtain ⟨plain, -, left, -, -, -, -, red⟩ :=
      perform_colorless reach none 80 (.step 4) (by simp)
    exact ⟨plain, left, red past⟩

/-- One step past the root of a graph without edges the message is red, colour or not. -/
theorem perform_step_red :
    Graph.empty.Reachable ∧
    ¬ ∃ plain : Outcome, perform .empty ⟨none, false⟩ 80 (.step 1) = .done plain ∧
      ∀ segment ∈ plain.shown, segment.color = none := by
  refine ⟨.start, ?_⟩
  rintro ⟨plain, performed, colorless⟩
  have red : perform .empty ⟨none, false⟩ 80 (.step 1) =
      .done { exit := 0, shown := [⟨"Stack is empty\n", some .red⟩] } := by decide +kernel
  rw [red] at performed
  cases performed
  exact absurd (colorless _ List.mem_cons_self) (by decide)

end CommandLine

end TemplateTrace
