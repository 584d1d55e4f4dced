import Mathlib.Data.Finset.Card
import TemplateTrace.Proofs.Sweep
import TemplateTrace.Session

/-!
# Sessions in step with the full forward trace

A session keeps neither depths nor counts, and is taken up again after every pause. Yet at every
pause it stands at the frame of the full forward trace whose number is the number of steps taken
(`play_agrees`), whatever was done with it before.

`Lockstep` carries the proof: the frames stepped over, followed by the sweep of what is left on the
stack, are the full forward trace. Every other fact is about `paused`, the session after so many
steps from the start, which `step?_paused` describes by the number of steps alone.
-/

namespace TemplateTrace

theorem Discovered.size_eq_card {d : Discovered} {ids : List Nat}
    (marked : ∀ id, d.contains id = true ↔ id ∈ ids) : d.size = ids.toFinset.card := by
  have listed : d.marks = (List.range d.marks.length).map d.contains := by
    apply List.ext_getElem
    · simp
    · intro id hd hr
      simp [contains, hd]
  have size : d.size = ((List.range d.marks.length).filter d.contains).length := by
    rw [size, listed, List.count, List.countP_map, List.countP_eq_length_filter]
    simp [Function.comp_def]
  have same : ids.toFinset = ((List.range d.marks.length).filter d.contains).toFinset := by
    ext id
    simp only [List.mem_toFinset, List.mem_filter, List.mem_range, ← marked]
    refine ⟨fun known => ⟨?_, known⟩, And.right⟩
    apply Nat.lt_of_not_le
    intro beyond
    simp [contains, List.getElem?_eq_none beyond] at known
  rw [size, same, List.toFinset_card_of_nodup (List.nodup_range.filter _)]

namespace Session

inductive Action where
  | step
  | stepMany (count : Nat)
  | run
  | showStep
  | reset
  /-- A question that only looks at the session. -/
  | look
  deriving DecidableEq, Repr

/-- The number of steps that an action says it took, and the session after it. -/
def perform (g : Graph) (session : Session) : Action → Nat × Session
  | .step =>
    match session.step? g with
    | some next => (1, next)
    | none => (0, session)
  | .stepMany count => session.stepMany g count
  | .run => session.run g
  | .showStep =>
    let (stepped, _, next) := session.showStep g
    (stepped.toNat, next)
  | .reset => (0, start g)
  | .look => (0, session)

/-- The steps counted since the last reset, and the session, after one more action. -/
def record (g : Graph) (so : Nat × Session) (action : Action) : Nat × Session :=
  let (taken, next) := so.2.perform g action
  (if action = .reset then 0 else so.1 + taken, next)

/-- The steps counted since the last reset, and the session, after some actions. -/
def play (g : Graph) (actions : List Action) : Nat × Session :=
  actions.foldl (record g) (0, start g)

/-- The session after so many single steps; the last one stays. -/
def paused (g : Graph) : Nat → Session
  | 0 => start g
  | k + 1 => ((paused g k).step? g).getD (paused g k)

/-- The frames stepped over, then all that a walk would still visit, are the full forward trace.
The stack is that of the walk without its depths, and what is stepped over is what is marked. -/
structure Lockstep (g : Graph) (session : Session) (done stack : List Frame) : Prop where
  frames : Trace.fullForwardFrames g =
    done ++ (Walk.sweep g .outgoing stack session.discovered).1
  stacked : session.stack = stack.map fun frame => (frame.vertex, frame.kind)
  steps : session.steps = done.length
  inside : ∀ frame ∈ stack, frame.vertex < g.vertexCount
  sized : session.discovered.marks.length = g.vertexCount
  marked : ∀ id, session.discovered.contains id = true ↔ id ∈ done.map Frame.vertex

section
variable {g : Graph} (h : g.WellFormed)
include h

theorem lockstep_start : Lockstep g (start g) [] [⟨Graph.root, 0, none⟩] where
  frames := by rw [Trace.fullForwardFrames_eq_sweep]; rfl
  stacked := by
    change (if 0 < g.vertexCount then [(Graph.root, none)] else []) = _
    rw [if_pos (show 0 < g.vertexCount from h.root_lt)]
    rfl
  steps := rfl
  inside := by simpa using h.root_lt
  sized := by simp [start]
  marked := by simp [start]

theorem lockstep_step {session : Session} {frame : Frame} {done rest : List Frame}
    (ls : Lockstep g session done (frame :: rest)) :
    ∃ next stack, session.step? g = some next ∧ Lockstep g next (done ++ [frame]) stack := by
  have inside := ls.inside frame (by simp)
  have insideRest : ∀ other ∈ rest, other.vertex < g.vertexCount :=
    fun other ho => ls.inside other (by simp [ho])
  have reach : frame.vertex < session.discovered.marks.length := ls.sized ▸ inside
  have lacks := Discovered.lacks_eq reach
  have frames := ls.frames
  cases known : session.discovered.contains frame.vertex with
  | true =>
    rw [known] at lacks
    rw [Walk.sweep_known g .outgoing rest lacks] at frames
    refine ⟨⟨rest.map fun frame => (frame.vertex, frame.kind), session.discovered,
      session.steps + 1⟩, rest, ?_, ?_, rfl, ?_, insideRest, ls.sized, ?_⟩
    · simp [step?, ls.stacked, lacks]
    · simpa using frames
    · simp [ls.steps]
    · intro id
      rw [ls.marked, List.map_append, List.mem_append]
      refine ⟨.inl, ?_⟩
      rintro (seen | same)
      · exact seen
      · obtain rfl : id = frame.vertex := by simpa using same
        exact (ls.marked _).mp known
  | false =>
    rw [known] at lacks
    rw [Walk.sweep_fresh g .outgoing rest lacks] at frames
    refine ⟨⟨(Walk.below g .outgoing frame ++ rest).map fun frame => (frame.vertex, frame.kind),
      session.discovered.mark frame.vertex, session.steps + 1⟩,
      Walk.below g .outgoing frame ++ rest, ?_, ?_, rfl, ?_, ?_, ?_, ?_⟩
    · simp [step?, ls.stacked, lacks, below, Walk.below, Graph.outEdges, Direction.far]
    · simpa using frames
    · simp [ls.steps]
    · intro other ho
      rcases List.mem_append.mp ho with ho | ho
      · rw [Walk.below, h.edgesAt_eq_incident] at ho
        obtain ⟨edge, he, rfl⟩ := List.mem_map.mp ho
        exact h.far_lt .outgoing (List.mem_filter.mp he).1
      · exact insideRest other ho
    · simp [ls.sized]
    · intro id
      rw [Discovered.contains_mark reach, ls.marked, List.map_append, List.mem_append, or_comm]
      simp

omit h in
/-- The frame on top of the stack is the next one of the full forward trace. -/
theorem Lockstep.next_frame {session : Session} {done stack : List Frame}
    (ls : Lockstep g session done stack) :
    (Trace.fullForwardFrames g)[session.steps]? = stack.head? := by
  rw [ls.frames, ls.steps, List.getElem?_append_right (Nat.le_refl _), Nat.sub_self,
    ← List.head?_eq_getElem?, Walk.sweep_head?]

theorem lockstep_paused {k : Nat} (within : k ≤ (Trace.fullForwardFrames g).length) :
    ∃ stack, Lockstep g (paused g k) ((Trace.fullForwardFrames g).take k) stack := by
  induction k with
  | zero => exact ⟨_, lockstep_start h⟩
  | succ k ih =>
    obtain ⟨stack, ls⟩ := ih (by omega)
    have steps : (paused g k).steps = k := by rw [ls.steps, List.length_take]; omega
    have top := ls.next_frame
    rw [steps, List.getElem?_eq_getElem (by omega)] at top
    obtain ⟨rest, rfl⟩ := List.head?_eq_some_iff.mp top.symm
    obtain ⟨next, stack, stepped, ls⟩ := lockstep_step h ls
    have reached : paused g (k + 1) = next := by simp [paused, stepped]
    rw [List.take_append_getElem] at ls
    exact ⟨stack, reached ▸ ls⟩

theorem steps_paused {k : Nat} (within : k ≤ (Trace.fullForwardFrames g).length) :
    (paused g k).steps = k := by
  obtain ⟨stack, ls⟩ := lockstep_paused h within
  rw [ls.steps, List.length_take]
  omega

theorem current?_paused {k : Nat} (within : k ≤ (Trace.fullForwardFrames g).length) :
    (paused g k).current? =
      (Trace.fullForwardFrames g)[k]?.map fun frame => (frame.vertex, frame.kind) := by
  obtain ⟨stack, ls⟩ := lockstep_paused h within
  have top := ls.next_frame
  rw [steps_paused h within] at top
  rw [current?, ls.stacked, List.head?_map, top]

theorem size_discovered_paused {k : Nat} (within : k ≤ (Trace.fullForwardFrames g).length) :
    (paused g k).discovered.size =
      (((Trace.fullForwardFrames g).take k).map Frame.vertex).toFinset.card := by
  obtain ⟨stack, ls⟩ := lockstep_paused h within
  exact Discovered.size_eq_card ls.marked

/-- A step leads to the next pause, and fails exactly at the end of the trace. -/
theorem step?_paused {k : Nat} (within : k ≤ (Trace.fullForwardFrames g).length) :
    (paused g k).step? g =
      if k < (Trace.fullForwardFrames g).length then some (paused g (k + 1)) else none := by
  obtain ⟨stack, ls⟩ := lockstep_paused h within
  have top := ls.next_frame
  rw [steps_paused h within] at top
  cases stack with
  | nil =>
    have finished := List.getElem?_eq_none_iff.mp top
    rw [if_neg (by omega), step?, ls.stacked]
    rfl
  | cons frame rest =>
    obtain ⟨more, -⟩ := List.getElem?_eq_some_iff.mp top
    obtain ⟨next, _, stepped, _⟩ := lockstep_step h ls
    rw [if_pos more, paused, stepped]
    rfl

theorem stepMany_paused (n : Nat) {k : Nat} (within : k ≤ (Trace.fullForwardFrames g).length) :
    (paused g k).stepMany g n =
      (min n ((Trace.fullForwardFrames g).length - k),
        paused g (k + min n ((Trace.fullForwardFrames g).length - k))) := by
  induction n generalizing k with
  | zero => simp [stepMany]
  | succ n ih =>
    rw [stepMany, step?_paused h within]
    by_cases more : k < (Trace.fullForwardFrames g).length
    · have next : k + 1 ≤ (Trace.fullForwardFrames g).length := more
      have taken : min n ((Trace.fullForwardFrames g).length - (k + 1)) + 1 =
          min (n + 1) ((Trace.fullForwardFrames g).length - k) := by omega
      have place : k + 1 + min n ((Trace.fullForwardFrames g).length - (k + 1)) =
          k + min (n + 1) ((Trace.fullForwardFrames g).length - k) := by omega
      rw [if_pos more]
      simp only [ih next]
      rw [taken, place]
    · have finished : (Trace.fullForwardFrames g).length - k = 0 := by omega
      simp [more, finished]

theorem run_paused {k : Nat} (within : k ≤ (Trace.fullForwardFrames g).length) :
    (paused g k).run g =
      ((Trace.fullForwardFrames g).length - k, paused g (Trace.fullForwardFrames g).length) := by
  generalize left : (Trace.fullForwardFrames g).length - k = count
  induction count generalizing k with
  | zero =>
    obtain rfl : k = (Trace.fullForwardFrames g).length := by omega
    have stuck := step?_paused h within
    rw [if_neg (Nat.lt_irrefl _)] at stuck
    rw [run]
    split
    · rfl
    · next stepped => rw [stuck] at stepped; contradiction
  | succ count ih =>
    have stepped := step?_paused h within
    rw [if_pos (by omega)] at stepped
    rw [run]
    split
    · next stuck => rw [stepped] at stuck; contradiction
    · next other found =>
      rw [stepped] at found
      cases found
      rw [ih (by omega) (by omega)]

theorem showStep_paused {k : Nat} (within : k ≤ (Trace.fullForwardFrames g).length) :
    (paused g k).showStep g =
      if k < (Trace.fullForwardFrames g).length then
        (true, (paused g (k + 1)).showCurrent g, paused g (k + 1))
      else (false, emptyStack, paused g k) := by
  rw [showStep, step?_paused h within]
  split
  · next stepped => split at stepped <;> simp_all
  · next stepped => split at stepped <;> simp_all

/-- An action that is no reset moves from pause to pause, by the steps it says it took. -/
theorem perform_paused {k : Nat} (within : k ≤ (Trace.fullForwardFrames g).length)
    {action : Action} (kept : action ≠ .reset) :
    ∃ taken, k + taken ≤ (Trace.fullForwardFrames g).length ∧
      (paused g k).perform g action = (taken, paused g (k + taken)) := by
  cases action with
  | step =>
    by_cases more : k < (Trace.fullForwardFrames g).length
    · exact ⟨1, more, by simp [perform, step?_paused h within, more]⟩
    · exact ⟨0, within, by simp [perform, step?_paused h within, more]⟩
  | stepMany n => exact ⟨_, by omega, stepMany_paused h n within⟩
  | run =>
    have last : k + ((Trace.fullForwardFrames g).length - k) =
        (Trace.fullForwardFrames g).length := by omega
    exact ⟨_, Nat.le_of_eq last, by rw [perform, run_paused h within, last]⟩
  | showStep =>
    by_cases more : k < (Trace.fullForwardFrames g).length
    · exact ⟨1, more, by simp [perform, showStep_paused h within, more]⟩
    · exact ⟨0, within, by simp [perform, showStep_paused h within, more]⟩
  | reset => contradiction
  | look => exact ⟨0, within, rfl⟩

/-- Whatever is done with a session, it stands where as many single steps as were counted lead. -/
theorem play_paused (actions : List Action) :
    (play g actions).1 ≤ (Trace.fullForwardFrames g).length ∧
      (play g actions).2 = paused g (play g actions).1 := by
  have run : ∀ (rest : List Action) (k : Nat), k ≤ (Trace.fullForwardFrames g).length →
      (rest.foldl (record g) (k, paused g k)).1 ≤ (Trace.fullForwardFrames g).length ∧
        (rest.foldl (record g) (k, paused g k)).2 =
          paused g (rest.foldl (record g) (k, paused g k)).1 := by
    intro rest
    induction rest with
    | nil => exact fun k within => ⟨within, rfl⟩
    | cons action rest ih =>
      intro k within
      rw [List.foldl_cons]
      by_cases back : action = .reset
      · have again : record g (k, paused g k) action = (0, paused g 0) := by
          simp [record, back, perform, paused]
        rw [again]
        exact ih 0 (Nat.zero_le _)
      · obtain ⟨taken, bound, moved⟩ := perform_paused h within back
        have on : record g (k, paused g k) action = (k + taken, paused g (k + taken)) := by
          simp [record, back, moved]
        rw [on]
        exact ih (k + taken) bound
  exact run actions 0 (Nat.zero_le _)

end

/-- A session in agreement with the full forward trace after `k` steps: where it stands, what it has
discovered, and what each way to step on answers and leaves behind. -/
structure Agrees (g : Graph) (k : Nat) (session : Session) : Prop where
  place : session = paused g k
  steps : session.steps = k
  within : k ≤ (Trace.fullForwardFrames g).length
  current : session.current? =
    (Trace.fullForwardFrames g)[k]?.map fun frame => (frame.vertex, frame.kind)
  exhausted : session.current? = none ↔ k = (Trace.fullForwardFrames g).length
  finished : session.isFinished = true ↔ k = (Trace.fullForwardFrames g).length
  discovered : session.discovered.size =
    (((Trace.fullForwardFrames g).take k).map Frame.vertex).toFinset.card
  stepped : (session.step? g).isSome = true ↔ k < (Trace.fullForwardFrames g).length
  stepOn : k < (Trace.fullForwardFrames g).length → session.step? g = some (paused g (k + 1))
  stepMany : ∀ n, session.stepMany g n =
    (min n ((Trace.fullForwardFrames g).length - k),
      paused g (k + min n ((Trace.fullForwardFrames g).length - k)))
  run : session.run g =
    ((Trace.fullForwardFrames g).length - k, paused g (Trace.fullForwardFrames g).length)
  shown : (session.showStep g).1 = true ↔ k < (Trace.fullForwardFrames g).length
  showOn : k < (Trace.fullForwardFrames g).length → (session.showStep g).2.2 = paused g (k + 1)
  idle : k = (Trace.fullForwardFrames g).length →
    ∀ action, action ≠ .reset → session.perform g action = (0, session)

theorem agrees_paused {g : Graph} (h : g.WellFormed) {k : Nat}
    (within : k ≤ (Trace.fullForwardFrames g).length) : Agrees g k (paused g k) where
  place := rfl
  steps := steps_paused h within
  within := within
  current := current?_paused h within
  exhausted := by
    rw [current?_paused h within, Option.map_eq_none_iff, List.getElem?_eq_none_iff]
    omega
  finished := by
    have top := current?_paused h within
    rw [current?] at top
    rw [isFinished, List.isEmpty_iff, ← List.head?_eq_none_iff, top, Option.map_eq_none_iff,
      List.getElem?_eq_none_iff]
    omega
  discovered := size_discovered_paused h within
  stepped := by
    rw [step?_paused h within]
    split <;> simp [*]
  stepOn more := by rw [step?_paused h within, if_pos more]
  stepMany n := stepMany_paused h n within
  run := run_paused h within
  shown := by
    rw [showStep_paused h within]
    split <;> simp [*]
  showOn more := by rw [showStep_paused h within, if_pos more]
  idle last action kept := by
    obtain ⟨taken, bound, moved⟩ := perform_paused h within kept
    obtain rfl : taken = 0 := by omega
    exact moved

/-- **Stepping agrees with the full forward trace at every pause.** After any actions, resets among
them, a session is in agreement with the trace at the number of steps counted since the last
reset. -/
theorem play_agrees {g : Graph} (reach : g.Reachable) (actions : List Action) :
    Agrees g (play g actions).1 (play g actions).2 := by
  have h := Graph.reachable_wellFormed reach
  obtain ⟨within, same⟩ := play_paused h actions
  rw [same]
  exact agrees_paused h within

/-- Three steps after a reset, a session on a cycle is back at its first vertex; so is the trace. -/
theorem play_agrees_twoWay :
    Graph.twoWay.Reachable ∧
    (play Graph.twoWay [.run, .reset, .step, .look, .showStep, .stepMany 1]).1 = 3 ∧
    (play Graph.twoWay [.run, .reset, .step, .look, .showStep, .stepMany 1]).2.current? =
      some (1, some .memoization) ∧
    (Trace.fullForwardFrames Graph.twoWay)[3]?.map (fun frame => (frame.vertex, frame.kind)) =
      some (1, some .memoization) := by
  have reach : Graph.twoWay.Reachable := Graph.reachable_calls _
  have agrees := play_agrees reach [.run, .reset, .step, .look, .showStep, .stepMany 1]
  have counted : (play Graph.twoWay
      [.run, .reset, .step, .look, .showStep, .stepMany 1]).1 = 3 := by decide
  have stands : (play Graph.twoWay
      [.run, .reset, .step, .look, .showStep, .stepMany 1]).2.current? =
        some (1, some .memoization) := by decide
  have current := agrees.current
  rw [counted, stands] at current
  exact ⟨reach, counted, stands, current.symm⟩

end Session

end TemplateTrace
