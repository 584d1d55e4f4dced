import TemplateTrace.Display
import TemplateTrace.Walk

namespace TemplateTrace

/-- The frames to step into, the current one first, each with the kind it is reached by; the
vertices expanded and the steps taken so far. -/
structure Session where
  stack : List (Nat × Option Kind)
  discovered : Discovered
  steps : Nat
  deriving DecidableEq, Repr

namespace Session

def start (g : Graph) : Session where
  stack := if 0 < g.vertexCount then [(Graph.root, none)] else []
  discovered := .forGraph g
  steps := 0

/-- The frame the next step will leave; there is none once the metaprogram is walked. -/
def current? (session : Session) : Option (Nat × Option Kind) := session.stack.head?

def isFinished (session : Session) : Bool := session.stack.isEmpty

/-- The frames a vertex leads to, in the order of its edges. -/
def below (g : Graph) (id : Nat) : List (Nat × Option Kind) :=
  (g.outEdges id).map fun edge => (edge.target, some edge.kind)

/-- Leaves the current frame; a vertex is expanded the first time it is left. A finished session
cannot step. -/
def step? (g : Graph) (session : Session) : Option Session :=
  match session.stack with
  | [] => none
  | (id, _) :: rest =>
    if session.discovered.lacks id then
      some ⟨below g id ++ rest, session.discovered.mark id, session.steps + 1⟩
    else
      some ⟨rest, session.discovered, session.steps + 1⟩

theorem step?_decreases {g : Graph} {session next : Session} (h : session.step? g = some next) :
    next.discovered.missing < session.discovered.missing ∨
      next.discovered.missing = session.discovered.missing ∧
        next.stack.length < session.stack.length := by
  unfold step? at h
  split at h
  · contradiction
  · next id _ rest stack =>
    by_cases fresh : session.discovered.lacks id
    · simp only [fresh, if_true, Option.some.injEq] at h
      exact .inl (h ▸ Discovered.missing_mark_lt fresh)
    · simp only [fresh, Bool.false_eq_true, if_false, Option.some.injEq] at h
      refine .inr ?_
      simp [← h, stack]

/-- Steps so many times or until the end, and says how many steps that were. -/
def stepMany (g : Graph) (session : Session) : Nat → Nat × Session
  | 0 => (0, session)
  | count + 1 =>
    match session.step? g with
    | none => (0, session)
    | some next =>
      let (taken, last) := next.stepMany g count
      (taken + 1, last)

/-- Steps until the end, and says how many steps that were. -/
def run (g : Graph) (session : Session) : Nat × Session :=
  match _h : session.step? g with
  | none => (0, session)
  | some next =>
    let (taken, last) := next.run g
    (taken + 1, last)
termination_by (session.discovered.missing, session.stack.length)
decreasing_by
  rcases step?_decreases _h with less | ⟨same, less⟩
  · exact Prod.Lex.left _ _ less
  · exact same ▸ Prod.Lex.right _ less

/-- What is shown when there is nothing left to step into, in the colour of failures always. -/
def emptyStack : Segment := ⟨"Stack is empty\n", some .failure⟩

def showCurrent (g : Graph) (session : Session) : Segment :=
  match session.current? with
  | some (id, _) => ⟨g.name id ++ "\n", none⟩
  | none => emptyStack

/-- Steps once and shows the frame reached, or shows that there is nothing to step into. -/
def showStep (g : Graph) (session : Session) : Bool × Segment × Session :=
  match session.step? g with
  | some next => (true, next.showCurrent g, next)
  | none => (false, emptyStack, session)

end Session

end TemplateTrace
