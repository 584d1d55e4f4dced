import TemplateTrace.Graph
import TemplateTrace.Text

/-!
# The head of a printed name

A printed name starts with a chain of qualifiers joined by `::`, itself optionally led by `::`. A
qualifier is an identifier or one of five markers for entities without a name. The chain ends where
no further qualifier follows, usually at the `<` of a template argument list, and its last qualifier
is the head of the name: `Outer` in `ns::Outer<int>::Inner`.
-/

namespace TemplateTrace.NameHead

/-- The characters an identifier may start with. -/
def startsIdentifier (c : Char) : Bool := c == '_' || c.isAlpha

/-- The characters an identifier may go on with. -/
def continuesIdentifier (c : Char) : Bool := c == '_' || c.isAlphanum

/-- What stands for an entity without a name. -/
def markers : List String :=
  ["(anonymous namespace)", "<anonymous>", "<anonymous struct>", "<anonymous class>",
    "<anonymous union>"]

/-- The length of the qualifier at the start of a text: an identifier as long as it goes, or a
marker. -/
def qualifierLength? : List Char → Option Nat
  | [] => none
  | c :: rest =>
    if startsIdentifier c then
      some ((rest.takeWhile continuesIdentifier).length + 1)
    else
      (markers.find? (fun marker => marker.toList.isPrefixOf (c :: rest))).map String.length

/-- The last qualifier of the chain at the start of a text, the text standing at `position`.
`repetition` is the qualifier before it, if a `::` follows that one; it is given back where no
further qualifier stands. -/
def scanChain (position : Nat) (repetition : Option Text.Span) (text : List Char) :
    Option Text.Span :=
  match qualifierLength? text with
  | none => repetition
  | some length =>
    match _h : text.drop length with
    | ':' :: ':' :: rest =>
      scanChain (position + length + 2) (some ⟨position, position + length⟩) rest
    | _ => some ⟨position, position + length⟩
termination_by text.length
decreasing_by
  have shorter := congrArg List.length _h
  simp only [List.length_drop, List.length_cons] at shorter
  omega

/-- Where the chain of a name may start: behind a leading `::`, and at the front. -/
def chainStarts : List Char → List Nat
  | ':' :: ':' :: _ => [2, 0]
  | _ => [0]

/-- The head of a name from the first start that has a chain. -/
def scanName (text : List Char) : Option Text.Span :=
  (chainStarts text).findSome? fun start => scanChain start none (text.drop start)

def head? (name : String) : Option Text.Span := scanName name.toList

/-- The head of a name; a name that starts with no chain is not recognised. -/
def head (name : String) : Except Fault Text.Span :=
  match head? name with
  | some span => .ok span
  | none => .error (.unrecognizedName name)

/-- What to emphasise of a name: its head, or nothing, at its end. -/
def emphasis (name : String) : Text.Span := (head? name).getD (.atEnd name.toList)

end TemplateTrace.NameHead
