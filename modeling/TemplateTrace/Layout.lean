import TemplateTrace.Display
import TemplateTrace.Graph
import TemplateTrace.NameHead

/-!
# Layout of a frame

A frame of a trace becomes one or more lines: a tree connector of two columns per level, then a
chunk of the frame's text.

```text
<root>
+ foo<int> (TemplateInstantiation)
| + bar<int> (Memoization)
+ baz<char> (TemplateInstantiation)
```

A level shows a bar while frames of that level are still waiting, and the frame's own level shows a
plus on its first line. Text wider than the room beside the connector is cut into chunks, one line
each; where the room is too small, nothing is cut.
-/

namespace TemplateTrace

structure Line where
  segments : List Segment
  deriving DecidableEq, Repr

namespace Line

def plain (line : Line) : String := Segment.plain line.segments

/-- The segments that show a line and its newline, in the default style unless colour is on. -/
def shown (line : Line) (colored : Bool) : List Segment :=
  line.segments.map (fun segment => segment.tinted colored) ++ [⟨"\n", none⟩]

end Line

namespace Layout

/-- The text of a frame: the name, and the kind it was reached by. -/
def frameText (name : String) : Option Kind → String
  | some kind => name ++ " (" ++ kind.name ++ ")"
  | none => name

@[simp] theorem frameText_none (name : String) : frameText name none = name := rfl

@[simp] theorem frameText_some (name : String) (kind : Kind) :
    frameText name (some kind) = name ++ (" (" ++ kind.name ++ ")") := by
  simp only [frameText, String.append_assoc]

/-- Whether frames are still waiting at a level; a level past the counts has none. -/
def isPending (pending : List Nat) (level : Nat) : Bool := 0 < pending.getD level 0

/-- A cell of a connector: a bar while frames of the level are waiting. -/
def cell (pending : List Nat) (level : Nat) : Segment :=
  ⟨if isPending pending level then "| " else "  ", some (.ofDepth level)⟩

/-- The cell of the frame's own level: a plus on the first line, then a bar or an unstyled blank. -/
def ownCell (pending : List Nat) (level : Nat) (isFirst : Bool) : Segment :=
  if isFirst then ⟨"+ ", some (.ofDepth level)⟩
  else if isPending pending level then ⟨"| ", some (.ofDepth level)⟩
  else ⟨"  ", none⟩

/-- The connector of a line: a cell for every level from one to the depth. -/
def connector (pending : List Nat) (isFirst : Bool) : Nat → List Segment
  | 0 => []
  | above + 1 =>
    (List.range above).map (fun level => cell pending (level + 1))
      ++ [ownCell pending (above + 1) isFirst]

/-- The segments of a chunk of the text: what comes before the emphasis, in it and after it, empty
parts left out. -/
def content (text : List Char) (chunk emphasis : Text.Span) : List Segment :=
  let before : Text.Span := ⟨chunk.start, min chunk.stop emphasis.start⟩
  let inside : Text.Span := ⟨max chunk.start emphasis.start, min chunk.stop emphasis.stop⟩
  let behind : Text.Span := ⟨max emphasis.stop chunk.start, chunk.stop⟩
  [(before, none), (inside, some Color.emphasis), (behind, none)].filterMap fun (span, color) =>
    if span.start < span.stop then some ⟨String.ofList (span.slice text), color⟩ else none

/-- With at most this many columns for it, text is not cut. -/
def leastRoom : Nat := 10

/-- The columns for text beside the connector; none if they are too few to cut text for them. -/
def room? (width depth : Nat) : Option Nat :=
  if width < leastRoom ∨ width - leastRoom ≤ 2 * depth then none else some (width - 2 * depth)

/-- The spans of so many characters that are shown on a line each. They fill the room, up to the
last one; without characters there is one empty span. -/
def chunks (count : Nat) : Option Nat → List Text.Span
  | none => [⟨0, count⟩]
  | some room =>
    if count = 0 then [⟨0, 0⟩]
    else (List.range ((count + room - 1) / room)).map fun index =>
      ⟨index * room, min (index * room + room) count⟩

/-- What is emphasised of a frame's text: the head of its name, and nothing of the root's. -/
def emphasis (name : String) : Text.Span :=
  if name = rootName then .atEnd name.toList else NameHead.emphasis name

/-- The lines of a frame at a depth. `pending` counts by level the frames still waiting. -/
def lines (name : String) (kind : Option Kind) (depth : Nat) (pending : List Nat) (width : Nat) :
    List Line :=
  let text := (frameText name kind).toList
  (chunks text.length (room? width depth)).mapIdx fun index chunk =>
    ⟨connector pending (index == 0) depth ++ content text chunk (emphasis name)⟩

end Layout

end TemplateTrace
