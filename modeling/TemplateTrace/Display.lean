import TemplateTrace.Text

namespace TemplateTrace

inductive Color where
  | red
  | green
  | yellow
  | blue
  | magenta
  | cyan
  | white
  deriving DecidableEq, Repr

namespace Color

def all : List Color := [red, green, yellow, blue, magenta, cyan, white]

def name : Color → String
  | red => "Red"
  | green => "Green"
  | yellow => "Yellow"
  | blue => "Blue"
  | magenta => "Magenta"
  | cyan => "Cyan"
  | white => "White"

def ofName? (text : String) : Option Color :=
  all.find? (fun color => color.name == text)

/-- The colours of connectors repeat every six levels; white is kept for emphasis. -/
def ofDepth (depth : Nat) : Color :=
  match depth % 6 with
  | 0 => red
  | 1 => green
  | 2 => yellow
  | 3 => blue
  | 4 => magenta
  | _ => cyan

/-- The head of a name is shown in this colour. -/
def emphasis : Color := white

/-- Messages about failures are shown in this colour. -/
def failure : Color := red

theorem ofName?_name (color : Color) : ofName? color.name = some color := by
  cases color <;> rfl

theorem ofDepth_ne_emphasis (depth : Nat) : ofDepth depth ≠ emphasis := by
  unfold ofDepth emphasis
  split <;> decide

end Color

structure Segment where
  text : String
  color : Option Color
  deriving DecidableEq, Repr

namespace Segment

/-- The segment in the default style unless colour is on. -/
def tinted (segment : Segment) (colored : Bool) : Segment :=
  { segment with color := if colored then segment.color else none }

/-- The texts of segments, in order, without their styles. -/
def plain (segments : List Segment) : String :=
  String.join (segments.map Segment.text)

end Segment

/-- What a display of a certain width has received. -/
structure Recording where
  width : UInt64
  segments : List Segment := []
  deriving DecidableEq, Repr

namespace Recording

def display (recording : Recording) (segment : Segment) : Recording :=
  { recording with segments := recording.segments ++ [segment] }

def text (recording : Recording) : String := Segment.plain recording.segments

def lines (recording : Recording) : List String := Text.lines recording.text

/-- Forgets every segment and keeps the width. -/
def clear (recording : Recording) : Recording := { recording with segments := [] }

end Recording

/-- A width to use instead of the display's own, and whether output is coloured. -/
structure Config where
  width : Option UInt64 := none
  color : Bool := true
  deriving DecidableEq, Repr

namespace Config

/-- Configuration from the values of a width variable and of a variable that turns colour off by
being set. A width that is no numeral, blanks around it aside, is ignored. -/
def ofVariables (width noColor : Option String) : Config where
  width := width.bind (fun text => Text.numeral? (String.ofList (Text.trim text.toList)))
  color := noColor.isNone

/-- The width to draw with on a display of the given width. -/
def effectiveWidth (config : Config) (displayWidth : UInt64) : UInt64 :=
  config.width.getD displayWidth

end Config

end TemplateTrace
