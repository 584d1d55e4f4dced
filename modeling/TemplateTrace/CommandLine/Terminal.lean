import TemplateTrace.Display
import TemplateTrace.Text

namespace TemplateTrace.CommandLine

/-- The code of a colour; white is the bright one. -/
def ansiCode : Color → String
  | .red => "31"
  | .green => "32"
  | .yellow => "33"
  | .blue => "34"
  | .magenta => "35"
  | .cyan => "36"
  | .white => "97"

def ansiStart (color : Color) : List Char := ("\x1b[" ++ ansiCode color ++ "m").toList

def ansiReset : List Char := ['\x1b', '[', '0', 'm']

/-- Turns a colour on again wherever the text itself turns it off. -/
def restart (start : List Char) : List Char → List Char
  | '\x1b' :: '[' :: '0' :: 'm' :: rest => ansiReset ++ start ++ restart start rest
  | c :: rest => c :: restart start rest
  | [] => []

/-- The text of a segment, coloured only if escapes are wanted. -/
def ansiText (escapes : Bool) (segment : Segment) : String :=
  match segment.color with
  | some color =>
    if escapes then
      String.ofList
        (ansiStart color ++ restart (ansiStart color) segment.text.toList ++ ansiReset)
    else segment.text
  | none => segment.text

def ansiTexts (escapes : Bool) (segments : List Segment) : String :=
  String.join (segments.map (ansiText escapes))

/-- Output that is no terminal gets escapes only if they are asked for: by any value but zero. -/
def wantsEscapes (force : Option String) : Bool :=
  match force with
  | some value => value ≠ "0"
  | none => false

/-- The width of a terminal that does not tell it. -/
def fallbackWidth : UInt64 := 80

/-- The width from the variable that tells it, if that is a positive number. -/
def terminalWidth (columns : Option String) : UInt64 :=
  let told := columns.bind (fun text => Text.numeral? (String.ofList (Text.trim text.toList)))
  (told.filter (fun width => 0 < width)).getD fallbackWidth

end TemplateTrace.CommandLine
