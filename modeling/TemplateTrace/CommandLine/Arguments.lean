import TemplateTrace.Text

/-!
# Arguments of the command line

Options that hold for every command stand before the command, and those of the command behind it. An
option is given at most once. Its value is attached to it, with or without an equals sign, or is the
next argument unless that looks like an option itself. Behind a command, `--` ends the options.
-/

namespace TemplateTrace.CommandLine

inductive Command where
  /-- Show what a type instantiated, or the whole metaprogram. -/
  | forward (name : Option String)
  /-- Show what led to a type being instantiated, or every backward trace. -/
  | backward (name : Option String)
  /-- Step so many times and show the frame reached. -/
  | step (count : UInt64)
  /-- Step to the end and count the steps. -/
  | finish
  /-- Show the frame a session starts at. -/
  | frame
  /-- Write the graph to a file. -/
  | save (format : String) (output : String)
  deriving DecidableEq, Repr

structure Invocation where
  events : String
  width : Option UInt64
  noColor : Bool
  command : Command
  deriving DecidableEq, Repr

/-- An option: its long name, its letter if it has one, and whether it takes a value. -/
structure Switch where
  long : String
  letter : Option Char
  takesValue : Bool
  deriving DecidableEq, Repr

def commonSwitches : List Switch :=
  [⟨"events", some 'e', true⟩, ⟨"width", some 'w', true⟩, ⟨"no-color", none, false⟩]

def stepSwitches : List Switch := [⟨"count", some 'c', true⟩]

def saveSwitches : List Switch := [⟨"format", some 'f', true⟩, ⟨"output", some 'o', true⟩]

/-- What an argument is: a word, the mark that ends the options, an option that is complete, an
option that waits for its value, or nothing known. -/
inductive Reading where
  | word
  | mark
  | complete (name : String) (value : String)
  | waiting (name : String)
  | unknown
  deriving DecidableEq, Repr

/-- The value behind an equals sign, or the whole if there is none. -/
def attached : List Char → List Char
  | '=' :: value => value
  | value => value

/-- An option by its long name, with the value behind an equals sign. -/
def readLong (switches : List Switch) (text : List Char) : Reading :=
  let name := String.ofList (text.takeWhile (· ≠ '='))
  match switches.find? (fun switch => switch.long == name), text.dropWhile (· ≠ '=') with
  | none, _ => .unknown
  | some switch, [] => if switch.takesValue then .waiting name else .complete name ""
  | some switch, value =>
    if switch.takesValue then .complete name (String.ofList (attached value)) else .unknown

/-- An option by its letter, with the value right behind it. -/
def readLetter (switches : List Switch) (letter : Char) (text : List Char) : Reading :=
  match switches.find? (fun switch => switch.letter == some letter) with
  | none => .unknown
  | some switch =>
    if !switch.takesValue then (if text.isEmpty then .complete switch.long "" else .unknown)
    else if text.isEmpty then .waiting switch.long
    else .complete switch.long (String.ofList (attached text))

/-- Tells what an argument is. A single hyphen is a word. -/
def readArgument (switches : List Switch) (argument : String) : Reading :=
  match argument.toList with
  | ['-', '-'] => .mark
  | '-' :: '-' :: text => readLong switches text
  | '-' :: letter :: text => readLetter switches letter text
  | _ => .word

/-- Whether an argument looks like an option, so that it cannot be the value of another. -/
def looksLikeOption (argument : String) : Bool :=
  match argument.toList with
  | '-' :: _ :: _ => true
  | _ => false

/-- The options that were given, by long name, and the words. -/
structure Given where
  options : List (String × String)
  words : List String
  deriving DecidableEq, Repr

def Given.withOption (name value : String) (given : Given) : Given :=
  { given with options := (name, value) :: given.options }

def Given.withWord (word : String) (given : Given) : Given :=
  { given with words := word :: given.words }

/-- Reads arguments. In front of the command the first word ends the options and no mark may stand;
behind the command words and options mix, and a mark makes all that follows words. -/
def readArguments (switches : List Switch) (inFront : Bool) : List String → Option Given
  | [] => some ⟨[], []⟩
  | argument :: rest =>
    match readArgument switches argument with
    | .word =>
      if inFront then some ⟨[], argument :: rest⟩
      else (readArguments switches inFront rest).map (.withWord argument)
    | .mark => if inFront then none else some ⟨[], rest⟩
    | .complete name value => (readArguments switches inFront rest).map (.withOption name value)
    | .waiting name =>
      match rest with
      | [] => none
      | value :: others =>
        if looksLikeOption value then none
        else (readArguments switches inFront others).map (.withOption name value)
    | .unknown => none

namespace Given

def value? (given : Given) (name : String) : Option String := given.options.lookup name

def isUnique (given : Given) : Bool := decide (given.options.map Prod.fst).Nodup

/-- A path that has to be given and must not be empty. -/
def path (given : Given) (name : String) : Option String :=
  (given.value? name).filter (fun path => path ≠ "")

/-- A number that may be given: none if it is not, and nothing at all if it is no numeral. -/
def number (given : Given) (name : String) : Option (Option UInt64) :=
  match given.value? name with
  | none => some none
  | some text => (Text.numeral? text).map some

end Given

def readOwn (switches : List Switch) (arguments : List String) : Option Given :=
  (readArguments switches false arguments).filter Given.isUnique

/-- At most one word, and no option. -/
def readName (arguments : List String) : Option (Option String) := do
  match (← readOwn [] arguments).words with
  | [] => some none
  | [name] => some (some name)
  | _ => none

/-- No word and no option. -/
def readNothing (arguments : List String) : Option Unit := do
  guard (← readOwn [] arguments).words.isEmpty

def readCommand (name : String) (arguments : List String) : Option Command :=
  match name with
  | "forwardtrace" => (readName arguments).map .forward
  | "trace" => (readNothing arguments).map (fun _ => .forward none)
  | "backtrace" => (readName arguments).map .backward
  | "step" => do
    let given ← readOwn stepSwitches arguments
    guard given.words.isEmpty
    return .step ((← given.number "count").getD 1)
  | "continue" => (readNothing arguments).map (fun _ => .finish)
  | "frame" => (readNothing arguments).map (fun _ => .frame)
  | "export" => do
    let given ← readOwn saveSwitches arguments
    guard given.words.isEmpty
    return .save ((given.value? "format").getD "dump") (← given.path "output")
  | _ => none

/-- Reads a whole command line; there is none in arguments that break the rules. -/
def Invocation.ofArguments? (arguments : List String) : Option Invocation := do
  let given ← readArguments commonSwitches true arguments
  guard given.isUnique
  match given.words with
  | [] => none
  | name :: rest =>
    let command ← readCommand name rest
    let events ← given.path "events"
    let width ← given.number "width"
    return ⟨events, width, (given.value? "no-color").isSome, command⟩

end TemplateTrace.CommandLine
