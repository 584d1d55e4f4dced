import TemplateTrace.Json.Node

namespace TemplateTrace.Json

/-- A value. The entries of a map keep their order, and a key may occur more than once. -/
inductive Value where
  | null
  | boolean (value : Bool)
  | number (value : Number)
  | string (value : String)
  | list (items : List Value)
  | map (entries : List (String × Value))

/-- A list or map may be opened only while levels are left. -/
def enterLevel : Nat → Except Error Nat
  | 0 => .error .recursionLimit
  | levels + 1 => .ok levels

/-- How many lists and maps may be open at once. -/
def nestingLimit : Nat := 127

/-! ## Reading -/

mutual

/-- The value of a tree with so many levels left. -/
def Node.value (levels : Nat) : Node → Except Error Value
  | .flawed flaw => .error flaw.error
  | .null => .ok .null
  | .boolean value => .ok (.boolean value)
  | .number lexeme => lexeme.read.map .number
  | .string lexeme => lexeme.read.map .string
  | .list items => do return .list (← items.values (← enterLevel levels))
  | .map entries => do return .map (← entries.values (← enterLevel levels))

def Items.values (levels : Nat) : Items → Except Error (List Value)
  | .closed => .ok []
  | .broken fault => .error fault.error
  | .cons item rest => do
    let first ← item.value levels
    return first :: (← rest.values levels)

def Entries.values (levels : Nat) : Entries → Except Error (List (String × Value))
  | .closed => .ok []
  | .broken fault => .error fault.error
  | .cons key value rest => do
    let name ← key.read
    let first ← value.value levels
    return (name, first) :: (← rest.values levels)

end

def Value.found : Value → Found
  | .null => .null
  | .boolean value => .boolean value
  | .number value => .number value
  | .string value => .string value
  | .list _ => .sequence
  | .map _ => .map

/-- Reads a text that holds one value: what comes of the first value, provided that nothing follows
it. -/
def readOne {α : Type} (read : Node → Except Error α) (text : String) : Except Error α :=
  match nodes text with
  | [] => .error .endInValue
  | [node] => read node
  | node :: _ => do
    let _ ← read node
    .error .trailingCharacters

def Value.ofText (text : String) : Except Error Value := readOne (Node.value nestingLimit) text

/-! ## Writing -/

def hexDigit (n : Nat) : Char := Nat.digitChar n

/-- A character as it stands in a written string: quotes, backslashes and controls are escaped. -/
def escapedChar (c : Char) : List Char :=
  match c with
  | '"' => ['\\', '"']
  | '\\' => ['\\', '\\']
  | '\x08' => ['\\', 'b']
  | '\t' => ['\\', 't']
  | '\n' => ['\\', 'n']
  | '\x0c' => ['\\', 'f']
  | '\r' => ['\\', 'r']
  | c =>
    if c.toNat < 0x20 then
      ['\\', 'u', '0', '0', hexDigit (c.toNat / 16), hexDigit (c.toNat % 16)]
    else [c]

def writeString (text : String) : List Char :=
  '"' :: text.toList.flatMap escapedChar ++ ['"']

mutual

/-- A value without any space. -/
def Value.compact : Value → List Char
  | .null => "null".toList
  | .boolean value => (if value then "true" else "false").toList
  | .number value => value.text.toList
  | .string value => writeString value
  | .list items => '[' :: compactItems items
  | .map entries => '\x7b' :: compactEntries entries

def compactItems : List Value → List Char
  | [] => [']']
  | [item] => item.compact ++ [']']
  | item :: rest => item.compact ++ ',' :: compactItems rest

def compactEntries : List (String × Value) → List Char
  | [] => ['\x7d']
  | [(key, value)] => writeString key ++ ':' :: value.compact ++ ['\x7d']
  | (key, value) :: rest => writeString key ++ ':' :: value.compact ++ ',' :: compactEntries rest

end

/-- The start of a line: two spaces for each level. -/
def indent (level : Nat) : List Char := '\n' :: List.replicate (2 * level) ' '

mutual

/-- A value with every item and entry on a line of its own. -/
def Value.pretty (level : Nat) : Value → List Char
  | .list [] => ['[', ']']
  | .list items => '[' :: prettyItems level items
  | .map [] => ['\x7b', '\x7d']
  | .map entries => '\x7b' :: prettyEntries level entries
  | .null => "null".toList
  | .boolean value => (if value then "true" else "false").toList
  | .number value => value.text.toList
  | .string value => writeString value

def prettyItems (level : Nat) : List Value → List Char
  | [] => indent level ++ [']']
  | [item] => indent (level + 1) ++ item.pretty (level + 1) ++ indent level ++ [']']
  | item :: rest => indent (level + 1) ++ item.pretty (level + 1) ++ ',' :: prettyItems level rest

def prettyEntries (level : Nat) : List (String × Value) → List Char
  | [] => indent level ++ ['\x7d']
  | [(key, value)] =>
    indent (level + 1) ++ writeString key ++ ':' :: ' ' :: value.pretty (level + 1) ++ indent level
      ++ ['\x7d']
  | (key, value) :: rest =>
    indent (level + 1) ++ writeString key ++ ':' :: ' ' :: value.pretty (level + 1)
      ++ ',' :: prettyEntries level rest

end

def Value.text (value : Value) : String := String.ofList value.compact

def Value.prettyText (value : Value) : String := String.ofList (value.pretty 0)

end TemplateTrace.Json
