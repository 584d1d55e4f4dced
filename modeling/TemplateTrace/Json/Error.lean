import TemplateTrace.Json.Number
import TemplateTrace.Text.Quoted

namespace TemplateTrace.Json

/-- What stands in a text in place of what was wanted. -/
inductive Found where
  | null
  | boolean (value : Bool)
  | number (value : Number)
  | string (value : String)
  | sequence
  | map
  deriving DecidableEq, Repr

def Found.text : Found → String
  | null => "null"
  | boolean value => "boolean `" ++ (if value then "true" else "false") ++ "`"
  | number (.integer value) => "integer `" ++ toString value ++ "`"
  | number value => "floating point `" ++ value.text ++ "`"
  | string value => "string " ++ Text.quoted value
  | sequence => "sequence"
  | map => "map"

inductive Wanted where
  | word32
  | word64
  | string
  | boolean
  | unit
  | sequence
  | record (name : String)
  | recordOf (name : String) (count : Nat)
  | elements (count : Nat)
  | stringOrMap
  | singleKeyMap
  | variantName
  | event
  | enterOf (count : Nat)
  deriving DecidableEq, Repr

def Wanted.text : Wanted → String
  | word32 => "u32"
  | word64 => "usize"
  | string => "a string"
  | boolean => "a boolean"
  | unit => "unit"
  | sequence => "a sequence"
  | record name => "struct " ++ name
  | recordOf name count => "struct " ++ name ++ " with " ++ toString count ++ " elements"
  | elements count => toString count ++ " elements in sequence"
  | stringOrMap => "string or map"
  | singleKeyMap => "map with a single key"
  | variantName => "variant identifier"
  | event => "internally tagged enum InstantiationEvent"
  | enterOf count =>
    "struct variant InstantiationEvent::Begin with " ++ toString count ++ " elements"

inductive Error where
  | endInValue
  | endInList
  | endInObject
  | endInString
  | expectedValue
  | expectedIdent
  | expectedColon
  | expectedListSeparator
  | expectedObjectSeparator
  | trailingComma
  | trailingCharacters
  | keyNotString
  | invalidNumber
  | numberOutOfRange
  | invalidEscape
  | controlCharacter
  | loneSurrogate
  | endOfHexEscape
  | recursionLimit
  | missingField (name : String)
  | duplicateField (name : String)
  | invalidType (found : Found) (wanted : Wanted)
  | invalidValue (found : Found) (wanted : Wanted)
  | invalidLength (length : Nat) (wanted : Wanted)
  | unknownVariant (name : String) (known : List String)
  | notUtf8
  deriving DecidableEq, Repr

/-- The kinds of failure: the text broke off, broke the rules of JSON, has another shape than
wanted, or is no text at all. -/
inductive Category where
  | truncated
  | malformed
  | mismatched
  | unreadable
  deriving DecidableEq, Repr

namespace Error

def category : Error → Category
  | endInValue | endInList | endInObject | endInString => .truncated
  | missingField _ | duplicateField _ | invalidType _ _ | invalidValue _ _ | invalidLength _ _
  | unknownVariant _ _ => .mismatched
  | notUtf8 => .unreadable
  | _ => .malformed

def ticked (name : String) : String := "`" ++ name ++ "`"

def alternatives : List String → String
  | [first, second] => ticked first ++ " or " ++ ticked second
  | names => "one of " ++ ", ".intercalate (names.map ticked)

def message : Error → String
  | endInValue => "EOF while parsing a value"
  | endInList => "EOF while parsing a list"
  | endInObject => "EOF while parsing an object"
  | endInString => "EOF while parsing a string"
  | expectedValue => "expected value"
  | expectedIdent => "expected ident"
  | expectedColon => "expected `:`"
  | expectedListSeparator => "expected `,` or `]`"
  | expectedObjectSeparator => "expected `,` or `\x7d`"
  | trailingComma => "trailing comma"
  | trailingCharacters => "trailing characters"
  | keyNotString => "key must be a string"
  | invalidNumber => "invalid number"
  | numberOutOfRange => "number out of range"
  | invalidEscape => "invalid escape"
  | controlCharacter => "control character (\\u0000-\\u001F) found while parsing a string"
  | loneSurrogate => "lone leading surrogate in hex escape"
  | endOfHexEscape => "unexpected end of hex escape"
  | recursionLimit => "recursion limit exceeded"
  | missingField name => "missing field " ++ ticked name
  | duplicateField name => "duplicate field " ++ ticked name
  | invalidType found wanted => "invalid type: " ++ found.text ++ ", expected " ++ wanted.text
  | invalidValue found wanted => "invalid value: " ++ found.text ++ ", expected " ++ wanted.text
  | invalidLength length wanted =>
    "invalid length " ++ toString length ++ ", expected " ++ wanted.text
  | unknownVariant name known =>
    "unknown variant " ++ ticked name ++ ", expected " ++ alternatives known
  | notUtf8 => "stream did not contain valid UTF-8"

end Error

end TemplateTrace.Json
