import TemplateTrace.Json.Token

/-!
# The tree of a JSON text

Tokens are put together into a tree whatever the text holds: where the text is wrong the tree has a
flaw in that place, and nothing behind it. What a flaw means is up to who reads the tree, since
reading a value and passing over it tell the same flaw in different words.

The tree is built by a machine that takes one token at a time: `Reading.step`.
-/

namespace TemplateTrace.Json

/-- What is wrong where a value should be: nothing is there, a misspelt word, a character no value
starts with, or the colon before the value is missing or cut off. -/
inductive Flaw where
  | missing
  | misspelt (isCut : Bool)
  | stray
  | noColon
  | cutBeforeColon
  deriving DecidableEq, Repr

/-- What is wrong behind the last item of a list. -/
inductive ListFault where
  | cut
  | noSeparator
  | trailingComma
  deriving DecidableEq, Repr

inductive MapFault where
  | cut
  | noSeparator
  | trailingComma
  | cutAfterComma
  | badKey
  deriving DecidableEq, Repr

mutual

/-- A value of a text, or a flaw in its place. -/
inductive Node where
  | flawed (flaw : Flaw)
  | null
  | boolean (value : Bool)
  | number (lexeme : Lexeme Number)
  | string (lexeme : Lexeme String)
  | list (items : Items)
  | map (entries : Entries)

/-- The items of a list up to its bracket or to what is wrong. -/
inductive Items where
  | closed
  | broken (fault : ListFault)
  | cons (item : Node) (rest : Items)

/-- The entries of a map up to its brace or to what is wrong. -/
inductive Entries where
  | closed
  | broken (fault : MapFault)
  | cons (key : Lexeme String) (value : Node) (rest : Entries)

end

/-- Items from a list of them, the last one first, before the given end. -/
def Items.ofNewest (items : List Node) (tail : Items) : Items :=
  items.foldl (fun rest item => .cons item rest) tail

def Entries.ofNewest (entries : List (Lexeme String × Node)) (tail : Entries) : Entries :=
  entries.foldl (fun rest (key, value) => .cons key value rest) tail

/-- Where a value belongs: at the top of the text, in a list or under a key of a map, each with what
was read before it, the last first. -/
inductive Place where
  | top (done : List Node)
  | item (items : List Node) (outer : Place)
  | entry (entries : List (Lexeme String × Node)) (key : Lexeme String) (outer : Place)

/-- What has been read of a text, by what may come next. -/
inductive Reading where
  /-- A value or the end of the text. -/
  | between (done : List Node)
  /-- A value for this place. -/
  | atValue (place : Place)
  /-- The first item of a list, or a comma behind the last one; or the end of the list. -/
  | inList (items : List Node) (outer : Place)
  /-- The first key of a map, or a comma behind the last entry; or the end of the map. -/
  | inMap (entries : List (Lexeme String × Node)) (outer : Place)
  /-- A key behind a comma. -/
  | atKey (entries : List (Lexeme String × Node)) (outer : Place)
  /-- A colon behind a key. -/
  | atColon (entries : List (Lexeme String × Node)) (key : Lexeme String) (outer : Place)
  /-- Nothing: the text is wrong before this. -/
  | stopped (nodes : List Node)

namespace Place

/-- Puts a value in its place. -/
def receive : Place → Node → Reading
  | top done, node => .between (node :: done)
  | item items outer, node => .inList (node :: items) outer
  | entry entries key outer, node => .inMap ((key, node) :: entries) outer

/-- The values of a text whose last value, in this place, is wrong. -/
def abandon : Place → Node → List Node
  | top done, node => (node :: done).reverse
  | item items outer, node => outer.abandon (.list (.ofNewest (node :: items) (.broken .cut)))
  | entry entries key outer, node =>
    outer.abandon (.map (.ofNewest ((key, node) :: entries) (.broken .cut)))

end Place

namespace Reading

/-- Stops at what is wrong with a list. -/
def stopList (items : List Node) (outer : Place) (fault : ListFault) : Reading :=
  .stopped (outer.abandon (.list (.ofNewest items (.broken fault))))

def stopMap (entries : List (Lexeme String × Node)) (outer : Place) (fault : MapFault) : Reading :=
  .stopped (outer.abandon (.map (.ofNewest entries (.broken fault))))

def stopEntry (entries : List (Lexeme String × Node)) (key : Lexeme String) (outer : Place)
    (flaw : Flaw) : Reading :=
  .stopped ((Place.entry entries key outer).abandon (.flawed flaw))

/-- Takes a token where a value should be. A closing bracket behind a comma is the list's fault. -/
def stepValue (place : Place) : Token → Reading
  | .openList => .inList [] place
  | .openMap => .inMap [] place
  | .null => place.receive .null
  | .boolean value => place.receive (.boolean value)
  | .number lexeme => place.receive (.number lexeme)
  | .string lexeme => place.receive (.string lexeme)
  | .misspelt isCut => .stopped (place.abandon (.flawed (.misspelt isCut)))
  | .closeList =>
    match place with
    | .item (last :: items) outer => stopList (last :: items) outer .trailingComma
    | _ => .stopped (place.abandon (.flawed .stray))
  | .closeMap | .comma | .colon | .stray => .stopped (place.abandon (.flawed .stray))

def step (reading : Reading) (token : Token) : Reading :=
  match reading, token with
  | .between done, token => stepValue (.top done) token
  | .atValue place, token => stepValue place token
  | .inList items outer, .closeList => outer.receive (.list (.ofNewest items .closed))
  | .inList [] outer, token => stepValue (.item [] outer) token
  | .inList items outer, .comma => .atValue (.item items outer)
  | .inList items outer, _ => stopList items outer .noSeparator
  | .inMap entries outer, .closeMap => outer.receive (.map (.ofNewest entries .closed))
  | .inMap [] outer, .string key => .atColon [] key outer
  | .inMap [] outer, _ => stopMap [] outer .badKey
  | .inMap entries outer, .comma => .atKey entries outer
  | .inMap entries outer, _ => stopMap entries outer .noSeparator
  | .atKey entries outer, .string key => .atColon entries key outer
  | .atKey entries outer, .closeMap => stopMap entries outer .trailingComma
  | .atKey entries outer, _ => stopMap entries outer .badKey
  | .atColon entries key outer, .colon => .atValue (.entry entries key outer)
  | .atColon entries key outer, _ => stopEntry entries key outer .noColon
  | .stopped nodes, _ => .stopped nodes

/-- The values of a text that ends here. -/
def finish : Reading → List Node
  | .between done => done.reverse
  | .atValue place => place.abandon (.flawed .missing)
  | .inList items outer => outer.abandon (.list (.ofNewest items (.broken .cut)))
  | .inMap entries outer => outer.abandon (.map (.ofNewest entries (.broken .cut)))
  | .atKey entries outer => outer.abandon (.map (.ofNewest entries (.broken .cutAfterComma)))
  | .atColon entries key outer => (Place.entry entries key outer).abandon (.flawed .cutBeforeColon)
  | .stopped nodes => nodes

end Reading

/-- The values of a text, one after another. -/
def nodes (text : String) : List Node :=
  ((tokens text.toList).foldl Reading.step (.between [])).finish

/-! ## Reading and passing over -/

namespace Flaw

/-- What a flaw means where a value is read or passed over. -/
def error : Flaw → Error
  | missing => .endInValue
  | misspelt isCut => if isCut then .endInValue else .expectedIdent
  | stray => .expectedValue
  | noColon => .expectedColon
  | cutBeforeColon => .endInObject

end Flaw

namespace ListFault

def error : ListFault → Error
  | cut => .endInList
  | noSeparator => .expectedListSeparator
  | trailingComma => .trailingComma

/-- What a fault means where a list is passed over: behind a comma there has to be a value. -/
def skipError : ListFault → Error
  | trailingComma => .expectedValue
  | fault => fault.error

end ListFault

namespace MapFault

def error : MapFault → Error
  | cut => .endInObject
  | noSeparator => .expectedObjectSeparator
  | trailingComma => .trailingComma
  | cutAfterComma => .endInValue
  | badKey => .keyNotString

/-- What a fault means where a map is passed over: behind a comma there has to be a key. -/
def skipError : MapFault → Error
  | trailingComma => .keyNotString
  | cutAfterComma => .endInObject
  | fault => fault.error

end MapFault

mutual

/-- Passes over a value. -/
def Node.skip : Node → Except Error Unit
  | .flawed flaw => .error flaw.error
  | .null => .ok ()
  | .boolean _ => .ok ()
  | .number lexeme => lexeme.skip
  | .string lexeme => lexeme.skip
  | .list items => items.skip
  | .map entries => entries.skip

def Items.skip : Items → Except Error Unit
  | .closed => .ok ()
  | .broken fault => .error fault.skipError
  | .cons item rest => do item.skip; rest.skip

def Entries.skip : Entries → Except Error Unit
  | .closed => .ok ()
  | .broken fault => .error fault.skipError
  | .cons key value rest => do key.skip; value.skip; rest.skip

end

/-- What a value is found to be; lists and maps are not looked into. -/
def Node.found : Node → Except Error Found
  | .flawed flaw => .error flaw.error
  | .null => .ok .null
  | .boolean value => .ok (.boolean value)
  | .number lexeme => lexeme.read.map .number
  | .string lexeme => lexeme.read.map .string
  | .list _ => .ok .sequence
  | .map _ => .ok .map

end TemplateTrace.Json
