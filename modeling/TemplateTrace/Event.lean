namespace TemplateTrace

/-- Why one entity was instantiated on behalf of another. -/
inductive Kind where
  | templateInstantiation
  | defaultTemplateArgumentInstantiation
  | defaultFunctionArgumentInstantiation
  | explicitTemplateArgumentSubstitution
  | deducedTemplateArgumentSubstitution
  | priorTemplateArgumentSubstitution
  | defaultTemplateArgumentChecking
  | exceptionSpecInstantiation
  | memoization
  deriving DecidableEq, Repr

namespace Kind

def all : List Kind :=
  [templateInstantiation, defaultTemplateArgumentInstantiation,
    defaultFunctionArgumentInstantiation, explicitTemplateArgumentSubstitution,
    deducedTemplateArgumentSubstitution, priorTemplateArgumentSubstitution,
    defaultTemplateArgumentChecking, exceptionSpecInstantiation, memoization]

def name : Kind → String
  | templateInstantiation => "TemplateInstantiation"
  | defaultTemplateArgumentInstantiation => "DefaultTemplateArgumentInstantiation"
  | defaultFunctionArgumentInstantiation => "DefaultFunctionArgumentInstantiation"
  | explicitTemplateArgumentSubstitution => "ExplicitTemplateArgumentSubstitution"
  | deducedTemplateArgumentSubstitution => "DeducedTemplateArgumentSubstitution"
  | priorTemplateArgumentSubstitution => "PriorTemplateArgumentSubstitution"
  | defaultTemplateArgumentChecking => "DefaultTemplateArgumentChecking"
  | exceptionSpecInstantiation => "ExceptionSpecInstantiation"
  | memoization => "Memoization"

/-- The kind with this written name; names are told apart by case. -/
def ofName? (text : String) : Option Kind :=
  all.find? (fun kind => kind.name == text)

def unknownMessage (text : String) : String :=
  "unknown instantiation kind '" ++ text ++ "'"

theorem ofName?_name (kind : Kind) : ofName? kind.name = some kind := by
  cases kind <;> rfl

theorem name_of_ofName? {text : String} {kind : Kind} (h : ofName? text = some kind) :
    kind.name = text := by
  have found := List.find?_some h
  simpa using found

theorem mem_all (kind : Kind) : kind ∈ all := by
  cases kind <;> decide

end Kind

structure Location where
  file : String
  line : UInt32
  column : UInt32
  deriving DecidableEq, Repr

namespace Location

/-- A position reads `file:line:column`. -/
def text (location : Location) : String :=
  location.file ++ ":" ++ toString location.line.toNat ++ ":" ++ toString location.column.toNat

/-- An optional position; nothing is known of an absent one. -/
def describe : Option Location → String
  | some location => location.text
  | none => "<unknown>"

end Location

/-- One entry of a compiler's report. -/
inductive Event where
  /-- The innermost open instantiation starts to instantiate `name`. -/
  | enter (name : String) (kind : Kind) (location : Option Location)
  /-- The innermost open instantiation is finished. -/
  | leave
  deriving DecidableEq, Repr

end TemplateTrace
