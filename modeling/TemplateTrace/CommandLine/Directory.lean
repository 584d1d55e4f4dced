import TemplateTrace.CommandLine.Run

namespace TemplateTrace.CommandLine

structure Directory where
  files : List (String × String)
  deriving DecidableEq, Repr

namespace Directory

def noSuchFile : String := "No such file or directory (os error 2)"

def isDirectory : String := "Is a directory (os error 21)"

/-- The path of the directory itself. -/
def itself : String := "."

/-- What a path holds. The directory itself can be opened, but not read. -/
def contents (directory : Directory) (path : String) : Except FileError ByteArray :=
  if path = itself then .error (.cannotRead isDirectory)
  else
    match directory.files.lookup path with
    | some text => .ok text.toUTF8
    | none => .error (.cannotOpen noSuchFile)

/-- Whether a path can be written: any plain name can. -/
def writing (path : String) : Except String Unit :=
  if path = itself then .error isDirectory
  else if path.toList.contains '/' then .error noSuchFile
  else .ok ()

def write (directory : Directory) (path text : String) : Directory :=
  ⟨(path, text) :: directory.files.filter (fun file => file.1 ≠ path)⟩

def run (directory : Directory) (environment : Environment) (invocation : Invocation) :
    Outcome × Directory :=
  let outcome := invocation.run environment (directory.contents invocation.events) writing
  match outcome.written with
  | some (path, text) => (outcome, directory.write path text)
  | none => (outcome, directory)

end Directory

end TemplateTrace.CommandLine
