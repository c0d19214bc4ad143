set_option autoImplicit false

/-!
# Failures

What goes wrong with one class or resource is a failure of that object. It tells what was being
attempted and why that went wrong; other objects are not touched by it.

## Main definitions

* `Reclass.Cause` — why something went wrong.
* `Reclass.Failure` — a failure, with `object?` and `message`.
-/

namespace Reclass

/-- Why something went wrong: what was being attempted, the outermost first. -/
abbrev Cause := List String

/-- A cause on one line. -/
def Cause.text (c : Cause) : String := String.intercalate ": " c

/-- What can go wrong in a transformation. -/
inductive Failure where
  /-- A class could not be read. -/
  | read (name : String) (cause : Cause)
  /-- A class could not be written. -/
  | write (name : String) (cause : Cause)
  /-- A trait failed; later ones were not applied. -/
  | inTrait (name : String) (cause : Cause)
  /-- A file could not be read. -/
  | file (path : String)
  /-- Renaming was requested and no names are known. -/
  | missingRenaming
  /-- A pipeline had neither parts nor renaming. -/
  | nothingToDo
  /-- The settings of a run are not usable. -/
  | settings (cause : Cause)
deriving DecidableEq, Repr

namespace Failure

/-- The class or resource that a failure is about. -/
def object? : Failure → Option String
  | read name _ => some name
  | write name _ => some name
  | inTrait name _ => some name
  | _ => none

/-- What is said about a failure. -/
def message : Failure → String
  | read name cause => Cause.text ["Failed to read class " ++ name, cause.text]
  | write name cause => Cause.text ["Failed to write class " ++ name, cause.text]
  | inTrait name cause => Cause.text ["Trait failed on " ++ name, cause.text]
  | file path => "I/O error on " ++ path
  | missingRenaming => "Renaming requested without a symbol table"
  | nothingToDo => "No visitors configured and renaming not requested"
  | settings cause => Cause.text ("Invalid configuration" :: cause)

end Failure

end Reclass
