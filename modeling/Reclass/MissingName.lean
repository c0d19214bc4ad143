set_option autoImplicit false

/-!
# Missing names

Some operations require a name that is not empty. Being called without one is a fault of the
caller and ends whatever was going on.

## Main definitions

* `Reclass.MissingName` — which name was empty.
-/

namespace Reclass

/-- A required name was empty. -/
inductive MissingName where
  | className | fieldName | methodName
deriving DecidableEq, Repr

namespace MissingName

/-- What is said about a missing name. -/
def message : MissingName → String
  | className => "class name must not be empty"
  | fieldName => "field name must not be empty"
  | methodName => "method name must not be empty"

/-- Accepts a name that is not empty. -/
def require (missing : MissingName) (name : String) : Except MissingName Unit :=
  if name = "" then .error missing else .ok ()

end MissingName

end Reclass
