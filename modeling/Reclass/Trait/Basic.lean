import Reclass.Failure
import Reclass.Renaming

set_option autoImplicit false

/-!
# Traits

A trait modifies objects of one type, classes or resources. Its target says which objects it is for
and how early it runs. The traits for an object are applied one after the other, each to what the
one before made; the first that fails ends the sequence.

## Main definitions

* `Reclass.Target` — priority and scope.
* `Reclass.Trait` — a modification with its target.
* `Reclass.Trait.applyAll` — a sequence applied to one object.
-/

namespace Reclass

/-! ## Targets -/

/-- The objects that a trait is for: all, or the one of a name. -/
inductive Scope where
  | everything
  | only (name : String)
deriving DecidableEq, Repr

/-- Which objects a trait is for, and its priority. Higher priorities run first. -/
structure Target where
  priority : Int32 := 0
  scope : Scope := .everything
deriving DecidableEq, Repr

namespace Target

/-- True if the object of this name is meant. -/
def covers (t : Target) (name : String) : Bool :=
  match t.scope with
  | .everything => true
  | .only n => n == name

/-- The order in which targets come, by falling priority. Scopes do not count. -/
def order (a b : Target) : Ordering := compare b.priority a.priority

end Target

/-! ## Traits -/

/-- A modification of objects of a type. It can use the renaming of the run, and may fail. -/
structure Trait (α : Type) where
  target : Target := {}
  apply : Renaming → α → Except Cause α

namespace Trait

variable {α : Type}

/-- Applies a trait to the object of this name, if it is meant. -/
def applyTo (name : String) (r : Renaming) (payload : α) (t : Trait α) : Except Failure α :=
  if t.target.covers name then (t.apply r payload).mapError (.inTrait name) else .ok payload

/-- Applies those traits of a sequence that are for the object of this name, in order. An object
without traits stays as it is. -/
def applyAll (name : String) (r : Renaming) (traits : Option (List (Trait α))) (payload : α) :
    Except Failure α :=
  match traits with
  | none => .ok payload
  | some traits => traits.foldlM (applyTo name r) payload

end Trait

end Reclass
