import Reclass.Descriptor

set_option autoImplicit false

/-!
# Class names

A class is known by its internal name, `a/b/Outer$Inner`. The owner of a member may be written
in other shapes, and an inner class also has a simple name.

## Main definitions

* `Reclass.ClassName.ofOwner?` — the internal name behind the owner of a member.
* `Reclass.ClassName.innerName` — the simple name of an inner class after renaming.
-/

namespace Reclass.ClassName

/-- The class whose members an owner has. An object descriptor or an array of objects stands for
the class it names, other text without brackets for itself; an array of primitives has none. -/
def ofOwner? (owner : String) : Option String :=
  match Descriptor.objectName? (Descriptor.element owner.toList) with
  | some name => some (String.ofList name)
  | none =>
    if Descriptor.brackets owner.toList = [] ∧ Descriptor.element owner.toList ≠ [] then some owner
    else none

/-- The simple name of an inner class whose binary name became `renamed`. A class that keeps its
binary name keeps its declared simple name. Otherwise the simple name follows the last `$`,
without the number of a local class (`Outer$1Local`), and the declared one stays if nothing is
left. A name without `$` gives its last path segment. -/
def innerName (binary renamed declared : String) : String :=
  if binary = renamed then declared
  else if renamed.toList.contains '$' then
    match (Text.afterLast (· == '$') renamed.toList).dropWhile Char.isDigit with
    | [] => declared
    | simple => String.ofList simple
  else String.ofList (Text.afterLast (· == '/') renamed.toList)

end Reclass.ClassName
