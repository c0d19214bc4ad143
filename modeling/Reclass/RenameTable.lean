import Reclass.Descriptor
import Reclass.MapUpdate
import Reclass.Member

set_option autoImplicit false

/-!
# Rename tables

A rename table lists classes by their names and gives for each its new name and the new names of
its members. The descriptor that identifies a member is written with the *new* class names,
because the descriptor is renamed before the member is looked up.

## Main definitions

* `Reclass.ClassNames` — what a table says about one class.
* `Reclass.RenameTable` — a table, ordered by class name.
* `Reclass.RenameTable.undo` — the table that leads back.
-/

namespace Reclass

/-- The new name of a class and of its members. -/
structure ClassNames where
  newName : String
  fields : MemberNames := ∅
  methods : MemberNames := ∅
deriving DecidableEq

/-- New names for classes, by class name. -/
abbrev RenameTable := Std.ExtTreeMap String ClassNames

namespace RenameTable

/-- The new name of a field; its descriptor is given with new class names. -/
def fieldName? (t : RenameTable) (owner : String) (field : Member) : Option String :=
  t[owner]?.bind (·.fields[field]?)

/-- The new name of a method; its descriptor is given with new class names. -/
def methodName? (t : RenameTable) (owner : String) (method : Member) : Option String :=
  t[owner]?.bind (·.methods[method]?)

/-- What the table says about a class; a class that it does not list keeps its name. -/
def namesOf (t : RenameTable) (name : String) : ClassNames := t[name]?.getD ⟨name, ∅, ∅⟩

/-- Changes what the table says about a class, which need not be listed yet. -/
def edit (t : RenameTable) (name : String) (change : ClassNames → ClassNames) : RenameTable :=
  t.insert name (change (t.namesOf name))

theorem getElem?_edit (t : RenameTable) (name other : String)
    (change : ClassNames → ClassNames) :
    (t.edit name change)[other]? =
      if other = name then some (change (t.namesOf name)) else t[other]? :=
  getElem?_insert_ite t name other _

/-- Adds another table; where both list a class, the other one counts. -/
def overlay (t other : RenameTable) : RenameTable := t ∪ other

theorem getElem?_overlay (t other : RenameTable) (name : String) :
    (t.overlay other)[name]? = other[name]?.or t[name]? :=
  Std.ExtTreeMap.getElem?_union

/-! ## The way back -/

/-- The old class name for every new one. Where two classes have the same new name, the later
one in the order of names counts. -/
def oldNames (t : RenameTable) : Std.ExtTreeMap String String :=
  t.foldl (fun back name names => back.insert names.newName name) ∅

/-- The old name of a class; a name that is no new name stands for itself. -/
def oldName (back : Std.ExtTreeMap String String) (name : String) : String :=
  back[name]?.getD name

/-- A field's descriptor written with old class names. Text that is no field descriptor stays. -/
def oldFieldDescriptor (back : Std.ExtTreeMap String String) (text : String) : String :=
  (Descriptor.renameField? (oldName back) text).getD text

/-- A method's descriptor written with old class names. Text that is no method descriptor
stays. -/
def oldMethodDescriptor (back : Std.ExtTreeMap String String) (text : String) : String :=
  (Descriptor.renameMethod? (oldName back) text).getD text

/-- Members found by their new names, leading to their old ones. -/
def undoMembers (oldDescriptor : String → String) (members : MemberNames) : MemberNames :=
  members.foldl (fun m member new => m.insert ⟨new, oldDescriptor member.descriptor⟩ member.name) ∅

/-- What the way back says about the new name of the class `name`. -/
def undoNames (back : Std.ExtTreeMap String String) (name : String) (names : ClassNames) :
    ClassNames where
  newName := name
  fields := undoMembers (oldFieldDescriptor back) names.fields
  methods := undoMembers (oldMethodDescriptor back) names.methods

/-- The table from new names to old ones. Its member descriptors are written with old class
names, which are the new ones for it. Classes are taken in the order of their names, so that of
two classes with the same new name the later one counts. -/
def undo (t : RenameTable) : RenameTable :=
  t.foldl (fun r name names => r.insert names.newName (undoNames t.oldNames name names)) ∅

end RenameTable

end Reclass
