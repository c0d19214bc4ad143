import Reclass.ClassName
import Reclass.ClassTree
import Reclass.RenameTable
import Reclass.Signature

set_option autoImplicit false

/-!
# Renaming

A renaming answers what a class and its members are called from now on. It may come from a table
or from several tables in layers. Every shape in which a name is written has its own function;
none of them fails, and text that is not understood stays as it is.

## Main definitions

* `Reclass.Renaming` — the new names of a class, if there are any.
* `Reclass.Renaming.className`, `typeName`, `descriptor`, `signature`, `fieldName`, `methodName` —
  the new form of a piece of text.
-/

namespace Reclass

/-- A source of new names. -/
structure Renaming where
  find? : String → Option ClassNames

namespace Renaming

/-- The renaming that changes nothing. -/
def identity : Renaming := ⟨fun _ => none⟩

/-- The renaming that a table lists. -/
def ofTable (t : RenameTable) : Renaming := ⟨fun name => t[name]?⟩

/-- Asks the second renaming about the classes that the first one does not know. -/
def orElse (first second : Renaming) : Renaming :=
  ⟨fun name => (first.find? name).or (second.find? name)⟩

variable (r : Renaming)

/-! ## Types -/

/-- The new internal name of a class. -/
def className (name : String) : String :=
  match r.find? name with
  | some names => names.newName
  | none => name

/-- The new form of a method descriptor. -/
def methodDescriptor (text : String) : String :=
  (Descriptor.renameMethod? r.className text).getD text

/-- The new form of a descriptor of either kind. -/
def descriptor (text : String) : String :=
  if Descriptor.isMethod text then r.methodDescriptor text
  else (Descriptor.renameField? r.className text).getD text

/-- The new form of a type that is written as an internal name, an object descriptor or an array
descriptor. The shape is kept. -/
def typeName (name : String) : String :=
  if name.toList.head? = some '[' then r.descriptor name
  else
    match Descriptor.internalName? name with
    | some inside => Descriptor.ofInternalName (r.className inside)
    | none => r.className name

/-- The new form of a generic signature. -/
def signature (text : String) : String :=
  (Signature.renameText? r.className text).getD text

/-! ## Members -/

/-- What is known of the class behind the owner of a member. -/
def owner? (owner : String) : Option ClassNames := (ClassName.ofOwner? owner).bind r.find?

/-- The new name of a field, given with its old descriptor. -/
def fieldName (owner name descriptor : String) : String :=
  ((r.owner? owner).bind (·.fields[(⟨name, r.descriptor descriptor⟩ : Member)]?)).getD name

/-- The new name of a method, given with its old descriptor. -/
def methodName (owner name descriptor : String) : String :=
  ((r.owner? owner).bind (·.methods[(⟨name, r.methodDescriptor descriptor⟩ : Member)]?)).getD name

/-! ## Operands -/

/-- The new form of a reference to a field. -/
def fieldRef (m : MemberRef) : MemberRef where
  owner := r.typeName m.owner
  name := r.fieldName m.owner m.name m.descriptor
  descriptor := r.descriptor m.descriptor

/-- The new form of a reference to a method. -/
def methodRef (m : MemberRef) : MemberRef where
  owner := r.typeName m.owner
  name := r.methodName m.owner m.name m.descriptor
  descriptor := r.methodDescriptor m.descriptor

/-- The new form of a method handle. Its name is looked up among the methods if the descriptor
has a parameter list, else among the fields. -/
def handle (h : Handle) : Handle :=
  { h with
    target :=
      { owner := r.typeName h.target.owner
        name :=
          if h.isMethod then r.methodName h.target.owner h.target.name h.target.descriptor
          else r.fieldName h.target.owner h.target.name h.target.descriptor
        descriptor := r.descriptor h.target.descriptor } }

/-- The new form of a constant: only types and handles hold names. -/
def constant : Constant → Constant
  | .type text => .type (r.descriptor text)
  | .handle h => .handle (r.handle h)
  | c => c

/-- The new form of a verification type. -/
def frameSlot : FrameSlot → FrameSlot
  | .object type => .object (r.typeName type)
  | slot => slot

end Renaming

end Reclass
