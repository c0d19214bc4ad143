import Reclass.Access.Spec
import Reclass.Renaming

set_option autoImplicit false

/-!
# Hierarchy nodes

Of every class the hierarchy keeps its new name, its supertypes and the new names of its members,
private ones apart since they are not inherited. Members are identified as in a rename table, by
their old name and the descriptor with new class names.

## Main definitions

* `Reclass.HierarchyNode` — what is kept of one class.
* `HierarchyNode.ofHeader`, `addField`, `addMethod`, `ofClass` — how it is collected.
* `HierarchyNode.inheritFrom` — the members of a supertype added.
* `HierarchyNode.classNames` — the node as part of a rename table.

## Main results

* `Reclass.MemberNames.getElem?_inherit` — what is inherited, member by member.
-/

namespace Reclass

/-! ## Inheriting members -/

namespace MemberNames

/-- Adds inherited members. One that is renamed counts, so that a member keeps the name of the one
it overrides; another one only fills a gap. -/
def inherit (own above : MemberNames) : MemberNames :=
  updateWith (fun m new old => if new = m.name then old.getD new else new) own above

/-- The new name of a member after inheriting. -/
theorem getElem?_inherit (own above : MemberNames) (m : Member) :
    (own.inherit above)[m]? =
      match above[m]? with
      | some new => some (if new = m.name then own[m]?.getD new else new)
      | none => own[m]? := by
  rw [inherit, getElem?_updateWith]
  cases above[m]? <;> rfl

end MemberNames

/-! ## Nodes -/

/-- What the hierarchy keeps of a class. -/
structure HierarchyNode where
  newName : String
  supertypes : List String := []
  fields : MemberNames := ∅
  privateFields : MemberNames := ∅
  methods : MemberNames := ∅
  privateMethods : MemberNames := ∅
deriving DecidableEq

namespace HierarchyNode

/-- The node of a class of which the header is known. -/
def ofHeader (r : Renaming) (h : Header) : HierarchyNode where
  newName := r.typeName h.name
  supertypes := h.supertypes

/-- Adds a field that the class `owner` declares. -/
def addField (r : Renaming) (owner : String) (n : HierarchyNode) (f : FieldDecl) :
    HierarchyNode :=
  let member : Member := ⟨f.name, r.descriptor f.descriptor⟩
  let new := r.fieldName owner f.name f.descriptor
  if AccessFlags.isPrivate f.access then
    { n with privateFields := n.privateFields.insert member new }
  else { n with fields := n.fields.insert member new }

/-- Adds a method that the class `owner` declares. -/
def addMethod (r : Renaming) (owner : String) (n : HierarchyNode) (m : MethodDecl) :
    HierarchyNode :=
  let member : Member := ⟨m.name, r.methodDescriptor m.descriptor⟩
  let new := r.methodName owner m.name m.descriptor
  if AccessFlags.isPrivate m.access then
    { n with privateMethods := n.privateMethods.insert member new }
  else { n with methods := n.methods.insert member new }

/-- The node of a whole class. -/
def ofClass (r : Renaming) (c : ClassTree) : HierarchyNode :=
  c.methods.foldl (addMethod r c.name) (c.fields.foldl (addField r c.name) (ofHeader r c.header))

/-- Adds the members of a supertype, apart from its private ones. -/
def inheritFrom (n parent : HierarchyNode) : HierarchyNode :=
  { n with fields := n.fields.inherit parent.fields, methods := n.methods.inherit parent.methods }

/-- The node as part of a rename table: all members, and of two alike the private one. -/
def classNames (n : HierarchyNode) : ClassNames where
  newName := n.newName
  fields := n.fields ∪ n.privateFields
  methods := n.methods ∪ n.privateMethods

end HierarchyNode

end Reclass
