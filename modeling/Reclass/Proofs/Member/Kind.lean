import Mathlib.Tactic.Lemma
import Reclass.Hierarchy.Node
import Reclass.Renaming.ClassTree

set_option relaxedAutoImplicit false
set_option autoImplicit false

/-!
# Fields and methods alike

Fields and methods are kept apart everywhere, but they follow the same rules: a member is found by
its name and its descriptor with new class names, in the class behind its owner. Here the two are
one notion with a kind, so that a rule is stated once.

## Main definitions

* `Reclass.MemberKind` — fields or methods.
* `Reclass.Declaration`, `Reclass.ClassTree.declarations` — the members that a class declares.
* `Reclass.Renaming.nameAt` — the new name of a member that is given as a table lists it.
* `Reclass.Instruction.target?` — the member that an instruction refers to.

## Main results

* `Reclass.Renaming.memberName_eq_nameAt` — a member is renamed by what identifies it.
* `Reclass.Renaming.declarations_classTree`, `target?_instruction` — where the new names of members
  stand in a renamed class.
-/

namespace Reclass

/-- Fields and methods are looked up apart. -/
inductive MemberKind where
  | field | method
deriving DecidableEq, Repr

/-! ## Members of one kind -/

/-- What the declaration of a member says about its name and access. -/
structure Declaration where
  access : UInt32
  name : String
  descriptor : String
deriving DecidableEq, Repr

/-- The members of one kind that a class declares, in order. -/
def ClassTree.declarations (c : ClassTree) : MemberKind → List Declaration
  | .field => c.fields.map fun f => ⟨f.access, f.name, f.descriptor⟩
  | .method => c.methods.map fun m => ⟨m.access, m.name, m.descriptor⟩

/-- The new names of the members of one kind. -/
def ClassNames.members (n : ClassNames) : MemberKind → MemberNames
  | .field => n.fields
  | .method => n.methods

/-- The members of one kind in a node, either the private ones or the others. -/
def HierarchyNode.members (n : HierarchyNode) : MemberKind → (hidden : Bool) → MemberNames
  | .field, false => n.fields
  | .field, true => n.privateFields
  | .method, false => n.methods
  | .method, true => n.privateMethods

/-- In a rename table the private members of a node count before the others. -/
lemma HierarchyNode.members_classNames (n : HierarchyNode) (kind : MemberKind) :
    n.classNames.members kind = n.members kind false ∪ n.members kind true := by
  cases kind <;> rfl

/-- Only members that are not private are inherited. -/
lemma HierarchyNode.members_inheritFrom (n parent : HierarchyNode) (kind : MemberKind)
    (hidden : Bool) :
    (n.inheritFrom parent).members kind hidden =
      if hidden then n.members kind true
      else (n.members kind false).inherit (parent.members kind false) := by
  cases kind <;> cases hidden <;> rfl

namespace Renaming

variable (r : Renaming) (kind : MemberKind)

/-- The descriptor of a member with new class names. -/
def memberDescriptor (r : Renaming) : MemberKind → String → String
  | .field => r.descriptor
  | .method => r.methodDescriptor

/-- What identifies a member in a table. -/
def member (name descriptor : String) : Member := ⟨name, r.memberDescriptor kind descriptor⟩

/-- The new name of a member, given with its old descriptor. -/
def memberName (r : Renaming) : MemberKind → String → String → String → String
  | .field => r.fieldName
  | .method => r.methodName

/-- The new name of a member of `owner`, given as a table lists it. -/
def nameAt (owner : String) (m : Member) : String :=
  ((r.owner? owner).bind fun names => (names.members kind)[m]?).getD m.name

/-- A member is renamed by what identifies it. -/
lemma memberName_eq_nameAt (owner name descriptor : String) :
    r.memberName kind owner name descriptor =
      r.nameAt kind owner (r.member kind name descriptor) := by
  cases kind <;> rfl

variable {r kind} {owner name descriptor : String}

/-- A member of a listed class is looked up among the members of this class. -/
lemma memberName_of_owner? {names : ClassNames} (h : r.owner? owner = some names) :
    r.memberName kind owner name descriptor =
      ((names.members kind)[r.member kind name descriptor]?).getD name := by
  rw [memberName_eq_nameAt, nameAt, h]
  rfl

/-- A member of a class that is not listed keeps its name. -/
lemma memberName_of_owner?_eq_none (h : r.owner? owner = none) :
    r.memberName kind owner name descriptor = name := by
  rw [memberName_eq_nameAt, nameAt, h]
  rfl

variable (r kind)

/-- Two renamings that agree on classes agree on descriptors. -/
lemma memberDescriptor_congr {r s : Renaming} (h : r.className = s.className) (kind : MemberKind) :
    r.memberDescriptor kind = s.memberDescriptor kind := by
  cases kind <;> funext text <;>
    simp only [memberDescriptor, descriptor, methodDescriptor, h]

/-- The new form of a declaration of the class `owner`. -/
def declaration (owner : String) (d : Declaration) : Declaration where
  access := d.access
  name := r.memberName kind owner d.name d.descriptor
  descriptor := r.memberDescriptor kind d.descriptor

/-- A renamed class declares the renamed members. -/
lemma declarations_classTree (c : ClassTree) :
    (r.classTree c).declarations kind = (c.declarations kind).map (r.declaration kind c.name) := by
  cases kind <;> simp only [ClassTree.declarations, classTree, List.map_map] <;> rfl

end Renaming

/-! ## References from instructions -/

/-- The member that a field or method instruction refers to. -/
def Instruction.target? : Instruction → Option (MemberKind × MemberRef)
  | .field _ target => some (.field, target)
  | .method _ target _ => some (.method, target)
  | _ => none

/-- The new form of a reference to a member. -/
def Renaming.memberRef (r : Renaming) : MemberKind → MemberRef → MemberRef
  | .field => r.fieldRef
  | .method => r.methodRef

/-- A renamed reference carries the new name of the member. -/
lemma Renaming.memberRef_name (r : Renaming) (kind : MemberKind) (m : MemberRef) :
    (r.memberRef kind m).name = r.memberName kind m.owner m.name m.descriptor := by
  cases kind <;> rfl

/-- A renamed instruction refers to the renamed member. -/
lemma Renaming.target?_instruction (r : Renaming) (i : Instruction) :
    (r.instruction i).target? = i.target?.map fun t => (t.1, r.memberRef t.1 t.2) := by
  cases i <;> rfl

end Reclass
