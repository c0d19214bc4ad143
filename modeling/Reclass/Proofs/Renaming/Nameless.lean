import Reclass.Proofs.Member.Kind

set_option relaxedAutoImplicit false
set_option autoImplicit false

/-!
# What member names have no part in

Two renamings may agree on classes and differ in the names of members. A class that is renamed by
each of them looks the same afterwards, as long as one does not look at the names of members. These
stand in few places: where a member is declared, in components of records, where the enclosing
method is mentioned, and where an instruction or a handle refers to a member.

## Main definitions

* `Reclass.ClassTree.nameless` — a class without the names of members.

## Main results

* `Reclass.Renaming.nameless_classTree_congr` — renamings that agree on classes agree up to the
  names of members.
-/

namespace Reclass

/-! ## Classes without the names of members -/

/-- A reference to a member, without its name. -/
def MemberRef.nameless (m : MemberRef) : MemberRef := { m with name := "" }

/-- A handle, without the name of the member that it refers to. -/
def Handle.nameless (h : Handle) : Handle := { h with target := h.target.nameless }

/-- A constant, without a name if it is a handle. -/
def Constant.nameless : Constant → Constant
  | .handle h => .handle h.nameless
  | c => c

/-- An enclosing method, without its name. Whether it has one is kept. -/
def EnclosingMethod.nameless (e : EnclosingMethod) : EnclosingMethod :=
  { e with name := e.name.map fun _ => "" }

/-- A component of a record class, without its name. -/
def RecordComponent.nameless (c : RecordComponent) : RecordComponent := { c with name := "" }

/-- A header, without the names of the enclosing method and of components. -/
def Header.nameless (h : Header) : Header :=
  { h with
    enclosing := h.enclosing.map EnclosingMethod.nameless
    recordComponents := h.recordComponents.map RecordComponent.nameless }

/-- A field, without its name and without that of its value. -/
def FieldDecl.nameless (f : FieldDecl) : FieldDecl :=
  { f with name := "", value := f.value.map Constant.nameless }

/-- An instruction, without the names of the members that it refers to. The name of a dynamic call
is no name of a member. -/
def Instruction.nameless : Instruction → Instruction
  | .field opcode target => .field opcode target.nameless
  | .method opcode target isInterface => .method opcode target.nameless isInterface
  | .dynamic name descriptor bootstrap arguments =>
    .dynamic name descriptor bootstrap.nameless (arguments.map Constant.nameless)
  | .load value => .load value.nameless
  | i => i

/-- A method, without its name and without those in its instructions. -/
def MethodDecl.nameless (m : MethodDecl) : MethodDecl :=
  { m with name := "", instructions := m.instructions.map Instruction.nameless }

/-- A class, without the names of members. -/
def ClassTree.nameless (c : ClassTree) : ClassTree where
  header := c.header.nameless
  fields := c.fields.map FieldDecl.nameless
  methods := c.methods.map MethodDecl.nameless

namespace Renaming

variable {r s : Renaming} (h : r.className = s.className)
include h

/-! ## Places without names of members -/

lemma descriptor_congr : r.descriptor = s.descriptor := memberDescriptor_congr h .field

lemma methodDescriptor_congr : r.methodDescriptor = s.methodDescriptor :=
  memberDescriptor_congr h .method

lemma typeName_congr : r.typeName = s.typeName := by
  funext text
  simp only [typeName, descriptor_congr h, h]

lemma signature_congr : r.signature = s.signature := by
  funext text
  simp only [signature, h]

lemma annotationUse_congr : r.annotationUse = s.annotationUse := by
  funext a
  simp only [annotationUse, descriptor_congr h]

lemma innerClass_congr : r.innerClass = s.innerClass := by
  funext i
  simp only [innerClass, typeName_congr h]

lemma frameSlot_congr : r.frameSlot = s.frameSlot := by
  funext slot
  cases slot <;> simp only [frameSlot, typeName_congr h]

lemma exceptionHandler_congr : r.exceptionHandler = s.exceptionHandler := by
  funext x
  simp only [exceptionHandler, typeName_congr h]

lemma localVariable_congr : r.localVariable = s.localVariable := by
  funext v
  simp only [localVariable, descriptor_congr h, signature_congr h]

/-! ## Places with names of members -/

lemma nameless_fieldRef_congr (m : MemberRef) :
    (r.fieldRef m).nameless = (s.fieldRef m).nameless := by
  simp only [fieldRef, MemberRef.nameless, typeName_congr h, descriptor_congr h]

lemma nameless_methodRef_congr (m : MemberRef) :
    (r.methodRef m).nameless = (s.methodRef m).nameless := by
  simp only [methodRef, MemberRef.nameless, typeName_congr h, methodDescriptor_congr h]

lemma nameless_handle_congr (x : Handle) : (r.handle x).nameless = (s.handle x).nameless := by
  simp only [handle, Handle.nameless, MemberRef.nameless, typeName_congr h, descriptor_congr h]

lemma nameless_constant_congr (x : Constant) :
    (r.constant x).nameless = (s.constant x).nameless := by
  cases x <;>
    simp only [constant, Constant.nameless, descriptor_congr h, nameless_handle_congr h]

lemma nameless_enclosingMethod_congr (e : EnclosingMethod) :
    (r.enclosingMethod e).nameless = (s.enclosingMethod e).nameless := by
  obtain ⟨owner, name, descriptor⟩ := e
  cases name <;> cases descriptor <;> simp only [enclosingMethod, EnclosingMethod.nameless,
    typeName_congr h, methodDescriptor_congr h, Option.map_some, Option.map_none]

lemma nameless_recordComponent_congr (owner : String) (c : RecordComponent) :
    (r.recordComponent owner c).nameless = (s.recordComponent owner c).nameless := by
  simp only [recordComponent, RecordComponent.nameless, descriptor_congr h, signature_congr h,
    annotationUse_congr h]

lemma nameless_header_congr (d : Header) : (r.header d).nameless = (s.header d).nameless := by
  simp only [header, Header.nameless, Option.map_map, List.map_map, Function.comp_def,
    typeName_congr h, signature_congr h, annotationUse_congr h, innerClass_congr h,
    nameless_enclosingMethod_congr h, nameless_recordComponent_congr h]

lemma nameless_field_congr (owner : String) (f : FieldDecl) :
    (r.field owner f).nameless = (s.field owner f).nameless := by
  simp only [field, FieldDecl.nameless, Option.map_map, Function.comp_def, descriptor_congr h,
    signature_congr h, annotationUse_congr h, nameless_constant_congr h]

lemma nameless_instruction_congr (i : Instruction) :
    (r.instruction i).nameless = (s.instruction i).nameless := by
  cases i <;> simp only [instruction, Instruction.nameless, List.map_map, Function.comp_def,
    typeName_congr h, descriptor_congr h, methodDescriptor_congr h, frameSlot_congr h,
    nameless_fieldRef_congr h, nameless_methodRef_congr h, nameless_handle_congr h,
    nameless_constant_congr h]

lemma nameless_method_congr (owner : String) (m : MethodDecl) :
    (r.method owner m).nameless = (s.method owner m).nameless := by
  simp only [method, MethodDecl.nameless, List.map_map, Function.comp_def,
    methodDescriptor_congr h, signature_congr h, typeName_congr h, annotationUse_congr h,
    exceptionHandler_congr h, localVariable_congr h, nameless_instruction_congr h]

/-- **Renamings that agree on classes agree up to the names of members.** -/
theorem nameless_classTree_congr (c : ClassTree) :
    (r.classTree c).nameless = (s.classTree c).nameless := by
  simp only [classTree, ClassTree.nameless, List.map_map, Function.comp_def,
    nameless_header_congr h, nameless_field_congr h, nameless_method_congr h]

end Renaming

end Reclass
