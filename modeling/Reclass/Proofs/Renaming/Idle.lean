import Reclass.Proofs.Renaming.Plain

set_option relaxedAutoImplicit false
set_option autoImplicit false

/-!
# Renamings that change nothing

A table may list classes and members with the names that they have already. Such a table has to
leave every class as it is, whatever text stands in it: what can be read as a descriptor or as a
signature is printed again as it was, what cannot be read stays, and the segments of nested classes
and the simple names of inner classes are only derived anew for classes that get another name.

## Main definitions

* `Reclass.Renaming.Idle` — the renaming has no new names.
* `Reclass.Renaming.ListsOwnNames` — what is listed is listed with its own name.

## Main results

* `Reclass.Renaming.Idle.classTree_eq` — an idle renaming leaves a class as it is.
* `Reclass.Renaming.ListsOwnNames.idle` — a renaming that lists own names is idle.
-/

namespace Reclass

/-! ## Types renamed by nothing -/

@[simp] lemma FieldType.rename_id (t : FieldType) : t.rename id = t :=
  t.rename_eq_self fun _ _ => rfl

@[simp] lemma MethodType.rename_id (t : MethodType) : t.rename id = t := by
  simp [MethodType.rename, funext FieldType.rename_id]

mutual

@[simp] lemma TypeSig.rename_id : ∀ t : TypeSig, t.rename id = t
  | .primitive _ | .typeVar _ => rfl
  | .array t => by rw [TypeSig.rename, TypeSig.rename_id t]
  | .object head tail => by rw [TypeSig.rename, id_eq, ClassTail.rename_id head tail]

/-- A segment keeps its name if the class keeps its binary name. -/
@[simp] lemma ClassTail.rename_id (binary : String) : ∀ t : ClassTail, t.rename id binary = t
  | .done => rfl
  | .segment name rest => by
    rw [ClassTail.rename, nestedSegment, if_pos (id_eq _), ClassTail.rename_id _ rest]
  | .arguments args rest => by
    rw [ClassTail.rename, TypeArgs.rename_id args, ClassTail.rename_id binary rest]

@[simp] lemma TypeArgs.rename_id : ∀ a : TypeArgs, a.rename id = a
  | .nil => rfl
  | .any rest => by rw [TypeArgs.rename, TypeArgs.rename_id rest]
  | .type _ t rest => by
    rw [TypeArgs.rename, TypeSig.rename_id t, TypeArgs.rename_id rest]

end

@[simp] lemma FormalParam.rename_id (p : FormalParam) : p.rename id = p := by
  have hbound : Option.map (TypeSig.rename id) = id := by
    funext bound
    cases bound <;> simp
  rw [FormalParam.rename, hbound, List.map_id]

@[simp] lemma SignatureBody.rename_id (b : SignatureBody) : b.rename id = b := by
  have htypes : TypeSig.rename id = id := funext TypeSig.rename_id
  cases b <;> simp [SignatureBody.rename, htypes]

@[simp] lemma Signature.rename_id (s : Signature) : s.rename id = s := by
  have hformals : FormalParam.rename id = id := funext FormalParam.rename_id
  simp [Signature.rename, hformals]

/-- A text stays if what it is read as stays and is printed as it was. -/
lemma replacedText_eq_self {α : Type} {parse : List Char → Option α} {render : α → List Char}
    {f : α → α} (hf : ∀ t, f t = t)
    (hparse : ∀ cs t, parse cs = some t → cs = render t) (text : String) :
    replacedText parse render f text = text := by
  unfold replacedText
  cases h : parse text.toList with
  | none => rfl
  | some t =>
    rw [Option.map_some, Option.getD_some, hf, ← hparse _ t h, String.ofList_toList]

namespace Renaming

variable {r : Renaming}

/-! ## Idle renamings -/

/-- The renaming leaves every class and every member its name. -/
structure Idle (r : Renaming) : Prop where
  className_eq : r.className = id
  nameAt_eq : ∀ kind owner m, r.nameAt kind owner m = m.name

/-- Every class and every member that the renaming lists is listed with its own name. -/
structure ListsOwnNames (r : Renaming) : Prop where
  newName_eq : ∀ {name names}, r.find? name = some names → names.newName = name
  memberName_eq : ∀ {name names}, r.find? name = some names → ∀ kind (m : Member) {new},
    (names.members kind)[m]? = some new → new = m.name

namespace ListsOwnNames

/-- What is listed keeps its name, and so does what is not listed. -/
lemma idle (h : r.ListsOwnNames) : r.Idle where
  className_eq := by
    funext name
    unfold className
    cases hfind : r.find? name with
    | none => rfl
    | some names => exact h.newName_eq hfind
  nameAt_eq kind owner m := by
    unfold nameAt
    cases howner : r.owner? owner with
    | none => rfl
    | some names =>
      obtain ⟨name, -, hfind⟩ := Option.bind_eq_some_iff.1 howner
      rw [Option.bind_some]
      cases hnew : (names.members kind)[m]? with
      | none => rfl
      | some new => exact h.memberName_eq hfind kind m hnew

/-- Two layers of own names list own names. -/
lemma orElse {first second : Renaming} (hfirst : first.ListsOwnNames)
    (hsecond : second.ListsOwnNames) : (first.orElse second).ListsOwnNames where
  newName_eq hfind := by
    rcases Option.or_eq_some_iff.1 hfind with hfind | ⟨-, hfind⟩
    · exact hfirst.newName_eq hfind
    · exact hsecond.newName_eq hfind
  memberName_eq hfind := by
    rcases Option.or_eq_some_iff.1 hfind with hfind | ⟨-, hfind⟩
    · exact hfirst.memberName_eq hfind
    · exact hsecond.memberName_eq hfind

end ListsOwnNames

namespace Idle

/-! ## Texts -/

variable (h : r.Idle)
include h

lemma methodDescriptor_eq : r.methodDescriptor = id := by
  funext text
  rw [methodDescriptor_eq_replacedText, h.className_eq]
  exact replacedText_eq_self MethodType.rename_id
    (fun _ _ ht => (MethodType.parse?_eq_some_iff.1 ht).2) text

lemma fieldDescriptor_eq : r.fieldDescriptor = id := by
  funext text
  rw [fieldDescriptor, h.className_eq]
  exact replacedText_eq_self FieldType.rename_id
    (fun _ _ ht => (FieldType.parse?_eq_some_iff.1 ht).2) text

lemma descriptor_eq : r.descriptor = id := by
  funext text
  rw [descriptor_eq_ite, h.methodDescriptor_eq, h.fieldDescriptor_eq, ite_self]

lemma signature_eq : r.signature = id := by
  funext text
  rw [signature, h.className_eq]
  exact replacedText_eq_self Signature.rename_id
    (fun _ _ ht => (Signature.parse?_eq_some_iff.1 ht).2) text

/-- Every shape of a type name is put together again as it was. -/
lemma typeName_eq : r.typeName = id := by
  funext text
  rw [typeName, h.descriptor_eq, h.className_eq]
  split
  · rfl
  · split
    · next inside hinside => exact Descriptor.ofInternalName_of_internalName? hinside
    · rfl

lemma fieldName_eq (owner name descriptor : String) : r.fieldName owner name descriptor = name :=
  (r.memberName_eq_nameAt .field owner name descriptor).trans (h.nameAt_eq _ _ _)

lemma methodName_eq (owner name descriptor : String) : r.methodName owner name descriptor = name :=
  (r.memberName_eq_nameAt .method owner name descriptor).trans (h.nameAt_eq _ _ _)

/-! ## The header -/

lemma annotationUse_eq : r.annotationUse = id := by
  funext a
  rw [annotationUse, h.descriptor_eq]
  rfl

lemma enclosingMethod_eq : r.enclosingMethod = id := by
  funext e
  obtain ⟨owner, name, descriptor⟩ := e
  cases name <;> cases descriptor <;>
    simp [enclosingMethod, h.typeName_eq, h.methodDescriptor_eq, h.methodName_eq]

/-- No simple name is derived anew. -/
lemma innerClass_eq : r.innerClass = id := by
  funext i
  have hinner : ClassName.innerName i.name i.name = id := funext (ClassName.innerName_self i.name)
  simp [innerClass, h.typeName_eq, hinner]

lemma recordComponent_eq (owner : String) : r.recordComponent owner = id := by
  funext c
  simp [recordComponent, h.fieldName_eq, h.descriptor_eq, h.signature_eq, h.annotationUse_eq]

lemma header_eq : r.header = id := by
  funext d
  simp [header, h.typeName_eq, h.signature_eq, h.annotationUse_eq, h.enclosingMethod_eq,
    h.innerClass_eq, h.recordComponent_eq]

/-! ## Members -/

lemma fieldRef_eq : r.fieldRef = id := by
  funext m
  simp [fieldRef, h.typeName_eq, h.fieldName_eq, h.descriptor_eq]

lemma methodRef_eq : r.methodRef = id := by
  funext m
  simp [methodRef, h.typeName_eq, h.methodName_eq, h.methodDescriptor_eq]

/-- The name of a handle stays, among whichever members it is looked up. -/
lemma handle_eq : r.handle = id := by
  funext x
  simp [handle, h.typeName_eq, h.fieldName_eq, h.methodName_eq, h.descriptor_eq]

lemma constant_eq : r.constant = id := by
  funext x
  cases x <;> simp [constant, h.descriptor_eq, h.handle_eq]

lemma frameSlot_eq : r.frameSlot = id := by
  funext x
  cases x <;> simp [frameSlot, h.typeName_eq]

lemma instruction_eq : r.instruction = id := by
  funext i
  cases i <;> simp [instruction, h.typeName_eq, h.fieldRef_eq, h.methodRef_eq,
    h.methodDescriptor_eq, h.descriptor_eq, h.handle_eq, h.constant_eq, h.frameSlot_eq]

lemma exceptionHandler_eq : r.exceptionHandler = id := by
  funext x
  simp [exceptionHandler, h.typeName_eq]

lemma localVariable_eq : r.localVariable = id := by
  funext v
  simp [localVariable, h.descriptor_eq, h.signature_eq]

lemma field_eq (owner : String) : r.field owner = id := by
  funext f
  simp [field, h.fieldName_eq, h.descriptor_eq, h.signature_eq, h.constant_eq, h.annotationUse_eq]

lemma method_eq (owner : String) : r.method owner = id := by
  funext m
  simp [method, h.methodName_eq, h.methodDescriptor_eq, h.signature_eq, h.typeName_eq,
    h.annotationUse_eq, h.instruction_eq, h.exceptionHandler_eq, h.localVariable_eq]

/-! ## Classes -/

/-- **An idle renaming leaves a class as it is**, malformed text included.

**Proof sketch.** Part by part. Text that can be read is the print of what it is read as
(`parse?_eq_some_iff` of each grammar), and that is renamed by the identity. -/
theorem classTree_eq (c : ClassTree) : r.classTree c = c := by
  simp [classTree, h.header_eq, h.field_eq, h.method_eq]

end Idle

end Renaming

end Reclass
