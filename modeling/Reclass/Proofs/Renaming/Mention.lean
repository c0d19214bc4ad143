import Mathlib.Tactic.Lemma
import Reclass.Proofs.Descriptor.Grammar
import Reclass.Proofs.Member.Kind

set_option relaxedAutoImplicit false
set_option autoImplicit false

/-!
# Where a class holds names

A class holds names in many places, but in five ways only: as a type, as a descriptor, as a generic
signature, as the simple name of an inner class, and as the name of a member next to its owner and
descriptor. Whatever is to be known of a renamed class as a whole can be asked place by place.

## Main definitions

* `Reclass.Mention` — a place that holds a name.
* `Reclass.ClassTree.mentions` — all places of a class.
* `Reclass.Mention.ComesBack` — a second renaming undoes the first one in this place.

## Main results

* `Reclass.ComeBack.classTree` — a class comes back if all its places do.
-/

namespace Reclass

/-! ## Places -/

/-- A place in a class that holds a name. -/
inductive Mention where
  | type (text : String)
  | descriptor (kind : MemberKind) (text : String)
  | signature (text : String)
  | innerName (binary declared : String)
  | member (kind : MemberKind) (target : MemberRef)

/-- A reference to a member holds a type, a descriptor and the member's name. -/
def MemberRef.mentions (kind : MemberKind) (m : MemberRef) : List Mention :=
  [.type m.owner, .descriptor kind m.descriptor, .member kind m]

/-- The members among which a handle's name is looked up. -/
def Handle.kind (h : Handle) : MemberKind := if h.isMethod then .method else .field

/-- A handle holds what a reference holds. Its descriptor may be of either kind. -/
def Handle.mentions (h : Handle) : List Mention :=
  [.type h.target.owner, .descriptor .field h.target.descriptor, .member h.kind h.target]

/-- The places of a constant. -/
def Constant.mentions : Constant → List Mention
  | .type text => [.descriptor .field text]
  | .handle h => h.mentions
  | _ => []

/-- The places of a verification type. -/
def FrameSlot.mentions : FrameSlot → List Mention
  | .object type => [.type type]
  | _ => []

/-- The places of an annotation. -/
def AnnotationUse.mentions (a : AnnotationUse) : List Mention := [.descriptor .field a.descriptor]

/-- The places of an enclosing method. Its name is one only if its descriptor is known. -/
def EnclosingMethod.mentions (e : EnclosingMethod) : List Mention :=
  .type e.owner :: e.descriptor.toList.flatMap fun descriptor =>
    .descriptor .method descriptor :: e.name.toList.map fun name =>
      .member .method ⟨e.owner, name, descriptor⟩

/-- The places of an entry for an inner class. -/
def InnerClass.mentions (i : InnerClass) : List Mention :=
  .type i.name :: (i.outerName.toList.map .type ++ i.innerName.toList.map (.innerName i.name))

/-- The places of a component of the record class `owner`. -/
def RecordComponent.mentions (owner : String) (c : RecordComponent) : List Mention :=
  .descriptor .field c.descriptor :: .member .field ⟨owner, c.name, c.descriptor⟩ ::
    (c.signature.toList.map .signature ++ c.annotations.flatMap AnnotationUse.mentions)

/-- The places of a header. -/
def Header.mentions (h : Header) : List Mention :=
  .type h.name :: (h.signature.toList.map .signature ++ h.superName.toList.map .type ++
    h.interfaces.map .type ++ h.enclosing.toList.flatMap EnclosingMethod.mentions ++
    h.nestHost.toList.map .type ++ h.nestMembers.map .type ++ h.permittedSubclasses.map .type ++
    h.innerClasses.flatMap InnerClass.mentions ++ h.annotations.flatMap AnnotationUse.mentions ++
    h.recordComponents.flatMap (RecordComponent.mentions h.name))

/-- The places of a field of the class `owner`. -/
def FieldDecl.mentions (owner : String) (f : FieldDecl) : List Mention :=
  .descriptor .field f.descriptor :: .member .field ⟨owner, f.name, f.descriptor⟩ ::
    (f.signature.toList.map .signature ++ f.value.toList.flatMap Constant.mentions ++
      f.annotations.flatMap AnnotationUse.mentions)

/-- The places of an instruction. -/
def Instruction.mentions : Instruction → List Mention
  | .type _ operand => [.type operand]
  | .field _ target => target.mentions .field
  | .method _ target _ => target.mentions .method
  | .dynamic _ descriptor bootstrap arguments =>
    .descriptor .method descriptor :: (bootstrap.mentions ++ arguments.flatMap Constant.mentions)
  | .load value => value.mentions
  | .newArray descriptor _ => [.descriptor .field descriptor]
  | .frame _ locals stack => locals.flatMap FrameSlot.mentions ++ stack.flatMap FrameSlot.mentions
  | _ => []

/-- The places of an exception handler. -/
def ExceptionHandler.mentions (h : ExceptionHandler) : List Mention := h.catchType.toList.map .type

/-- The places of a local variable. -/
def LocalVariable.mentions (v : LocalVariable) : List Mention :=
  .descriptor .field v.descriptor :: v.signature.toList.map .signature

/-- The places of a method of the class `owner`. -/
def MethodDecl.mentions (owner : String) (m : MethodDecl) : List Mention :=
  .descriptor .method m.descriptor :: .member .method ⟨owner, m.name, m.descriptor⟩ ::
    (m.signature.toList.map .signature ++ m.exceptions.map .type ++
      m.annotations.flatMap AnnotationUse.mentions ++
      m.parameterAnnotations.flatten.flatMap AnnotationUse.mentions ++
      m.instructions.flatMap Instruction.mentions ++
      m.handlers.flatMap ExceptionHandler.mentions ++
      m.localVariables.flatMap LocalVariable.mentions)

/-- The places of a class. -/
def ClassTree.mentions (c : ClassTree) : List Mention :=
  c.header.mentions ++ c.fields.flatMap (FieldDecl.mentions c.name) ++
    c.methods.flatMap (MethodDecl.mentions c.name)

/-! ## Coming back -/

/-- What the first renaming writes in this place, the second one turns into what stood there
before. -/
def Mention.ComesBack (r back : Renaming) : Mention → Prop
  | .type text => back.typeName (r.typeName text) = text
  | .descriptor kind text =>
    back.memberDescriptor kind (r.memberDescriptor kind text) = text
  | .signature text => back.signature (r.signature text) = text
  | .innerName binary declared =>
    ClassName.innerName (r.typeName binary) binary
      (ClassName.innerName binary (r.typeName binary) declared) = declared
  | .member kind m =>
    back.memberName kind (r.typeName m.owner) (r.memberName kind m.owner m.name m.descriptor)
      (r.memberDescriptor kind m.descriptor) = m.name

namespace Mention.ComesBack

variable {r back : Renaming}

/-- A type that comes back. -/
lemma type_eq {text : String} (h : ComesBack r back (.type text)) :
    back.typeName (r.typeName text) = text := h

/-- A descriptor that comes back. -/
lemma descriptor_eq {text : String} (h : ComesBack r back (.descriptor .field text)) :
    back.descriptor (r.descriptor text) = text := h

/-- The descriptor of a method that comes back. -/
lemma methodDescriptor_eq {text : String} (h : ComesBack r back (.descriptor .method text)) :
    back.methodDescriptor (r.methodDescriptor text) = text := h

/-- The name of a field that comes back. -/
lemma fieldName_eq {owner name descriptor : String}
    (h : ComesBack r back (.member .field ⟨owner, name, descriptor⟩)) :
    back.fieldName (r.typeName owner) (r.fieldName owner name descriptor)
      (r.descriptor descriptor) = name := h

/-- The name of a method that comes back. -/
lemma methodName_eq {owner name descriptor : String}
    (h : ComesBack r back (.member .method ⟨owner, name, descriptor⟩)) :
    back.methodName (r.typeName owner) (r.methodName owner name descriptor)
      (r.methodDescriptor descriptor) = name := h

end Mention.ComesBack

/-- All these places come back. -/
def ComeBack (r back : Renaming) (ms : List Mention) : Prop := ∀ m ∈ ms, m.ComesBack r back

/-- An optional value comes back from two maps if the value does. -/
lemma option_map_map_cancel {α β : Type} {f : α → β} {g : β → α} {o : Option α}
    (h : ∀ x ∈ o.toList, g (f x) = x) : (o.map f).map g = o := by
  cases o with
  | none => rfl
  | some x => rw [Option.map_some, Option.map_some, h x (by simp)]

namespace ComeBack

variable {r back : Renaming}

@[simp] lemma cons_iff {m : Mention} {ms : List Mention} :
    ComeBack r back (m :: ms) ↔ m.ComesBack r back ∧ ComeBack r back ms := List.forall_mem_cons

@[simp] lemma append_iff {ms ms' : List Mention} :
    ComeBack r back (ms ++ ms') ↔ ComeBack r back ms ∧ ComeBack r back ms' :=
  List.forall_mem_append

@[simp] lemma map_iff {α : Type} {f : α → Mention} {l : List α} :
    ComeBack r back (l.map f) ↔ ∀ x ∈ l, (f x).ComesBack r back := List.forall_mem_map

@[simp] lemma flatMap_iff {α : Type} {f : α → List Mention} {l : List α} :
    ComeBack r back (l.flatMap f) ↔ ∀ x ∈ l, ComeBack r back (f x) := by
  simp only [ComeBack, List.mem_flatMap]
  exact ⟨fun h x hx m hm => h m ⟨x, hx, hm⟩, fun h m ⟨x, hx, hm⟩ => h x hx m hm⟩

/-! ## The parts of a class -/

/-- Annotations come back. -/
lemma annotationUse {a : AnnotationUse} (h : ComeBack r back a.mentions) :
    back.annotationUse (r.annotationUse a) = a := by
  simp only [Renaming.annotationUse, (cons_iff.1 h).1.descriptor_eq]

/-- All annotations of a list come back. -/
lemma annotationUses {l : List AnnotationUse}
    (h : ComeBack r back (l.flatMap AnnotationUse.mentions)) :
    (l.map r.annotationUse).map back.annotationUse = l :=
  map_map_cancel fun a ha => annotationUse (flatMap_iff.1 h a ha)

/-- Optional signatures come back. -/
lemma signature? {o : Option String} (h : ComeBack r back (o.toList.map .signature)) :
    (o.map r.signature).map back.signature = o :=
  option_map_map_cancel (map_iff.1 h)

/-- Optional types come back. -/
lemma type? {o : Option String} (h : ComeBack r back (o.toList.map .type)) :
    (o.map r.typeName).map back.typeName = o :=
  option_map_map_cancel (map_iff.1 h)

/-- Lists of types come back. -/
lemma types {l : List String} (h : ComeBack r back (l.map .type)) :
    (l.map r.typeName).map back.typeName = l :=
  map_map_cancel (map_iff.1 h)

/-- Enclosing methods come back. -/
lemma enclosingMethod {e : EnclosingMethod} (h : ComeBack r back e.mentions) :
    back.enclosingMethod (r.enclosingMethod e) = e := by
  obtain ⟨owner, name, descriptor⟩ := e
  obtain ⟨howner, hrest⟩ := cons_iff.1 h
  cases descriptor with
  | none => cases name <;> simp only [Renaming.enclosingMethod, howner.type_eq, Option.map_none]
  | some descriptor =>
    obtain ⟨hdescriptor, hname⟩ := cons_iff.1 (flatMap_iff.1 hrest descriptor (by simp))
    cases name with
    | none =>
      simp only [Renaming.enclosingMethod, howner.type_eq, hdescriptor.methodDescriptor_eq,
        Option.map_some]
    | some name =>
      have hname := map_iff.1 hname name (by simp)
      simp only [Renaming.enclosingMethod, howner.type_eq, hdescriptor.methodDescriptor_eq,
        hname.methodName_eq, Option.map_some]

/-- Entries for inner classes come back. -/
lemma innerClass {i : InnerClass} (h : ComeBack r back i.mentions) :
    back.innerClass (r.innerClass i) = i := by
  obtain ⟨name, outerName, innerName, access⟩ := i
  obtain ⟨hname, hrest⟩ := cons_iff.1 h
  obtain ⟨houter, hinner⟩ := append_iff.1 hrest
  have hinner' : (innerName.map (ClassName.innerName name (r.typeName name))).map
      (ClassName.innerName (r.typeName name) name) = innerName :=
    option_map_map_cancel (map_iff.1 hinner)
  simp only [Renaming.innerClass, hname.type_eq, type? houter, hinner']

/-- Record components come back. -/
lemma recordComponent {owner : String} {c : RecordComponent}
    (h : ComeBack r back (c.mentions owner)) :
    back.recordComponent (r.typeName owner) (r.recordComponent owner c) = c := by
  obtain ⟨name, descriptor, signature, annotations⟩ := c
  simp only [RecordComponent.mentions, cons_iff, append_iff] at h
  obtain ⟨hdescriptor, hname, hsignature, hannotations⟩ := h
  simp only [Renaming.recordComponent, hdescriptor.descriptor_eq, hname.fieldName_eq,
    signature? hsignature, annotationUses hannotations]

/-- Headers come back. -/
lemma header {d : Header} (h : ComeBack r back d.mentions) : back.header (r.header d) = d := by
  obtain ⟨version, access, name, signature, superName, interfaces, sourceFile, enclosing, nestHost,
    nestMembers, permitted, innerClasses, annotations, components⟩ := d
  simp only [Header.mentions, cons_iff, append_iff] at h
  obtain ⟨hname, ⟨⟨⟨⟨⟨⟨⟨⟨hsignature, hsuper⟩, hinterfaces⟩, henclosing⟩, hhost⟩, hmembers⟩,
    hpermitted⟩, hinner⟩, hannotations⟩, hcomponents⟩ := h
  have henclosing' := option_map_map_cancel fun e he =>
    enclosingMethod (flatMap_iff.1 henclosing e he)
  have hinner' := map_map_cancel fun i hi => innerClass (flatMap_iff.1 hinner i hi)
  have hcomponents' := map_map_cancel fun c hc => recordComponent (flatMap_iff.1 hcomponents c hc)
  simp only [Renaming.header, hname.type_eq, signature? hsignature, type? hsuper,
    types hinterfaces, henclosing', type? hhost, types hmembers, types hpermitted, hinner',
    annotationUses hannotations, hcomponents']

end ComeBack

/-! ## Handles -/

/-- The renaming never turns the handle of a field into that of a method or the other way, and
renames the descriptor of a handle as its kind demands. -/
structure Renaming.KeepsHandles (r : Renaming) : Prop where
  isMethod : ∀ h : Handle, (r.handle h).isMethod = h.isMethod
  descriptor : ∀ h : Handle,
    r.memberDescriptor h.kind h.target.descriptor = r.descriptor h.target.descriptor

namespace ComeBack

variable {r back : Renaming}

/-- References to members come back. -/
lemma memberRef (kind : MemberKind) {m : MemberRef} (h : ComeBack r back (m.mentions kind)) :
    back.memberRef kind (r.memberRef kind m) = m := by
  obtain ⟨owner, name, descriptor⟩ := m
  simp only [MemberRef.mentions, cons_iff] at h
  obtain ⟨howner, hdescriptor, hname, -⟩ := h
  cases kind with
  | field =>
    simp only [Renaming.memberRef, Renaming.fieldRef, howner.type_eq, hdescriptor.descriptor_eq,
      hname.fieldName_eq]
  | method =>
    simp only [Renaming.memberRef, Renaming.methodRef, howner.type_eq,
      hdescriptor.methodDescriptor_eq, hname.methodName_eq]

section Handles

variable (hr : r.KeepsHandles)

include hr

/-- Handles come back. -/
lemma handle {x : Handle} (h : ComeBack r back x.mentions) : back.handle (r.handle x) = x := by
  have hisMethod := hr.isMethod x
  have hkind := hr.descriptor x
  obtain ⟨tag, ⟨owner, name, descriptor⟩, isInterface⟩ := x
  simp only [Handle.mentions, cons_iff] at h
  obtain ⟨howner, hdescriptor, hname, -⟩ := h
  simp only [Mention.ComesBack, hkind] at hname
  rw [Renaming.handle, hisMethod]
  cases hm : Handle.isMethod ⟨tag, ⟨owner, name, descriptor⟩, isInterface⟩ with
  | true =>
    have hname' : back.methodName (r.typeName owner) (r.methodName owner name descriptor)
        (r.descriptor descriptor) = name := by
      rwa [Handle.kind, hm] at hname
    simp only [Renaming.handle, hm, if_true, howner.type_eq, hdescriptor.descriptor_eq, hname']
  | false =>
    have hname' : back.fieldName (r.typeName owner) (r.fieldName owner name descriptor)
        (r.descriptor descriptor) = name := by
      rwa [Handle.kind, hm] at hname
    simp only [Renaming.handle, hm, Bool.false_eq_true, if_false, howner.type_eq,
      hdescriptor.descriptor_eq, hname']

/-- Constants come back. -/
lemma constant {x : Constant} (h : ComeBack r back x.mentions) :
    back.constant (r.constant x) = x := by
  cases x with
  | type text => simp only [Renaming.constant, (cons_iff.1 h).1.descriptor_eq]
  | handle x => simp only [Renaming.constant, handle hr h]
  | _ => rfl

/-- Lists of constants come back. -/
lemma constants {l : List Constant} (h : ComeBack r back (l.flatMap Constant.mentions)) :
    (l.map r.constant).map back.constant = l :=
  map_map_cancel fun x hx => constant hr (flatMap_iff.1 h x hx)

omit hr in
/-- Lists of verification types come back. -/
lemma frameSlots {l : List FrameSlot} (h : ComeBack r back (l.flatMap FrameSlot.mentions)) :
    (l.map r.frameSlot).map back.frameSlot = l := by
  refine map_map_cancel fun slot hslot => ?_
  have hmentions := flatMap_iff.1 h slot hslot
  cases slot with
  | object type => simp only [Renaming.frameSlot, (cons_iff.1 hmentions).1.type_eq]
  | _ => rfl

/-- Instructions come back. -/
lemma instruction {i : Instruction} (h : ComeBack r back i.mentions) :
    back.instruction (r.instruction i) = i := by
  cases i with
  | type opcode operand => simp only [Renaming.instruction, (cons_iff.1 h).1.type_eq]
  | field opcode target =>
    have htarget : back.fieldRef (r.fieldRef target) = target := memberRef .field h
    simp only [Renaming.instruction, htarget]
  | method opcode target isInterface =>
    have htarget : back.methodRef (r.methodRef target) = target := memberRef .method h
    simp only [Renaming.instruction, htarget]
  | dynamic name descriptor bootstrap arguments =>
    simp only [Instruction.mentions, cons_iff, append_iff] at h
    obtain ⟨hdescriptor, hbootstrap, harguments⟩ := h
    simp only [Renaming.instruction, hdescriptor.methodDescriptor_eq, handle hr hbootstrap,
      constants hr harguments]
  | load value => simp only [Renaming.instruction, constant hr h]
  | newArray descriptor dimensions =>
    simp only [Renaming.instruction, (cons_iff.1 h).1.descriptor_eq]
  | frame form locals stack =>
    obtain ⟨hlocals, hstack⟩ := append_iff.1 h
    simp only [Renaming.instruction, frameSlots hlocals, frameSlots hstack]
  | _ => rfl

/-- Fields come back. -/
lemma field {owner : String} {f : FieldDecl} (h : ComeBack r back (f.mentions owner)) :
    back.field (r.typeName owner) (r.field owner f) = f := by
  obtain ⟨access, name, descriptor, signature, value, annotations⟩ := f
  simp only [FieldDecl.mentions, cons_iff, append_iff] at h
  obtain ⟨hdescriptor, hname, ⟨hsignature, hvalue⟩, hannotations⟩ := h
  have hvalue' := option_map_map_cancel fun x hx => constant hr (flatMap_iff.1 hvalue x hx)
  simp only [Renaming.field, hdescriptor.descriptor_eq, hname.fieldName_eq,
    signature? hsignature, hvalue', annotationUses hannotations]

/-- Methods come back. -/
lemma method {owner : String} {m : MethodDecl} (h : ComeBack r back (m.mentions owner)) :
    back.method (r.typeName owner) (r.method owner m) = m := by
  obtain ⟨access, name, descriptor, signature, exceptions, annotations, parameterAnnotations,
    instructions, handlers, localVariables, maxStack, maxLocals⟩ := m
  simp only [MethodDecl.mentions, cons_iff, append_iff] at h
  obtain ⟨hdescriptor, hname, ⟨⟨⟨⟨⟨hsignature, hexceptions⟩, hannotations⟩, hparameters⟩,
    hinstructions⟩, hhandlers⟩, hvariables⟩ := h
  have hparameters' : (parameterAnnotations.map (List.map r.annotationUse)).map
      (List.map back.annotationUse) = parameterAnnotations :=
    map_map_cancel fun l hl => map_map_cancel fun a ha =>
      annotationUse (flatMap_iff.1 hparameters a (List.mem_flatten.2 ⟨l, hl, ha⟩))
  have hinstructions' := map_map_cancel fun i hi =>
    instruction hr (flatMap_iff.1 hinstructions i hi)
  have hhandlers' : (handlers.map r.exceptionHandler).map back.exceptionHandler = handlers := by
    refine map_map_cancel fun x hx => ?_
    have hcatch := type? (flatMap_iff.1 hhandlers x hx)
    simp only [Renaming.exceptionHandler, hcatch]
  have hvariables' : (localVariables.map r.localVariable).map back.localVariable =
      localVariables := by
    refine map_map_cancel fun v hv => ?_
    obtain ⟨hdescriptor, hsignature⟩ := cons_iff.1 (flatMap_iff.1 hvariables v hv)
    simp only [Renaming.localVariable, hdescriptor.descriptor_eq, signature? hsignature]
  simp only [Renaming.method, hdescriptor.methodDescriptor_eq, hname.methodName_eq,
    signature? hsignature, types hexceptions, annotationUses hannotations, hparameters',
    hinstructions', hhandlers', hvariables']

/-- **A class comes back if all its places do.** -/
theorem classTree {c : ClassTree} (h : ComeBack r back c.mentions) :
    back.classTree (r.classTree c) = c := by
  obtain ⟨d, fields, methods⟩ := c
  simp only [ClassTree.mentions, append_iff] at h
  obtain ⟨⟨hheader, hfields⟩, hmethods⟩ := h
  have hfields' := map_map_cancel fun f hf => field hr (flatMap_iff.1 hfields f hf)
  have hmethods' := map_map_cancel fun m hm => method hr (flatMap_iff.1 hmethods m hm)
  simp only [Renaming.classTree, header hheader]
  exact congrArg₂ (ClassTree.mk d) hfields' hmethods'

end Handles

end ComeBack

end Reclass
