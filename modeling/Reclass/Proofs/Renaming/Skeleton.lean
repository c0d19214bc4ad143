import Reclass.Proofs.Pipeline.Traversal

set_option relaxedAutoImplicit false
set_option autoImplicit false

/-!
# What renaming leaves alone

A class without its names is a skeleton: which parts there are and in which order, which kind each
of them is of, what is absent, all numbers and flags, and the texts that name neither a class nor a
member. A class is renamed by building all its parts anew, and the skeleton shows that none of them
is dropped, moved or mistaken for another one on the way.

Names are blanked where they stand, so that a list of them keeps its length and an absent one stays
absent. Blanked are the names of classes and members, descriptors and generic signatures. Constant
texts, the source file, the names of local variables and of dynamic calls are part of the skeleton.

## Main definitions

* `Reclass.ClassTree.skeleton` — a class without its names.

## Main results

* `Reclass.Renaming.skeleton_classTree` — a renamed class has the skeleton of the class.
* `Reclass.Renaming.replay_keeps_skeleton` — so has what a sink makes of the renamed events.
-/

namespace Reclass

/-! ## Skeletons -/

/-- What is left of a name. -/
def nameBlank (_ : String) : String := ""

/-- A reference to a member is nothing but names. -/
def MemberRef.skeleton (m : MemberRef) : MemberRef where
  owner := nameBlank m.owner
  name := nameBlank m.name
  descriptor := nameBlank m.descriptor

/-- A handle without names: its tag, and whether it is one of an interface. -/
def Handle.skeleton (h : Handle) : Handle := { h with target := h.target.skeleton }

/-- A constant without names. Numbers and texts stay. -/
def Constant.skeleton : Constant → Constant
  | .type text => .type (nameBlank text)
  | .handle h => .handle h.skeleton
  | c => c

/-- An annotation without its type: whether it is visible. -/
def AnnotationUse.skeleton (a : AnnotationUse) : AnnotationUse :=
  { a with descriptor := nameBlank a.descriptor }

/-- An enclosing method without names: whether its name and descriptor are known. -/
def EnclosingMethod.skeleton (e : EnclosingMethod) : EnclosingMethod where
  owner := nameBlank e.owner
  name := e.name.map nameBlank
  descriptor := e.descriptor.map nameBlank

/-- An entry for an inner class without names. -/
def InnerClass.skeleton (i : InnerClass) : InnerClass :=
  { i with
    name := nameBlank i.name
    outerName := i.outerName.map nameBlank
    innerName := i.innerName.map nameBlank }

/-- A component of a record class without names. -/
def RecordComponent.skeleton (c : RecordComponent) : RecordComponent where
  name := nameBlank c.name
  descriptor := nameBlank c.descriptor
  signature := c.signature.map nameBlank
  annotations := c.annotations.map AnnotationUse.skeleton

/-- A header without names. Version, access and source file stay. -/
def Header.skeleton (h : Header) : Header :=
  { h with
    name := nameBlank h.name
    signature := h.signature.map nameBlank
    superName := h.superName.map nameBlank
    interfaces := h.interfaces.map nameBlank
    enclosing := h.enclosing.map EnclosingMethod.skeleton
    nestHost := h.nestHost.map nameBlank
    nestMembers := h.nestMembers.map nameBlank
    permittedSubclasses := h.permittedSubclasses.map nameBlank
    innerClasses := h.innerClasses.map InnerClass.skeleton
    annotations := h.annotations.map AnnotationUse.skeleton
    recordComponents := h.recordComponents.map RecordComponent.skeleton }

/-- A field without names. Its access stays. -/
def FieldDecl.skeleton (f : FieldDecl) : FieldDecl :=
  { f with
    name := nameBlank f.name
    descriptor := nameBlank f.descriptor
    signature := f.signature.map nameBlank
    value := f.value.map Constant.skeleton
    annotations := f.annotations.map AnnotationUse.skeleton }

/-- A verification type without names. -/
def FrameSlot.skeleton : FrameSlot → FrameSlot
  | .object type => .object (nameBlank type)
  | slot => slot

/-- An instruction without names. The name of a dynamic call is no name of a member and stays. -/
def Instruction.skeleton : Instruction → Instruction
  | .type opcode operand => .type opcode (nameBlank operand)
  | .field opcode target => .field opcode target.skeleton
  | .method opcode target isInterface => .method opcode target.skeleton isInterface
  | .dynamic name descriptor bootstrap arguments =>
    .dynamic name (nameBlank descriptor) bootstrap.skeleton (arguments.map Constant.skeleton)
  | .load value => .load value.skeleton
  | .newArray descriptor dimensions => .newArray (nameBlank descriptor) dimensions
  | .frame kind locals stack =>
    .frame kind (locals.map FrameSlot.skeleton) (stack.map FrameSlot.skeleton)
  | i => i

/-- An exception handler without names: the range, the handler, and whether it has a type. -/
def ExceptionHandler.skeleton (h : ExceptionHandler) : ExceptionHandler :=
  { h with catchType := h.catchType.map nameBlank }

/-- A local variable without its type. Its own name stays. -/
def LocalVariable.skeleton (v : LocalVariable) : LocalVariable :=
  { v with descriptor := nameBlank v.descriptor, signature := v.signature.map nameBlank }

/-- A method without names. Its access and sizes stay. -/
def MethodDecl.skeleton (m : MethodDecl) : MethodDecl :=
  { m with
    name := nameBlank m.name
    descriptor := nameBlank m.descriptor
    signature := m.signature.map nameBlank
    exceptions := m.exceptions.map nameBlank
    annotations := m.annotations.map AnnotationUse.skeleton
    parameterAnnotations := m.parameterAnnotations.map (List.map AnnotationUse.skeleton)
    instructions := m.instructions.map Instruction.skeleton
    handlers := m.handlers.map ExceptionHandler.skeleton
    localVariables := m.localVariables.map LocalVariable.skeleton }

/-- A class without its names. -/
def ClassTree.skeleton (c : ClassTree) : ClassTree where
  header := c.header.skeleton
  fields := c.fields.map FieldDecl.skeleton
  methods := c.methods.map MethodDecl.skeleton

/-! ## Part by part -/

namespace Renaming

variable (r : Renaming)

lemma skeleton_handle (h : Handle) : (r.handle h).skeleton = h.skeleton := rfl

lemma skeleton_constant (x : Constant) : (r.constant x).skeleton = x.skeleton := by
  cases x <;> rfl

lemma skeleton_annotationUse (a : AnnotationUse) : (r.annotationUse a).skeleton = a.skeleton := rfl

/-- An enclosing method keeps its name if the descriptor is not known. In either case it has a name
afterwards exactly if it had one. -/
lemma skeleton_enclosingMethod (e : EnclosingMethod) :
    (r.enclosingMethod e).skeleton = e.skeleton := by
  obtain ⟨owner, name, descriptor⟩ := e
  cases name <;> cases descriptor <;> rfl

lemma skeleton_innerClass (i : InnerClass) : (r.innerClass i).skeleton = i.skeleton := by
  simp only [innerClass, InnerClass.skeleton, Option.map_map]
  rfl

lemma skeleton_recordComponent (owner : String) (c : RecordComponent) :
    (r.recordComponent owner c).skeleton = c.skeleton := by
  simp only [recordComponent, RecordComponent.skeleton, Option.map_map, List.map_map,
    Function.comp_def, skeleton_annotationUse]
  rfl

lemma skeleton_header (h : Header) : (r.header h).skeleton = h.skeleton := by
  simp only [header, Header.skeleton, Option.map_map, List.map_map, Function.comp_def,
    skeleton_enclosingMethod, skeleton_innerClass, skeleton_annotationUse,
    skeleton_recordComponent]
  rfl

lemma skeleton_field (owner : String) (f : FieldDecl) :
    (r.field owner f).skeleton = f.skeleton := by
  simp only [field, FieldDecl.skeleton, Option.map_map, List.map_map, Function.comp_def,
    skeleton_constant, skeleton_annotationUse]
  rfl

lemma skeleton_frameSlot (slot : FrameSlot) : (r.frameSlot slot).skeleton = slot.skeleton := by
  cases slot <;> rfl

lemma skeleton_instruction (i : Instruction) : (r.instruction i).skeleton = i.skeleton := by
  cases i with
  | dynamic name descriptor bootstrap arguments =>
    simp only [instruction, Instruction.skeleton, List.map_map, Function.comp_def, skeleton_handle,
      skeleton_constant]
    rfl
  | load value => exact congrArg Instruction.load (r.skeleton_constant value)
  | frame kind locals stack =>
    simp only [instruction, Instruction.skeleton, List.map_map, Function.comp_def,
      skeleton_frameSlot]
  | _ => rfl

lemma skeleton_exceptionHandler (h : ExceptionHandler) :
    (r.exceptionHandler h).skeleton = h.skeleton := by
  simp only [exceptionHandler, ExceptionHandler.skeleton, Option.map_map]
  rfl

lemma skeleton_localVariable (v : LocalVariable) :
    (r.localVariable v).skeleton = v.skeleton := by
  simp only [localVariable, LocalVariable.skeleton, Option.map_map]
  rfl

lemma skeleton_method (owner : String) (m : MethodDecl) :
    (r.method owner m).skeleton = m.skeleton := by
  simp only [method, MethodDecl.skeleton, Option.map_map, List.map_map, Function.comp_def,
    skeleton_annotationUse, skeleton_instruction, skeleton_exceptionHandler,
    skeleton_localVariable]
  rfl

/-- **A renamed class has the skeleton of the class.** -/
theorem skeleton_classTree (c : ClassTree) : (r.classTree c).skeleton = c.skeleton := by
  simp only [classTree, ClassTree.skeleton, List.map_map, Function.comp_def, skeleton_header,
    skeleton_field, skeleton_method]

/-! ## Event by event -/

/-- **Renaming touches nothing but names.** A class is told as events, the events are renamed, and a
sink makes a class of them. It has the skeleton of the class, whichever class was renamed before and
whatever the sink held.

**Proof sketch.** The renamed events are those of the renamed class
(`Transducer.runFrom_rename_events`), a class is rebuilt by its events
(`ClassTree.foldl_absorb_events`), and all parts of a renamed class keep their skeletons. -/
theorem replay_keeps_skeleton (owner : String) (before c : ClassTree) :
    (((Transducer.rename r).runFrom owner c.events).foldl ClassTree.absorb before).skeleton =
      c.skeleton := by
  rw [Transducer.runFrom_rename_events, ClassTree.foldl_absorb_events, skeleton_classTree]

end Renaming

end Reclass
