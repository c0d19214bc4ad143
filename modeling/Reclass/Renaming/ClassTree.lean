import Reclass.Renaming

set_option autoImplicit false

/-!
# Renaming class trees

Every place of a class that holds a name gets its new form; numbers, order and shape stay. Names
of members are looked up in the class that declares them, by its old name.

## Main definitions

* `Reclass.Renaming.header`, `field`, `method`, `instruction` — the parts of a class renamed.
* `Reclass.Renaming.classTree` — a whole class renamed.
-/

namespace Reclass.Renaming

variable (r : Renaming)

/-! ## The header -/

/-- The annotation with its type renamed. -/
def annotationUse (a : AnnotationUse) : AnnotationUse :=
  { a with descriptor := r.descriptor a.descriptor }

/-- The enclosing method renamed. The method's name changes only if its descriptor is known. -/
def enclosingMethod (e : EnclosingMethod) : EnclosingMethod where
  owner := r.typeName e.owner
  name :=
    match e.name, e.descriptor with
    | some name, some descriptor => some (r.methodName e.owner name descriptor)
    | name, _ => name
  descriptor := e.descriptor.map r.methodDescriptor

/-- The entry of an inner class renamed, its simple name along with its binary name. -/
def innerClass (i : InnerClass) : InnerClass where
  name := r.typeName i.name
  outerName := i.outerName.map r.typeName
  innerName := i.innerName.map (ClassName.innerName i.name (r.typeName i.name))
  access := i.access

/-- The component of the record class `owner` renamed, as the field of that name is. -/
def recordComponent (owner : String) (c : RecordComponent) : RecordComponent where
  name := r.fieldName owner c.name c.descriptor
  descriptor := r.descriptor c.descriptor
  signature := c.signature.map r.signature
  annotations := c.annotations.map r.annotationUse

/-- The header of a class renamed. -/
def header (h : Header) : Header where
  version := h.version
  access := h.access
  name := r.typeName h.name
  signature := h.signature.map r.signature
  superName := h.superName.map r.typeName
  interfaces := h.interfaces.map r.typeName
  sourceFile := h.sourceFile
  enclosing := h.enclosing.map r.enclosingMethod
  nestHost := h.nestHost.map r.typeName
  nestMembers := h.nestMembers.map r.typeName
  permittedSubclasses := h.permittedSubclasses.map r.typeName
  innerClasses := h.innerClasses.map r.innerClass
  annotations := h.annotations.map r.annotationUse
  recordComponents := h.recordComponents.map (r.recordComponent h.name)

/-! ## Members -/

/-- A field of the class `owner` renamed. -/
def field (owner : String) (f : FieldDecl) : FieldDecl where
  access := f.access
  name := r.fieldName owner f.name f.descriptor
  descriptor := r.descriptor f.descriptor
  signature := f.signature.map r.signature
  value := f.value.map r.constant
  annotations := f.annotations.map r.annotationUse

/-- An instruction with the names among its operands renamed. The name of a dynamic call is no
member of a class and stays. -/
def instruction : Instruction → Instruction
  | .type opcode operand => .type opcode (r.typeName operand)
  | .field opcode target => .field opcode (r.fieldRef target)
  | .method opcode target isInterface => .method opcode (r.methodRef target) isInterface
  | .dynamic name descriptor bootstrap arguments =>
    .dynamic name (r.methodDescriptor descriptor) (r.handle bootstrap) (arguments.map r.constant)
  | .load value => .load (r.constant value)
  | .newArray descriptor dimensions => .newArray (r.descriptor descriptor) dimensions
  | .frame kind locals stack => .frame kind (locals.map r.frameSlot) (stack.map r.frameSlot)
  | i => i

/-- An exception handler with its type renamed. -/
def exceptionHandler (h : ExceptionHandler) : ExceptionHandler :=
  { h with catchType := h.catchType.map r.typeName }

/-- A local variable with its type renamed; its own name stays. -/
def localVariable (v : LocalVariable) : LocalVariable :=
  { v with descriptor := r.descriptor v.descriptor, signature := v.signature.map r.signature }

/-- A method of the class `owner` renamed. -/
def method (owner : String) (m : MethodDecl) : MethodDecl where
  access := m.access
  name := r.methodName owner m.name m.descriptor
  descriptor := r.methodDescriptor m.descriptor
  signature := m.signature.map r.signature
  exceptions := m.exceptions.map r.typeName
  annotations := m.annotations.map r.annotationUse
  parameterAnnotations := m.parameterAnnotations.map (List.map r.annotationUse)
  instructions := m.instructions.map r.instruction
  handlers := m.handlers.map r.exceptionHandler
  localVariables := m.localVariables.map r.localVariable
  maxStack := m.maxStack
  maxLocals := m.maxLocals

/-! ## Classes -/

/-- A whole class renamed. -/
def classTree (c : ClassTree) : ClassTree where
  header := r.header c.header
  fields := c.fields.map (r.field c.name)
  methods := c.methods.map (r.method c.name)

end Reclass.Renaming
