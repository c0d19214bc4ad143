set_option autoImplicit false

/-!
# Class trees

A compiled class as plain data: a header, then fields and methods in declaration order. Numbers
have the widths of the class format. A floating-point constant is kept as its bit pattern, since
nothing here computes with it.

## Main definitions

* `Reclass.Header` — what is known of a class before its members.
* `Reclass.FieldDecl`, `Reclass.MethodDecl`, `Reclass.Instruction` — the members.
* `Reclass.ClassTree` — a whole class.
-/

namespace Reclass

/-! ## Constants -/

/-- A member as named from elsewhere. -/
structure MemberRef where
  owner : String
  name : String
  descriptor : String
deriving DecidableEq, Repr

/-- A method handle; `tag` is its reference kind. -/
structure Handle where
  tag : UInt8
  target : MemberRef
  isInterface : Bool
deriving DecidableEq, Repr

/-- A handle is about a method if its descriptor has a parameter list anywhere. -/
def Handle.isMethod (h : Handle) : Bool := h.target.descriptor.toList.contains '('

/-- A loadable constant. A type constant holds a descriptor. -/
inductive Constant where
  | integer (value : Int32)
  | long (value : Int64)
  | float (bits : UInt32)
  | double (bits : UInt64)
  | string (value : String)
  | type (descriptor : String)
  | handle (value : Handle)
deriving DecidableEq, Repr

/-! ## Class-level data -/

/-- An annotation by its type. -/
structure AnnotationUse where
  descriptor : String
  visible : Bool
deriving DecidableEq, Repr

/-- The class, and within it the method, that a local class is declared in. -/
structure EnclosingMethod where
  owner : String
  name : Option String
  descriptor : Option String
deriving DecidableEq, Repr

/-- An entry of the list of inner classes that a class mentions. -/
structure InnerClass where
  name : String
  outerName : Option String
  innerName : Option String
  access : UInt32
deriving DecidableEq, Repr

/-- A component of a record class. -/
structure RecordComponent where
  name : String
  descriptor : String
  signature : Option String
  annotations : List AnnotationUse
deriving DecidableEq, Repr

/-- What is known of a class before its members. Only a class without superclass has no
`superName`. -/
structure Header where
  version : UInt32
  access : UInt32
  name : String
  signature : Option String := none
  superName : Option String := none
  interfaces : List String := []
  sourceFile : Option String := none
  enclosing : Option EnclosingMethod := none
  nestHost : Option String := none
  nestMembers : List String := []
  permittedSubclasses : List String := []
  innerClasses : List InnerClass := []
  annotations : List AnnotationUse := []
  recordComponents : List RecordComponent := []
deriving DecidableEq, Repr

/-- The supertypes of a class: its superclass, then its interfaces in declared order. -/
def Header.supertypes (h : Header) : List String := h.superName.toList ++ h.interfaces

/-! ## Members -/

/-- A field of a class. -/
structure FieldDecl where
  access : UInt32
  name : String
  descriptor : String
  signature : Option String := none
  value : Option Constant := none
  annotations : List AnnotationUse := []
deriving DecidableEq, Repr

/-- A position in a method body. -/
structure Label where
  index : UInt32
deriving DecidableEq, Repr

/-- A range of instructions and where control goes when it fails; without a type, always. -/
structure ExceptionHandler where
  start : Label
  stop : Label
  handler : Label
  catchType : Option String
deriving DecidableEq, Repr

/-- The name and type of a local variable over a range of instructions. -/
structure LocalVariable where
  name : String
  descriptor : String
  signature : Option String
  start : Label
  stop : Label
  index : UInt16
deriving DecidableEq, Repr

/-- How a stack-map frame relates to the one before it. -/
inductive FrameForm where
  | full | append | chop | same | same1
deriving DecidableEq, Repr

/-- A verification type in a stack-map frame. -/
inductive FrameSlot where
  | top | integer | float | long | double | null | uninitializedThis
  | object (type : String)
  | uninitialized (created : Label)
deriving DecidableEq, Repr

/-- An instruction or a mark between instructions. -/
inductive Instruction where
  | plain (opcode : UInt8)
  | int (opcode : UInt8) (operand : Int32)
  | slot (opcode : UInt8) (index : UInt16)
  | type (opcode : UInt8) (operand : String)
  | field (opcode : UInt8) (target : MemberRef)
  | method (opcode : UInt8) (target : MemberRef) (isInterface : Bool)
  | dynamic (name : String) (descriptor : String) (bootstrap : Handle)
      (arguments : List Constant)
  | jump (opcode : UInt8) (target : Label)
  | label (mark : Label)
  | load (value : Constant)
  | increment (index : UInt16) (amount : Int16)
  | tableSwitch (low high : Int32) (otherwise : Label) (labels : List Label)
  | lookupSwitch (otherwise : Label) (keys : List Int32) (labels : List Label)
  | newArray (descriptor : String) (dimensions : UInt8)
  | frame (kind : FrameForm) (locals stack : List FrameSlot)
  | line (number : UInt16) (start : Label)
deriving DecidableEq, Repr

/-- A method of a class. -/
structure MethodDecl where
  access : UInt32
  name : String
  descriptor : String
  signature : Option String := none
  exceptions : List String := []
  annotations : List AnnotationUse := []
  parameterAnnotations : List (List AnnotationUse) := []
  instructions : List Instruction := []
  handlers : List ExceptionHandler := []
  localVariables : List LocalVariable := []
  maxStack : UInt16 := 0
  maxLocals : UInt16 := 0
deriving DecidableEq, Repr

/-! ## Classes -/

/-- A class: its header, then its members in declaration order. -/
structure ClassTree where
  header : Header
  fields : List FieldDecl := []
  methods : List MethodDecl := []
deriving DecidableEq, Repr

namespace ClassTree

/-- The internal name of a class. -/
abbrev name (c : ClassTree) : String := c.header.name

/-- The first field of a name. -/
def field? (c : ClassTree) (name : String) : Option FieldDecl := c.fields.find? (·.name == name)

/-- The first method of a name and descriptor. -/
def method? (c : ClassTree) (name descriptor : String) : Option MethodDecl :=
  c.methods.find? fun m => m.name == name && m.descriptor == descriptor

end ClassTree

end Reclass
