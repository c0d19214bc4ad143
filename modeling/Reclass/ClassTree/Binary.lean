import Reclass.Binary.Format
import Reclass.ClassTree

set_option autoImplicit false

/-!
# The binary form of class trees

Class trees are exchanged as bytes. A structure is written field by field, a choice by the number
of its variant. Bytes behind a complete tree are ignored.

## Main definitions

* `Reclass.ClassTree.format` — the format of a whole class.
* `Reclass.ClassTree.toBytes`, `Reclass.ClassTree.ofBytes?` — writing and reading a class.
-/

namespace Reclass

open Binary

/-! ## Constants -/

/-- The format of a reference to a member. -/
def MemberRef.format : Format MemberRef :=
  (text.pair (text.pair text)).iso (fun m => (m.owner, m.name, m.descriptor))
    fun (owner, name, descriptor) => ⟨owner, name, descriptor⟩

/-- The format of a method handle. -/
def Handle.format : Format Handle :=
  (u8.pair (MemberRef.format.pair bool)).iso (fun h => (h.tag, h.target, h.isInterface))
    fun (tag, target, isInterface) => ⟨tag, target, isInterface⟩

/-- The variants of a loadable constant. -/
def Constant.variants : List (Variant Constant) :=
  [ ⟨_, i32, integer, fun | integer v => some v | _ => none⟩,
    ⟨_, i64, long, fun | long v => some v | _ => none⟩,
    ⟨_, u32, float, fun | float v => some v | _ => none⟩,
    ⟨_, u64, double, fun | double v => some v | _ => none⟩,
    ⟨_, text, string, fun | string v => some v | _ => none⟩,
    ⟨_, text, type, fun | type v => some v | _ => none⟩,
    ⟨_, Handle.format, handle, fun | handle v => some v | _ => none⟩ ]

/-- The format of a loadable constant. -/
def Constant.format : Format Constant := Format.choice variants

/-! ## Class-level data -/

/-- The format of an annotation. -/
def AnnotationUse.format : Format AnnotationUse :=
  (text.pair bool).iso (fun a => (a.descriptor, a.visible)) fun (descriptor, visible) =>
    ⟨descriptor, visible⟩

/-- The format of an enclosing method. -/
def EnclosingMethod.format : Format EnclosingMethod :=
  (text.pair (text.optional.pair text.optional)).iso (fun e => (e.owner, e.name, e.descriptor))
    fun (owner, name, descriptor) => ⟨owner, name, descriptor⟩

/-- The format of an entry of the inner classes. -/
def InnerClass.format : Format InnerClass :=
  (text.pair (text.optional.pair (text.optional.pair u32))).iso
    (fun i => (i.name, i.outerName, i.innerName, i.access))
    fun (name, outerName, innerName, access) => ⟨name, outerName, innerName, access⟩

/-- The format of a record component. -/
def RecordComponent.format : Format RecordComponent :=
  (text.pair (text.pair (text.optional.pair AnnotationUse.format.list))).iso
    (fun c => (c.name, c.descriptor, c.signature, c.annotations))
    fun (name, descriptor, signature, annotations) => ⟨name, descriptor, signature, annotations⟩

/-- The format of the header of a class. -/
def Header.format : Format Header :=
  (u32.pair (u32.pair (text.pair (text.optional.pair (text.optional.pair (text.list.pair
    (text.optional.pair (EnclosingMethod.format.optional.pair (text.optional.pair (text.list.pair
      (text.list.pair (InnerClass.format.list.pair (AnnotationUse.format.list.pair
        RecordComponent.format.list))))))))))))).iso
    (fun h => (h.version, h.access, h.name, h.signature, h.superName, h.interfaces, h.sourceFile,
      h.enclosing, h.nestHost, h.nestMembers, h.permittedSubclasses, h.innerClasses,
      h.annotations, h.recordComponents))
    fun (version, access, name, signature, superName, interfaces, sourceFile, enclosing, nestHost,
      nestMembers, permittedSubclasses, innerClasses, annotations, recordComponents) =>
      { version, access, name, signature, superName, interfaces, sourceFile, enclosing, nestHost,
        nestMembers, permittedSubclasses, innerClasses, annotations, recordComponents }

/-! ## Members -/

/-- The format of a field. -/
def FieldDecl.format : Format FieldDecl :=
  (u32.pair (text.pair (text.pair (text.optional.pair (Constant.format.optional.pair
    AnnotationUse.format.list))))).iso
    (fun f => (f.access, f.name, f.descriptor, f.signature, f.value, f.annotations))
    fun (access, name, descriptor, signature, value, annotations) =>
      { access, name, descriptor, signature, value, annotations }

/-- The format of a position in a method body. -/
def Label.format : Format Label := u32.iso Label.index Label.mk

/-- The format of an exception handler. -/
def ExceptionHandler.format : Format ExceptionHandler :=
  (Label.format.pair (Label.format.pair (Label.format.pair text.optional))).iso
    (fun h => (h.start, h.stop, h.handler, h.catchType))
    fun (start, stop, handler, catchType) => ⟨start, stop, handler, catchType⟩

/-- The format of a local variable. -/
def LocalVariable.format : Format LocalVariable :=
  (text.pair (text.pair (text.optional.pair (Label.format.pair (Label.format.pair u16))))).iso
    (fun v => (v.name, v.descriptor, v.signature, v.start, v.stop, v.index))
    fun (name, descriptor, signature, start, stop, index) =>
      ⟨name, descriptor, signature, start, stop, index⟩

/-- The format of the kind of a frame. -/
def FrameForm.format : Format FrameForm :=
  Format.choice ([full, append, chop, same, same1].map Variant.constant)

/-- The variants of a verification type. -/
def FrameSlot.variants : List (Variant FrameSlot) :=
  [top, integer, float, long, double, null, uninitializedThis].map Variant.constant ++
    [ ⟨_, text, object, fun | object t => some t | _ => none⟩,
      ⟨_, Label.format, uninitialized, fun | uninitialized l => some l | _ => none⟩ ]

/-- The format of a verification type. -/
def FrameSlot.format : Format FrameSlot := Format.choice variants

/-- The variants of an instruction. -/
def Instruction.variants : List (Variant Instruction) :=
  [ ⟨_, u8, plain, fun | plain o => some o | _ => none⟩,
    ⟨_, u8.pair i32, fun (o, n) => int o n, fun | int o n => some (o, n) | _ => none⟩,
    ⟨_, u8.pair u16, fun (o, i) => slot o i, fun | slot o i => some (o, i) | _ => none⟩,
    ⟨_, u8.pair text, fun (o, t) => type o t, fun | type o t => some (o, t) | _ => none⟩,
    ⟨_, u8.pair MemberRef.format, fun (o, m) => field o m,
      fun | field o m => some (o, m) | _ => none⟩,
    ⟨_, u8.pair (MemberRef.format.pair bool), fun (o, m, b) => method o m b,
      fun | method o m b => some (o, m, b) | _ => none⟩,
    ⟨_, text.pair (text.pair (Handle.format.pair Constant.format.list)),
      fun (n, d, h, as) => dynamic n d h as,
      fun | dynamic n d h as => some (n, d, h, as) | _ => none⟩,
    ⟨_, u8.pair Label.format, fun (o, l) => jump o l, fun | jump o l => some (o, l) | _ => none⟩,
    ⟨_, Label.format, label, fun | label l => some l | _ => none⟩,
    ⟨_, Constant.format, load, fun | load c => some c | _ => none⟩,
    ⟨_, u16.pair i16, fun (i, n) => increment i n,
      fun | increment i n => some (i, n) | _ => none⟩,
    ⟨_, i32.pair (i32.pair (Label.format.pair Label.format.list)),
      fun (a, b, d, ls) => tableSwitch a b d ls,
      fun | tableSwitch a b d ls => some (a, b, d, ls) | _ => none⟩,
    ⟨_, Label.format.pair (i32.list.pair Label.format.list),
      fun (d, ks, ls) => lookupSwitch d ks ls,
      fun | lookupSwitch d ks ls => some (d, ks, ls) | _ => none⟩,
    ⟨_, text.pair u8, fun (d, n) => newArray d n, fun | newArray d n => some (d, n) | _ => none⟩,
    ⟨_, FrameForm.format.pair (FrameSlot.format.list.pair FrameSlot.format.list),
      fun (k, ls, ss) => frame k ls ss,
      fun | frame k ls ss => some (k, ls, ss) | _ => none⟩,
    ⟨_, u16.pair Label.format, fun (n, l) => line n l, fun | line n l => some (n, l) | _ => none⟩ ]

/-- The format of an instruction. -/
def Instruction.format : Format Instruction := Format.choice variants

/-- The format of a method. -/
def MethodDecl.format : Format MethodDecl :=
  (u32.pair (text.pair (text.pair (text.optional.pair (text.list.pair
    (AnnotationUse.format.list.pair (AnnotationUse.format.list.list.pair
      (Instruction.format.list.pair (ExceptionHandler.format.list.pair
        (LocalVariable.format.list.pair (u16.pair u16))))))))))).iso
    (fun m => (m.access, m.name, m.descriptor, m.signature, m.exceptions, m.annotations,
      m.parameterAnnotations, m.instructions, m.handlers, m.localVariables, m.maxStack,
      m.maxLocals))
    fun (access, name, descriptor, signature, exceptions, annotations, parameterAnnotations,
      instructions, handlers, localVariables, maxStack, maxLocals) =>
      { access, name, descriptor, signature, exceptions, annotations, parameterAnnotations,
        instructions, handlers, localVariables, maxStack, maxLocals }

/-! ## Classes -/

namespace ClassTree

/-- The format of a class. -/
def format : Format ClassTree :=
  (Header.format.pair (FieldDecl.format.list.pair MethodDecl.format.list)).iso
    (fun c => (c.header, c.fields, c.methods))
    fun (header, fields, methods) => ⟨header, fields, methods⟩

/-- A class as bytes. -/
def toBytes (c : ClassTree) : List UInt8 := format.write c

/-- The class that some bytes begin with. -/
def ofBytes? (bytes : List UInt8) : Option ClassTree := (format.read bytes).map Prod.fst

end ClassTree

end Reclass
