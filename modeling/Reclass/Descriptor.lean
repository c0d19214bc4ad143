import Reclass.Text.Cut

set_option autoImplicit false

/-!
# Descriptors

A field descriptor is the compact text of a type: `I`, `[J`, `Ljava/lang/String;`, `[[La/B;`.
A method descriptor lists parameter types and a result: `(ILa/B;)[J`. A text is read into a
value of `FieldType` or `MethodType`, the class names inside are replaced there, and the result
is printed. A text that is no descriptor is refused, so a caller decides what to do with it.

## Main definitions

* `Reclass.Primitive` — the nine one-letter types, `void` among them.
* `Reclass.FieldType`, `Reclass.MethodType` — descriptors as values, with `parse?`, `render`
  and `rename`.
* `Reclass.Descriptor` — the operations on descriptor texts.

## Main results

* `Reclass.Primitive.ofLetter?_eq_some_iff` — a letter belongs to one primitive type only.
-/

namespace Reclass

/-! ## Primitive types -/

/-- The types that are written as one letter. -/
inductive Primitive where
  | void | boolean | char | byte | short | int | float | long | double
deriving DecidableEq, Repr

namespace Primitive

/-- The letter of a primitive type. -/
def letter : Primitive → Char
  | void => 'V'
  | boolean => 'Z'
  | char => 'C'
  | byte => 'B'
  | short => 'S'
  | int => 'I'
  | float => 'F'
  | long => 'J'
  | double => 'D'

/-- The primitive type that a letter stands for. -/
def ofLetter? : Char → Option Primitive
  | 'V' => some void
  | 'Z' => some boolean
  | 'C' => some char
  | 'B' => some byte
  | 'S' => some short
  | 'I' => some int
  | 'F' => some float
  | 'J' => some long
  | 'D' => some double
  | _ => none

@[simp] theorem ofLetter?_letter (p : Primitive) : ofLetter? p.letter = some p := by
  cases p <;> rfl

theorem ofLetter?_eq_some_iff {c : Char} {p : Primitive} :
    ofLetter? c = some p ↔ c = p.letter := by
  constructor
  · intro h
    unfold ofLetter? at h
    split at h <;> simp_all <;> subst h <;> rfl
  · rintro rfl
    exact ofLetter?_letter p

end Primitive

/-! ## Raw texts -/

namespace Descriptor

/-- The leading array brackets of a descriptor. -/
def brackets (cs : List Char) : List Char := cs.takeWhile (· == '[')

/-- What follows the leading array brackets. -/
def element (cs : List Char) : List Char := cs.dropWhile (· == '[')

theorem brackets_append_element (cs : List Char) : brackets cs ++ element cs = cs :=
  List.takeWhile_append_dropWhile

/-- The name inside `L…;`. The name may be empty or hold further semicolons. -/
def objectName? : List Char → Option (List Char)
  | 'L' :: rest => if rest.getLast? = some ';' then some rest.dropLast else none
  | _ => none

theorem objectName?_eq_some_iff {cs name : List Char} :
    objectName? cs = some name ↔ cs = 'L' :: name ++ [';'] := by
  constructor
  · intro h
    unfold objectName? at h
    split at h
    next rest =>
      split at h
      next hl =>
        obtain rfl : rest.dropLast = name := by simpa using h
        obtain ⟨ys, rfl⟩ := List.getLast?_eq_some_iff.1 hl
        simp
      · simp at h
    · simp at h
  · rintro rfl
    simp [objectName?]

/-- The first field descriptor of a text and what follows it. A class name runs to the first
semicolon and may be empty; `V` is no field descriptor. -/
def splitFirst? (cs : List Char) : Option (List Char × List Char) :=
  match element cs with
  | [] => none
  | c :: rest =>
    if c = 'L' then
      (Text.upTo? (· == ';') rest).map fun (name, after) =>
        (brackets cs ++ 'L' :: name ++ [';'], after.tail)
    else if c ≠ 'V' ∧ (Primitive.ofLetter? c).isSome then some (brackets cs ++ [c], rest)
    else none

/-- The field descriptors that a text is made of. The first argument bounds their number. -/
def splitAll? : Nat → List Char → Option (List (List Char))
  | _, [] => some []
  | 0, _ :: _ => none
  | bound + 1, cs =>
    match splitFirst? cs with
    | none => none
    | some (first, rest) => (splitAll? bound rest).map (first :: ·)

/-- True of `V` and of a text that is exactly one field descriptor. -/
def isResult (cs : List Char) : Bool :=
  cs == ['V'] ||
    match splitFirst? cs with
    | some (_, []) => true
    | _ => false

/-- The parameters and the result of a method descriptor. The parameter list ends at the first
closing parenthesis. -/
def splitMethod? : List Char → Option (List (List Char) × List Char)
  | '(' :: rest =>
    match Text.upTo? (· == ')') rest with
    | some (inside, _ :: result) =>
      match splitAll? inside.length inside with
      | some params => if isResult result then some (params, result) else none
      | none => none
    | _ => none
  | _ => none

end Descriptor

/-! ## Field types -/

/-- What an array is made of in the end, or a type that is no array. -/
inductive ElementType where
  | primitive (type : Primitive)
  | object (name : String)
deriving DecidableEq, Repr

/-- A field type: an element type below some array dimensions. -/
structure FieldType where
  dimensions : Nat
  element : ElementType
deriving DecidableEq, Repr

namespace ElementType

/-- The text of an element type. -/
def render : ElementType → List Char
  | primitive p => [p.letter]
  | object name => 'L' :: name.toList ++ [';']

/-- Reads one letter, or a class name that is not empty and holds no semicolon. -/
def parse? (cs : List Char) : Option ElementType :=
  match cs with
  | [c] => (Primitive.ofLetter? c).map primitive
  | _ =>
    match Descriptor.objectName? cs with
    | some name => if name ≠ [] ∧ ';' ∉ name then some (object (String.ofList name)) else none
    | none => none

/-- Replaces the class name. -/
def rename (f : String → String) : ElementType → ElementType
  | primitive p => primitive p
  | object name => object (f name)

end ElementType

namespace FieldType

/-- The text of a field type. -/
def render (t : FieldType) : List Char :=
  List.replicate t.dimensions '[' ++ t.element.render

/-- Reads a whole text as a field type. Unlike a parameter it may be `V` or an array of it. -/
def parse? (cs : List Char) : Option FieldType :=
  (ElementType.parse? (Descriptor.element cs)).map
    (FieldType.mk (Descriptor.brackets cs).length)

/-- Replaces the class name. -/
def rename (f : String → String) (t : FieldType) : FieldType :=
  { t with element := t.element.rename f }

end FieldType

/-! ## Method types -/

/-- A method type: what a method takes and what it gives. -/
structure MethodType where
  params : List FieldType
  result : FieldType
deriving DecidableEq, Repr

namespace MethodType

/-- The text of a method type. -/
def render (t : MethodType) : List Char :=
  '(' :: t.params.flatMap FieldType.render ++ ')' :: t.result.render

/-- Reads a whole text as a method type: it is split first, then every part is read. -/
def parse? (cs : List Char) : Option MethodType :=
  match Descriptor.splitMethod? cs with
  | none => none
  | some (params, result) =>
    match params.mapM FieldType.parse?, FieldType.parse? result with
    | some ps, some r => some ⟨ps, r⟩
    | _, _ => none

/-- Replaces every class name. -/
def rename (f : String → String) (t : MethodType) : MethodType :=
  ⟨t.params.map (FieldType.rename f), t.result.rename f⟩

end MethodType

/-! ## Operations on descriptor texts -/

namespace Descriptor

/-- True of method descriptors and method signatures: a text that starts with its parameters,
or with formal type parameters and holds a parenthesis somewhere. -/
def isMethod (text : String) : Bool :=
  match text.toList with
  | '(' :: _ => true
  | '<' :: rest => rest.contains '('
  | _ => false

/-- The number of array dimensions and the element's text. -/
def splitDimensions (text : String) : Nat × String :=
  ((brackets text.toList).length, String.ofList (element text.toList))

/-- The class name inside an object descriptor. -/
def internalName? (text : String) : Option String :=
  (objectName? text.toList).map String.ofList

/-- The object descriptor of a class. -/
def ofInternalName (name : String) : String := "L" ++ name ++ ";"

/-- The class that a descriptor is about: of an object itself, of an array its elements. -/
def namedClass? (text : String) : Option String :=
  (objectName? (element text.toList)).map String.ofList

/-- The first field descriptor of a text and what follows it. -/
def firstField? (text : String) : Option (String × String) :=
  (splitFirst? text.toList).map fun (first, rest) => (String.ofList first, String.ofList rest)

/-- The texts of the parameters and of the result of a method descriptor. -/
def methodParts? (text : String) : Option (List String × String) :=
  (splitMethod? text.toList).map fun (params, result) =>
    (params.map String.ofList, String.ofList result)

/-- The field descriptor with its class name replaced. -/
def renameField? (f : String → String) (text : String) : Option String :=
  (FieldType.parse? text.toList).map fun t => String.ofList (t.rename f).render

/-- The method descriptor with all its class names replaced. -/
def renameMethod? (f : String → String) (text : String) : Option String :=
  (MethodType.parse? text.toList).map fun t => String.ofList (t.rename f).render

end Descriptor

end Reclass
