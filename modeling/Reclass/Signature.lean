import Reclass.Descriptor

set_option autoImplicit false

/-!
# Generic signatures

A generic signature is the text of a type with its type variables and type arguments:
`<T:Ljava/lang/Object;>La/Base<TT;>;La/I<*>;`. It belongs to a class (supertypes), a method
(parameters, result, exceptions) or a field (one type). A text is read into a `Signature`, the
class names are replaced there, and the result is printed.

A nested class is written segment by segment, `La/Outer<TT;>.Inner;`. It is renamed through its
binary name `a/Outer$Inner`, of whose new form only the simple part is written.

## Main definitions

* `Reclass.TypeSig`, `Reclass.ClassTail`, `Reclass.TypeArgs` — types inside a signature.
* `Reclass.Signature` — a whole signature, with `parse?`, `render` and `rename`.
* `Reclass.Signature.renameText?` — renaming on the text.
-/

namespace Reclass

/-! ## Types -/

/-- How a type argument restricts the type it names. -/
inductive Wildcard where
  | exact | upper | lower
deriving DecidableEq, Repr

/-- The mark in front of a type argument. -/
def Wildcard.mark : Wildcard → List Char
  | exact => []
  | upper => ['+']
  | lower => ['-']

mutual

/-- A type inside a signature. -/
inductive TypeSig where
  | primitive (type : Primitive)
  | array (element : TypeSig)
  | typeVar (name : String)
  | object (head : String) (tail : ClassTail)

/-- What follows the first segment of a class type: nested segments and type arguments, in any
order, up to the semicolon. -/
inductive ClassTail where
  | done
  | segment (name : String) (rest : ClassTail)
  | arguments (args : TypeArgs) (rest : ClassTail)

/-- The type arguments between angle brackets. -/
inductive TypeArgs where
  | nil
  | any (rest : TypeArgs)
  | type (wildcard : Wildcard) (type : TypeSig) (rest : TypeArgs)

end

/-- The written segment of a nested class: its own name if the class keeps its binary name,
else what follows the last `$` or `/` of the new one. -/
def nestedSegment (binary renamed segment : String) : String :=
  if renamed = binary then segment
  else String.ofList (Text.afterLast (fun c => c == '$' || c == '/') renamed.toList)

mutual

/-- The text of a type. -/
def TypeSig.render : TypeSig → List Char
  | .primitive p => [p.letter]
  | .array t => '[' :: t.render
  | .typeVar name => 'T' :: name.toList ++ [';']
  | .object head tail => 'L' :: head.toList ++ tail.render

/-- The text after the first segment of a class type. -/
def ClassTail.render : ClassTail → List Char
  | .done => [';']
  | .segment name rest => '.' :: name.toList ++ rest.render
  | .arguments args rest => '<' :: args.render ++ rest.render

/-- The text of type arguments, with the closing bracket. -/
def TypeArgs.render : TypeArgs → List Char
  | .nil => ['>']
  | .any rest => '*' :: rest.render
  | .type wildcard t rest => wildcard.mark ++ t.render ++ rest.render

end

mutual

/-- Replaces every class name in a type. -/
def TypeSig.rename (f : String → String) : TypeSig → TypeSig
  | .primitive p => .primitive p
  | .array t => .array (t.rename f)
  | .typeVar name => .typeVar name
  | .object head tail => .object (f head) (tail.rename f head)

/-- Replaces every class name after the first segment; `binary` is the binary name so far. -/
def ClassTail.rename (f : String → String) (binary : String) : ClassTail → ClassTail
  | .done => .done
  | .segment name rest =>
    .segment (nestedSegment (binary ++ "$" ++ name) (f (binary ++ "$" ++ name)) name)
      (rest.rename f (binary ++ "$" ++ name))
  | .arguments args rest => .arguments (args.rename f) (rest.rename f binary)

/-- Replaces every class name in type arguments. -/
def TypeArgs.rename (f : String → String) : TypeArgs → TypeArgs
  | .nil => .nil
  | .any rest => .any (rest.rename f)
  | .type wildcard t rest => .type wildcard (t.rename f) (rest.rename f)

end

/-! ## Whole signatures -/

/-- A formal type parameter with its bounds. A bound may be empty. -/
structure FormalParam where
  name : String
  bounds : List (Option TypeSig)

namespace FormalParam

/-- The text of one bound, colon included. -/
def renderBound : Option TypeSig → List Char
  | none => [':']
  | some t => ':' :: t.render

/-- The text of a formal type parameter. -/
def render (p : FormalParam) : List Char := p.name.toList ++ p.bounds.flatMap renderBound

/-- Replaces every class name in the bounds. -/
def rename (f : String → String) (p : FormalParam) : FormalParam :=
  { p with bounds := p.bounds.map (Option.map (TypeSig.rename f)) }

end FormalParam

/-- A signature after its formal type parameters. -/
inductive SignatureBody where
  | types (first : TypeSig) (rest : List TypeSig)
  | method (params : List TypeSig) (result : TypeSig) (throws : List TypeSig)

namespace SignatureBody

/-- The text of a body. -/
def render : SignatureBody → List Char
  | types first rest => first.render ++ rest.flatMap TypeSig.render
  | method params result throws =>
    '(' :: params.flatMap TypeSig.render ++ ')' :: result.render ++
      throws.flatMap fun t => '^' :: t.render

/-- Replaces every class name in a body. -/
def rename (f : String → String) : SignatureBody → SignatureBody
  | types first rest => types (first.rename f) (rest.map (TypeSig.rename f))
  | method params result throws =>
    method (params.map (TypeSig.rename f)) (result.rename f) (throws.map (TypeSig.rename f))

end SignatureBody

/-- A signature. An empty list of formal type parameters may be written or left out. -/
structure Signature where
  formals : Option (List FormalParam)
  body : SignatureBody

namespace Signature

/-- The text of the formal type parameters. -/
def renderFormals : Option (List FormalParam) → List Char
  | none => []
  | some ps => '<' :: ps.flatMap FormalParam.render ++ ['>']

/-- The text of a signature. -/
def render (s : Signature) : List Char := renderFormals s.formals ++ s.body.render

/-- Replaces every class name in a signature. -/
def rename (f : String → String) (s : Signature) : Signature :=
  ⟨s.formals.map (List.map (FormalParam.rename f)), s.body.rename f⟩

/-! ## Reading -/

/-- A name that is not empty and ends at a delimiter, which stays in the rest. -/
def identifier? (stop : Char → Bool) (cs : List Char) : Option (String × List Char) :=
  match Text.upTo? stop cs with
  | some (c :: name, rest) => some (String.ofList (c :: name), rest)
  | _ => none

/-- The characters that end a segment of a class type. -/
def endsSegment (c : Char) : Bool := c == '<' || c == '.' || c == ';'

mutual

/-- Reads one type. The first argument bounds the depth of the recursion. -/
def parseType? : Nat → List Char → Option (TypeSig × List Char)
  | 0, _ => none
  | _, [] => none
  | bound + 1, c :: cs =>
    match Primitive.ofLetter? c with
    | some p => some (.primitive p, cs)
    | none =>
      if c = '[' then
        match parseType? bound cs with
        | some (t, rest) => some (.array t, rest)
        | none => none
      else if c = 'T' then
        match identifier? (· == ';') cs with
        | some (name, rest) => some (.typeVar name, rest.tail)
        | none => none
      else if c = 'L' then
        match identifier? endsSegment cs with
        | some (head, rest) =>
          match parseTail? bound rest with
          | some (tail, rest) => some (.object head tail, rest)
          | none => none
        | none => none
      else none

/-- Reads what follows the first segment of a class type. -/
def parseTail? : Nat → List Char → Option (ClassTail × List Char)
  | 0, _ => none
  | bound + 1, cs =>
    match cs with
    | ';' :: cs => some (.done, cs)
    | '.' :: cs =>
      match identifier? endsSegment cs with
      | some (name, rest) =>
        match parseTail? bound rest with
        | some (tail, rest) => some (.segment name tail, rest)
        | none => none
      | none => none
    | '<' :: cs =>
      match parseArgs? bound cs with
      | some (args, rest) =>
        match parseTail? bound rest with
        | some (tail, rest) => some (.arguments args tail, rest)
        | none => none
      | none => none
    | _ => none

/-- Reads type arguments up to the closing bracket. -/
def parseArgs? : Nat → List Char → Option (TypeArgs × List Char)
  | 0, _ => none
  | bound + 1, cs =>
    match cs with
    | '>' :: cs => some (.nil, cs)
    | '*' :: cs =>
      match parseArgs? bound cs with
      | some (args, rest) => some (.any args, rest)
      | none => none
    | '+' :: cs => parseArg? bound .upper cs
    | '-' :: cs => parseArg? bound .lower cs
    | cs => parseArg? bound .exact cs

/-- Reads the type of one type argument and the arguments after it. -/
def parseArg? : Nat → Wildcard → List Char → Option (TypeArgs × List Char)
  | 0, _, _ => none
  | bound + 1, wildcard, cs =>
    match parseType? bound cs with
    | some (t, rest) =>
      match parseArgs? bound rest with
      | some (args, rest) => some (.type wildcard t args, rest)
      | none => none
    | none => none

end

/-- Reads types until the rest satisfies `stop`. -/
def parseTypes? (stop : List Char → Bool) : Nat → List Char → Option (List TypeSig × List Char)
  | 0, cs => if stop cs then some ([], cs) else none
  | bound + 1, cs =>
    if stop cs then some ([], cs)
    else
      match parseType? (bound + 1) cs with
      | some (t, rest) =>
        match parseTypes? stop bound rest with
        | some (ts, rest) => some (t :: ts, rest)
        | none => none
      | none => none

/-- Reads the exceptions of a method, each behind a caret. -/
def parseThrows? : Nat → List Char → Option (List TypeSig × List Char)
  | bound + 1, '^' :: cs =>
    match parseType? (bound + 1) cs with
    | some (t, rest) =>
      match parseThrows? bound rest with
      | some (ts, rest) => some (t :: ts, rest)
      | none => none
    | none => none
  | 0, '^' :: _ => none
  | _, cs => some ([], cs)

/-- Reads the bounds of a formal type parameter. A colon is followed by a type exactly when the
next character opens a class type, an array or a type variable. -/
def parseBounds? : Nat → List Char → Option (List (Option TypeSig) × List Char)
  | _, [':'] => none
  | 0, ':' :: _ :: _ => none
  | bound + 1, ':' :: c :: cs =>
    if c = 'L' ∨ c = '[' ∨ c = 'T' then
      match parseType? (bound + 1) (c :: cs) with
      | some (t, rest) =>
        match parseBounds? bound rest with
        | some (bounds, rest) => some (some t :: bounds, rest)
        | none => none
      | none => none
    else
      match parseBounds? bound (c :: cs) with
      | some (bounds, rest) => some (none :: bounds, rest)
      | none => none
  | _, cs => some ([], cs)

/-- Reads formal type parameters up to the closing bracket. A parameter's name runs to its first
colon and is not empty. -/
def parseFormals? : Nat → List Char → Option (List FormalParam × List Char)
  | _, '>' :: cs => some ([], cs)
  | 0, _ => none
  | bound + 1, cs =>
    match identifier? (· == ':') cs with
    | some (name, rest) =>
      match parseBounds? (bound + 1) rest with
      | some (bounds, rest) =>
        match parseFormals? bound rest with
        | some (ps, rest) => some (⟨name, bounds⟩ :: ps, rest)
        | none => none
      | none => none
    | none => none

/-- Reads a whole text as the body of a signature. -/
def parseBody? (bound : Nat) : List Char → Option SignatureBody
  | '(' :: cs =>
    match parseTypes? (fun rest => rest.head? == some ')') bound cs with
    | some (params, rest) =>
      match parseType? bound rest.tail with
      | some (result, rest) =>
        match parseThrows? bound rest with
        | some (throws, []) => some (.method params result throws)
        | _ => none
      | none => none
    | none => none
  | cs =>
    match parseType? bound cs with
    | some (first, rest) =>
      match parseTypes? List.isEmpty bound rest with
      | some (types, _) => some (.types first types)
      | none => none
    | none => none

/-- Reads a whole text as a signature. No step looks at the same place more than three times, so
a bound of thrice the length is enough. -/
def parse? (cs : List Char) : Option Signature :=
  let bound := 3 * cs.length + 3
  match cs with
  | '<' :: inside =>
    match parseFormals? bound inside with
    | some (formals, rest) => (parseBody? bound rest).map (Signature.mk (some formals))
    | none => none
  | cs => (parseBody? bound cs).map (Signature.mk none)

/-- The signature with every class name replaced. -/
def renameText? (f : String → String) (text : String) : Option String :=
  (parse? text.toList).map fun s => String.ofList (s.rename f).render

end Signature

end Reclass
