set_option autoImplicit false

/-!
# JSON values

JSON as a tree. Two things are kept coarser than the grammar has them. No document read here holds
numbers of its own, so that the digits of a number are dropped. A string may name half of a
surrogate pair, which no Unicode text contains; such a string is kept as an absent text, since it
is an error wherever its content counts and nowhere else.

## Main definitions

* `Reclass.Json.Value` — a JSON value.
* `Value.compact`, `Value.pretty` — the text of a value, on one line or indented by two spaces.
-/

namespace Reclass.Json

/-- A JSON value. The keys of an object need not differ and keep their order. -/
inductive Value where
  | null
  | bool (value : Bool)
  | number
  | string (content : Option String)
  | array (items : List Value)
  | object (entries : List (Option String × Value))

/-! ## Strings -/

/-- A hexadecimal digit in lower case. -/
def hexDigit (n : Nat) : Char :=
  if n < 10 then Char.ofNat ('0'.toNat + n) else Char.ofNat ('a'.toNat + (n - 10))

/-- How a character is written inside a string. Quotes, backslashes and control characters are
escaped, with a short form where there is one; all others stand for themselves. -/
def escape (c : Char) : List Char :=
  if c = '"' then ['\\', '"']
  else if c = '\\' then ['\\', '\\']
  else if c = '\x08' then ['\\', 'b']
  else if c = '\x0c' then ['\\', 'f']
  else if c = '\n' then ['\\', 'n']
  else if c = '\r' then ['\\', 'r']
  else if c = '\t' then ['\\', 't']
  else if c.toNat < 0x20 then
    ['\\', 'u', '0', '0', hexDigit (c.toNat / 16), hexDigit (c.toNat % 16)]
  else [c]

/-- A string as it is written. An absent text is written as half of a surrogate pair. -/
def quote : Option String → List Char
  | some s => '"' :: s.toList.flatMap escape ++ ['"']
  | none => ['"', '\\', 'u', 'd', '8', '0', '0', '"']

namespace Value

/-- The text of a value without items of its own. -/
def scalar : Value → List Char
  | bool true => ['t', 'r', 'u', 'e']
  | bool false => ['f', 'a', 'l', 's', 'e']
  | number => ['0']
  | string s => quote s
  | _ => ['n', 'u', 'l', 'l']

/-! ## On one line -/

mutual

/-- The text of a value on one line, without spaces. -/
def compactChars : Value → List Char
  | array items => '[' :: compactItems items
  | object entries => '\x7b' :: compactEntries entries
  | v => v.scalar

/-- The items of an array with the closing bracket. -/
def compactItems : List Value → List Char
  | [] => [']']
  | [v] => compactChars v ++ [']']
  | v :: vs => compactChars v ++ ',' :: compactItems vs

/-- The entries of an object with the closing brace. -/
def compactEntries : List (Option String × Value) → List Char
  | [] => ['\x7d']
  | [(key, v)] => quote key ++ ':' :: compactChars v ++ ['\x7d']
  | (key, v) :: entries => quote key ++ ':' :: compactChars v ++ ',' :: compactEntries entries

end

/-- The text of a value on one line, without spaces. -/
def compact (v : Value) : String := String.ofList v.compactChars

/-! ## Indented -/

/-- A new line at a depth of nesting. -/
def newLine (depth : Nat) : List Char := '\n' :: List.replicate (2 * depth) ' '

mutual

/-- The text of a value at a depth of nesting. An array or object without content is written
without space inside. -/
def prettyChars (depth : Nat) : Value → List Char
  | array [] => ['[', ']']
  | array items => '[' :: prettyItems (depth + 1) items ++ newLine depth ++ [']']
  | object [] => ['\x7b', '\x7d']
  | object entries => '\x7b' :: prettyEntries (depth + 1) entries ++ newLine depth ++ ['\x7d']
  | v => v.scalar

/-- The items of an array, each on lines of its own. -/
def prettyItems (depth : Nat) : List Value → List Char
  | [] => []
  | [v] => newLine depth ++ prettyChars depth v
  | v :: vs => newLine depth ++ prettyChars depth v ++ ',' :: prettyItems depth vs

/-- The entries of an object, each on lines of its own. -/
def prettyEntries (depth : Nat) : List (Option String × Value) → List Char
  | [] => []
  | [(key, v)] => newLine depth ++ quote key ++ ':' :: ' ' :: prettyChars depth v
  | (key, v) :: entries =>
    newLine depth ++ quote key ++ ':' :: ' ' :: prettyChars depth v ++
      ',' :: prettyEntries depth entries

end

/-- The text of a value with every item on lines of its own, indented by two spaces. -/
def pretty (v : Value) : String := String.ofList (v.prettyChars 0)

end Value

end Reclass.Json
