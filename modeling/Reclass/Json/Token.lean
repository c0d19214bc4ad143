set_option autoImplicit false

/-!
# JSON tokens

The words that JSON text is made of. Between them may stand blanks, tabs and line ends.

## Main definitions

* `Reclass.Json.Token` — a word of JSON.
* `Reclass.Json.scanString` — the content of a string, up to its closing quote.
* `Reclass.Json.tokens?` — the words of a text.
-/

namespace Reclass.Json

/-- A word of JSON. The content of a string is absent if no Unicode text has it. -/
inductive Token where
  | openBrace | closeBrace | openBracket | closeBracket | colon | comma
  | null | true | false | number
  | string (content : Option String)
deriving DecidableEq, Repr

/-! ## Strings -/

/-- A piece of a string: a character, or a UTF-16 unit that is given by its number. -/
inductive Piece where
  | char (c : Char)
  | unit (n : Nat)
deriving DecidableEq, Repr

/-- The value of a hexadecimal digit in either case. -/
def hexValue? (c : Char) : Option Nat :=
  if '0' ≤ c ∧ c ≤ '9' then some (c.toNat - '0'.toNat)
  else if 'a' ≤ c ∧ c ≤ 'f' then some (c.toNat - 'a'.toNat + 10)
  else if 'A' ≤ c ∧ c ≤ 'F' then some (c.toNat - 'A'.toNat + 10)
  else none

/-- The number that four hexadecimal digits stand for. -/
def hexUnit? (a b c d : Char) : Option Nat :=
  match hexValue? a, hexValue? b, hexValue? c, hexValue? d with
  | some a, some b, some c, some d => some (((a * 16 + b) * 16 + c) * 16 + d)
  | _, _, _, _ => none

/-- The character that a letter behind a backslash stands for. -/
def unescape? : Char → Option Char
  | '"' => some '"'
  | '\\' => some '\\'
  | '/' => some '/'
  | 'b' => some '\x08'
  | 'f' => some '\x0c'
  | 'n' => some '\n'
  | 'r' => some '\r'
  | 't' => some '\t'
  | _ => none

/-- The pieces of a string up to its closing quote, and the text behind that. Control characters
must be escaped. -/
def scanString : List Char → Option (List Piece × List Char)
  | [] => none
  | '"' :: rest => some ([], rest)
  | '\\' :: 'u' :: a :: b :: c :: d :: rest =>
    match hexUnit? a b c d with
    | some n => (scanString rest).map fun (pieces, rest) => (.unit n :: pieces, rest)
    | none => none
  | '\\' :: e :: rest =>
    match unescape? e with
    | some c => (scanString rest).map fun (pieces, rest) => (.char c :: pieces, rest)
    | none => none
  | c :: rest =>
    if c.toNat < 0x20 ∨ c = '\\' then none
    else (scanString rest).map fun (pieces, rest) => (.char c :: pieces, rest)

/-- True of the first half of a surrogate pair. -/
def isHighSurrogate (n : Nat) : Bool := 0xd800 ≤ n && n < 0xdc00

/-- True of the second half of a surrogate pair. -/
def isLowSurrogate (n : Nat) : Bool := 0xdc00 ≤ n && n < 0xe000

/-- The characters that the pieces of a string stand for. Surrogates must come in pairs. -/
def decode : List Piece → Option (List Char)
  | [] => some []
  | .char c :: rest => (decode rest).map (c :: ·)
  | .unit n :: rest =>
    if isHighSurrogate n then
      match rest with
      | .unit m :: rest =>
        if isLowSurrogate m then
          (decode rest).map (Char.ofNat (0x10000 + (n - 0xd800) * 0x400 + (m - 0xdc00)) :: ·)
        else none
      | _ => none
    else if isLowSurrogate n then none
    else (decode rest).map (Char.ofNat n :: ·)

/-! ## Numbers -/

/-- Skips one digit or more. -/
def skipDigits? : List Char → Option (List Char)
  | c :: rest => if c.isDigit then some (rest.dropWhile Char.isDigit) else none
  | [] => none

/-- Skips a whole number, which has no leading zero. -/
def skipWhole? : List Char → Option (List Char)
  | '0' :: c :: rest => if c.isDigit then none else some (c :: rest)
  | rest => skipDigits? rest

/-- Skips the fraction of a number, if there is one. -/
def skipFraction? : List Char → Option (List Char)
  | '.' :: rest => skipDigits? rest
  | rest => some rest

/-- Skips the exponent of a number, if there is one. -/
def skipExponent? : List Char → Option (List Char)
  | c :: rest =>
    if c = 'e' ∨ c = 'E' then
      match rest with
      | '+' :: rest => skipDigits? rest
      | '-' :: rest => skipDigits? rest
      | rest => skipDigits? rest
    else some (c :: rest)
  | [] => some []

/-- Skips a number. -/
def skipNumber? (cs : List Char) : Option (List Char) := do
  let whole ← skipWhole? (match cs with | '-' :: rest => rest | cs => cs)
  let fraction ← skipFraction? whole
  skipExponent? fraction

/-! ## Texts -/

/-- The characters that may stand between words. -/
def isBlank (c : Char) : Bool := c == ' ' || c == '\t' || c == '\n' || c == '\r'

/-- The first word of a text that starts with one, and what follows it. -/
def firstToken? : List Char → Option (Token × List Char)
  | '\x7b' :: rest => some (.openBrace, rest)
  | '\x7d' :: rest => some (.closeBrace, rest)
  | '[' :: rest => some (.openBracket, rest)
  | ']' :: rest => some (.closeBracket, rest)
  | ':' :: rest => some (.colon, rest)
  | ',' :: rest => some (.comma, rest)
  | 'n' :: 'u' :: 'l' :: 'l' :: rest => some (.null, rest)
  | 't' :: 'r' :: 'u' :: 'e' :: rest => some (.true, rest)
  | 'f' :: 'a' :: 'l' :: 's' :: 'e' :: rest => some (.false, rest)
  | '"' :: rest =>
    match scanString rest with
    | some (pieces, rest) => some (.string ((decode pieces).map String.ofList), rest)
    | none => none
  | cs => (skipNumber? cs).map fun rest => (.number, rest)

/-- The words of a text. The first argument bounds the number of words and blanks. -/
def tokensWithin? : Nat → List Char → Option (List Token)
  | _, [] => some []
  | 0, _ :: _ => none
  | bound + 1, c :: cs =>
    if isBlank c then tokensWithin? bound cs
    else
      match firstToken? (c :: cs) with
      | some (token, rest) => (tokensWithin? bound rest).map (token :: ·)
      | none => none

/-- The words of a text. There are no more of them than characters. -/
def tokens? (cs : List Char) : Option (List Token) := tokensWithin? cs.length cs

end Reclass.Json
