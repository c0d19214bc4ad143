import Reclass.Json.Token
import Reclass.Json.Value

set_option autoImplicit false

/-!
# Reading JSON

The words of a text are taken one by one. What has been opened and not closed yet is kept on a
stack, so that reading is a fold over the words and values may be nested to any depth.

## Main definitions

* `Reclass.Json.State` — what has been read, and what may come next.
* `Reclass.Json.step?` — how a word changes that.
* `Reclass.Json.parse?` — the value that a text stands for.
-/

namespace Reclass.Json

/-- An array or object that is open, the latest items first. Of an object, one key waits for its
value. -/
inductive Open where
  | array (items : List Value)
  | object (entries : List (Option String × Value)) (key : Option String)

/-- What may come next. All states but the last want more words. -/
inductive State where
  /-- A value. -/
  | value (stack : List Open)
  /-- The first item of an array, or its end. -/
  | firstItem (stack : List Open)
  /-- The first key of an object, or its end. -/
  | firstKey (stack : List Open)
  /-- A further key of an object. -/
  | key (stack : List Open) (entries : List (Option String × Value))
  /-- The colon behind a key. -/
  | colon (stack : List Open) (entries : List (Option String × Value)) (key : Option String)
  /-- A comma, the end of what is open or, if nothing is, the end of the text. -/
  | complete (stack : List Open) (v : Value)

/-- Takes the first word of a value. -/
def begin? (stack : List Open) : Token → Option State
  | .openBracket => some (.firstItem stack)
  | .openBrace => some (.firstKey stack)
  | .null => some (.complete stack .null)
  | .true => some (.complete stack (.bool true))
  | .false => some (.complete stack (.bool false))
  | .number => some (.complete stack .number)
  | .string s => some (.complete stack (.string s))
  | _ => none

/-- Takes one word. -/
def step? : State → Token → Option State
  | .value stack, t => begin? stack t
  | .firstItem stack, .closeBracket => some (.complete stack (.array []))
  | .firstItem stack, t => begin? (.array [] :: stack) t
  | .firstKey stack, .closeBrace => some (.complete stack (.object []))
  | .firstKey stack, .string key => some (.colon stack [] key)
  | .key stack entries, .string key => some (.colon stack entries key)
  | .colon stack entries key, .colon => some (.value (.object entries key :: stack))
  | .complete (.array items :: stack) v, .comma => some (.value (.array (v :: items) :: stack))
  | .complete (.array items :: stack) v, .closeBracket =>
    some (.complete stack (.array (v :: items).reverse))
  | .complete (.object entries key :: stack) v, .comma =>
    some (.key stack ((key, v) :: entries))
  | .complete (.object entries key :: stack) v, .closeBrace =>
    some (.complete stack (.object ((key, v) :: entries).reverse))
  | _, _ => none

/-- The value that some words stand for. -/
def ofTokens? (ts : List Token) : Option Value :=
  match ts.foldlM step? (.value []) with
  | some (.complete [] v) => some v
  | _ => none

/-- The value that a text stands for, if it is one value with nothing but blanks around it. -/
def parse? (text : String) : Option Value := (tokens? text.toList).bind ofTokens?

end Reclass.Json
