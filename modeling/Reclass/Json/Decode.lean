import Reclass.Json.Value

set_option autoImplicit false

/-!
# Reading data out of JSON

A document has a fixed shape: which fields there are and what each of them holds. Anything else is
refused, except that an object may hold further entries.

## Main definitions

* `Value.text?`, `Value.flag?`, `Value.list?`, `Value.dictionary?` — plain data.
* `Value.record?` — the fields of a record.
-/

namespace Reclass.Json.Value

/-- The content of a string. -/
def text? : Value → Option String
  | string s => s
  | _ => none

/-- A truth value. -/
def flag? : Value → Option Bool
  | bool b => some b
  | _ => none

/-- The items of an array, all read in one way. -/
def list? {α : Type} (item? : Value → Option α) : Value → Option (List α)
  | array items => items.mapM item?
  | _ => none

/-- The entries of an object, the keys of which are free, with all values read in one way. -/
def dictionary? {α : Type} (value? : Value → Option α) : Value → Option (List (String × α))
  | object entries =>
    entries.mapM fun (key, v) =>
      match key, value? v with
      | some key, some a => some (key, a)
      | _, _ => none
  | _ => none

/-- The values of an entry that occurs at most once. -/
def values (name : String) (entries : List (Option String × Value)) : List Value :=
  (entries.filter fun entry => entry.1 == some name).map Prod.snd

/-- The fields of a record, each of which may be missing. A record is written as an object, in
which no field occurs twice, every key is a text and further entries are ignored, or as an array of
the fields in order, which may end early. -/
def record? (names : List String) : Value → Option (List (Option Value))
  | object entries =>
    if entries.all (fun entry => entry.1.isSome) &&
        names.all fun name => (values name entries).length ≤ 1 then
      some (names.map fun name => (values name entries).head?)
    else none
  | array items =>
    if items.length ≤ names.length then
      some (items.map some ++ List.replicate (names.length - items.length) none)
    else none
  | _ => none

/-- A field that must be there. -/
def required? {α : Type} (read? : Value → Option α) : Option Value → Option α
  | some v => read? v
  | none => none

/-- A field that has a value even if it is missing. -/
def withDefault? {α : Type} (default : α) (read? : Value → Option α) : Option Value → Option α
  | some v => read? v
  | none => some default

/-- A field that may hold nothing, which is written as null. -/
def orNull? {α : Type} (read? : Value → Option α) : Value → Option (Option α)
  | null => some none
  | v => (read? v).map some

end Reclass.Json.Value
