import Reclass.Failure
import Reclass.Json.Decode
import Reclass.Json.Parse
import Reclass.RenameTable

set_option autoImplicit false

/-!
# Rename tables as documents

A rename table is kept as JSON. Classes come in the order of their names and members in theirs, so
that equal tables have equal documents.

## Main definitions

* `RenameTable.toDocument`, `RenameTable.ofDocument?` — writing and reading.
* `RenameTable.load` — reading with a reason for failure.
-/

namespace Reclass

open Json

/-! ## Writing -/

/-- An entry of an object under a known key. -/
def Json.entry (key : String) (v : Value) : Option String × Value := (some key, v)

/-- Text as a JSON string. -/
def Json.ofText (s : String) : Value := .string (some s)

/-- The new names of members as a list of records. -/
def MemberNames.toJson (names : MemberNames) : Value :=
  .array (names.toList.map fun (member, new) =>
    .object
      [entry "name" (ofText member.name), entry "descriptor" (ofText member.descriptor),
        entry "renamed" (ofText new)])

/-- The new names of a class as a record. -/
def ClassNames.toJson (names : ClassNames) : Value :=
  .object
    [entry "renamed_name" (ofText names.newName), entry "fields" names.fields.toJson,
      entry "methods" names.methods.toJson]

/-- A table as a record with one dictionary. -/
def RenameTable.toJson (t : RenameTable) : Value :=
  .object [entry "classes" (.object (t.toList.map fun (name, names) => entry name names.toJson))]

/-- A table as indented text. -/
def RenameTable.toDocument (t : RenameTable) : String := t.toJson.pretty

/-! ## Reading -/

/-- The new name of one member. -/
def MemberNames.entry? (v : Value) : Option (Member × String) :=
  match v.record? ["name", "descriptor", "renamed"] with
  | some [name, descriptor, new] => do
    let name ← Value.required? Value.text? name
    let descriptor ← Value.required? Value.text? descriptor
    let new ← Value.required? Value.text? new
    return (⟨name, descriptor⟩, new)
  | _ => none

/-- The new names of members. Of two entries for the same member the later one counts. -/
def MemberNames.ofJson? (v : Value) : Option MemberNames :=
  (v.list? MemberNames.entry?).map fun entries =>
    entries.foldl (fun names (member, new) => names.insert member new) ∅

/-- The new names of a class. Members may be left out. -/
def ClassNames.ofJson? (v : Value) : Option ClassNames :=
  match v.record? ["renamed_name", "fields", "methods"] with
  | some [newName, fields, methods] => do
    let newName ← Value.required? Value.text? newName
    let fields ← Value.withDefault? ∅ MemberNames.ofJson? fields
    let methods ← Value.withDefault? ∅ MemberNames.ofJson? methods
    return ⟨newName, fields, methods⟩
  | _ => none

/-- A table. Of two entries for the same class the later one counts. -/
def RenameTable.ofJson? (v : Value) : Option RenameTable :=
  match v.record? ["classes"] with
  | some [classes] => do
    let entries ← Value.withDefault? [] (Value.dictionary? ClassNames.ofJson?) classes
    return entries.foldl (fun t (name, names) => t.insert name names) ∅
  | _ => none

/-- The table that a text stands for. -/
def RenameTable.ofDocument? (document : String) : Option RenameTable :=
  (parse? document).bind RenameTable.ofJson?

/-! ## Reading with reasons -/

/-- Reads a table from a text. -/
def RenameTable.read (document : String) : Except Cause RenameTable :=
  match ofDocument? document with
  | some t => .ok t
  | none => .error ["Failed to parse mapping table JSON"]

/-- Reads a table from the file at a path, of which the content is given if there is such a
file. -/
def RenameTable.load (path : String) (content : Option String) : Except Cause RenameTable :=
  match content with
  | none => .error ["Failed to read mapping table " ++ path]
  | some document =>
    match read document with
    | .ok t => .ok t
    | .error cause => .error (("Invalid mapping table " ++ path) :: cause)

end Reclass
