import Reclass.RenameTable.Document
import Reclass.Text.WhiteSpace

set_option autoImplicit false

/-!
# Settings

The settings of a run are layered: defaults, then a JSON document, then overrides from the
environment. An override that is missing or not understood leaves its setting alone.

## Main definitions

* `Reclass.Settings` — the settings, with their defaults.
* `Settings.toDocument`, `Settings.ofDocument?` — as JSON.
* `Reclass.Overrides` — what the environment says, and `Settings.override`.
* `Settings.loadTable` — the rename table that the settings name.
-/

namespace Reclass

open Json

/-- What a run does with each class. -/
structure Settings where
  /-- The path of a rename table. -/
  mappings : Option String := none
  /-- Rename classes and members. -/
  remap : Bool := true
  /-- Apply requested access. -/
  applyAccess : Bool := true
  /-- Rename references to inherited members too. -/
  flattenHierarchy : Bool := false
  /-- Transform the classes of a batch side by side. Results do not depend on it. -/
  parallel : Bool := false
deriving DecidableEq, Repr

/-! ## Documents -/

namespace Settings

/-- The settings as a record. -/
def toJson (s : Settings) : Value :=
  .object
    [entry "mappings" (match s.mappings with | some path => ofText path | none => .null),
      entry "remap" (.bool s.remap), entry "apply_access" (.bool s.applyAccess),
      entry "flatten_hierarchy" (.bool s.flattenHierarchy), entry "parallel" (.bool s.parallel)]

/-- The settings as text on one line. -/
def toDocument (s : Settings) : String := s.toJson.compact

/-- Reads settings. All of them may be left out. -/
def ofJson? (v : Value) : Option Settings :=
  match v.record? ["mappings", "remap", "apply_access", "flatten_hierarchy", "parallel"] with
  | some [mappings, remap, applyAccess, flattenHierarchy, parallel] => do
    let base : Settings := {}
    let mappings ← Value.withDefault? base.mappings (Value.orNull? Value.text?) mappings
    let remap ← Value.withDefault? base.remap Value.flag? remap
    let applyAccess ← Value.withDefault? base.applyAccess Value.flag? applyAccess
    let flattenHierarchy ← Value.withDefault? base.flattenHierarchy Value.flag? flattenHierarchy
    let parallel ← Value.withDefault? base.parallel Value.flag? parallel
    return { mappings, remap, applyAccess, flattenHierarchy, parallel }
  | _ => none

/-- The settings that a text stands for. -/
def ofDocument? (document : String) : Option Settings := (parse? document).bind ofJson?

/-- Reads settings from a text. -/
def read (document : String) : Except Failure Settings :=
  match ofDocument? document with
  | some s => .ok s
  | none => .error (.settings [])

/-- Reads settings from the file at a path, of which the content is given if there is such a
file. -/
def load (path : String) (content : Option String) : Except Failure Settings :=
  match content with
  | none => .error (.file path)
  | some document =>
    match ofDocument? document with
    | some s => .ok s
    | none => .error (.settings [path])

/-- The rename table that the settings name, if they name one. The content of a file is given by
its path. -/
def loadTable (s : Settings) (contentOf : String → Option String) :
    Except Failure (Option RenameTable) :=
  match s.mappings with
  | none => .ok none
  | some path =>
    match RenameTable.load path (contentOf path) with
    | .ok t => .ok (some t)
    | .error cause => .error (.settings cause)

end Settings

/-! ## The environment -/

/-- A truth value of the environment, in any case and with white space around it. Only ASCII
letters have a lower case that occurs in the accepted words. -/
def environmentFlag? (text : String) : Option Bool :=
  let word := String.ofList ((Text.trim text.toList).map Char.toLower)
  if word ∈ ["1", "true", "yes", "on"] then some true
  else if word ∈ ["0", "false", "no", "off"] then some false
  else none

/-- A path of the environment, which must not be empty. -/
def environmentPath? (text : String) : Option String := if text = "" then none else some text

/-- The variables that override settings, as far as they are set. -/
structure Overrides where
  mappings : Option String := none
  remap : Option String := none
  applyAccess : Option String := none
  flattenHierarchy : Option String := none
  parallel : Option String := none

/-- The settings with what the environment overrides. -/
def Settings.override (s : Settings) (o : Overrides) : Settings where
  mappings := (o.mappings.bind environmentPath?).or s.mappings
  remap := (o.remap.bind environmentFlag?).getD s.remap
  applyAccess := (o.applyAccess.bind environmentFlag?).getD s.applyAccess
  flattenHierarchy := (o.flattenHierarchy.bind environmentFlag?).getD s.flattenHierarchy
  parallel := (o.parallel.bind environmentFlag?).getD s.parallel

end Reclass
