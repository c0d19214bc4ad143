import Reclass.Codec
import Reclass.Pipeline.Basic
import Reclass.Settings
import Reclass.Trait.Order

set_option autoImplicit false

/-!
# Sessions

A session transforms the classes of one run. It holds what they share: the access requests, the
hierarchy, the new names and the codec. Every class gets its own result; a failure concerns that
class alone.

The settings may ask for classes to be transformed side by side. The results are those of taking
one class after the other, which is what is defined here; `Reclass.Session.SideBySide` has them move
by turns.

## Main definitions

* `Reclass.Session` — the state of a run.
* `Session.renaming?` — the new names that classes get.
* `Session.recordBatch` — the hierarchy of a batch collected and flattened.
* `Session.transform`, `Session.transformBatch` — a class, or a batch of them.
* `Session.transformWritten`, `Session.applyToResource` — an object in its written form.
-/

namespace Reclass

/-- The state of a run. -/
structure Session where
  settings : Settings := {}
  workspace : Workspace := {}
  /-- New names from outside. -/
  given : Option Renaming := none
  /-- New names from the flattened hierarchy, once a batch has been recorded. -/
  inherited : Option Renaming := none
  codec : Codec := .binary

namespace Session

/-- What an operation gave, and the session afterwards. An operation that was ended by a fault may
have changed the session before. -/
structure Reply (α : Type) where
  result : Except MissingName α
  session : Session

/-- A session with the rename table that the settings name. -/
def ofSettings (settings : Settings) (contentOf : String → Option String) :
    Except Failure Session := do
  let table ← settings.loadTable contentOf
  return { settings, given := table.map .ofTable }

/-! ## New names -/

/-- The new names that classes get, if they are renamed at all. The flattened hierarchy is asked
first, since it knows inherited members. -/
def renaming? (s : Session) : Option Renaming :=
  if s.settings.remap then
    match s.inherited, s.given with
    | some inherited, some given => some (inherited.orElse given)
    | some inherited, none => some inherited
    | none, given => given
  else none

/-- The new names from outside. -/
def givenRenaming (s : Session) : Renaming := s.given.getD .identity

/-- The new names that traits see. -/
def traitRenaming (s : Session) : Renaming := s.renaming?.getD s.givenRenaming

/-! ## The hierarchy -/

/-- The names that the hierarchy knows, as a rename table. -/
def inheritedNames (s : Session) : RenameTable := s.workspace.hierarchy.toTable

/-- The session with another hierarchy. -/
def withHierarchy (s : Session) (h : Hierarchy) : Session :=
  { s with workspace := { s.workspace with hierarchy := h } }

/-- Adds a batch to the hierarchy and flattens that. Gives the number of classes in it. -/
def recordBatch (s : Session) (classes : List ClassTree) : Reply Nat :=
  match s.workspace.hierarchy.addClasses s.givenRenaming classes with
  | (h, some fault) => ⟨.error fault, s.withHierarchy h⟩
  | (h, none) =>
    ⟨.ok h.flatten.size,
      { s.withHierarchy h.flatten with inherited := some (.ofTable h.flatten.toTable) }⟩

/-! ## Classes -/

/-- The pipeline for one class: access requests, then renaming, as far as they apply. -/
def pipeline (s : Session) : Except Failure (Pipeline Empty) :=
  let p : Pipeline Empty := { parts := if s.settings.applyAccess then [.filter .access] else [] }
  match s.renaming? with
  | some r => (p.useRenaming r).requestRenaming
  | none => .ok p

/-- Transforms one class. If there is nothing to do it stays as it is. -/
def transform (s : Session) (c : ClassTree) : Reply (Except Failure ClassTree) :=
  match s.pipeline with
  | .error e => ⟨.ok (.error e), s⟩
  | .ok p =>
    if p.hasWork then
      match p.run s.workspace c with
      | .error e => ⟨.ok (.error e), s⟩
      | .ok made => ⟨made.tree.map .ok, { s with workspace := made.workspace }⟩
    else ⟨.ok (.ok c), s⟩

/-- Transforms classes one after the other. -/
def transformEach (s : Session) : List ClassTree → Reply (List (Except Failure ClassTree))
  | [] => ⟨.ok [], s⟩
  | c :: cs =>
    let first := s.transform c
    match first.result with
    | .error fault => ⟨.error fault, first.session⟩
    | .ok result =>
      let others := first.session.transformEach cs
      { others with result := others.result.map (result :: ·) }

/-- Transforms a batch. If the settings ask for it and it has not been done yet, the batch is
recorded in the hierarchy first. -/
def transformBatch (s : Session) (classes : List ClassTree) :
    Reply (List (Except Failure ClassTree)) :=
  if s.settings.flattenHierarchy && s.inherited.isNone then
    let recorded := s.recordBatch classes
    match recorded.result with
    | .error fault => ⟨.error fault, recorded.session⟩
    | .ok _ => recorded.session.transformEach classes
  else s.transformEach classes

/-! ## Written objects -/

/-- Reads a class, transforms it, applies traits and writes the result. -/
def transformWritten (s : Session) (name : String) (traits : Option (List (Trait ClassTree)))
    (bytes : List UInt8) : Reply (Except Failure (List UInt8)) :=
  match s.codec.readClass name bytes with
  | .error e => ⟨.ok (.error e), s⟩
  | .ok c =>
    let transformed := s.transform c
    { session := transformed.session
      result := transformed.result.map fun c => do
        let c ← Trait.applyAll name s.traitRenaming traits (← c)
        s.codec.writeClass name c }

/-- Applies traits to the bytes of a resource. -/
def applyToResource (s : Session) (name : String) (traits : Option (List (Trait (List UInt8))))
    (bytes : List UInt8) : Except Failure (List UInt8) :=
  Trait.applyAll name s.traitRenaming traits bytes

end Session

end Reclass
