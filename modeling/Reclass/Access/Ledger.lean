import Reclass.Access.Spec
import Reclass.MissingName

set_option autoImplicit false

/-!
# The access ledger

Requests for a class are collected until the class is met. Then its record is taken, once, and the
class is closed: from there on requests for it are turned down. A class is in one of three states,
so that it never has a record and is closed as well: nothing known, pending, closed.

## Main definitions

* `Reclass.AccessLedger` — the state of every class.
* `AccessLedger.request`, `peek`, `take`, `close` — the operations. Each of them wants a class name
  that is not empty and changes nothing without one.

## Main results

* `AccessLedger.record?_set`, `isClosed_set` — a change to one class leaves the others alone.
* `AccessLedger.isClosed_eq_false_of_record?` — a class is never both pending and closed.
-/

namespace Reclass

/-- What a ledger knows of a class: requests that wait for it, or that it takes no more. -/
inductive AccessStatus where
  | pending (record : AccessRecord)
  | closed
deriving DecidableEq

/-- What is known of the classes. -/
structure AccessLedger where
  classes : Std.ExtTreeMap String AccessStatus := ∅
deriving DecidableEq

namespace AccessLedger

/-! ## What is known of a class -/

/-- The record that waits for a class. -/
def record? (l : AccessLedger) (name : String) : Option AccessRecord :=
  match l.classes[name]? with
  | some (.pending r) => some r
  | _ => none

/-- True if the class takes no more requests. -/
def isClosed (l : AccessLedger) (name : String) : Bool := l.classes[name]? == some .closed

/-- The number of records that wait. -/
def pendingCount (l : AccessLedger) : Nat :=
  (l.classes.filter fun _ status => status != .closed).size

/-- Changes what is known of a class. -/
def set (l : AccessLedger) (name : String) (status : AccessStatus) : AccessLedger :=
  ⟨l.classes.insert name status⟩

/-- What waits for a class after a change to one of them. -/
theorem record?_set (l : AccessLedger) (name other : String) (status : AccessStatus) :
    (l.set name status).record? other =
      if other = name then
        match status with
        | .pending r => some r
        | .closed => none
      else l.record? other := by
  by_cases h : other = name <;> cases status <;> simp [record?, set, getElem?_insert_ite, h]

/-- Which classes are closed after a change to one of them. -/
theorem isClosed_set (l : AccessLedger) (name other : String) (status : AccessStatus) :
    (l.set name status).isClosed other =
      if other = name then status == .closed else l.isClosed other := by
  by_cases h : other = name <;> simp [isClosed, set, getElem?_insert_ite, h]

/-- A class for which a record waits is not closed. -/
theorem isClosed_eq_false_of_record? {l : AccessLedger} {name : String} {r : AccessRecord}
    (h : l.record? name = some r) : l.isClosed name = false := by
  unfold record? at h
  split at h
  next heq => simp [isClosed, heq]
  · simp at h

/-! ## Operations -/

/-- Adds requests for a class, and tells whether they were accepted. -/
def request (l : AccessLedger) (name : String) (added : AccessRecord) :
    Except MissingName (Bool × AccessLedger) := do
  MissingName.className.require name
  match l.classes[name]? with
  | some .closed => return (false, l)
  | some (.pending r) => return (true, l.set name (.pending (r.merge added)))
  | none => return (true, l.set name (.pending added))

/-- Adds a request for a class itself. -/
def requestClass (l : AccessLedger) (name : String) (access : AccessSpec) :
    Except MissingName (Bool × AccessLedger) :=
  l.request name (.ofClass access)

/-- Adds a request for a field, which must have a name. -/
def requestField (l : AccessLedger) (name : String) (field : Member) (access : AccessSpec) :
    Except MissingName (Bool × AccessLedger) := do
  MissingName.fieldName.require field.name
  l.request name (.ofField field access)

/-- Adds a request for a method, which must have a name. -/
def requestMethod (l : AccessLedger) (name : String) (method : Member) (access : AccessSpec) :
    Except MissingName (Bool × AccessLedger) := do
  MissingName.methodName.require method.name
  l.request name (.ofMethod method access)

/-- The record that waits for a class; it goes on waiting. -/
def peek (l : AccessLedger) (name : String) : Except MissingName (Option AccessRecord) := do
  MissingName.className.require name
  return l.record? name

/-- Takes the record that waits for a class and closes the class. Without a record nothing
happens. -/
def take (l : AccessLedger) (name : String) :
    Except MissingName (Option AccessRecord × AccessLedger) := do
  MissingName.className.require name
  match l.record? name with
  | some r => return (some r, l.set name .closed)
  | none => return (none, l)

/-- Closes a class, and tells whether a record was waiting for it. That record is dropped. -/
def close (l : AccessLedger) (name : String) : Except MissingName (Bool × AccessLedger) := do
  MissingName.className.require name
  return ((l.record? name).isSome, l.set name .closed)

end AccessLedger

end Reclass
