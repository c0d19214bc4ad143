import Reclass.Access.Ledger
import Reclass.Event
import Reclass.Hierarchy.Basic
import Reclass.Renaming.ClassTree

set_option autoImplicit false

/-!
# Event filters

A filter takes the events of a class one by one and passes on others, keeping a state of its own in
between. Filters that apply access requests or collect the hierarchy also use what is shared
between classes.

## Main definitions

* `Reclass.Transducer` — a filter that only looks at the events.
* `Reclass.Workspace` — what is shared between classes.
* `Reclass.EventFilter` — a filter in general.
* `EventFilter.access`, `EventFilter.hierarchy`, `EventFilter.rename` — the filters of a run.
-/

namespace Reclass

/-! ## Transducers -/

/-- Turns every event into some others, with a state in between. -/
structure Transducer where
  State : Type
  start : State
  step : State → Event → State × List Event

namespace Transducer

/-- What is passed on for a sequence of events, from a state. -/
def runFrom (t : Transducer) : t.State → List Event → List Event
  | _, [] => []
  | s, e :: es => (t.step s e).2 ++ t.runFrom (t.step s e).1 es

/-- What is passed on for a sequence of events. -/
def run (t : Transducer) (es : List Event) : List Event := t.runFrom t.start es

/-- Passes on the events with all names replaced. The state is the old name of the class. -/
def rename (r : Renaming) : Transducer where
  State := String
  start := ""
  step owner
    | .start h => (h.name, [.start (r.header h)])
    | .field f => (owner, [.field (r.field owner f)])
    | .method m => (owner, [.method (r.method owner m)])
    | .finish => (owner, [.finish])

end Transducer

/-! ## Filters -/

/-- What the classes of a run share. -/
structure Workspace where
  access : AccessLedger := {}
  hierarchy : Hierarchy := ∅
deriving DecidableEq

/-- What a filter does with an event: its state and the shared data afterwards, and the events that
it passes on or the fault that ends everything. -/
structure Reaction (σ : Type) where
  state : σ
  workspace : Workspace
  output : Except MissingName (List Event)

/-- A filter of events that may use the workspace. -/
structure EventFilter where
  State : Type
  start : State
  step : State → Workspace → Event → Reaction State

/-- The event with the access that a record requests for it. -/
def AccessRecord.apply (r : AccessRecord) : Event → Event
  | .start h => .start { h with access := (r.whole.map AccessSpec.toFlags).getD h.access }
  | .field f =>
    .field
      { f with
        access :=
          (r.fields[(⟨f.name, f.descriptor⟩ : Member)]?.map AccessSpec.toFlags).getD f.access }
  | .method m =>
    .method
      { m with
        access :=
          (r.methods[(⟨m.name, m.descriptor⟩ : Member)]?.map AccessSpec.toFlags).getD m.access }
  | .finish => .finish

namespace EventFilter

/-- A transducer as a filter that leaves the workspace alone. -/
def ofTransducer (t : Transducer) : EventFilter where
  State := t.State
  start := t.start
  step s w e := ⟨(t.step s e).1, w, .ok (t.step s e).2⟩

/-- Replaces all names. -/
def rename (r : Renaming) : EventFilter := ofTransducer (.rename r)

/-- Applies the access requests that wait for a class. They are taken when the class starts and
kept until it ends. -/
def access : EventFilter where
  State := AccessRecord
  start := {}
  step r w
    | .start h =>
      match w.access.take h.name with
      | .ok (taken, ledger) =>
        ⟨taken.getD {}, { w with access := ledger }, .ok [(taken.getD {}).apply (.start h)]⟩
      | .error fault => ⟨r, w, .error fault⟩
    | .finish => ⟨{}, w, .ok [.finish]⟩
    | e => ⟨r, w, .ok [r.apply e]⟩

/-- A class whose node is being collected. -/
structure Collecting where
  name : String := ""
  node : Option HierarchyNode := none

/-- Adds a class to the hierarchy when the class ends. All events are passed on as they are.
Members outside of a class are not collected. -/
def hierarchy (r : Renaming) : EventFilter where
  State := Collecting
  start := {}
  step s w e :=
    match e with
    | .start h => ⟨⟨h.name, some (.ofHeader r h)⟩, w, .ok [e]⟩
    | .field f => ⟨{ s with node := s.node.map (·.addField r s.name f) }, w, .ok [e]⟩
    | .method m => ⟨{ s with node := s.node.map (·.addMethod r s.name m) }, w, .ok [e]⟩
    | .finish =>
      match s.node with
      | none => ⟨s, w, .ok [e]⟩
      | some node =>
        match w.hierarchy.add s.name node with
        | .ok h => ⟨{ s with node := none }, { w with hierarchy := h }, .ok [e]⟩
        | .error fault => ⟨{ s with node := none }, w, .error fault⟩

end EventFilter

end Reclass
