import Reclass.Pipeline.EventFilter

set_option autoImplicit false

/-!
# Chains

A chain leads events through parts to a sink. A filter decides what the parts behind it get; a
listener hears every event that reaches it and lets it pass. An event goes all the way before the
next one starts, so that earlier parts have it first. A fault ends the event on the spot and leaves
what has happened so far.

## Main definitions

* `Reclass.Part` — a filter or a listener.
* `Reclass.Chain` — something that takes events and lets receivers hear them.
* `Reclass.Chain.ofParts` — parts in order.
* `Reclass.Chain.feedAll` — several events, one after the other.
-/

namespace Reclass

/-- A part of a chain. Listeners are told apart by tags. -/
inductive Part (τ : Type) where
  | filter (filter : EventFilter)
  | listener (tag : τ)

/-- Who hears an event. -/
inductive Receiver (τ : Type) where
  | listener (tag : τ)
  | sink
deriving DecidableEq, Repr

/-- What came of an event: the states afterwards, who heard what, and the fault that ended it, if
there was one. -/
structure Outcome (τ σ : Type) where
  state : σ
  workspace : Workspace
  heard : List (Receiver τ × Event) := []
  fault : Option MissingName := none

/-- Takes events, one at a time. -/
structure Chain (τ : Type) where
  State : Type
  start : State
  feed : State → Workspace → Event → Outcome τ State

namespace Chain

variable {τ : Type}

/-- Feeds several events, up to a fault. -/
def feedAll (c : Chain τ) : c.State → Workspace → List Event → Outcome τ c.State
  | s, w, [] => { state := s, workspace := w }
  | s, w, e :: es =>
    let first := c.feed s w e
    match first.fault with
    | some _ => first
    | none =>
      let others := c.feedAll first.state first.workspace es
      { others with heard := first.heard ++ others.heard }

/-! ## Building chains -/

/-- The chain that drops all events. -/
def nothing : Chain τ where
  State := Unit
  start := ()
  feed _ w _ := { state := (), workspace := w }

/-- The chain that is nothing but its sink. -/
def sink : Chain τ where
  State := Unit
  start := ()
  feed _ w e := { state := (), workspace := w, heard := [(.sink, e)] }

/-- A listener in front of a chain. -/
def listen (tag : τ) (next : Chain τ) : Chain τ where
  State := next.State
  start := next.start
  feed s w e :=
    let o := next.feed s w e
    { o with heard := (.listener tag, e) :: o.heard }

/-- A filter in front of a chain. -/
def attach (filter : EventFilter) (next : Chain τ) : Chain τ where
  State := filter.State × next.State
  start := (filter.start, next.start)
  feed s w e :=
    let r := filter.step s.1 w e
    match r.output with
    | .error fault => { state := (r.state, s.2), workspace := r.workspace, fault := some fault }
    | .ok es =>
      let o := next.feedAll s.2 r.workspace es
      { o with state := (r.state, o.state) }

/-- A part in front of a chain. -/
def precede : Part τ → Chain τ → Chain τ
  | .filter filter, next => attach filter next
  | .listener tag, next => listen tag next

/-- Parts in order, in front of a chain. -/
def ofParts (parts : List (Part τ)) (last : Chain τ) : Chain τ := parts.foldr precede last

/-! ## What was heard -/

/-- The events that the sink heard. -/
def sunk (heard : List (Receiver τ × Event)) : List Event :=
  heard.filterMap fun
    | (.sink, e) => some e
    | _ => none

@[simp] theorem sunk_append (a b : List (Receiver τ × Event)) :
    sunk (a ++ b) = sunk a ++ sunk b := List.filterMap_append

/-- What the listeners heard, with their tags. -/
def overheard (heard : List (Receiver τ × Event)) : List (τ × Event) :=
  heard.filterMap fun
    | (.listener tag, e) => some (tag, e)
    | _ => none

@[simp] theorem overheard_append (a b : List (Receiver τ × Event)) :
    overheard (a ++ b) = overheard a ++ overheard b := List.filterMap_append

end Chain

end Reclass
