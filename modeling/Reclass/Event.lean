import Reclass.ClassTree

set_option autoImplicit false

/-!
# Traversal events

A class is passed on as a sequence of events: its header, every member, and the end. A class tree
can be told as events and rebuilt from them.

## Main definitions

* `Reclass.Event` — one event.
* `ClassTree.events` — a class as events, fields before methods.
* `ClassTree.absorb` — a class with one more event. A header starts a new class.

## Main results

* `Reclass.ClassTree.foldl_absorb_events` — events rebuild the class, whatever was there before.
-/

namespace Reclass

/-- A step in the traversal of a class. -/
inductive Event where
  | start (header : Header)
  | field (field : FieldDecl)
  | method (method : MethodDecl)
  | finish
deriving DecidableEq, Repr

namespace ClassTree

/-- A class as a sequence of events. -/
def events (c : ClassTree) : List Event :=
  .start c.header :: (c.fields.map .field ++ (c.methods.map .method ++ [.finish]))

/-- The tree that no event has reached. -/
def blank : ClassTree where
  header := { version := 0, access := 0, name := "" }

/-- The tree after one more event. A header starts anew, and the end changes nothing. -/
def absorb (c : ClassTree) : Event → ClassTree
  | .start header => ⟨header, [], []⟩
  | .field f => { c with fields := c.fields ++ [f] }
  | .method m => { c with methods := c.methods ++ [m] }
  | .finish => c

theorem foldl_absorb_fields (c : ClassTree) (fs : List FieldDecl) :
    (fs.map Event.field).foldl absorb c = { c with fields := c.fields ++ fs } := by
  induction fs generalizing c with
  | nil => simp
  | cons f fs ih => simp [absorb, ih]

theorem foldl_absorb_methods (c : ClassTree) (ms : List MethodDecl) :
    (ms.map Event.method).foldl absorb c = { c with methods := c.methods ++ ms } := by
  induction ms generalizing c with
  | nil => simp
  | cons m ms ih => simp [absorb, ih]

/-- The events of a class rebuild it. -/
theorem foldl_absorb_events (c before : ClassTree) : c.events.foldl absorb before = c := by
  simp [events, absorb, foldl_absorb_fields, foldl_absorb_methods]

end ClassTree

end Reclass
