import Reclass.Session

set_option autoImplicit false

/-!
# Classes side by side

If the settings ask for it then the classes of a batch are on their way at the same time. Every
class has a chain of its own; the workspace is shared. A class moves by one event at a time, and an
event looks at the workspace at most once. A schedule says whose turn it is, so that every order in
which the classes may get at the workspace is one schedule. Whoever waits for the batch gets the
results in the order of the batch, once every class has arrived.

## Main definitions

* `Reclass.Passage` — a class on its way through a chain.
* `Reclass.Traffic` — classes on their way, with the workspace that they share.
* `Session.transformBeside`, `Session.transformBatchBeside` — classes, or a batch, by a schedule.
-/

namespace Reclass

/-! ## One class on its way -/

/-- A class on its way through a chain: the state of the chain, the events that are still to come,
what has been heard, and the fault that ended it, if there was one. -/
structure Passage (chain : Chain Empty) where
  state : chain.State
  left : List Event
  heard : List (Receiver Empty × Event) := []
  fault : Option MissingName := none

namespace Passage

variable {chain : Chain Empty}

/-- A class that has not moved yet. -/
def ofClass (chain : Chain Empty) (c : ClassTree) : Passage chain where
  state := chain.start
  left := c.events

/-- The class moves by one event, and the workspace afterwards. After a fault nothing is left. -/
def advance (p : Passage chain) (w : Workspace) : Passage chain × Workspace :=
  match p.left with
  | [] => (p, w)
  | e :: left =>
    let o := chain.feed p.state w e
    ({ state := o.state
       left := if o.fault.isSome then [] else left
       heard := p.heard ++ o.heard
       fault := o.fault }, o.workspace)

/-- What came out, once nothing is left. -/
def tree? (p : Passage chain) : Option (Except MissingName ClassTree) :=
  if p.left.isEmpty then
    some <|
      match p.fault with
      | some fault => .error fault
      | none => .ok ((Chain.sunk p.heard).foldl ClassTree.absorb .blank)
  else none

end Passage

/-! ## Several classes on their way -/

/-- Classes on their way through chains of one kind, with the workspace that they share. -/
structure Traffic (chain : Chain Empty) where
  passages : List (Passage chain)
  workspace : Workspace

namespace Traffic

variable {chain : Chain Empty}

/-- Classes that have not moved yet. -/
def ofClasses (chain : Chain Empty) (w : Workspace) (classes : List ClassTree) : Traffic chain where
  passages := classes.map (.ofClass chain)
  workspace := w

/-- The class at a position moves. -/
def turn (t : Traffic chain) (i : Nat) : Traffic chain :=
  match t.passages[i]? with
  | none => t
  | some p => ⟨t.passages.set i (p.advance t.workspace).1, (p.advance t.workspace).2⟩

/-- The classes move as a schedule says. -/
def run (t : Traffic chain) (schedule : List Nat) : Traffic chain := schedule.foldl turn t

/-- What came out, once nothing is left of any class. -/
def trees? (t : Traffic chain) : Option (List (Except MissingName ClassTree)) :=
  t.passages.mapM Passage.tree?

end Traffic

/-! ## Sessions -/

namespace Session

/-- Transforms classes side by side. There is no reply while a class is on its way. -/
def transformBeside (s : Session) (schedule : List Nat) (classes : List ClassTree) :
    Option (Reply (List (Except Failure ClassTree))) :=
  match s.pipeline.bind fun p => if p.hasWork then p.finalParts.map some else .ok none with
  | .error e => some ⟨.ok (classes.map fun _ => .error e), s⟩
  | .ok none => some ⟨.ok (classes.map .ok), s⟩
  | .ok (some parts) =>
    let t := (Traffic.ofClasses (Chain.ofParts parts .sink) s.workspace classes).run schedule
    t.trees?.map fun trees =>
      ⟨(trees.mapM id).map fun cs => cs.map .ok, { s with workspace := t.workspace }⟩

/-- Transforms a batch side by side. What is recorded first is recorded before any class moves. -/
def transformBatchBeside (s : Session) (schedule : List Nat) (classes : List ClassTree) :
    Option (Reply (List (Except Failure ClassTree))) :=
  if s.settings.flattenHierarchy && s.inherited.isNone then
    let recorded := s.recordBatch classes
    match recorded.result with
    | .error fault => some ⟨.error fault, recorded.session⟩
    | .ok _ => recorded.session.transformBeside schedule classes
  else s.transformBeside schedule classes

end Session

end Reclass
