import Reclass.Failure
import Reclass.Pipeline.Chain

set_option autoImplicit false

/-!
# Pipelines

A pipeline collects parts and then runs them over one class. Renaming may be requested at any time
and always comes last, since the parts before it are to see the old names.

## Main definitions

* `Reclass.Pipeline` — the parts collected so far.
* `Pipeline.requestRenaming`, `Pipeline.hasWork` — how it is made ready.
* `Pipeline.run` — the class that comes out.
-/

namespace Reclass

/-- A pipeline in the making. -/
structure Pipeline (τ : Type) where
  parts : List (Part τ) := []
  renaming? : Option Renaming := none
  renamingRequested : Bool := false

/-- What a pipeline made of a class. A fault may come after parts of the workspace have changed and
listeners have heard some events. -/
structure Produced (τ : Type) where
  tree : Except MissingName ClassTree
  workspace : Workspace
  log : List (τ × Event)

namespace Pipeline

variable {τ : Type}

/-- Adds a part behind the others. -/
def add (p : Pipeline τ) (part : Part τ) : Pipeline τ := { p with parts := p.parts ++ [part] }

/-- Says where new names come from. -/
def useRenaming (p : Pipeline τ) (r : Renaming) : Pipeline τ := { p with renaming? := some r }

/-- Requests renaming, for which it must be known where new names come from. -/
def requestRenaming (p : Pipeline τ) : Except Failure (Pipeline τ) :=
  match p.renaming? with
  | none => .error .missingRenaming
  | some _ => .ok { p with renamingRequested := true }

/-- True if there is something to do. -/
def hasWork (p : Pipeline τ) : Bool := !p.parts.isEmpty || p.renamingRequested

/-- The parts that run, renaming behind all others. -/
def finalParts (p : Pipeline τ) : Except Failure (List (Part τ)) :=
  if !p.hasWork then .error .nothingToDo
  else if p.renamingRequested then
    match p.renaming? with
    | none => .error .missingRenaming
    | some r => .ok (p.parts ++ [.filter (.rename r)])
  else .ok p.parts

/-- Runs parts over a class and rebuilds the class from what reaches the sink. -/
def runParts (parts : List (Part τ)) (w : Workspace) (c : ClassTree) : Produced τ :=
  let chain := Chain.ofParts parts .sink
  let o := chain.feedAll chain.start w c.events
  { tree :=
      match o.fault with
      | some fault => .error fault
      | none => .ok ((Chain.sunk o.heard).foldl ClassTree.absorb .blank)
    workspace := o.workspace
    log := Chain.overheard o.heard }

/-- Runs the pipeline over a class. A failure comes before anything has happened. -/
def run (p : Pipeline τ) (w : Workspace) (c : ClassTree) : Except Failure (Produced τ) :=
  match p.finalParts with
  | .error e => .error e
  | .ok parts => .ok (runParts parts w c)

end Pipeline

end Reclass
