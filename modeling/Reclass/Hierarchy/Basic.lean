import Reclass.Hierarchy.Node
import Reclass.MissingName

set_option autoImplicit false

/-!
# The hierarchy

The hierarchy holds a node for every class that has been added. Flattening it gives every class the
members of all classes that it can reach through supertypes, so that a reference through a subclass
finds the new name of an inherited member.

## Main definitions

* `Reclass.Hierarchy` — the classes that were added.
* `Hierarchy.addClass`, `Hierarchy.addClasses` — how classes are added.
* `Hierarchy.reach` — the classes above a class, nearer ones first.
* `Hierarchy.flatten` — members handed down.
* `Hierarchy.toTable` — the hierarchy as a rename table.
-/

namespace Reclass

/-- The classes that were added, by name. -/
abbrev Hierarchy := Std.ExtTreeMap String HierarchyNode

namespace Hierarchy

/-! ## Adding classes -/

/-- Adds a class, which must have a name. An earlier node is replaced. -/
def add (h : Hierarchy) (name : String) (node : HierarchyNode) : Except MissingName Hierarchy := do
  MissingName.className.require name
  return h.insert name node

/-- Adds a class with all its members. -/
def addClass (r : Renaming) (h : Hierarchy) (c : ClassTree) : Except MissingName Hierarchy :=
  h.add c.name (.ofClass r c)

/-- Adds classes one after the other, up to one that has no name. -/
def addClasses (r : Renaming) : Hierarchy → List ClassTree → Hierarchy × Option MissingName
  | h, [] => (h, none)
  | h, c :: cs =>
    match h.addClass r c with
    | .ok h => addClasses r h cs
    | .error fault => (h, some fault)

/-! ## The classes above a class -/

/-- The classes of the hierarchy that have not been met. -/
def unmet (h : Hierarchy) (met : List String) : List String := h.keys.filter (· ∉ met)

/-- Meeting a class of the hierarchy leaves fewer to meet. -/
theorem length_unmet_cons_lt {h : Hierarchy} {met : List String} {name : String}
    (hmem : name ∈ h) (hmet : name ∉ met) :
    (h.unmet (name :: met)).length < (h.unmet met).length := by
  have hsub : h.unmet (name :: met) = (h.unmet met).filter (· ≠ name) := by
    simp [unmet, List.filter_filter]
  have hin : name ∈ h.unmet met := by
    simp [unmet, Std.ExtTreeMap.mem_keys, hmem, hmet]
  rw [hsub]
  exact List.length_filter_lt_length_iff_exists.2 ⟨name, hin, by simp⟩

/-- Meeting a class from outside leaves as many. -/
theorem unmet_cons_of_not_mem {h : Hierarchy} {met : List String} {name : String}
    (hmem : name ∉ h) : h.unmet (name :: met) = h.unmet met := by
  refine List.filter_congr fun x hx => ?_
  have : x ≠ name := fun hx' => hmem (Std.ExtTreeMap.mem_keys.1 (hx' ▸ hx))
  simp [this]

/-- The nodes that can be reached from the classes that wait, breadth-first: whoever is met joins
once, and its supertypes wait behind the others. -/
def walk (h : Hierarchy) (met waiting : List String) : List HierarchyNode :=
  match waiting with
  | [] => []
  | name :: waiting =>
    if name ∈ met then h.walk met waiting
    else
      match _ : h[name]? with
      | none => h.walk (name :: met) waiting
      | some node => node :: h.walk (name :: met) (waiting ++ node.supertypes)
termination_by ((h.unmet met).length, waiting.length)
decreasing_by
  · exact Prod.Lex.right _ (by simp)
  · next hnode =>
    rw [unmet_cons_of_not_mem (by simpa using hnode)]
    exact Prod.Lex.right _ (by simp)
  · next hmet hnode =>
    refine Prod.Lex.left _ _ (length_unmet_cons_lt ?_ hmet)
    rw [Std.ExtTreeMap.mem_iff_isSome_getElem?, hnode]
    rfl

/-- The nodes above a class, nearer ones first. -/
def reach (h : Hierarchy) (name : String) (node : HierarchyNode) : List HierarchyNode :=
  h.walk [name] node.supertypes

/-! ## Flattening -/

/-- Hands the members of every class down to all classes below it. A class takes from nearer
classes first, so that a rename farther up counts. All classes take from the nodes as they were. -/
def flatten (h : Hierarchy) : Hierarchy :=
  h.map fun name node => (h.reach name node).foldl HierarchyNode.inheritFrom node

/-- The hierarchy as a rename table. -/
def toTable (h : Hierarchy) : RenameTable := h.map fun _ node => node.classNames

end Hierarchy

end Reclass
