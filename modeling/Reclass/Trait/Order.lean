import Reclass.Trait.Basic

set_option autoImplicit false

/-!
# The order of traits

Traits come by falling priority, and those of equal priority in the order in which they were added.
They are sorted when they are put together, or may be added later and are sorted when they are read.

## Main definitions

* `Reclass.Trait.sort` — traits in their order.
* `Reclass.SortedTraits` — traits that are sorted when they are put together.
* `Reclass.TraitBuffer` — traits to which others can be added.

## Main results

* `Reclass.Trait.sort_perm`, `Reclass.Trait.pairwise_sort` — what sorting does.
-/

namespace Reclass

namespace Trait

variable {α : Type}

/-- True if the first trait may stay in front of the second one. -/
def runsBefore (a b : Trait α) : Bool := (a.target.order b.target).isLE

/-- The traits by falling priority, those of equal priority in the order given. -/
def sort (traits : List (Trait α)) : List (Trait α) := traits.mergeSort runsBefore

theorem runsBefore_iff {a b : Trait α} :
    runsBefore a b = true ↔ b.target.priority ≤ a.target.priority := by
  simp [runsBefore, Target.order, Std.isLE_compare]

theorem runsBefore_trans (a b c : Trait α) (hab : runsBefore a b = true)
    (hbc : runsBefore b c = true) : runsBefore a c = true :=
  runsBefore_iff.2 (Int32.le_trans (runsBefore_iff.1 hbc) (runsBefore_iff.1 hab))

theorem runsBefore_total (a b : Trait α) : (runsBefore a b || runsBefore b a) = true := by
  simp only [Bool.or_eq_true, runsBefore_iff]
  exact Int32.le_total _ _

/-- Sorting loses no trait and adds none. -/
theorem sort_perm (traits : List (Trait α)) : (sort traits).Perm traits :=
  List.mergeSort_perm traits runsBefore

/-- Sorted traits have falling priorities. -/
theorem pairwise_sort (traits : List (Trait α)) :
    (sort traits).Pairwise fun a b => b.target.priority ≤ a.target.priority :=
  (List.pairwise_mergeSort runsBefore_trans runsBefore_total traits).imp fun h => runsBefore_iff.1 h

/-- The traits, unless there are none. -/
def orNone (traits : List (Trait α)) : Option (List (Trait α)) :=
  if traits.isEmpty then none else some traits

end Trait

/-! ## Sorted when put together -/

/-- Traits that were sorted when they were put together. -/
structure SortedTraits (α : Type) where
  traits : List (Trait α)

namespace SortedTraits

variable {α : Type}

/-- Puts traits together. -/
def ofList (traits : List (Trait α)) : SortedTraits α := ⟨Trait.sort traits⟩

/-- The traits in their order, or none if there are none. -/
def read (s : SortedTraits α) : Option (List (Trait α)) := Trait.orNone s.traits

end SortedTraits

/-! ## Sorted when read -/

/-- Traits to which others can be added. They are sorted by the first read after a change. -/
structure TraitBuffer (α : Type) where
  traits : List (Trait α) := []
  isSorted : Bool := true

namespace TraitBuffer

variable {α : Type}

/-- Adds several traits. -/
def addAll (b : TraitBuffer α) (ts : List (Trait α)) : TraitBuffer α := ⟨b.traits ++ ts, false⟩

/-- Adds a trait. -/
def add (b : TraitBuffer α) (t : Trait α) : TraitBuffer α := b.addAll [t]

/-- Takes all traits away. -/
def clear (_ : TraitBuffer α) : TraitBuffer α := {}

/-- How many traits there are. -/
def size (b : TraitBuffer α) : Nat := b.traits.length

/-- A buffer that holds the given traits. -/
def ofList (ts : List (Trait α)) : TraitBuffer α := addAll {} ts

/-- The traits in their order, or none if there are none, and the buffer afterwards. -/
def read (b : TraitBuffer α) : Option (List (Trait α)) × TraitBuffer α :=
  let sorted := if b.isSorted then b.traits else Trait.sort b.traits
  (Trait.orNone sorted, ⟨sorted, true⟩)

end TraitBuffer

end Reclass
