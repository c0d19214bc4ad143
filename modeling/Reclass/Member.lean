import Std.Data.ExtTreeMap

set_option autoImplicit false

/-!
# Members

Within a class a field or a method is found by its name and descriptor together. Members are
ordered by name, then descriptor, each by code points, so that a collection of them has one order.

## Main definitions

* `Reclass.Member` — a name with a descriptor.
* `Reclass.MemberNames` — new names for members.
-/

namespace Reclass

/-- What identifies a field or a method within a class. -/
structure Member where
  name : String
  descriptor : String
deriving DecidableEq, Repr

namespace Member

/-- Members are ordered by name, then by descriptor. -/
instance : Ord Member where
  compare a b := (compare a.name b.name).then (compare a.descriptor b.descriptor)

theorem compare_def (a b : Member) :
    compare a b = (compare a.name b.name).then (compare a.descriptor b.descriptor) := rfl

/-- The order of members is the lexicographic product of two orders on text. -/
theorem compare_eq_compareLex :
    (compare : Member → Member → Ordering) =
      compareLex (compareOn Member.name) (compareOn Member.descriptor) := rfl

instance : Std.TransOrd Member :=
  inferInstanceAs
    (Std.TransCmp (compareLex (compareOn Member.name) (compareOn Member.descriptor)))

instance : Std.LawfulEqOrd Member where
  eq_of_compare {a b} h := by
    rw [compare_def, Ordering.then_eq_eq] at h
    obtain ⟨hn, hd⟩ := h
    cases a
    cases b
    simp_all

end Member

/-- New names for members. -/
abbrev MemberNames := Std.ExtTreeMap Member String

end Reclass
