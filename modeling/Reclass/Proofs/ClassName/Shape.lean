import Mathlib.Tactic.Lemma
import Reclass.Renaming

set_option relaxedAutoImplicit false
set_option autoImplicit false

/-!
# The shapes of class names

The name of a class may be written as it is or in the form of a descriptor, and what is written
decides how it is renamed. Nearly every name is internal, which means that it stands for itself
wherever a class is named. Plain names, which have no punctuation apart from slashes, are internal,
and they may stand inside of descriptors and signatures as well.

## Main definitions

* `Reclass.ClassName.IsInternal` — a name that stands for itself.
* `Reclass.ClassName.punctuation` — the characters that mean something around a name.
* `Reclass.ClassName.Plain` — a name that may stand in any descriptor or signature.

## Main results

* `Reclass.ClassName.IsInternal.ofOwner?_eq`, `Reclass.ClassName.IsInternal.typeName_eq` — what an
  internal name stands for.
* `Reclass.ClassName.Plain.isInternal` — plain names are internal.
-/

namespace Reclass

/-- A class that keeps its binary name keeps its simple name. -/
lemma ClassName.innerName_self (binary declared : String) :
    innerName binary binary declared = declared := if_pos rfl

/-! ## Internal names -/

/-- A class name that is written as it is: neither empty, nor an array, nor between `L` and `;`. -/
structure ClassName.IsInternal (name : String) : Prop where
  ne_empty : name ≠ ""
  not_array : name.toList.head? ≠ some '['
  not_object : Descriptor.internalName? name = none

namespace ClassName.IsInternal

variable {name : String}

/-- An internal name has no brackets in front. -/
lemma brackets_eq_nil (h : IsInternal name) : Descriptor.brackets name.toList = [] := by
  have hhead := h.not_array
  unfold Descriptor.brackets
  cases hcs : name.toList with
  | nil => rfl
  | cons c cs =>
    have hc : c ≠ '[' := fun hc => hhead (by rw [hcs, hc]; rfl)
    rw [List.takeWhile_cons, if_neg (by simpa using hc)]

/-- As the owner of a member, an internal name stands for itself. -/
lemma ofOwner?_eq (h : IsInternal name) : ofOwner? name = some name := by
  have helement : Descriptor.element name.toList = name.toList := by
    have happend := Descriptor.brackets_append_element name.toList
    rwa [h.brackets_eq_nil, List.nil_append] at happend
  have hobject : Descriptor.objectName? name.toList = none := by
    have hnone := h.not_object
    rwa [Descriptor.internalName?, Option.map_eq_none_iff] at hnone
  have hne : name.toList ≠ [] := fun hnil => h.ne_empty (String.toList_eq_nil_iff.1 hnil)
  simp only [ofOwner?, helement, hobject]
  exact if_pos ⟨h.brackets_eq_nil, hne⟩

/-- As a type, an internal name is that of a class. -/
lemma typeName_eq (h : IsInternal name) (r : Renaming) : r.typeName name = r.className name := by
  rw [Renaming.typeName, if_neg h.not_array]
  simp only [h.not_object]

end ClassName.IsInternal

/-! ## Plain names -/

/-- The characters that mean something in a descriptor or a signature. -/
def ClassName.punctuation : List Char := ['.', ';', '[', '<', '>', '(', ')', ':']

/-- A class name without punctuation. -/
structure ClassName.Plain (name : String) : Prop where
  ne_empty : name ≠ ""
  notMem : ∀ c ∈ punctuation, c ∉ name.toList

/-- Whether a name is plain is found out character by character. -/
instance (name : String) : Decidable (ClassName.Plain name) :=
  decidable_of_iff (name ≠ "" ∧ ClassName.punctuation.all (· ∉ name.toList) = true)
    ⟨fun h => ⟨h.1, by simpa using h.2⟩, fun h => ⟨h.ne_empty, by simpa using h.notMem⟩⟩

/-- Plain names are internal. -/
lemma ClassName.Plain.isInternal {name : String} (h : Plain name) : IsInternal name := by
  refine ⟨h.ne_empty, fun hhead => ?_, ?_⟩
  · exact h.notMem '[' (by decide) (List.mem_of_head? hhead)
  · cases hobject : Descriptor.internalName? name with
    | none => rfl
    | some inside =>
      obtain ⟨cs, hcs, -⟩ := Option.map_eq_some_iff.1 hobject
      refine absurd ?_ (h.notMem ';' (by decide))
      rw [Descriptor.objectName?_eq_some_iff.1 hcs]
      simp

end Reclass
