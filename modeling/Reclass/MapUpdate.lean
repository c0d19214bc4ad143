import Std.Data.ExtTreeMap

set_option autoImplicit false

/-!
# Updating a map by another one

Several parts of the library combine two maps key by key: access requests are merged, members are
inherited. All of them visit the keys of one map and insert into the other.

## Main definitions

* `Reclass.updateWith` — inserts a combined value at every key of a second map.

## Main results

* `Reclass.getElem?_insert_ite` — an insertion changes one key.
* `Reclass.getElem?_updateWith` — what the result holds at a key depends on that key alone.
-/

namespace Reclass

variable {κ α β : Type} {cmp : κ → κ → Ordering} [Std.TransCmp cmp]

/-- Inserts at every key of `updates` the value that `combine` makes of the key, the update and
what the base holds there. -/
def updateWith (combine : κ → β → Option α → α) (base : Std.ExtTreeMap κ α cmp)
    (updates : Std.ExtTreeMap κ β cmp) : Std.ExtTreeMap κ α cmp :=
  updates.foldl (fun m k v => m.insert k (combine k v m[k]?)) base

section

variable [Std.LawfulEqCmp cmp] (combine : κ → β → Option α → α)

/-- An insertion changes one key and no other. -/
theorem getElem?_insert_ite [DecidableEq κ] (m : Std.ExtTreeMap κ α cmp) (k a : κ) (v : α) :
    (m.insert k v)[a]? = if a = k then some v else m[a]? := by
  rw [Std.ExtTreeMap.getElem?_insert]
  by_cases h : a = k
  · rw [if_pos h, if_pos (Std.LawfulEqCmp.compare_eq_iff_eq.2 h.symm)]
  · rw [if_neg h, if_neg fun he => h (Std.LawfulEqCmp.eq_of_compare he).symm]

/-- A key that is not listed is left alone. -/
private theorem getElem?_foldl_of_not_mem (l : List (κ × β)) (m : Std.ExtTreeMap κ α cmp) (k : κ)
    (h : ∀ p ∈ l, p.1 ≠ k) :
    (l.foldl (fun m p => m.insert p.1 (combine p.1 p.2 m[p.1]?)) m)[k]? = m[k]? := by
  induction l generalizing m with
  | nil => rfl
  | cons p l ih =>
    rw [List.foldl_cons, ih _ fun q hq => h q (List.mem_cons_of_mem _ hq),
      Std.ExtTreeMap.getElem?_insert, if_neg]
    rw [Std.LawfulEqCmp.compare_eq_iff_eq]
    exact h p List.mem_cons_self

/-- A key that is listed once gets its combined value. -/
private theorem getElem?_foldl_of_mem (l : List (κ × β)) (m : Std.ExtTreeMap κ α cmp) (k : κ)
    (v : β) (hd : l.Pairwise fun a b => a.1 ≠ b.1) (h : (k, v) ∈ l) :
    (l.foldl (fun m p => m.insert p.1 (combine p.1 p.2 m[p.1]?)) m)[k]? =
      some (combine k v m[k]?) := by
  induction l generalizing m with
  | nil => simp at h
  | cons p l ih =>
    obtain ⟨hp, hl⟩ := List.pairwise_cons.1 hd
    rw [List.foldl_cons]
    rcases List.mem_cons.1 h with rfl | hmem
    · rw [getElem?_foldl_of_not_mem combine l _ _ fun q hq => (hp q hq).symm]
      simp
    · rw [ih _ hl hmem, Std.ExtTreeMap.getElem?_insert, if_neg]
      rw [Std.LawfulEqCmp.compare_eq_iff_eq]
      exact hp _ hmem

/-- An update changes the keys that it lists, each by its own value. -/
theorem getElem?_updateWith (base : Std.ExtTreeMap κ α cmp) (updates : Std.ExtTreeMap κ β cmp)
    (k : κ) :
    (updateWith combine base updates)[k]? =
      match updates[k]? with
      | some v => some (combine k v base[k]?)
      | none => base[k]? := by
  have hd : updates.toList.Pairwise fun a b => a.1 ≠ b.1 := by
    refine updates.distinct_keys_toList.imp fun {a b} h heq => h ?_
    rw [Std.LawfulEqCmp.compare_eq_iff_eq]
    exact heq
  rw [updateWith, Std.ExtTreeMap.foldl_eq_foldl_toList]
  cases hk : updates[k]? with
  | some v =>
    exact getElem?_foldl_of_mem combine _ _ k v hd
      (Std.ExtTreeMap.mem_toList_iff_getElem?_eq_some.2 hk)
  | none =>
    refine getElem?_foldl_of_not_mem combine _ _ k fun p hp heq => ?_
    have := Std.ExtTreeMap.mem_toList_iff_getElem?_eq_some.1 (show (p.1, p.2) ∈ _ from hp)
    rw [heq, hk] at this
    simp at this

end

end Reclass
