import Mathlib.Data.List.Induction
import Mathlib.Data.List.Nodup
import Mathlib.Data.List.Perm.Basic
import Mathlib.Tactic.SplitIfs
import Reclass.MapUpdate

set_option relaxedAutoImplicit false
set_option autoImplicit false

/-!
# Maps filled entry by entry

Of several entries with the same key the last one counts. Beyond this a map keeps no trace of how it
was filled: entries with distinct keys may be inserted in any order, the entries of a map inserted
again make the same map, and however they are enumerated they become the same list when they are
sorted by their keys.

## Main definitions

* `Reclass.ofEntries` — the map that entries make.

## Main results

* `Reclass.getElem?_foldl_insert` — what is found under a key.
* `Reclass.foldl_insert_perm` — entries may be inserted in any order.
* `Reclass.ofEntries_toList` — the entries of a map make the map.
* `Reclass.mergeSort_eq_toList` — enumerated in any order and sorted, they are one list.
-/

namespace Reclass

variable {κ α δ : Type} {cmp : κ → κ → Ordering} [Std.TransCmp cmp] [Std.LawfulEqCmp cmp]

/-! ## What is found -/

section Found

variable [DecidableEq κ] (key : δ → κ) (value : δ → α)

/-- Of several insertions at a key the last one counts. -/
lemma getElem?_foldl_insert (ds : List δ) (m : Std.ExtTreeMap κ α cmp) (k : κ) :
    (ds.foldl (fun m d => m.insert (key d) (value d)) m)[k]? =
      ((ds.filter fun d => key d = k).getLast?.map value).or m[k]? := by
  induction ds using List.reverseRecOn with
  | nil => rfl
  | append_singleton ds d ih =>
    rw [List.foldl_append, List.foldl_cons, List.foldl_nil, getElem?_insert_ite, ih,
      List.filter_append]
    by_cases h : k = key d
    · simp [h]
    · have hne : ¬key d = k := fun heq => h heq.symm
      simp [h, hne]

/-- A key at which nothing is inserted keeps its value. -/
lemma getElem?_foldl_insert_of_forall_ne {ds : List δ} {k : κ} (hne : ∀ d ∈ ds, key d ≠ k)
    (m : Std.ExtTreeMap κ α cmp) :
    (ds.foldl (fun m d => m.insert (key d) (value d)) m)[k]? = m[k]? := by
  have hnone : ds.filter (fun d => key d = k) = [] :=
    List.filter_eq_nil_iff.2 fun d hd => by simpa using hne d hd
  rw [getElem?_foldl_insert, hnone]
  rfl

/-- An entry is found if the keys are distinct. -/
lemma getElem?_foldl_insert_of_mem {ds : List δ} (hdistinct : (ds.map key).Nodup) {d : δ}
    (hd : d ∈ ds) (m : Std.ExtTreeMap κ α cmp) :
    (ds.foldl (fun m d => m.insert (key d) (value d)) m)[key d]? = some (value d) := by
  have hmem : d ∈ ds.filter fun e => key e = key d := List.mem_filter.2 ⟨hd, by simp⟩
  rw [getElem?_foldl_insert]
  cases hlast : (ds.filter fun e => key e = key d).getLast? with
  | none =>
    rw [List.getLast?_eq_none_iff.1 hlast] at hmem
    exact absurd hmem List.not_mem_nil
  | some e =>
    obtain ⟨he, hkey⟩ := List.mem_filter.1 (List.mem_of_getLast? hlast)
    rw [List.inj_on_of_nodup_map hdistinct he hd (by simpa using hkey)]
    rfl

/-- Insertions whose values are determined by their keys, in any order and number, set the keys
that occur. -/
lemma getElem?_foldl_insert_if (ds : List δ) (p : δ → Prop) [DecidablePred p] (g : κ → α)
    (m : Std.ExtTreeMap κ α cmp) (k : κ) :
    (ds.foldl (fun m d => if p d then m.insert (key d) (g (key d)) else m) m)[k]? =
      if ∃ d ∈ ds, p d ∧ key d = k then some (g k) else m[k]? := by
  have hfilter : ds.foldl (fun m d => if p d then m.insert (key d) (g (key d)) else m) m =
      (ds.filter p).foldl (fun m d => m.insert (key d) (g (key d))) m := by
    simp [List.foldl_filter]
  rw [hfilter, getElem?_foldl_insert]
  cases hlast : ((ds.filter p).filter fun d => key d = k).getLast? with
  | none =>
    have hempty := List.filter_eq_nil_iff.1 (List.getLast?_eq_none_iff.1 hlast)
    have hnone : ¬∃ d ∈ ds, p d ∧ key d = k := fun ⟨d, hd, hp, hkey⟩ =>
      hempty d (List.mem_filter.2 ⟨hd, by simpa using hp⟩) (by simpa using hkey)
    rw [if_neg hnone]
    rfl
  | some d =>
    obtain ⟨hd, hkey⟩ := List.mem_filter.1 (List.mem_of_getLast? hlast)
    obtain ⟨hd, hp⟩ := List.mem_filter.1 hd
    have hkey' : key d = k := by simpa using hkey
    rw [if_pos ⟨d, hd, by simpa using hp, hkey'⟩, Option.map_some, hkey']
    rfl

end Found

/-! ## Order -/

/-- It does not matter which of two entries is inserted first. -/
lemma insert_comm [DecidableEq κ] (m : Std.ExtTreeMap κ α cmp) {k l : κ} (hne : k ≠ l) (v w : α) :
    (m.insert k v).insert l w = (m.insert l w).insert k v := by
  refine Std.ExtTreeMap.ext_getElem? fun x => ?_
  simp only [getElem?_insert_ite]
  split_ifs with hl hk
  · exact absurd (hk.symm.trans hl) hne
  · rfl
  · rfl
  · rfl

/-- It does not matter in which order entries with distinct keys are inserted. -/
lemma foldl_insert_perm [DecidableEq κ] (key : δ → κ) (value : δ → α) {ds es : List δ}
    (hperm : ds.Perm es) (hdistinct : (es.map key).Nodup) (m : Std.ExtTreeMap κ α cmp) :
    ds.foldl (fun m d => m.insert (key d) (value d)) m =
      es.foldl (fun m d => m.insert (key d) (value d)) m := by
  have hdistinct' : (ds.map key).Nodup := (hperm.map key).nodup_iff.2 hdistinct
  refine hperm.foldl_eq' (fun d hd e he m => ?_) m
  by_cases hde : d = e
  · rw [hde]
  · exact insert_comm m (fun heq => hde (List.inj_on_of_nodup_map hdistinct' hd he heq)) _ _

/-- The map that entries make, inserted one after the other. -/
def ofEntries (l : List (κ × α)) : Std.ExtTreeMap κ α cmp :=
  l.foldl (fun m p => m.insert p.1 p.2) ∅

/-- The entries of a map make the map. -/
lemma ofEntries_toList (m : Std.ExtTreeMap κ α cmp) : ofEntries m.toList = m := by
  have hupdate : ofEntries m.toList = updateWith (fun _ v _ => v) ∅ m := by
    rw [updateWith, Std.ExtTreeMap.foldl_eq_foldl_toList]
    rfl
  refine Std.ExtTreeMap.ext_getElem? fun k => ?_
  rw [hupdate, getElem?_updateWith]
  cases m[k]? with
  | some v => rfl
  | none => exact Std.ExtTreeMap.getElem?_empty

/-- However the entries of a map are enumerated, sorted by their keys they are one list. -/
lemma mergeSort_eq_toList (m : Std.ExtTreeMap κ α cmp) {l : List (κ × α)}
    (hperm : l.Perm m.toList) : l.mergeSort (fun p q => (cmp p.1 q.1).isLE) = m.toList := by
  have hsorted : (l.mergeSort fun p q => (cmp p.1 q.1).isLE).Pairwise fun p q =>
      (cmp p.1 q.1).isLE = true := by
    refine List.pairwise_mergeSort (fun p q r => Std.TransCmp.isLE_trans) (fun p q => ?_) l
    have hswap : cmp q.1 p.1 = (cmp p.1 q.1).swap := Std.OrientedCmp.eq_swap
    rw [hswap]
    cases cmp p.1 q.1 <;> rfl
  have hlisted : m.toList.Pairwise fun p q => (cmp p.1 q.1).isLE = true :=
    Std.ExtTreeMap.ordered_keys_toList.imp fun {p q} hlt => by rw [hlt]; rfl
  have hsame := (List.mergeSort_perm l fun p q => (cmp p.1 q.1).isLE).trans hperm
  refine List.Perm.eq_of_pairwise (fun p q hp hq hle hge => ?_) hsorted hlisted hsame
  -- The keys of a map are distinct, so that entries with one key are one entry.
  have hkey : p.1 = q.1 :=
    Std.LawfulEqCmp.eq_of_compare (Std.OrientedCmp.isLE_antisymm hle hge)
  have hp' := Std.ExtTreeMap.mem_toList_iff_getElem?_eq_some.1 (hsame.mem_iff.1 hp)
  have hq' := Std.ExtTreeMap.mem_toList_iff_getElem?_eq_some.1 hq
  rw [hkey, hq'] at hp'
  exact Prod.ext hkey (Option.some.inj hp').symm

end Reclass
