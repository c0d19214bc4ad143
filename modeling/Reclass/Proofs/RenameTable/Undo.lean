import Reclass.Proofs.Map.Insertion
import Reclass.Proofs.Member.Kind

set_option relaxedAutoImplicit false
set_option autoImplicit false

/-!
# The way back in a rename table

The table that leads back is built entry by entry under new keys: classes under their new names,
members under their new names and old descriptors. Where two entries get the same key the later one
counts. So whatever the way back lists comes from an entry of the table, and an entry is found again
if no other one has the same key.

## Main definitions

* `Reclass.rekey` — a map under other keys.
* `Reclass.RenameTable.DistinctNewNames` — no two classes get the same new name.

## Main results

* `Reclass.getElem?_rekey` — what is found under a new key.
* `Reclass.rekey_rekey` — a map comes back if its entries do and none is lost.
* `Reclass.RenameTable.getElem?_undo` — a class with its own new name is found by it.
* `Reclass.RenameTable.oldName_oldNames` — the old names are the new names of the way back.
-/

namespace Reclass

/-! ## Maps under other keys -/

section Rekey

variable {κ ι α β γ : Type} {cmp : κ → κ → Ordering} [Std.TransCmp cmp]
  {cmp' : ι → ι → Ordering} [Std.TransCmp cmp'] [Std.LawfulEqCmp cmp']

/-- A map with other keys and values. Of several entries that get the same key the last one
counts. -/
def rekey (cmp' : ι → ι → Ordering) [Std.TransCmp cmp'] (key : κ → α → ι) (value : κ → α → β)
    (m : Std.ExtTreeMap κ α cmp) : Std.ExtTreeMap ι β cmp' :=
  m.foldl (fun acc k v => acc.insert (key k v) (value k v)) ∅

variable (key : κ → α → ι) (value : κ → α → β)

/-- What is found under a new key belongs to the last entry that gets this key. -/
theorem getElem?_rekey [DecidableEq ι] (m : Std.ExtTreeMap κ α cmp) (i : ι) :
    (rekey cmp' key value m)[i]? =
      (m.toList.filter fun p => key p.1 p.2 = i).getLast?.map fun p => value p.1 p.2 := by
  have hempty : (∅ : Std.ExtTreeMap ι β cmp')[i]? = none := by simp
  rw [rekey, Std.ExtTreeMap.foldl_eq_foldl_toList,
    getElem?_foldl_insert (fun p : κ × α => key p.1 p.2) (fun p => value p.1 p.2), hempty,
    Option.or_none]

/-- Other values under the same keys are found alike. -/
lemma getElem?_rekey_map [DecidableEq ι] (g : β → γ) (m : Std.ExtTreeMap κ α cmp) (i : ι) :
    (rekey cmp' key (fun k v => g (value k v)) m)[i]? = (rekey cmp' key value m)[i]?.map g := by
  rw [getElem?_rekey, getElem?_rekey, Option.map_map]
  rfl

variable [Std.LawfulEqCmp cmp] {key value} {m : Std.ExtTreeMap κ α cmp} {k : κ} {v : α}

/-- What is found under a new key comes from an entry. -/
lemma exists_of_getElem?_rekey [DecidableEq ι] {i : ι} {w : β}
    (h : (rekey cmp' key value m)[i]? = some w) :
    ∃ k v, m[k]? = some v ∧ key k v = i ∧ value k v = w := by
  rw [getElem?_rekey, Option.map_eq_some_iff] at h
  obtain ⟨⟨k, v⟩, hlast, hvalue⟩ := h
  obtain ⟨hmem, hkey⟩ := List.mem_filter.1 (List.mem_of_getLast? hlast)
  exact ⟨k, v, Std.ExtTreeMap.mem_toList_iff_getElem?_eq_some.1 hmem, by simpa using hkey, hvalue⟩

/-- An entry is found under its new key if the others with that key have the same value. -/
lemma getElem?_rekey_of_mem [DecidableEq ι] (h : m[k]? = some v)
    (hunique : ∀ k' v', m[k']? = some v' → key k' v' = key k v → value k' v' = value k v) :
    (rekey cmp' key value m)[key k v]? = some (value k v) := by
  have hmem : (k, v) ∈ m.toList.filter fun p => key p.1 p.2 = key k v :=
    List.mem_filter.2 ⟨Std.ExtTreeMap.mem_toList_iff_getElem?_eq_some.2 h, by simp⟩
  rw [getElem?_rekey]
  cases hlast : (m.toList.filter fun p => key p.1 p.2 = key k v).getLast? with
  | none =>
    rw [List.getLast?_eq_none_iff.1 hlast] at hmem
    exact absurd hmem List.not_mem_nil
  | some p =>
    obtain ⟨hp, hkey⟩ := List.mem_filter.1 (List.mem_of_getLast? hlast)
    have hentry := Std.ExtTreeMap.mem_toList_iff_getElem?_eq_some.1 hp
    rw [Option.map_some, hunique p.1 p.2 hentry (by simpa using hkey)]

/-- A map comes back if every entry does and no two entries get the same key. -/
theorem rekey_rekey [DecidableEq κ] [DecidableEq ι] {key' : ι → β → κ} {value' : ι → β → α}
    (hkey : ∀ k v, m[k]? = some v → key' (key k v) (value k v) = k)
    (hvalue : ∀ k v, m[k]? = some v → value' (key k v) (value k v) = v)
    (hdistinct : ∀ k v k' v', m[k]? = some v → m[k']? = some v' → key k' v' = key k v → k' = k) :
    rekey cmp key' value' (rekey cmp' key value m) = m := by
  refine Std.ExtTreeMap.ext_getElem? fun k => ?_
  cases hk : m[k]? with
  | some v =>
    have hthere : (rekey cmp' key value m)[key k v]? = some (value k v) :=
      getElem?_rekey_of_mem hk fun k' v' hk' heq => by
        obtain rfl := hdistinct k v k' v' hk hk' heq
        rw [Option.some.inj (hk'.symm.trans hk)]
    have hback : (rekey cmp key' value' (rekey cmp' key value m))[key' (key k v) (value k v)]? =
        some (value' (key k v) (value k v)) :=
      getElem?_rekey_of_mem hthere fun i w hi heq => by
        obtain ⟨k', v', hk', rfl, rfl⟩ := exists_of_getElem?_rekey hi
        rw [hkey k' v' hk', hkey k v hk] at heq
        rw [heq] at hk' ⊢
        rw [Option.some.inj (hk'.symm.trans hk)]
    rwa [hkey k v hk, hvalue k v hk] at hback
  | none =>
    cases hback : (rekey cmp key' value' (rekey cmp' key value m))[k]? with
    | none => rfl
    | some w =>
      obtain ⟨i, u, hi, rfl, -⟩ := exists_of_getElem?_rekey hback
      obtain ⟨k', v', hk', rfl, rfl⟩ := exists_of_getElem?_rekey hi
      rw [hkey k' v' hk', hk'] at hk
      exact absurd hk (Option.some_ne_none v')

end Rekey

/-! ## Members -/

namespace RenameTable

/-- Members are found under their new names and old descriptors. -/
lemma undoMembers_eq_rekey (old : String → String) (members : MemberNames) :
    undoMembers old members =
      rekey compare (fun m new => (⟨new, old m.descriptor⟩ : Member)) (fun m _ => m.name) members :=
  rfl

variable {old : String → String} {members : MemberNames}

/-- The way back finds a member by its new name and its old descriptor, if no other member has
both. -/
lemma getElem?_undoMembers {m : Member} {new : String} (h : members[m]? = some new)
    (hunique : ∀ m' : Member, members[m']? = some new → old m'.descriptor = old m.descriptor →
      m' = m) :
    (undoMembers old members)[(⟨new, old m.descriptor⟩ : Member)]? = some m.name := by
  rw [undoMembers_eq_rekey]
  refine getElem?_rekey_of_mem h fun m' new' h' heq => ?_
  obtain ⟨rfl, hdescriptor⟩ := Member.mk.inj heq
  rw [hunique m' h' hdescriptor]

/-- What the way back finds is a member of the table. -/
lemma exists_of_getElem?_undoMembers {q : Member} {name : String}
    (h : (undoMembers old members)[q]? = some name) :
    ∃ (m : Member) (new : String),
      members[m]? = some new ∧ q = ⟨new, old m.descriptor⟩ ∧ m.name = name := by
  rw [undoMembers_eq_rekey] at h
  obtain ⟨m, new, hm, hq, hname⟩ := exists_of_getElem?_rekey h
  exact ⟨m, new, hm, hq.symm, hname⟩

/-- The new name of a member leads back to the old one, if no member with another old name or
descriptor gets in the way: neither one of the table nor, if this one keeps its name, a renamed
one. -/
theorem undoMembers_comesBack {name descriptor : String} {m : Member} (hname : m.name = name)
    (hdescriptor : old m.descriptor = descriptor)
    (hunique : ∀ (m' : Member) (new : String), members[m]? = some new → members[m']? = some new →
      old m'.descriptor = old m.descriptor → m' = m)
    (hleft : (members[m]?).getD name = name → ∀ (m' : Member) (new : String),
      members[m']? = some new → new ≠ m'.name →
        (⟨new, old m'.descriptor⟩ : Member) ≠ ⟨name, descriptor⟩) :
    ((undoMembers old members)[(⟨(members[m]?).getD name, descriptor⟩ : Member)]?).getD
      ((members[m]?).getD name) = name := by
  cases hm : members[m]? with
  | some new =>
    have hfound := getElem?_undoMembers hm fun m' hm' => hunique m' new hm hm'
    rw [hdescriptor] at hfound
    rw [Option.getD_some, hfound, Option.getD_some, hname]
  | none =>
    rw [Option.getD_none]
    cases hback : (undoMembers old members)[(⟨name, descriptor⟩ : Member)]? with
    | none => rfl
    | some found =>
      obtain ⟨m', new, hm', hkey, hfound⟩ := exists_of_getElem?_undoMembers hback
      obtain ⟨hnew, -⟩ := Member.mk.inj hkey
      by_cases hsame : new = m'.name
      · rw [Option.getD_some, ← hfound, ← hsame, hnew]
      · exact absurd hkey.symm (hleft (by rw [hm, Option.getD_none]) m' new hm' hsame)

/-! ## Descriptors -/

/-- The descriptor of a member with old class names. -/
def oldDescriptor (t : RenameTable) : MemberKind → String → String
  | .field => oldFieldDescriptor t.oldNames
  | .method => oldMethodDescriptor t.oldNames

/-- The members of a class on the way back. -/
lemma members_undoNames (t : RenameTable) (name : String) (names : ClassNames) (kind : MemberKind) :
    (undoNames t.oldNames name names).members kind =
      undoMembers (t.oldDescriptor kind) (names.members kind) := by
  cases kind <;> rfl

/-! ## Classes -/

variable (t : RenameTable)

/-- No two classes get the same new name. -/
def DistinctNewNames (t : RenameTable) : Prop :=
  ∀ (a b : String) (x y : ClassNames), t[a]? = some x → t[b]? = some y → x.newName = y.newName →
    a = b

/-- Classes are found under their new names. -/
lemma undo_eq_rekey : t.undo =
    rekey compare (fun _ names => names.newName) (fun name names => undoNames t.oldNames name names)
      t :=
  rfl

/-- Old names are found under the new ones. -/
lemma oldNames_eq_rekey : t.oldNames =
    rekey compare (fun _ names => names.newName) (fun name _ => name) t :=
  rfl

variable {t}

/-- **A class with its own new name is found by it on the way back.** -/
theorem getElem?_undo (hdistinct : t.DistinctNewNames) {name : String} {names : ClassNames}
    (h : t[name]? = some names) :
    t.undo[names.newName]? = some (undoNames t.oldNames name names) := by
  rw [undo_eq_rekey]
  refine getElem?_rekey_of_mem h fun name' names' h' heq => ?_
  obtain rfl := hdistinct name' name names' names h' h heq
  rw [Option.some.inj (h'.symm.trans h)]

/-- A name that is no new name is not found on the way back. -/
lemma getElem?_undo_eq_none {name : String}
    (h : ∀ (other : String) (names : ClassNames), t[other]? = some names → names.newName ≠ name) :
    t.undo[name]? = none := by
  cases hundo : t.undo[name]? with
  | none => rfl
  | some back =>
    rw [undo_eq_rekey] at hundo
    obtain ⟨other, names, hnames, hnew, -⟩ := exists_of_getElem?_rekey hundo
    exact absurd hnew (h other names hnames)

/-- **The old names of a table are the new names of its way back.** -/
theorem oldName_oldNames : oldName t.oldNames = (Renaming.ofTable t.undo).className := by
  funext name
  have hmap : t.oldNames[name]? = t.undo[name]?.map ClassNames.newName := by
    rw [oldNames_eq_rekey, undo_eq_rekey, ← getElem?_rekey_map]
    rfl
  rw [oldName, hmap]
  simp only [Renaming.className, Renaming.ofTable]
  cases t.undo[name]? <;> rfl

/-- A listed class gets the new name that the table lists. -/
lemma className_ofTable {name : String} {names : ClassNames} (h : t[name]? = some names) :
    (Renaming.ofTable t).className name = names.newName := by
  simp only [Renaming.className, Renaming.ofTable, h]

/-- A class that is not listed keeps its name. -/
lemma className_ofTable_eq_self {name : String} (h : t[name]? = none) :
    (Renaming.ofTable t).className name = name := by
  simp only [Renaming.className, Renaming.ofTable, h]

/-- A listed class comes back if its new name is its own. -/
lemma className_undo (hdistinct : t.DistinctNewNames) {name : String} {names : ClassNames}
    (h : t[name]? = some names) :
    (Renaming.ofTable t.undo).className ((Renaming.ofTable t).className name) = name := by
  rw [className_ofTable h, className_ofTable (getElem?_undo hdistinct h), undoNames]

/-- A class that is not listed comes back if its name is no new name. -/
lemma className_undo_of_unlisted {name : String} (h : t[name]? = none)
    (hfresh : ∀ (other : String) (names : ClassNames), t[other]? = some names →
      names.newName ≠ name) :
    (Renaming.ofTable t.undo).className ((Renaming.ofTable t).className name) = name := by
  rw [className_ofTable_eq_self h, className_ofTable_eq_self (getElem?_undo_eq_none hfresh)]

end RenameTable

end Reclass
