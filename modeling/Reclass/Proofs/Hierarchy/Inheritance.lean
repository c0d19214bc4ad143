import Mathlib.Data.List.Induction
import Reclass.Proofs.Hierarchy.Recording

set_option relaxedAutoImplicit false
set_option autoImplicit false

/-!
# What a class inherits

Flattening hands the members of a class down to all classes below it, nearer classes first. Among
the names that a class finds for one member, its own and those above it, the last one that is a
rename counts. Which names are found is a matter of reachability alone; for a single member one
seldom has to know in which order.

## Main definitions

* `Reclass.Member.settled?` — the name that counts among those found for a member.

## Main results

* `Reclass.Hierarchy.getElem?_members_flatten` — what a flattened node says about a member.
* `Reclass.Hierarchy.mem_found_iff` — the names that a class of a batch finds for a member.
-/

namespace Reclass

/-! ## The name that counts -/

namespace Member

variable (m : Member) {found found' : List String} {new : String}

/-- The name that counts among those found for a member, nearer ones first: the last one that
renames it, or else its own. Without any there is none. -/
def settled? (found : List String) : Option String :=
  if found = [] then none else some ((found.filter (· ≠ m.name)).getLast?.getD m.name)

/-- One name more is found behind the others. -/
lemma settled?_append_singleton (found : List String) (new : String) :
    m.settled? (found ++ [new]) =
      some (if new = m.name then (m.settled? found).getD new else new) := by
  have hne : found ++ [new] ≠ [] := by simp
  rw [settled?, if_neg hne, List.filter_append]
  by_cases hnew : new = m.name
  · subst hnew
    by_cases hfound : found = [] <;> simp [settled?, hfound]
  · simp [hnew]

/-- The name that counts is one of those found, or the member's own. -/
lemma mem_or_eq_of_settled? (h : m.settled? found = some new) : new ∈ found ∨ new = m.name := by
  unfold settled? at h
  split at h
  · exact absurd h (by simp)
  · obtain rfl := Option.some.inj h
    cases hlast : (found.filter (· ≠ m.name)).getLast? with
    | none => exact .inr rfl
    | some last => exact .inl (List.mem_filter.1 (List.mem_of_getLast? hlast)).1

/-- A member keeps its name exactly when none of the names found renames it. -/
lemma settled?_getD_eq_iff : (m.settled? found).getD m.name = m.name ↔ ∀ v ∈ found, v = m.name := by
  unfold settled?
  split
  · next h => simp [h]
  · rw [Option.getD_some]
    cases hlast : (found.filter (· ≠ m.name)).getLast? with
    | none =>
      rw [List.getLast?_eq_none_iff, List.filter_eq_nil_iff] at hlast
      simpa using hlast
    | some last =>
      have hmem := List.mem_filter.1 (List.mem_of_getLast? hlast)
      have hne : last ≠ m.name := by simpa using hmem.2
      exact ⟨fun h => absurd h hne, fun h => absurd (h last hmem.1) hne⟩

/-- If the names found agree as far as they rename, then only their set matters. -/
lemma settled?_getD_congr (hsame : ∀ v, v ∈ found ↔ v ∈ found')
    (hagree : ∀ v ∈ found, ∀ w ∈ found, v ≠ m.name → w ≠ m.name → v = w) :
    (m.settled? found).getD m.name = (m.settled? found').getD m.name := by
  have hmem : ∀ l : List String, (m.settled? l).getD m.name ≠ m.name →
      (m.settled? l).getD m.name ∈ l := by
    intro l hl
    cases hs : m.settled? l with
    | none => simp [hs] at hl
    | some new =>
      rw [hs, Option.getD_some] at hl
      rw [Option.getD_some]
      exact (m.mem_or_eq_of_settled? hs).resolve_right hl
  by_cases h : (m.settled? found).getD m.name = m.name
  · have hall := m.settled?_getD_eq_iff.1 h
    rw [h, eq_comm, settled?_getD_eq_iff]
    exact fun v hv => hall v ((hsame v).2 hv)
  · have h' : (m.settled? found').getD m.name ≠ m.name := fun heq =>
      h (m.settled?_getD_eq_iff.2 fun v hv => m.settled?_getD_eq_iff.1 heq v ((hsame v).1 hv))
    exact hagree _ (hmem found h) _ ((hsame _).2 (hmem found' h')) h h'

end Member

/-! ## Flattened nodes -/

namespace HierarchyNode

variable (kind : MemberKind)

/-- The names that nodes have for a member that is not private, nearer nodes first. -/
def namesFor (kind : MemberKind) (m : Member) (nodes : List HierarchyNode) : List String :=
  nodes.filterMap fun n => (n.members kind false)[m]?

/-- What is inherited from several nodes, nearer ones first.

**Proof sketch.** Induction on the nodes from the last one. Inheriting from it changes the name
that counts as `settled?_append_singleton` says. -/
lemma getElem?_members_foldl_inheritFrom (n : HierarchyNode) (nodes : List HierarchyNode)
    (m : Member) :
    ((nodes.foldl inheritFrom n).members kind false)[m]? =
      m.settled? (namesFor kind m (n :: nodes)) := by
  induction nodes using List.reverseRecOn with
  | nil =>
    cases hn : (n.members kind false)[m]? with
    | none => simp [namesFor, hn, Member.settled?]
    | some new =>
      have h := m.settled?_append_singleton [] new
      have hnone : m.settled? [] = none := rfl
      rw [hnone, Option.getD_none, ite_self] at h
      simpa [namesFor, hn] using h.symm
  | append_singleton nodes last ih =>
    rw [List.foldl_concat, members_inheritFrom, if_neg (by simp), MemberNames.getElem?_inherit, ih]
    have hnames : namesFor kind m (n :: (nodes ++ [last])) =
        namesFor kind m (n :: nodes) ++ ((last.members kind false)[m]?).toList := by
      rw [← List.cons_append, namesFor, List.filterMap_append, ← namesFor]
      cases hl : (last.members kind false)[m]? <;> simp [hl]
    rw [hnames]
    cases (last.members kind false)[m]? with
    | none => simp
    | some new => exact (m.settled?_append_singleton _ new).symm

/-- Private members are not inherited. -/
lemma members_foldl_inheritFrom_private (n : HierarchyNode) (nodes : List HierarchyNode) :
    (nodes.foldl inheritFrom n).members kind true = n.members kind true :=
  foldl_frame (fun n : HierarchyNode => n.members kind true) _
    (fun n parent => by rw [members_inheritFrom, if_pos rfl]) nodes n

/-- A class keeps its new name while it inherits. -/
lemma newName_foldl_inheritFrom (n : HierarchyNode) (nodes : List HierarchyNode) :
    (nodes.foldl inheritFrom n).newName = n.newName :=
  foldl_frame newName inheritFrom (fun _ _ => rfl) nodes n

end HierarchyNode

namespace Hierarchy

variable {h : Hierarchy} {name : String} {node : HierarchyNode}

/-- The names that a class finds for a member that is not private: its own, and those of the
classes above it. -/
def found (h : Hierarchy) (name : String) (node : HierarchyNode) (kind : MemberKind) (m : Member) :
    List String :=
  HierarchyNode.namesFor kind m (node :: h.reach name node)

/-- Flattening keeps the classes. -/
lemma getElem?_flatten (h : Hierarchy) (name : String) :
    h.flatten[name]? =
      h[name]?.map fun node => (h.reach name node).foldl HierarchyNode.inheritFrom node := by
  rw [flatten, Std.ExtTreeMap.getElem?_map]

/-- The hierarchy as a rename table, class by class. -/
lemma getElem?_toTable (h : Hierarchy) (name : String) :
    h.toTable[name]? = h[name]?.map HierarchyNode.classNames := by
  rw [toTable, Std.ExtTreeMap.getElem?_map]

/-- **What the table of a flattened hierarchy says about a class**: its new name as before, and for
every member the new name of a private one, or else the name that counts among those found. -/
theorem getElem?_toTable_flatten (hnode : h[name]? = some node) :
    ∃ names, h.flatten.toTable[name]? = some names ∧ names.newName = node.newName ∧
      ∀ (kind : MemberKind) (m : Member), (names.members kind)[m]? =
        ((node.members kind true)[m]?).or (m.settled? (h.found name node kind m)) := by
  refine ⟨((h.reach name node).foldl HierarchyNode.inheritFrom node).classNames, ?_, ?_, ?_⟩
  · rw [getElem?_toTable, getElem?_flatten, hnode]
    rfl
  · exact HierarchyNode.newName_foldl_inheritFrom node _
  · intro kind m
    rw [HierarchyNode.members_classNames, Std.ExtTreeMap.getElem?_union,
      HierarchyNode.members_foldl_inheritFrom_private,
      HierarchyNode.getElem?_members_foldl_inheritFrom]
    rfl

/-- A class that is unknown to a hierarchy is unknown to its table. -/
lemma getElem?_toTable_flatten_eq_none (hnone : h[name]? = none) :
    h.flatten.toTable[name]? = none := by
  rw [getElem?_toTable, getElem?_flatten, hnone]
  rfl

/-- **The names that a class of a batch finds for a member** are those that the renaming gives it
in the class itself or in a class above it, wherever it is declared and not private. -/
theorem mem_found_iff (r : Renaming) (kind : MemberKind) (m : Member) {classes : List ClassTree}
    (hdistinct : (classes.map ClassTree.name).Nodup) {c : ClassTree} (hc : c ∈ classes)
    {v : String} :
    v ∈ (ofBatch r classes).found c.name (.ofClass r c) kind m ↔
      ∃ b ∈ classes, (b = c ∨ Relation.TransGen (ClassTree.DirectlyAbove classes) c.name b.name) ∧
        b.Declares r kind false m ∧ v = r.nameAt kind b.name m := by
  have hnode := (getElem?_ofBatch_eq_some_iff r hdistinct).2 ⟨c, hc, rfl, rfl⟩
  have hown : ∀ b : ClassTree, ((HierarchyNode.ofClass r b).members kind false)[m]? = some v ↔
      b.Declares r kind false m ∧ v = r.nameAt kind b.name m := by
    intro b
    rw [HierarchyNode.getElem?_members_ofClass]
    split
    · next hdecl => simp [hdecl, eq_comm]
    · next hdecl => simp [hdecl]
  rw [found, HierarchyNode.namesFor, List.mem_filterMap]
  constructor
  · rintro ⟨n, hn, hv⟩
    rcases List.mem_cons.1 hn with rfl | hn
    · exact ⟨c, hc, .inl rfl, (hown c).1 hv⟩
    · obtain ⟨above, -, habove, hchain⟩ := (mem_reach_iff hnode).1 hn
      obtain ⟨b, hb, rfl, rfl⟩ := (getElem?_ofBatch_eq_some_iff r hdistinct).1 habove
      rw [directlyAbove_ofBatch r hdistinct] at hchain
      exact ⟨b, hb, .inr hchain, (hown b).1 hv⟩
  · rintro ⟨b, hb, hbc, hdecl⟩
    refine ⟨.ofClass r b, ?_, (hown b).2 hdecl⟩
    by_cases heq : b.name = c.name
    · rw [List.inj_on_of_nodup_map hdistinct hb hc heq]
      exact List.mem_cons_self
    · refine List.mem_cons_of_mem _ ((mem_reach_iff hnode).2 ⟨b.name, heq, ?_, ?_⟩)
      · exact (getElem?_ofBatch_eq_some_iff r hdistinct).2 ⟨b, hb, rfl, rfl⟩
      · rw [directlyAbove_ofBatch r hdistinct]
        exact hbc.resolve_left fun h => heq (h ▸ rfl)

end Hierarchy

end Reclass
