import Reclass.Proofs.Hierarchy.Override

set_option relaxedAutoImplicit false
set_option autoImplicit false

/-!
# What flattening computes

Breadth-first order can be said without a search. Write down a class, then its supertypes as it
lists them, then the supertypes of these, and so on along all chains, and keep every name where it
occurs first. In a graph with cycles this never ends, but after as many levels as there are classes
no name is new.

The walk over a hierarchy is the search behind this order. It takes one class at a time, skips whom
it has met and stops by itself. A class that occurs once more brings nothing: its supertypes have
been met or wait in front of those that it would add.

With the order at hand, flattening says for every class and every member which name counts.

## Main definitions

* `Reclass.Hierarchy.ancestors` — the classes that a number of steps upwards leads to.
* `Reclass.Hierarchy.breadthFirst` — a class and the classes above it, breadth-first.

## Main results

* `Reclass.Hierarchy.cons_reach_eq_breadthFirst` — the walk takes the classes in this order.
* `Reclass.Hierarchy.flatten_hands_members_down` — what a flattened hierarchy holds.
-/

namespace Reclass.Hierarchy

open Relation

/-! ## Breadth-first order -/

section Order

variable (h : Hierarchy)

/-- The supertypes that a class lists. A class without a node lists none. -/
def supertypesOf (name : String) : List String := (h[name]?.map HierarchyNode.supertypes).getD []

/-- The classes that a number of steps upwards leads to, along all chains, in the order in which
supertypes are listed. -/
def ancestors : List String → Nat → List String
  | names, 0 => names
  | names, n + 1 => ancestors (names.flatMap h.supertypesOf) n

/-- A class and the classes above it in breadth-first order, each where it occurs first. No chain
needs more steps than there are classes. -/
def breadthFirst (name : String) : List String :=
  ((List.range (h.size + 1)).flatMap (h.ancestors [name])).eraseDups

end Order

variable {h : Hierarchy}

/-! ## Names that are new -/

/-- The names of a list that have not been met, each where it occurs first. -/
def fresh (met names : List String) : List String := (names.filter (· ∉ met)).eraseDups

section Fresh

variable {met met' names : List String} {name : String}

lemma mem_fresh : name ∈ fresh met names ↔ name ∈ names ∧ name ∉ met := by
  simp [fresh, List.mem_eraseDups]

/-- Which names are new depends on who has been met and not on the order. -/
lemma fresh_congr (hsame : ∀ name, name ∈ met ↔ name ∈ met') (names : List String) :
    fresh met names = fresh met' names := by
  have hfilter : (fun name => decide (name ∉ met)) = fun name => decide (name ∉ met') := by
    funext name
    simp [hsame name]
  rw [fresh, fresh, hfilter]

lemma fresh_cons_of_mem (hmet : name ∈ met) (names : List String) :
    fresh met (name :: names) = fresh met names := by
  rw [fresh, List.filter_cons_of_neg (by simpa using hmet), ← fresh]

/-- A name that is new is met from then on. -/
lemma fresh_cons_of_notMem (hmet : name ∉ met) (names : List String) :
    fresh met (name :: names) = name :: fresh (name :: met) names := by
  rw [fresh, List.filter_cons_of_pos (by simpa using hmet), List.eraseDups_cons,
    List.filter_filter, fresh]
  congr 3
  funext other
  by_cases h : other = name <;> simp [h]

/-- A name that has been met may be met again. -/
lemma mem_cons_append_of_mem (hmet : name ∈ met) (names : List String) (other : String) :
    other ∈ names ++ met ↔ other ∈ name :: names ++ met := by
  by_cases heq : other = name
  · simp [heq, hmet]
  · simp [heq]

/-- A name may be met earlier or later. -/
lemma mem_append_cons (met names : List String) (name other : String) :
    other ∈ names ++ name :: met ↔ other ∈ name :: names ++ met := by
  simp only [List.mem_append, List.mem_cons]
  tauto

/-- The names of a first list are met when a second one is read. -/
lemma fresh_append (met names names' : List String) :
    fresh met (names ++ names') = fresh met names ++ fresh (names ++ met) names' := by
  induction names generalizing met with
  | nil => simp [fresh]
  | cons name names ih =>
    rw [List.cons_append]
    by_cases hmet : name ∈ met
    · rw [fresh_cons_of_mem hmet, fresh_cons_of_mem hmet, ih,
        fresh_congr (mem_cons_append_of_mem hmet names)]
    · rw [fresh_cons_of_notMem hmet, fresh_cons_of_notMem hmet, ih,
        fresh_congr (mem_append_cons met names name)]
      rfl

/-- A list without new names brings nothing. -/
lemma fresh_eq_nil (hmet : names ⊆ met) : fresh met names = [] :=
  List.eq_nil_iff_forall_not_mem.2 fun _ hname =>
    (mem_fresh.1 hname).2 (hmet (mem_fresh.1 hname).1)

/-- A name that is not new leads to nothing new, if what it leads to has been met. -/
lemma fresh_flatMap {next : String → List String} (hmet : ∀ name ∈ met, next name ⊆ met')
    (names : List String) :
    fresh met' (names.flatMap next) = fresh met' ((fresh met names).flatMap next) := by
  induction names generalizing met met' with
  | nil => rfl
  | cons name names ih =>
    rw [List.flatMap_cons, fresh_append]
    by_cases hname : name ∈ met
    · have hsame : ∀ other, other ∈ next name ++ met' ↔ other ∈ met' := by
        intro other
        simpa using fun hother => hmet name hname hother
      rw [fresh_eq_nil (hmet name hname), List.nil_append, fresh_congr hsame,
        fresh_cons_of_mem hname, ih hmet]
    · have hmet' : ∀ other ∈ name :: met, next other ⊆ next name ++ met' := by
        intro other hother
        rcases List.mem_cons.1 hother with rfl | hother
        · exact List.subset_append_left _ _
        · exact List.subset_append_of_subset_right _ (hmet other hother)
      rw [fresh_cons_of_notMem hname, List.flatMap_cons, fresh_append, ih hmet']

end Fresh

/-! ## Levels -/

section Levels

variable {met names names' : List String} {name above : String} {node : HierarchyNode}

lemma mem_supertypesOf : above ∈ h.supertypesOf name ↔ h.DirectlyAbove name above := by
  cases hnode : h[name]? <;> simp [supertypesOf, DirectlyAbove, hnode]

lemma supertypesOf_of_some (hnode : h[name]? = some node) :
    h.supertypesOf name = node.supertypes := by
  simp [supertypesOf, hnode]

lemma supertypesOf_of_none (hnone : h[name]? = none) : h.supertypesOf name = [] := by
  simp [supertypesOf, hnone]

/-- The first levels upwards, one behind the other. -/
def upTo (h : Hierarchy) (names : List String) (n : Nat) : List String :=
  (List.range (n + 1)).flatMap (h.ancestors names)

lemma upTo_zero (names : List String) : h.upTo names 0 = names := by
  simp [upTo, ancestors]

lemma upTo_succ (names : List String) (n : Nat) :
    h.upTo names (n + 1) = names ++ h.upTo (names.flatMap h.supertypesOf) n := by
  rw [upTo, List.range_succ_eq_map, List.flatMap_cons, List.flatMap_map]
  rfl

/-- When a level has been met, the next one covers it. -/
lemma Covered.level (hcov : h.Covered met names) :
    h.Covered (names ++ met) (names.flatMap h.supertypesOf) := by
  intro below hbelow above habove
  rcases List.mem_append.1 hbelow with hbelow | hbelow
  · exact .inr (List.mem_flatMap.2 ⟨below, hbelow, mem_supertypesOf.2 habove⟩)
  · rcases hcov below hbelow above habove with hm | hw
    · exact .inl (List.mem_append_right _ hm)
    · exact .inl (List.mem_append_left _ hw)

/-- The next level has the same new names if it is reached from the new names alone. -/
lemma Covered.fresh_level (hcov : h.Covered met names) :
    fresh (names ++ met) (names.flatMap h.supertypesOf) =
      fresh (names ++ met) ((fresh met names).flatMap h.supertypesOf) := by
  refine fresh_flatMap (fun below hbelow above habove => ?_) names
  rcases hcov below hbelow above (mem_supertypesOf.1 habove) with hm | hw
  · exact List.mem_append_right _ hm
  · exact List.mem_append_left _ hw

/-- Only the new names of a level have to cover what has been met. -/
lemma Covered.of_fresh (hcov : h.Covered met names) (hfresh : fresh met names = fresh met names') :
    h.Covered met names' := by
  intro below hbelow above habove
  by_cases hmet : above ∈ met
  · exact .inl hmet
  · have hnew : above ∈ fresh met names :=
      mem_fresh.2 ⟨(hcov below hbelow above habove).resolve_left hmet, hmet⟩
    rw [hfresh] at hnew
    exact .inr (mem_fresh.1 hnew).1

/-- **What is new on all levels depends on what is new on the first one.**

**Proof sketch.** Induction on the number of levels. Names that are new on both first levels lead to
the same names, and the others lead to none that is new, as they have been met. -/
lemma Covered.fresh_upTo (hcov : h.Covered met names) (hfresh : fresh met names = fresh met names')
    (n : Nat) : fresh met (h.upTo names n) = fresh met (h.upTo names' n) := by
  induction n generalizing met names names' with
  | zero => rw [upTo_zero, upTo_zero, hfresh]
  | succ n ih =>
    have hsame : ∀ name, name ∈ names ++ met ↔ name ∈ names' ++ met := by
      intro name
      have hmem : name ∈ fresh met names ↔ name ∈ fresh met names' := by rw [hfresh]
      rw [mem_fresh, mem_fresh] at hmem
      rw [List.mem_append, List.mem_append]
      tauto
    have hlevel : fresh (names ++ met) (names.flatMap h.supertypesOf) =
        fresh (names ++ met) (names'.flatMap h.supertypesOf) := by
      rw [hcov.fresh_level, hfresh, fresh_congr hsame, fresh_congr hsame,
        (hcov.of_fresh hfresh).fresh_level]
    rw [upTo_succ, upTo_succ, fresh_append, fresh_append, hfresh, ih hcov.level hlevel,
      fresh_congr hsame]

end Levels

/-! ## The walk, level by level -/

section Walk

variable {met met' waiting : List String} {name : String} {node : HierarchyNode}

/-- The walk asks who has been met and not in which order. -/
lemma walk_congr (hsame : ∀ name, name ∈ met ↔ name ∈ met') :
    h.walk met waiting = h.walk met' waiting := by
  induction met, waiting using walk.induct h generalizing met' with
  | case1 met => rw [walk, walk]
  | case2 met first waiting hmet ih =>
    rw [walk_cons_of_mem hmet, walk_cons_of_mem ((hsame first).1 hmet), ih hsame]
  | case3 met first waiting hmet hnone ih =>
    have hmet' : first ∉ met' := fun hm => hmet ((hsame first).2 hm)
    rw [walk_cons_of_none hmet hnone, walk_cons_of_none hmet' hnone]
    exact ih fun name => by simp [hsame name]
  | case4 met first waiting hmet found hfound ih =>
    have hmet' : first ∉ met' := fun hm => hmet ((hsame first).2 hm)
    have hsame' : ∀ name, name ∈ first :: met ↔ name ∈ first :: met' :=
      fun name => by simp [hsame name]
    rw [walk_cons_of_some hmet hfound, walk_cons_of_some hmet' hfound, ih hsame']

/-- Whoever waits in front is met before all others, and the supertypes that this brings wait
behind them. -/
lemma walk_append (met names waiting : List String) :
    h.walk met (names ++ waiting) =
      (fresh met names).filterMap (fun name => h[name]?) ++
        h.walk (names ++ met) (waiting ++ (fresh met names).flatMap h.supertypesOf) := by
  induction names generalizing met waiting with
  | nil => simp [fresh]
  | cons name names ih =>
    rw [List.cons_append]
    by_cases hmet : name ∈ met
    · rw [walk_cons_of_mem hmet, ih, fresh_cons_of_mem hmet,
        walk_congr (mem_cons_append_of_mem hmet names)]
    · have hsame := mem_append_cons met names name
      rw [fresh_cons_of_notMem hmet, List.flatMap_cons, List.filterMap_cons]
      cases hnode : h[name]? with
      | none =>
        rw [walk_cons_of_none hmet hnode, ih, supertypesOf_of_none hnode, List.nil_append,
          walk_congr hsame]
      | some node =>
        rw [walk_cons_of_some hmet hnode, List.append_assoc, ih, supertypesOf_of_some hnode,
          List.append_assoc, walk_congr hsame]
        rfl

/-- Nobody is left to meet if no new name belongs to the hierarchy. -/
lemma notMem_of_unmet_eq_nil (hunmet : h.unmet met = []) (hmet : name ∉ met) : name ∉ h := by
  intro hmem
  have hin : name ∈ h.unmet met :=
    List.mem_filter.2 ⟨Std.ExtTreeMap.mem_keys.2 hmem, by simpa using hmet⟩
  rw [hunmet] at hin
  exact List.not_mem_nil hin

/-- The more have been met, the fewer are left to meet. -/
lemma length_unmet_le (hsub : met ⊆ met') : (h.unmet met').length ≤ (h.unmet met).length := by
  refine (List.monotone_filter_right h.keys fun name hname => ?_).length_le
  simp only [decide_eq_true_eq] at hname ⊢
  exact fun hm => hname (hsub hm)

/-- **The walk meets what is new on the levels upwards**, as many of them as there are classes left
to meet.

**Proof sketch.** Induction on the number of levels. The walk meets a level as a whole
(`walk_append`), after which the supertypes of its new classes wait; the level as a list leads to
the same new names (`Covered.fresh_level`). If none of its new classes is left to meet, nothing
waits. -/
theorem walk_eq_upTo (hcov : h.Covered met waiting) {n : Nat} (hn : (h.unmet met).length ≤ n) :
    h.walk met waiting = (fresh met (h.upTo waiting n)).filterMap fun name => h[name]? := by
  induction n generalizing met waiting with
  | zero =>
    have hunmet : h.unmet met = [] := List.length_eq_zero_iff.1 (Nat.le_zero.1 hn)
    have hnone : ∀ name ∈ fresh met waiting, h[name]? = none := by
      intro name hname
      have hnot := notMem_of_unmet_eq_nil hunmet (mem_fresh.1 hname).2
      simpa using hnot
    have hnext : (fresh met waiting).flatMap h.supertypesOf = [] :=
      List.flatMap_eq_nil_iff.2 fun name hname => supertypesOf_of_none (hnone name hname)
    have hwalk := walk_append (h := h) met waiting []
    rw [List.append_nil, hnext, List.append_nil, walk, List.append_nil] at hwalk
    rw [hwalk, upTo_zero]
  | succ n ih =>
    have hwalk := walk_append (h := h) met waiting []
    rw [List.append_nil, List.nil_append] at hwalk
    rw [hwalk, upTo_succ, fresh_append, List.filterMap_append,
      hcov.level.fresh_upTo hcov.fresh_level]
    congr 1
    by_cases hnext : (fresh met waiting).flatMap h.supertypesOf = []
    · have hlevels : ∀ n, h.upTo [] n = [] := by
        intro n
        induction n with
        | zero => rw [upTo_zero]
        | succ n ih => rw [upTo_succ, List.flatMap_nil, ih, List.append_nil]
      rw [hnext, hlevels, walk]
      rfl
    · refine ih (hcov.level.of_fresh hcov.fresh_level) (Nat.le_of_lt_succ ?_)
      obtain ⟨above, habove⟩ := List.exists_mem_of_ne_nil _ hnext
      obtain ⟨name, hname, habove⟩ := List.mem_flatMap.1 habove
      obtain ⟨node, hnode, -⟩ := mem_supertypesOf.1 habove
      obtain ⟨hwaiting, hmet⟩ := mem_fresh.1 hname
      have hmem : name ∈ h := mem_iff_exists_node.2 ⟨node, hnode⟩
      have hsub : name :: met ⊆ waiting ++ met :=
        List.cons_subset.2 ⟨List.mem_append_left _ hwaiting, List.subset_append_right _ _⟩
      calc (h.unmet (waiting ++ met)).length
          ≤ (h.unmet (name :: met)).length := length_unmet_le hsub
        _ < (h.unmet met).length := length_unmet_cons_lt hmem hmet
        _ ≤ n + 1 := hn

end Walk

/-- **A class and the classes above it stand in breadth-first order.** -/
theorem cons_reach_eq_breadthFirst {name : String} {node : HierarchyNode}
    (hnode : h[name]? = some node) :
    node :: h.reach name node = (h.breadthFirst name).filterMap fun name => h[name]? := by
  have hmem : name ∈ h := mem_iff_exists_node.2 ⟨node, hnode⟩
  have hall : (h.unmet []).length = h.size := by simp [unmet]
  have hless := length_unmet_cons_lt hmem List.not_mem_nil
  obtain ⟨n, hn⟩ : ∃ n, h.size = n + 1 := ⟨h.size - 1, by omega⟩
  have hwalk := walk_eq_upTo (n := n) (covered_start hnode) (by omega)
  have horder : h.breadthFirst name = name :: fresh [name] (h.upTo node.supertypes n) := by
    have hfresh : h.breadthFirst name = fresh [] (h.upTo [name] h.size) := by
      simp [breadthFirst, fresh, upTo]
    rw [hfresh, hn, upTo_succ, List.singleton_append, fresh_cons_of_notMem List.not_mem_nil,
      List.flatMap_singleton, supertypesOf_of_some hnode]
  rw [reach, hwalk, horder, List.filterMap_cons, hnode]

/-! ## Flattened hierarchies -/

section Flattened

variable {name : String} {node : HierarchyNode} (kind : MemberKind) (m : Member)

/-- The names that a class finds for a member are those of the classes in breadth-first order. -/
lemma found_eq_breadthFirst (hnode : h[name]? = some node) :
    h.found name node kind m = (h.breadthFirst name).filterMap (h.nameIn kind m) := by
  rw [found, cons_reach_eq_breadthFirst hnode, HierarchyNode.namesFor, List.filterMap_filterMap]
  rfl

/-- The names that a class finds for a member are those of the classes that it can reach. -/
lemma mem_found_iff_nameIn (hnode : h[name]? = some node) {v : String} :
    v ∈ h.found name node kind m ↔
      ∃ above, ReflTransGen h.DirectlyAbove name above ∧ h.nameIn kind m above = some v := by
  obtain ⟨names, hroute⟩ := exists_route_reach hnode
  replace hroute := hroute.cons_start hnode
  rw [found, hroute.namesFor_eq, List.mem_filterMap]
  constructor
  · rintro ⟨above, habove, hv⟩
    exact ⟨above, hroute.reached above habove, hv⟩
  · rintro ⟨above, hchain, hv⟩
    exact ⟨above, hroute.complete above List.not_mem_nil (mem_of_nameIn hv) hchain, hv⟩

/-- A class finds a name for a member exactly when it or a class above it holds the member. -/
lemma found_ne_nil_iff (hnode : h[name]? = some node) :
    h.found name node kind m ≠ [] ↔
      ∃ above, ReflTransGen h.DirectlyAbove name above ∧ (h.nameIn kind m above).isSome := by
  simp only [ne_eq, List.eq_nil_iff_forall_not_mem, not_forall, not_not,
    mem_found_iff_nameIn kind m hnode, Option.isSome_iff_exists]
  rw [exists_comm]
  simp only [exists_and_left]

/-- A class does not change its supertypes when it inherits. -/
lemma supertypes_foldl_inheritFrom (n : HierarchyNode) (nodes : List HierarchyNode) :
    (nodes.foldl HierarchyNode.inheritFrom n).supertypes = n.supertypes :=
  foldl_frame HierarchyNode.supertypes HierarchyNode.inheritFrom (fun _ _ => rfl) nodes n

end Flattened

/-- **What a flattened hierarchy holds.** The classes stay, each with its new name, its supertypes
and its private members. A class holds a member that is not private exactly when it held it before
or a chain of supertypes leads from it to a class that held it. The new name of the member is the
last one in breadth-first order that differs from the member's own name, and this one if there is
none. All names are those from before. Any graph is allowed: cycles, classes above themselves,
supertypes listed twice and supertypes that are missing.

**Proof sketch.** A class inherits from the classes above it in the order of the walk, after which
the last rename counts (`nameIn_flatten`). This order is breadth-first
(`found_eq_breadthFirst`), and it passes every class that a chain leads to (`found_ne_nil_iff`). -/
theorem flatten_hands_members_down (h : Hierarchy) :
    (∀ name, name ∈ h.flatten ↔ name ∈ h) ∧
      ∀ name node, h[name]? = some node →
        ∃ flat, h.flatten[name]? = some flat ∧
          flat.newName = node.newName ∧ flat.supertypes = node.supertypes ∧
          ∀ kind, flat.members kind true = node.members kind true ∧
            ∀ (m : Member) (new : String), (flat.members kind false)[m]? = some new ↔
              (∃ above, ReflTransGen h.DirectlyAbove name above ∧
                (h.nameIn kind m above).isSome) ∧
              new = (((h.breadthFirst name).filterMap (h.nameIn kind m)).filter
                (· ≠ m.name)).getLast?.getD m.name := by
  refine ⟨fun name => Std.ExtTreeMap.mem_map, fun name node hnode => ?_⟩
  refine ⟨(h.reach name node).foldl HierarchyNode.inheritFrom node, ?_, ?_, ?_, fun kind => ?_⟩
  · rw [getElem?_flatten, hnode, Option.map_some]
  · exact HierarchyNode.newName_foldl_inheritFrom node _
  · exact supertypes_foldl_inheritFrom node _
  · refine ⟨HierarchyNode.members_foldl_inheritFrom_private kind node _, fun m new => ?_⟩
    have hsettled := HierarchyNode.getElem?_members_foldl_inheritFrom kind node
      (h.reach name node) m
    have hholds := found_ne_nil_iff kind m hnode
    rw [found] at hholds
    rw [hsettled, Member.settled?, ← hholds, ← found_eq_breadthFirst kind m hnode, found]
    split
    · next hnil => simp [hnil]
    · next hfound => simp [hfound, eq_comm]

/-- Two classes that are above each other, with a third supertype that is missing; one of them lists
itself and the other one twice. -/
def ring : Hierarchy :=
  ((∅ : Hierarchy).insert "a/X"
    { newName := "a/X"
      supertypes := ["a/Y", "a/Missing", "a/Y"]
      methods := (∅ : MemberNames).insert ⟨"tick", "()V"⟩ "step" }).insert "a/Y"
    { newName := "a/Y"
      supertypes := ["a/Y", "a/X"]
      methods := (∅ : MemberNames).insert ⟨"tick", "()V"⟩ "update" }

/-- Each of two classes above each other takes the name that the other one gives. -/
theorem flatten_hands_members_down_in_ring :
    (∃ node, ring["a/X"]? = some node) ∧ (∃ node, ring["a/Y"]? = some node) ∧
      ring.breadthFirst "a/X" = ["a/X", "a/Y", "a/Missing"] ∧
      ring.flatten.nameIn .method ⟨"tick", "()V"⟩ "a/X" = some "update" ∧
      ring.flatten.nameIn .method ⟨"tick", "()V"⟩ "a/Y" = some "step" := by
  have hX : ring.breadthFirst "a/X" = ["a/X", "a/Y", "a/Missing"] := by decide
  have hY : ring.breadthFirst "a/Y" = ["a/Y", "a/X", "a/Missing"] := by decide
  obtain ⟨flatX, hflatX, -, -, hmembersX⟩ := (flatten_hands_members_down ring).2 "a/X" _ rfl
  obtain ⟨flatY, hflatY, -, -, hmembersY⟩ := (flatten_hands_members_down ring).2 "a/Y" _ rfl
  refine ⟨⟨_, rfl⟩, ⟨_, rfl⟩, hX, ?_, ?_⟩
  · rw [nameIn, hflatX, Option.bind_some, (hmembersX .method).2, hX]
    exact ⟨⟨"a/X", .refl, rfl⟩, by decide⟩
  · rw [nameIn, hflatY, Option.bind_some, (hmembersY .method).2, hY]
    exact ⟨⟨"a/Y", .refl, rfl⟩, by decide⟩

end Reclass.Hierarchy
