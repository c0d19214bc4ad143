import Reclass.Proofs.Hierarchy.Inheritance

set_option relaxedAutoImplicit false
set_option autoImplicit false

/-!
# Overrides keep the name of what they override

Where a member is declared by several classes that lie above each other, all of them should agree
on its new name after flattening, and the name is that of the topmost class. Every class settles
this on its own, by the last rename that it meets. Classes are met nearer ones first, hence the
topmost class prevails over all that are strictly nearer than it.

A class that stands in between need not be nearer. If a class lists the topmost class among its own
supertypes, next to one that overrides a member of it, then both are at the same distance, and the
override may be met last. It prevails then in this class, and only there.

## Main definitions

* `Reclass.Hierarchy.nameIn` — the new name that a class has for a member.
* `Reclass.Hierarchy.Rooted` — a class at the top renames a member for all that hold it.
* `Reclass.Hierarchy.Concerned` — a class with those above it that hold a member.

## Main results

* `Reclass.Hierarchy.nameIn_flatten_of_rooted` — the topmost rename prevails over nearer ones.
* `Reclass.Hierarchy.override_parts_from_root` — over one as far away it need not prevail.
-/

namespace Reclass

open Relation

/-- The name that counts is the last one that renames, whatever stands before it. -/
lemma Member.settled?_of_rename (m : Member) {before after : List String} {new : String}
    (hnew : new ≠ m.name) (hafter : ∀ v ∈ after, v ≠ m.name → v = new) :
    m.settled? (before ++ new :: after) = some new := by
  have hne : before ++ new :: after ≠ [] := by simp
  rw [Member.settled?, if_neg hne, List.filter_append,
    List.filter_cons_of_pos (by simpa using hnew), List.getLast?_append_cons]
  cases hlast : (new :: after.filter (· ≠ m.name)).getLast? with
  | none => simp at hlast
  | some last =>
    rcases List.mem_cons.1 (List.mem_of_getLast? hlast) with rfl | hmem
    · rfl
    · have hrename := List.mem_filter.1 hmem
      rw [hafter last hrename.1 (by simpa using hrename.2)]
      rfl

namespace Hierarchy

/-! ## The name of a member in a class -/

/-- The new name that a class has for a member that is not private. -/
def nameIn (h : Hierarchy) (kind : MemberKind) (m : Member) (name : String) : Option String :=
  h[name]?.bind fun node => (node.members kind false)[m]?

variable {h : Hierarchy} {kind : MemberKind} {m : Member} {below root name new : String}
  {node : HierarchyNode}

/-- A class that has a name for a member is in the hierarchy. -/
lemma mem_of_nameIn (hname : h.nameIn kind m name = some new) : name ∈ h := by
  obtain ⟨node, hnode, -⟩ := Option.bind_eq_some_iff.1 hname
  exact mem_iff_exists_node.2 ⟨node, hnode⟩

/-- The names that are met on a route are those that its classes have for a member. -/
lemma Route.namesFor_eq {met names : List String} {nodes : List HierarchyNode}
    (hroute : h.Route name met names nodes) :
    HierarchyNode.namesFor kind m nodes = names.filterMap (h.nameIn kind m) := by
  rw [hroute.nodes_eq, HierarchyNode.namesFor, List.filterMap_filterMap]
  rfl

/-- After flattening a class has the name that counts among those above it. -/
lemma nameIn_flatten (hnode : h[name]? = some node) :
    h.flatten.nameIn kind m name = m.settled? (h.found name node kind m) := by
  rw [nameIn, getElem?_flatten, hnode, Option.map_some, Option.bind_some,
    HierarchyNode.getElem?_members_foldl_inheritFrom]
  rfl

/-! ## The topmost rename -/

/-- Of a class and those above it, everyone that holds a member has `root` above it, unless it is
`root` itself, and `root` gives the member a new name. -/
structure Rooted (h : Hierarchy) (kind : MemberKind) (m : Member) (below root new : String) :
    Prop where
  above_class : ReflTransGen h.DirectlyAbove below root
  above_holder : ∀ name, ReflTransGen h.DirectlyAbove below name →
    (h.nameIn kind m name).isSome → ReflTransGen h.DirectlyAbove name root
  name_eq : h.nameIn kind m root = some new
  renamed : new ≠ m.name

/-- The class is `below`, or it is above it and holds the member. -/
def Concerned (h : Hierarchy) (kind : MemberKind) (m : Member) (below name : String) : Prop :=
  name ∈ h ∧ (name = below ∨
    ReflTransGen h.DirectlyAbove below name ∧ (h.nameIn kind m name).isSome)

/-- The topmost class is above everyone concerned. -/
lemma Rooted.above_concerned (hroot : h.Rooted kind m below root new)
    (hname : h.Concerned kind m below name) : ReflTransGen h.DirectlyAbove name root := by
  rcases hname.2 with rfl | ⟨habove, hholds⟩
  · exact hroot.above_class
  · exact hroot.above_holder name habove hholds

/-- A class takes the new name from one that it reaches, if all other new names come from classes
that are nearer.

**Proof sketch.** The class meets the others nearer ones first (`exists_route_reach`), hence what is
met behind the one in question has no other new name. -/
lemma nameIn_flatten_of_nearer (hmem : name ∈ h) (habove : ReflTransGen h.DirectlyAbove name root)
    (hroot : h.nameIn kind m root = some new) (hnew : new ≠ m.name)
    (hnearer : ∀ other v, ReflTransGen h.DirectlyAbove name other →
      h.nameIn kind m other = some v → v ≠ m.name → v ≠ new → h.Nearer name other root) :
    h.flatten.nameIn kind m name = some new := by
  obtain ⟨node, hnode⟩ := mem_iff_exists_node.1 hmem
  obtain ⟨names, hroute⟩ := exists_route_reach hnode
  replace hroute := hroute.cons_start hnode
  have hin : root ∈ name :: names :=
    hroute.complete root List.not_mem_nil (mem_of_nameIn hroot) habove
  obtain ⟨before, after, hsplit⟩ := List.append_of_mem hin
  have hordered := hsplit ▸ hroute.ordered
  rw [nameIn_flatten hnode, found, hroute.namesFor_eq, hsplit,
    List.filterMap_append, List.filterMap_cons, hroot]
  refine m.settled?_of_rename hnew fun v hv hrename => ?_
  by_contra hother
  obtain ⟨other, hafter, hv⟩ := List.mem_filterMap.1 hv
  have hreached : ReflTransGen h.DirectlyAbove name other := by
    refine hroute.reached other ?_
    rw [hsplit]
    exact List.mem_append_right before (List.mem_cons_of_mem root hafter)
  obtain ⟨n, hother, hroot⟩ := hnearer other v hreached hv hrename hother
  have hbehind := List.pairwise_append.1 hordered |>.2.1
  exact hroot (List.rel_of_pairwise_cons hbehind hafter n hother)

/-- **The topmost rename prevails over nearer ones.** Let a class `root` rename a member, and let it
be above a class and above everyone above that class who holds the member. If each of them meets all
other new names of the member at smaller distances than `root`, then after flattening they all have
the new name that `root` gives. Cycles and supertypes that are missing are allowed. -/
theorem nameIn_flatten_of_rooted (hroot : h.Rooted kind m below root new)
    (hnearer : ∀ name, h.Concerned kind m below name → ∀ other v,
      ReflTransGen h.DirectlyAbove name other → h.nameIn kind m other = some v →
      v ≠ m.name → v ≠ new → h.Nearer name other root) :
    ∀ name, h.Concerned kind m below name → h.flatten.nameIn kind m name = some new :=
  fun name hname => nameIn_flatten_of_nearer hname.1 (hroot.above_concerned hname) hroot.name_eq
    hroot.renamed (hnearer name hname)


/-! ## A member between -/

/-- No class is above itself. -/
def Acyclic (h : Hierarchy) : Prop := ∀ name, ¬TransGen h.DirectlyAbove name name

/-- Classes have no cycle if all supertypes of a class come later in some order. -/
lemma acyclic_of_rank (rank : String → Nat)
    (hrank : ∀ below above, h.DirectlyAbove below above → rank below < rank above) :
    h.Acyclic := by
  intro name hcycle
  have hchain : ∀ above, TransGen h.DirectlyAbove name above → rank name < rank above := by
    intro above habove
    induction habove with
    | single hstep => exact hrank _ _ hstep
    | tail _ hstep ih => exact Nat.lt_trans ih (hrank _ _ hstep)
  exact Nat.lt_irrefl _ (hchain name hcycle)

/-- An interface that calls its method `tick` from now on `update`. -/
def updating : HierarchyNode where
  newName := "a/I"
  methods := (∅ : MemberNames).insert ⟨"tick", "()V"⟩ "update"

/-- A class that overrides the method of the interface and calls it `step`. -/
def stepping : HierarchyNode where
  newName := "a/B"
  supertypes := ["a/I"]
  methods := (∅ : MemberNames).insert ⟨"tick", "()V"⟩ "step"

/-- The interface, the class that overrides its method, and a third class with the given
supertypes. -/
def overriding (supertypes : List String) : Hierarchy :=
  (((∅ : Hierarchy).insert "a/I" updating).insert "a/B" stepping).insert "a/C"
    { newName := "a/C", supertypes := supertypes }

variable {supertypes : List String}

lemma directlyAbove_overriding {below above : String} :
    (overriding supertypes).DirectlyAbove below above ↔
      below = "a/B" ∧ above = "a/I" ∨ below = "a/C" ∧ above ∈ supertypes := by
  constructor
  · rintro ⟨node, hnode, habove⟩
    simp only [overriding, Std.ExtTreeMap.getElem?_insert, Std.compare_eq_iff_eq] at hnode
    split at hnode
    · next hC =>
      cases hnode
      exact .inr ⟨hC.symm, habove⟩
    · split at hnode
      · next hB =>
        cases hnode
        exact .inl ⟨hB.symm, List.mem_singleton.1 habove⟩
      · split at hnode
        · cases hnode
          exact absurd habove List.not_mem_nil
        · simp at hnode
  · rintro (⟨rfl, rfl⟩ | ⟨rfl, habove⟩)
    · exact ⟨_, rfl, List.mem_singleton_self _⟩
    · exact ⟨_, rfl, habove⟩

lemma nameIn_overriding {name : String} :
    (overriding supertypes).nameIn .method ⟨"tick", "()V"⟩ name =
      if name = "a/B" then some "step" else if name = "a/I" then some "update" else none := by
  by_cases hC : name = "a/C"
  · subst hC
    rfl
  · by_cases hB : name = "a/B"
    · subst hB
      rfl
    · by_cases hI : name = "a/I"
      · subst hI
        rfl
      · simp [nameIn, overriding, hB, hI, Ne.symm hC, Ne.symm hB, Ne.symm hI]

/-- The classes are these three. -/
lemma mem_overriding {name : String} :
    name ∈ overriding supertypes ↔ name = "a/C" ∨ name = "a/B" ∨ name = "a/I" := by
  simp [overriding, eq_comm (b := name)]

/-- Only the second class has another new name for the method than the interface. -/
lemma eq_of_nameIn_overriding {name v : String}
    (hv : (overriding supertypes).nameIn .method ⟨"tick", "()V"⟩ name = some v)
    (hother : v ≠ "update") : name = "a/B" := by
  rw [nameIn_overriding] at hv
  by_contra hB
  rw [if_neg hB] at hv
  split at hv
  · exact hother (Option.some.inj hv).symm
  · simp at hv

/-- Supertypes come later in the order from the third class to the interface. -/
lemma acyclic_overriding (hsup : ∀ above ∈ supertypes, above = "a/I" ∨ above = "a/B") :
    (overriding supertypes).Acyclic := by
  let rank (name : String) : Nat := if name = "a/C" then 0 else if name = "a/B" then 1 else 2
  refine acyclic_of_rank rank fun below above hstep => ?_
  rcases directlyAbove_overriding.1 hstep with ⟨rfl, rfl⟩ | ⟨rfl, habove⟩
  · decide
  · rcases hsup _ habove with rfl | rfl <;> decide

/-- The interface is above the other two, and they are above nobody that has the method. -/
lemma rooted_overriding (hB : "a/B" ∈ supertypes) :
    (overriding supertypes).Rooted .method ⟨"tick", "()V"⟩ "a/C" "a/I" "update" where
  above_class := .head (directlyAbove_overriding.2 (.inr ⟨rfl, hB⟩))
    (.single (directlyAbove_overriding.2 (.inl ⟨rfl, rfl⟩)))
  above_holder name _ hholds := by
    rw [nameIn_overriding] at hholds
    split at hholds
    · next h =>
      subst h
      exact .single (directlyAbove_overriding.2 (.inl ⟨rfl, rfl⟩))
    · split at hholds
      · next h => exact h ▸ .refl
      · simp at hholds
  name_eq := nameIn_overriding
  renamed := by decide

/-- The interface and the class that overrides its method find the new name that the interface gives
farther away than all others. -/
lemma nearer_overriding {name other v : String} (hname : name = "a/B" ∨ name = "a/I")
    (habove : ReflTransGen (overriding supertypes).DirectlyAbove name other)
    (hv : (overriding supertypes).nameIn .method ⟨"tick", "()V"⟩ other = some v)
    (hother : v ≠ "update") : (overriding supertypes).Nearer name other "a/I" := by
  obtain rfl := eq_of_nameIn_overriding hv hother
  rcases hname with rfl | rfl
  · exact ⟨0, .refl 0, fun hw => absurd hw.eq_of_zero (by decide)⟩
  · rcases habove.cases_head with h | ⟨mid, hstep, -⟩
    · simp at h
    · rcases directlyAbove_overriding.1 hstep with ⟨h, -⟩ | ⟨h, -⟩ <;> simp at h

/-- The third class extends the second one, and all take the name that the interface gives. -/
theorem nameIn_flatten_of_rooted_chain :
    let h := overriding ["a/B"]
    let tick : Member := ⟨"tick", "()V"⟩
    h.Rooted .method tick "a/C" "a/I" "update" ∧
      (∀ name, h.Concerned .method tick "a/C" name → ∀ other v,
        ReflTransGen h.DirectlyAbove name other → h.nameIn .method tick other = some v →
        v ≠ tick.name → v ≠ "update" → h.Nearer name other "a/I") ∧
      ∀ name, h.Concerned .method tick "a/C" name →
        h.flatten.nameIn .method tick name = some "update" := by
  intro h tick
  have hroot : h.Rooted .method tick "a/C" "a/I" "update" :=
    rooted_overriding (List.mem_singleton_self _)
  have hnearer : ∀ name, h.Concerned .method tick "a/C" name → ∀ other v,
      ReflTransGen h.DirectlyAbove name other → h.nameIn .method tick other = some v →
      v ≠ tick.name → v ≠ "update" → h.Nearer name other "a/I" := by
    intro name hname other v habove hv _ hother
    rcases mem_overriding.1 hname.1 with rfl | hname
    · obtain rfl := eq_of_nameIn_overriding hv hother
      have hstep : h.DirectlyAbove "a/C" "a/B" :=
        directlyAbove_overriding.2 (.inr ⟨rfl, List.mem_singleton_self _⟩)
      refine ⟨1, .tail (.refl 0) hstep, fun hw => ?_⟩
      rcases hw.cases_succ with hw | ⟨mid, hmid, hstep⟩
      · exact absurd hw.eq_of_zero (by decide)
      · obtain rfl := hmid.eq_of_zero
        rcases directlyAbove_overriding.1 hstep with ⟨h, -⟩ | ⟨-, h⟩ <;> simp at h
    · exact nearer_overriding hname habove hv hother
  exact ⟨hroot, hnearer, nameIn_flatten_of_rooted hroot hnearer⟩

/-- The third class lists the interface before the class that overrides its method. The name that
this class has for the method is met last then, so that the third class does not take the name that
the other two have. -/
theorem override_parts_from_root :
    let h := overriding ["a/I", "a/B"]
    let tick : Member := ⟨"tick", "()V"⟩
    h.Acyclic ∧ h.Rooted .method tick "a/C" "a/I" "update" ∧
      h.Concerned .method tick "a/C" "a/C" ∧
      h.flatten.nameIn .method tick "a/I" = some "update" ∧
      h.flatten.nameIn .method tick "a/B" = some "update" ∧
      h.flatten.nameIn .method tick "a/C" = some "step" := by
  intro h tick
  have hroot : h.Rooted .method tick "a/C" "a/I" "update" := rooted_overriding (by simp)
  have hreach : h.reach "a/C" { newName := "a/C", supertypes := ["a/I", "a/B"] } =
      [updating, stepping] := by
    have hI : h["a/I"]? = some updating := rfl
    have hB : h["a/B"]? = some stepping := rfl
    have hlast : h.walk ["a/B", "a/I", "a/C"] ["a/I"] = [] := by
      rw [walk_cons_of_mem (by decide), walk]
    have hnext : h.walk ["a/I", "a/C"] ["a/B"] = [stepping] := by
      rw [walk_cons_of_some (by decide) hB]
      exact congrArg (List.cons stepping) hlast
    rw [reach, walk_cons_of_some (by decide) hI]
    exact congrArg (List.cons updating) hnext
  refine ⟨acyclic_overriding (by simp), hroot, ⟨mem_overriding.2 (.inl rfl), .inl rfl⟩, ?_, ?_, ?_⟩
  · exact nameIn_flatten_of_nearer (mem_overriding.2 (by simp)) .refl hroot.name_eq hroot.renamed
      fun other v habove hv _ => nearer_overriding (.inr rfl) habove hv
  · exact nameIn_flatten_of_nearer (mem_overriding.2 (by simp))
      (.single (directlyAbove_overriding.2 (by simp))) hroot.name_eq hroot.renamed
      fun other v habove hv _ => nearer_overriding (.inl rfl) habove hv
  · have hC : h["a/C"]? = some { newName := "a/C", supertypes := ["a/I", "a/B"] } := rfl
    rw [nameIn_flatten hC, found, hreach]
    decide

end Hierarchy

end Reclass
