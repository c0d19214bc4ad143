import Mathlib.Logic.Relation
import Mathlib.Tactic.Lemma
import Reclass.Hierarchy.Basic

set_option relaxedAutoImplicit false
set_option autoImplicit false

/-!
# The classes above a class

The walk over a hierarchy meets classes breadth-first and remembers whom it has met. Here it is
shown to find exactly the nodes that a chain of supertypes leads to, in any graph: with cycles,
with classes listed twice and with supertypes that were never added.

It takes classes in the order of their distance, which is the length of the shortest chain that
leads to them. A class that can be reached in several ways stands where the shortest one puts it,
and between classes of the same distance nothing is said. The classes that wait belong to two
levels, the one at hand and the next one. What is nearer than the level at hand has been met.

## Main definitions

* `Reclass.Hierarchy.DirectlyAbove` — a class lists another one as its supertype.
* `Reclass.Hierarchy.Covered` — what the walk keeps true of the classes it has met.
* `Reclass.Hierarchy.Within`, `Nearer` — distances.
* `Reclass.Hierarchy.Levels` — what the walk keeps true of the classes that wait.
* `Reclass.Hierarchy.Route` — the names of the classes that a walk meets.

## Main results

* `Reclass.Hierarchy.exists_route_walk` — a walk meets all that it can reach, nearer classes first.
* `Reclass.Hierarchy.mem_reach_iff` — the nodes above a class.
-/

namespace Reclass.Hierarchy

open Relation

variable {h : Hierarchy} {met waiting : List String} {name above : String}
  {node : HierarchyNode}

/-- The classes of a hierarchy are those that have a node. -/
lemma mem_iff_exists_node : name ∈ h ↔ ∃ node, h[name]? = some node := by
  rw [Std.ExtTreeMap.mem_iff_isSome_getElem?, Option.isSome_iff_exists]

/-! ## Covered classes -/

/-- The class `below` is in the hierarchy and lists `above` as a supertype. -/
def DirectlyAbove (h : Hierarchy) (below above : String) : Prop :=
  ∃ node, h[below]? = some node ∧ above ∈ node.supertypes

/-- Every supertype of a class that was met has been met or waits. -/
def Covered (h : Hierarchy) (met waiting : List String) : Prop :=
  ∀ below ∈ met, ∀ above, h.DirectlyAbove below above → above ∈ met ∨ above ∈ waiting

/-- A class that was met already is passed over. -/
lemma walk_cons_of_mem (hmet : name ∈ met) : h.walk met (name :: waiting) = h.walk met waiting := by
  rw [walk, if_pos hmet]

/-- A class without a node is met, but nothing joins. -/
lemma walk_cons_of_none (hmet : name ∉ met) (hnone : h[name]? = none) :
    h.walk met (name :: waiting) = h.walk (name :: met) waiting := by
  rw [walk, if_neg hmet]
  split
  · rfl
  · next hsome => simp [hnone] at hsome

/-- A node that is met joins, and its supertypes wait from now on. -/
lemma walk_cons_of_some (hmet : name ∉ met) (hnode : h[name]? = some node) :
    h.walk met (name :: waiting) =
      node :: h.walk (name :: met) (waiting ++ node.supertypes) := by
  rw [walk, if_neg hmet]
  split
  · next hnone => simp [hnode] at hnone
  · next found hfound =>
    obtain rfl : found = node := by simpa [hfound] using hnode
    rfl

/-- A chain of supertypes that leaves the classes met so far passes through one that waits.

**Proof sketch.** Induction on the chain from below. Its second class has been met, and then the
rest of the chain leaves the classes met, or it waits. -/
lemma Covered.exists_waiting (hcov : h.Covered met waiting) {below : String} (hbelow : below ∈ met)
    (hchain : ReflTransGen h.DirectlyAbove below above) (habove : above ∉ met) :
    ∃ w ∈ waiting, ReflTransGen h.DirectlyAbove w above := by
  induction hchain using ReflTransGen.head_induction_on with
  | refl => exact absurd hbelow habove
  | @head b c hstep hrest ih =>
    rcases hcov b hbelow c hstep with hc | hc
    · exact ih hc
    · exact ⟨c, hc, hrest⟩

/-- Passing over a class that was met keeps the others covered. -/
lemma Covered.pass (hcov : h.Covered met (name :: waiting)) (hmet : name ∈ met) :
    h.Covered met waiting := by
  intro below hbelow above habove
  rcases hcov below hbelow above habove with hm | hw
  · exact .inl hm
  · rcases List.mem_cons.1 hw with rfl | hw
    · exact .inl hmet
    · exact .inr hw

/-- Meeting a class keeps all covered if its supertypes wait from now on. -/
lemma Covered.meet (hcov : h.Covered met (name :: waiting)) {later : List String}
    (hsup : ∀ above, h.DirectlyAbove name above → above ∈ later) (hsub : waiting ⊆ later) :
    h.Covered (name :: met) later := by
  intro below hbelow above habove
  rcases List.mem_cons.1 hbelow with rfl | hbelow
  · exact .inr (hsup above habove)
  · rcases hcov below hbelow above habove with hm | hw
    · exact .inl (List.mem_cons_of_mem _ hm)
    · rcases List.mem_cons.1 hw with rfl | hw
      · exact .inl List.mem_cons_self
      · exact .inr (hsub hw)

/-- Meeting a class without a node keeps all covered. -/
lemma Covered.meet_of_none (hcov : h.Covered met (name :: waiting)) (hnone : h[name]? = none) :
    h.Covered (name :: met) waiting := by
  refine hcov.meet (fun above habove => ?_) fun w hw => hw
  obtain ⟨found, hfound, -⟩ := habove
  simp [hnone] at hfound

/-- Only what its node lists is directly above a class. -/
lemma DirectlyAbove.mem_supertypes (hstep : h.DirectlyAbove name above)
    (hnode : h[name]? = some node) : above ∈ node.supertypes := by
  obtain ⟨found, hfound, habove⟩ := hstep
  obtain rfl : node = found := by simpa [hnode] using hfound
  exact habove

/-- Meeting a class with a node keeps all covered, as its supertypes wait from now on. -/
lemma Covered.meet_of_some (hcov : h.Covered met (name :: waiting)) (hnode : h[name]? = some node) :
    h.Covered (name :: met) (waiting ++ node.supertypes) :=
  hcov.meet (fun _ habove => List.mem_append_right _ (habove.mem_supertypes hnode))
    (List.subset_append_left _ _)

/-- At the start of a walk the supertypes of its first class wait. -/
lemma covered_start (hnode : h[name]? = some node) : h.Covered [name] node.supertypes := by
  intro below hbelow above habove
  obtain rfl := List.mem_singleton.1 hbelow
  exact .inr (habove.mem_supertypes hnode)

/-! ## Distances -/

/-- A chain of at most `n` supertypes leads from a class to another one. -/
inductive Within (h : Hierarchy) (start : String) : Nat → String → Prop
  | refl (n : Nat) : Within h start n start
  | tail {n : Nat} {mid above : String} (hmid : Within h start n mid)
      (hstep : h.DirectlyAbove mid above) : Within h start (n + 1) above

/-- The class `near` is at a smaller distance than the class `far`. -/
def Nearer (h : Hierarchy) (start near far : String) : Prop :=
  ∃ n, h.Within start n near ∧ ¬h.Within start n far

variable {start : String} {n m d : Nat} {near far : List String}

/-- The bound on the length of a chain may be raised. -/
lemma Within.mono (hw : h.Within start n above) (hnm : n ≤ m) : h.Within start m above := by
  induction hw generalizing m with
  | refl n => exact .refl m
  | @tail n mid above hmid hstep ih =>
    obtain ⟨m, rfl⟩ : ∃ k, m = k + 1 := ⟨m - 1, by omega⟩
    exact .tail (ih (by omega)) hstep

/-- A chain of any length leads upwards. -/
lemma Within.reflTransGen (hw : h.Within start n above) :
    ReflTransGen h.DirectlyAbove start above := by
  induction hw with
  | refl => exact .refl
  | tail hmid hstep ih => exact ih.tail hstep

/-- A class is at distance zero from itself alone. -/
lemma Within.eq_of_zero (hw : h.Within start 0 above) : above = start := by
  cases hw
  rfl

/-- A chain that has all its length ends with a step. -/
lemma Within.cases_succ (hw : h.Within start (n + 1) above) :
    h.Within start n above ∨ ∃ mid, h.Within start n mid ∧ h.DirectlyAbove mid above := by
  cases hw with
  | refl => exact .inl (.refl n)
  | tail hmid hstep => exact .inr ⟨_, hmid, hstep⟩

/-! ## Levels -/

/-- The classes that wait are at distance `d` or one more, and of the classes at distance `d` all
that have not been met wait in front. -/
structure Levels (h : Hierarchy) (start : String) (d : Nat) (near far met : List String) :
    Prop where
  near_within : ∀ name ∈ near, h.Within start d name
  far_within : ∀ name ∈ far, h.Within start (d + 1) name
  met_of_nearer : ∀ n name, n < d → h.Within start n name → name ∈ met
  met_or_near : ∀ name, h.Within start d name → name ∈ met ∨ name ∈ near

namespace Levels

/-- When nothing is left of a level, the next one is at hand. -/
lemma advance (hlevels : h.Levels start d [] far met) (hcov : h.Covered met far) :
    h.Levels start (d + 1) far [] met where
  near_within := hlevels.far_within
  far_within := by simp
  met_of_nearer n name hn hw := by
    have hd := hw.mono (Nat.le_of_lt_succ hn)
    exact (hlevels.met_or_near name hd).resolve_right List.not_mem_nil
  met_or_near name hw := by
    rcases hw.cases_succ with hw | ⟨mid, hmid, hstep⟩
    · exact .inl ((hlevels.met_or_near name hw).resolve_right List.not_mem_nil)
    · have hmet := (hlevels.met_or_near mid hmid).resolve_right List.not_mem_nil
      exact hcov mid hmet name hstep

/-- The class that waits first belongs to the level at hand, possibly after an advance. -/
lemma exists_cons {first : String} (hlevels : h.Levels start d near far met)
    (hcov : h.Covered met (near ++ far)) (hwaiting : near ++ far = first :: waiting) :
    ∃ d' near' far', h.Levels start d' (first :: near') far' met ∧ near' ++ far' = waiting := by
  cases near with
  | nil =>
    obtain rfl : far = first :: waiting := hwaiting
    exact ⟨d + 1, waiting, [], hlevels.advance hcov, List.append_nil waiting⟩
  | cons other near =>
    obtain ⟨rfl, rfl⟩ := List.cons.inj hwaiting
    exact ⟨d, near, far, hlevels, rfl⟩

/-- A class that was met already is passed over. -/
lemma pass {first : String} (hlevels : h.Levels start d (first :: near) far met)
    (hmet : first ∈ met) : h.Levels start d near far met where
  near_within name hname := hlevels.near_within name (List.mem_cons_of_mem first hname)
  far_within := hlevels.far_within
  met_of_nearer := hlevels.met_of_nearer
  met_or_near name hw := by
    rcases hlevels.met_or_near name hw with hm | hn
    · exact .inl hm
    · rcases List.mem_cons.1 hn with rfl | hn
      · exact .inl hmet
      · exact .inr hn

/-- A class of the level at hand is met, and its supertypes belong to the next level. -/
lemma meet {first : String} (hlevels : h.Levels start d (first :: near) far met)
    {supertypes : List String} (hsup : ∀ above ∈ supertypes, h.DirectlyAbove first above) :
    h.Levels start d near (far ++ supertypes) (first :: met) where
  near_within name hname := hlevels.near_within name (List.mem_cons_of_mem first hname)
  far_within name hname := by
    rcases List.mem_append.1 hname with hname | hname
    · exact hlevels.far_within name hname
    · exact .tail (hlevels.near_within first List.mem_cons_self) (hsup name hname)
  met_of_nearer n name hn hw := List.mem_cons_of_mem first (hlevels.met_of_nearer n name hn hw)
  met_or_near name hw := by
    rcases hlevels.met_or_near name hw with hm | hn
    · exact .inl (List.mem_cons_of_mem first hm)
    · rcases List.mem_cons.1 hn with rfl | hn
      · exact .inl List.mem_cons_self
      · exact .inr hn

/-- Whoever has not been met is no nearer than the level at hand. -/
lemma within_of_notMem (hlevels : h.Levels start d (name :: near) far met) (habove : above ∉ met)
    (hw : h.Within start n above) : h.Within start n name := by
  have hn : ¬n < d := fun hlt => habove (hlevels.met_of_nearer n above hlt hw)
  exact (hlevels.near_within name List.mem_cons_self).mono (Nat.le_of_not_lt hn)

end Levels

/-! ## Routes -/

/-- The names of the classes that a walk meets: all that can be reached and have not been met
before, nearer ones first. -/
structure Route (h : Hierarchy) (start : String) (met names : List String)
    (nodes : List HierarchyNode) : Prop where
  nodes_eq : nodes = names.filterMap fun name => h[name]?
  fresh : ∀ name ∈ names, name ∉ met
  reached : ∀ name ∈ names, ReflTransGen h.DirectlyAbove start name
  complete : ∀ name, name ∉ met → name ∈ h → ReflTransGen h.DirectlyAbove start name →
    name ∈ names
  ordered : names.Pairwise fun a b => ∀ n, h.Within start n b → h.Within start n a

namespace Route

variable {names : List String} {nodes : List HierarchyNode} {first : String}

/-- A route does not have to pass a class without a node. -/
lemma skip (hroute : h.Route start (first :: met) names nodes) (hnone : h[first]? = none) :
    h.Route start met names nodes where
  nodes_eq := hroute.nodes_eq
  fresh name hname hm := hroute.fresh name hname (List.mem_cons_of_mem first hm)
  reached := hroute.reached
  complete name hname hmem hchain := by
    refine hroute.complete name (fun hm => ?_) hmem hchain
    rcases List.mem_cons.1 hm with rfl | hm
    · simp [mem_iff_exists_node, hnone] at hmem
    · exact hname hm
  ordered := hroute.ordered

/-- A class that is met comes first on its route, if none of the others is nearer. -/
lemma cons (hroute : h.Route start (first :: met) names nodes) (hnode : h[first]? = some node)
    (hmet : first ∉ met) (hreached : ReflTransGen h.DirectlyAbove start first)
    (hnearest : ∀ name, name ∉ first :: met → ∀ n, h.Within start n name →
      h.Within start n first) :
    h.Route start met (first :: names) (node :: nodes) where
  nodes_eq := by rw [List.filterMap_cons, hnode, ← hroute.nodes_eq]
  fresh name hname hm := by
    rcases List.mem_cons.1 hname with rfl | hname
    · exact hmet hm
    · exact hroute.fresh name hname (List.mem_cons_of_mem first hm)
  reached name hname := by
    rcases List.mem_cons.1 hname with rfl | hname
    · exact hreached
    · exact hroute.reached name hname
  complete name hname hmem hchain := by
    by_cases heq : name = first
    · exact heq ▸ List.mem_cons_self
    · have hfresh : name ∉ first :: met := by simp [heq, hname]
      exact List.mem_cons_of_mem first (hroute.complete name hfresh hmem hchain)
  ordered := .cons (fun name hname => hnearest name (hroute.fresh name hname)) hroute.ordered

end Route

/-- **A walk meets all that it can reach, nearer classes first.**

**Proof sketch.** Induction on the walk, with `Covered` and `Levels` as its invariants. A chain that
leaves the classes met so far passes through one that waits (`Covered.exists_waiting`), so that at
the end there is none. A class that is met later than another one has not been met when that one
is, so that it is no nearer (`Levels.within_of_notMem`). -/
theorem exists_route_walk (hstart : start ∈ met) (hcov : h.Covered met (near ++ far))
    (hlevels : h.Levels start d near far met) :
    ∃ names, h.Route start met names (h.walk met (near ++ far)) := by
  generalize hwaiting : near ++ far = waiting at hcov ⊢
  induction met, waiting using walk.induct h generalizing d near far with
  | case1 met =>
    refine ⟨[], by rw [walk, List.filterMap_nil], by simp, by simp, fun name hname _ hchain => ?_,
      .nil⟩
    obtain ⟨w, hw, -⟩ := hcov.exists_waiting hstart hchain hname
    exact absurd hw List.not_mem_nil
  | case2 met first waiting hmet ih =>
    obtain ⟨d, near, far, hlevels, hrest⟩ := hlevels.exists_cons (hwaiting ▸ hcov) hwaiting
    rw [walk_cons_of_mem hmet]
    exact ih hstart (hlevels.pass hmet) hrest (hcov.pass hmet)
  | case3 met first waiting hmet hnone ih =>
    obtain ⟨d, near, far, hlevels, hrest⟩ := hlevels.exists_cons (hwaiting ▸ hcov) hwaiting
    rw [walk_cons_of_none hmet hnone]
    have hlevels' : h.Levels start d near (far ++ []) (first :: met) := hlevels.meet (by simp)
    rw [List.append_nil] at hlevels'
    obtain ⟨names, hroute⟩ :=
      ih (List.mem_cons_of_mem first hstart) hlevels' hrest (hcov.meet_of_none hnone)
    exact ⟨names, hroute.skip hnone⟩
  | case4 met first waiting hmet found hfound ih =>
    obtain ⟨d, near, far, hlevels, hrest⟩ := hlevels.exists_cons (hwaiting ▸ hcov) hwaiting
    rw [walk_cons_of_some hmet hfound]
    have hsup : ∀ above ∈ found.supertypes, h.DirectlyAbove first above :=
      fun above habove => ⟨found, hfound, habove⟩
    have hrest' : near ++ (far ++ found.supertypes) = waiting ++ found.supertypes := by
      rw [← List.append_assoc, hrest]
    obtain ⟨names, hroute⟩ := ih (List.mem_cons_of_mem first hstart) (hlevels.meet hsup) hrest'
      (hcov.meet_of_some hfound)
    refine ⟨first :: names, hroute.cons hfound hmet ?_ fun name hname n hw => ?_⟩
    · exact (hlevels.near_within first List.mem_cons_self).reflTransGen
    · exact hlevels.within_of_notMem (fun hm => hname (List.mem_cons_of_mem first hm)) hw

/-! ## The nodes above a class -/

/-- At the start of a walk the supertypes of its first class are one step away. -/
lemma levels_start (hnode : h[start]? = some node) :
    h.Levels start 1 node.supertypes [] [start] where
  near_within name hname := .tail (.refl 0) ⟨node, hnode, hname⟩
  far_within := by simp
  met_of_nearer n name hn hw := by
    obtain rfl : n = 0 := by omega
    exact List.mem_singleton.2 hw.eq_of_zero
  met_or_near name hw := by
    rcases hw.cases_succ with hw | ⟨mid, hmid, hstep⟩
    · exact .inl (List.mem_singleton.2 hw.eq_of_zero)
    · obtain rfl := hmid.eq_of_zero
      exact .inr (hstep.mem_supertypes hnode)

/-- **The classes above a class, nearer ones first.** -/
theorem exists_route_reach (hnode : h[start]? = some node) :
    ∃ names, h.Route start [start] names (h.reach start node) := by
  have hcov : h.Covered [start] (node.supertypes ++ []) := by
    rw [List.append_nil]
    exact covered_start hnode
  obtain ⟨names, hroute⟩ := exists_route_walk List.mem_cons_self hcov (levels_start hnode)
  rw [List.append_nil] at hroute
  exact ⟨names, hroute⟩

/-- The class itself comes before all classes above it. -/
lemma Route.cons_start {names : List String} {nodes : List HierarchyNode}
    (hroute : h.Route start [start] names nodes) (hnode : h[start]? = some node) :
    h.Route start [] (start :: names) (node :: nodes) :=
  hroute.cons hnode List.not_mem_nil .refl fun _ _ n _ => .refl n

/-- **The nodes above a class**: those of the other classes that a chain of supertypes leads to. -/
theorem mem_reach_iff (hnode : h[name]? = some node) {other : HierarchyNode} :
    other ∈ h.reach name node ↔
      ∃ above, above ≠ name ∧ h[above]? = some other ∧ TransGen h.DirectlyAbove name above := by
  obtain ⟨names, hroute⟩ := exists_route_reach hnode
  rw [hroute.nodes_eq, List.mem_filterMap]
  constructor
  · rintro ⟨above, habove, hother⟩
    have hne : above ≠ name := by simpa using hroute.fresh above habove
    have hchain := reflTransGen_iff_eq_or_transGen.1 (hroute.reached above habove)
    exact ⟨above, hne, hother, hchain.resolve_left hne⟩
  · rintro ⟨above, hne, hother, hchain⟩
    have hmem : above ∈ h := mem_iff_exists_node.2 ⟨other, hother⟩
    exact ⟨above, hroute.complete above (by simpa using hne) hmem hchain.to_reflTransGen, hother⟩

end Reclass.Hierarchy
