import Mathlib.Data.Nat.Find
import Reclass.Proofs.Hierarchy.BreadthFirst

set_option relaxedAutoImplicit false
set_option autoImplicit false

/-!
# Flattening in two passes

Classes may be added to a hierarchy after it was flattened, and then it is flattened once more. The
second pass finds inherited members where the first one put them and takes them for declared ones.
So it may meet a new name farther behind in breadth-first order than the class that it comes from,
and as the last new name counts, another one may count than in a single pass.

It cannot do so if a new name prevails: some class in the order gives it, and nothing at or above
this class or the classes behind it gives another one. If no new name prevails for a class that
finds some, then there is a part of the hierarchy such that flattening it first does change the
name.

## Main definitions

* `Reclass.Hierarchy.PartOf` — some of the classes of a hierarchy.
* `Reclass.Hierarchy.withFlat` — a hierarchy of which a part was flattened before.
* `Reclass.Hierarchy.Undisputed` — the names that two passes cannot change.

## Main results

* `Reclass.Hierarchy.PartOf.exists_renames_withFlat_iff` — two passes rename the same members.
* `Reclass.Hierarchy.undisputed_iff` — and exactly the undisputed ones in the same way.
* `Reclass.Hierarchy.undisputed_of_agree` — new names that agree are undisputed.
-/

namespace Reclass

open Relation

namespace Hierarchy

variable {h part : Hierarchy} {kind : MemberKind} {m : Member} {name above root new v : String}
  {node : HierarchyNode}

/-- A class has a new name for a member that is not private, other than the member's own. -/
structure Renames (h : Hierarchy) (kind : MemberKind) (m : Member) (name new : String) : Prop where
  name_eq : h.nameIn kind m name = some new
  renamed : new ≠ m.name

/-- A class has a member under its own name if it holds it and does not rename it. -/
lemma nameIn_eq_self_iff : h.nameIn kind m name = some m.name ↔
    (h.nameIn kind m name).isSome ∧ ¬∃ v, h.Renames kind m name v := by
  constructor
  · intro hkept
    refine ⟨by rw [hkept]; rfl, ?_⟩
    rintro ⟨v, hv, hrenamed⟩
    rw [hkept] at hv
    exact hrenamed (Option.some.inj hv).symm
  · rintro ⟨hholds, hkept⟩
    obtain ⟨v, hv⟩ := Option.isSome_iff_exists.1 hholds
    by_contra hother
    exact hkept ⟨v, hv, fun heq => hother (heq ▸ hv)⟩

/-! ## Names after flattening -/

/-- Flattening keeps the classes. -/
lemma mem_flatten : name ∈ h.flatten ↔ name ∈ h := Std.ExtTreeMap.mem_map

lemma nameIn_flatten_of_notMem (hmem : name ∉ h) : h.flatten.nameIn kind m name = none := by
  rw [nameIn, getElem?_flatten, Std.ExtTreeMap.getElem?_eq_none hmem]
  rfl

/-- A class holds a member after flattening if one that it can reach held it. -/
lemma isSome_nameIn_flatten_iff : (h.flatten.nameIn kind m name).isSome ↔ name ∈ h ∧
    ∃ above, ReflTransGen h.DirectlyAbove name above ∧ (h.nameIn kind m above).isSome := by
  by_cases hmem : name ∈ h
  · obtain ⟨node, hnode⟩ := mem_iff_exists_node.1 hmem
    rw [nameIn_flatten hnode, ← found_ne_nil_iff kind m hnode, Member.settled?, and_iff_right hmem]
    split
    · next hnil => simp [hnil]
    · next hne => simp [hne]
  · rw [nameIn_flatten_of_notMem hmem]
    simp [hmem]

/-- A new name after flattening comes from a class that can be reached. -/
lemma Renames.exists_of_flatten (hnew : h.flatten.Renames kind m name v) :
    ∃ above, ReflTransGen h.DirectlyAbove name above ∧ h.Renames kind m above v := by
  obtain ⟨hname, hrenamed⟩ := hnew
  obtain ⟨node, hnode⟩ := mem_iff_exists_node.1 (mem_flatten.1 (mem_of_nameIn hname))
  rw [nameIn_flatten hnode] at hname
  have hfound := (m.mem_or_eq_of_settled? hname).resolve_right hrenamed
  obtain ⟨above, hchain, habove⟩ := (mem_found_iff_nameIn kind m hnode).1 hfound
  exact ⟨above, hchain, habove, hrenamed⟩

/-- A class that reaches a new name has one after flattening. -/
lemma Renames.exists_flatten (hnew : h.Renames kind m above v) (hmem : name ∈ h)
    (hchain : ReflTransGen h.DirectlyAbove name above) :
    ∃ w, h.flatten.Renames kind m name w := by
  obtain ⟨node, hnode⟩ := mem_iff_exists_node.1 hmem
  have hfound := (mem_found_iff_nameIn kind m hnode).2 ⟨above, hchain, hnew.name_eq⟩
  have hrenamed : (m.settled? (h.found name node kind m)).getD m.name ≠ m.name :=
    fun heq => hnew.renamed (m.settled?_getD_eq_iff.1 heq v hfound)
  rw [← nameIn_flatten hnode] at hrenamed
  cases hw : h.flatten.nameIn kind m name with
  | none =>
    rw [hw] at hrenamed
    exact absurd rfl hrenamed
  | some w =>
    rw [hw] at hrenamed
    exact ⟨w, hw, hrenamed⟩

/-! ## A part that was flattened before -/

/-- All classes of a part belong to the whole and have the same nodes there. -/
def PartOf (part h : Hierarchy) : Prop :=
  ∀ (name : String) (node : HierarchyNode), part[name]? = some node → h[name]? = some node

/-- The hierarchy in which the classes of a part have inherited from each other already. -/
def withFlat (h part : Hierarchy) : Hierarchy :=
  h.map fun name node => part.flatten[name]?.getD node

/-- The classes are the same. -/
lemma mem_withFlat : name ∈ h.withFlat part ↔ name ∈ h := Std.ExtTreeMap.mem_map

section WithFlat

variable (hpart : PartOf part h)

include hpart

lemma PartOf.directlyAbove {below : String} (hstep : part.DirectlyAbove below above) :
    h.DirectlyAbove below above := by
  obtain ⟨node, hnode, habove⟩ := hstep
  exact ⟨node, hpart _ _ hnode, habove⟩

lemma PartOf.reflTransGen {below : String} (hchain : ReflTransGen part.DirectlyAbove below above) :
    ReflTransGen h.DirectlyAbove below above :=
  ReflTransGen.mono (fun _ _ hstep => hpart.directlyAbove hstep) _ _ hchain

lemma PartOf.nameIn (hmem : name ∈ part) : part.nameIn kind m name = h.nameIn kind m name := by
  obtain ⟨node, hnode⟩ := mem_iff_exists_node.1 hmem
  rw [Hierarchy.nameIn, Hierarchy.nameIn, hnode, hpart _ _ hnode]

lemma PartOf.renames (hnew : part.Renames kind m name v) : h.Renames kind m name v :=
  ⟨by rw [← hpart.nameIn (mem_of_nameIn hnew.name_eq), hnew.name_eq], hnew.renamed⟩

/-- A class of the part has the node that flattening the part leaves, any other its own. -/
lemma PartOf.getElem?_withFlat (name : String) :
    (h.withFlat part)[name]? = part.flatten[name]?.or h[name]? := by
  rw [withFlat, Std.ExtTreeMap.getElem?_map, getElem?_flatten]
  cases hnode : part[name]? with
  | none => cases h[name]? <;> rfl
  | some node => simp [hpart _ _ hnode]

/-- Inheriting leaves the supertypes. -/
lemma PartOf.supertypesOf_withFlat : (h.withFlat part).supertypesOf = h.supertypesOf := by
  funext name
  rw [supertypesOf, supertypesOf, hpart.getElem?_withFlat, getElem?_flatten]
  cases hnode : part[name]? with
  | none => simp
  | some node => simp [hpart _ _ hnode, supertypes_foldl_inheritFrom]

lemma PartOf.directlyAbove_withFlat : (h.withFlat part).DirectlyAbove = h.DirectlyAbove := by
  funext below above
  rw [← mem_supertypesOf, ← mem_supertypesOf, hpart.supertypesOf_withFlat]

/-- Breadth-first order is the same as before. -/
lemma PartOf.breadthFirst_withFlat (name : String) :
    (h.withFlat part).breadthFirst name = h.breadthFirst name := by
  have hancestors : (h.withFlat part).ancestors [name] = h.ancestors [name] := by
    funext n
    generalize [name] = names
    induction n generalizing names with
    | zero => rfl
    | succ n ih => rw [ancestors, ancestors, hpart.supertypesOf_withFlat, ih]
  have hsize : (h.withFlat part).size = h.size := Std.ExtTreeMap.size_map
  rw [breadthFirst, breadthFirst, hancestors, hsize]

lemma PartOf.nameIn_withFlat (name : String) : (h.withFlat part).nameIn kind m name =
    if name ∈ part then part.flatten.nameIn kind m name else h.nameIn kind m name := by
  rw [Hierarchy.nameIn, hpart.getElem?_withFlat]
  split
  · next hmem =>
    obtain ⟨node, hnode⟩ := mem_iff_exists_node.1 (mem_flatten.2 hmem)
    rw [hnode, Option.some_or, Hierarchy.nameIn, hnode]
  · next hmem =>
    rw [Std.ExtTreeMap.getElem?_eq_none (fun h => hmem (mem_flatten.1 h)), Option.none_or,
      Hierarchy.nameIn]

/-- What a class has in the part comes from a class that it can reach. -/
lemma PartOf.exists_of_withFlat (hnew : (h.withFlat part).Renames kind m name v) :
    ∃ above, ReflTransGen h.DirectlyAbove name above ∧ h.Renames kind m above v := by
  have hname := hnew.name_eq
  rw [hpart.nameIn_withFlat] at hname
  split at hname
  · obtain ⟨above, hchain, habove⟩ := Renames.exists_of_flatten ⟨hname, hnew.renamed⟩
    exact ⟨above, hpart.reflTransGen hchain, hpart.renames habove⟩
  · exact ⟨name, .refl, hname, hnew.renamed⟩

/-- A class that has a new name for a member has one still, though it may be another one. -/
lemma PartOf.exists_withFlat (hnew : h.Renames kind m name v) :
    ∃ w, (h.withFlat part).Renames kind m name w := by
  by_cases hmem : name ∈ part
  · have hnew' : part.Renames kind m name v :=
      ⟨by rw [hpart.nameIn hmem, hnew.name_eq], hnew.renamed⟩
    obtain ⟨w, hw⟩ := hnew'.exists_flatten hmem .refl
    exact ⟨w, by rw [hpart.nameIn_withFlat, if_pos hmem, hw.name_eq], hw.renamed⟩
  · exact ⟨v, by rw [hpart.nameIn_withFlat, if_neg hmem, hnew.name_eq], hnew.renamed⟩

lemma PartOf.exists_isSome_withFlat_iff :
    (∃ above, ReflTransGen h.DirectlyAbove name above ∧
        ((h.withFlat part).nameIn kind m above).isSome) ↔
      ∃ above, ReflTransGen h.DirectlyAbove name above ∧ (h.nameIn kind m above).isSome := by
  constructor
  · rintro ⟨mid, hchain, hholds⟩
    rw [hpart.nameIn_withFlat] at hholds
    split at hholds
    · obtain ⟨-, above, hchain', hholds⟩ := isSome_nameIn_flatten_iff.1 hholds
      obtain ⟨w, hw⟩ := Option.isSome_iff_exists.1 hholds
      refine ⟨above, hchain.trans (hpart.reflTransGen hchain'), ?_⟩
      rw [← hpart.nameIn (mem_of_nameIn hw), hw]
      rfl
    · exact ⟨mid, hchain, hholds⟩
  · rintro ⟨above, hchain, hholds⟩
    refine ⟨above, hchain, ?_⟩
    rw [hpart.nameIn_withFlat]
    split
    · next hmem =>
      exact isSome_nameIn_flatten_iff.2 ⟨hmem, above, .refl, by rwa [hpart.nameIn hmem]⟩
    · exact hholds

/-- The same classes hold a member in the end. -/
lemma PartOf.isSome_flatten_withFlat : ((h.withFlat part).flatten.nameIn kind m name).isSome =
    (h.flatten.nameIn kind m name).isSome := by
  rw [Bool.eq_iff_iff, isSome_nameIn_flatten_iff, isSome_nameIn_flatten_iff, mem_withFlat,
    hpart.directlyAbove_withFlat, hpart.exists_isSome_withFlat_iff]

/-- The same classes have a new name for a member in the end. -/
lemma PartOf.exists_renames_withFlat_iff :
    (∃ v, (h.withFlat part).flatten.Renames kind m name v) ↔
      ∃ v, h.flatten.Renames kind m name v := by
  constructor
  · rintro ⟨v, hv⟩
    have hmem := mem_withFlat.1 (mem_flatten.1 (mem_of_nameIn hv.name_eq))
    obtain ⟨mid, hchain, hmid⟩ := hv.exists_of_flatten
    rw [hpart.directlyAbove_withFlat] at hchain
    obtain ⟨above, hchain', habove⟩ := hpart.exists_of_withFlat hmid
    exact habove.exists_flatten hmem (hchain.trans hchain')
  · rintro ⟨v, hv⟩
    have hmem : name ∈ h.withFlat part := mem_withFlat.2 (mem_flatten.1 (mem_of_nameIn hv.name_eq))
    obtain ⟨above, hchain, habove⟩ := hv.exists_of_flatten
    obtain ⟨w, hw⟩ := hpart.exists_withFlat habove
    rw [← hpart.directlyAbove_withFlat] at hchain
    exact hw.exists_flatten hmem hchain

/-- The same members keep their names in the end. -/
lemma PartOf.nameIn_flatten_withFlat_eq_self_iff :
    (h.withFlat part).flatten.nameIn kind m name = some m.name ↔
      h.flatten.nameIn kind m name = some m.name := by
  rw [nameIn_eq_self_iff, nameIn_eq_self_iff, hpart.isSome_flatten_withFlat,
    hpart.exists_renames_withFlat_iff]

end WithFlat

/-! ## Names that prevail -/

/-- A class in breadth-first order renames a member, and neither this class nor any behind it has
another new name of the member at or above itself. -/
def Prevails (h : Hierarchy) (kind : MemberKind) (m : Member) (name new : String) : Prop :=
  ∃ before root after, h.breadthFirst name = before ++ root :: after ∧
    h.Renames kind m root new ∧
    ∀ behind ∈ root :: after, ∀ (other v : String), ReflTransGen h.DirectlyAbove behind other →
      h.Renames kind m other v → v = new

/-- If a member is renamed at or above a class then one of the new names prevails. -/
def Undisputed (h : Hierarchy) (kind : MemberKind) (m : Member) (name : String) : Prop :=
  ∀ (above v : String), ReflTransGen h.DirectlyAbove name above → h.Renames kind m above v →
    ∃ new, h.Prevails kind m name new

/-- The last new name in breadth-first order counts, provided that all behind it are the same. -/
lemma nameIn_flatten_of_last {before after : List String} (hmem : name ∈ h)
    (hsplit : h.breadthFirst name = before ++ root :: after) (hroot : h.Renames kind m root new)
    (hafter : ∀ behind ∈ after, ∀ v, h.Renames kind m behind v → v = new) :
    h.flatten.nameIn kind m name = some new := by
  obtain ⟨node, hnode⟩ := mem_iff_exists_node.1 hmem
  rw [nameIn_flatten hnode, found_eq_breadthFirst kind m hnode, hsplit, List.filterMap_append,
    List.filterMap_cons, hroot.name_eq]
  refine m.settled?_of_rename hroot.renamed fun v hv hrenamed => ?_
  obtain ⟨behind, hbehind, hv⟩ := List.mem_filterMap.1 hv
  exact hafter behind hbehind v ⟨hv, hrenamed⟩

/-- A name that prevails is the one that a class has after flattening. -/
lemma Prevails.nameIn_flatten (hnew : h.Prevails kind m name new) (hmem : name ∈ h) :
    h.flatten.nameIn kind m name = some new := by
  obtain ⟨before, root, after, hsplit, hroot, hall⟩ := hnew
  exact nameIn_flatten_of_last hmem hsplit hroot fun behind hbehind v hv =>
    hall behind (List.mem_cons_of_mem root hbehind) behind v .refl hv

/-- A name that prevails is the one that a class has in the end, whatever part was flattened
before. -/
lemma Prevails.nameIn_flatten_withFlat (hnew : h.Prevails kind m name new) (hmem : name ∈ h)
    (hpart : PartOf part h) : (h.withFlat part).flatten.nameIn kind m name = some new := by
  obtain ⟨before, root, after, hsplit, hroot, hall⟩ := hnew
  have hlast : ∀ behind ∈ root :: after, ∀ v, (h.withFlat part).Renames kind m behind v →
      v = new := by
    intro behind hbehind v hv
    obtain ⟨other, hchain, hother⟩ := hpart.exists_of_withFlat hv
    exact hall behind hbehind other v hchain hother
  obtain ⟨w, hw⟩ := hpart.exists_withFlat hroot
  obtain rfl := hlast root List.mem_cons_self w hw
  have hsplit' : (h.withFlat part).breadthFirst name = before ++ root :: after := by
    rw [hpart.breadthFirst_withFlat, hsplit]
  exact nameIn_flatten_of_last (mem_withFlat.2 hmem) hsplit' hw fun behind hbehind =>
    hlast behind (List.mem_cons_of_mem root hbehind)

/-- **A part may be flattened first, as far as no new name is disputed.** -/
theorem Undisputed.nameIn_flatten_withFlat (hname : h.Undisputed kind m name)
    (hpart : PartOf part h) :
    (h.withFlat part).flatten.nameIn kind m name = h.flatten.nameIn kind m name := by
  by_cases hnew : ∃ v, h.flatten.Renames kind m name v
  · obtain ⟨v, hv⟩ := hnew
    have hmem := mem_flatten.1 (mem_of_nameIn hv.name_eq)
    obtain ⟨above, hchain, habove⟩ := hv.exists_of_flatten
    obtain ⟨new, hprevails⟩ := hname above v hchain habove
    rw [hprevails.nameIn_flatten hmem, hprevails.nameIn_flatten_withFlat hmem hpart]
  · -- Without a new name the class has the member under its own name, if it has it at all.
    by_cases hholds : (h.flatten.nameIn kind m name).isSome
    · have hkept := nameIn_eq_self_iff.2 ⟨hholds, hnew⟩
      rw [hkept, hpart.nameIn_flatten_withFlat_eq_self_iff.2 hkept]
    · have hholds' := hholds
      rw [← hpart.isSome_flatten_withFlat] at hholds'
      rw [Option.not_isSome_iff_eq_none.1 hholds, Option.not_isSome_iff_eq_none.1 hholds']

/-- If some member of a list has a property then one of them is the last one to have it. -/
lemma exists_last {α : Type} {p : α → Prop} {l : List α} (hex : ∃ x ∈ l, p x) :
    ∃ before x after, l = before ++ x :: after ∧ p x ∧ ∀ y ∈ after, ¬p y := by
  induction l with
  | nil => simp at hex
  | cons y l ih =>
    by_cases hl : ∃ x ∈ l, p x
    · obtain ⟨before, x, after, rfl, hx, hafter⟩ := ih hl
      exact ⟨y :: before, x, after, rfl, hx, hafter⟩
    · push Not at hl
      obtain ⟨x, hx, hp⟩ := hex
      rcases List.mem_cons.1 hx with rfl | hx
      · exact ⟨[], x, l, rfl, hp, hl⟩
      · exact absurd hp (hl x hx)

/-- A class that can reach a new name is in the hierarchy. -/
lemma Renames.mem (hroot : h.Renames kind m root new)
    (hchain : ReflTransGen h.DirectlyAbove name root) : name ∈ h := by
  rcases hchain.cases_head with rfl | ⟨_, ⟨node, hnode, -⟩, -⟩
  · exact mem_of_nameIn hroot.name_eq
  · exact mem_iff_exists_node.2 ⟨node, hnode⟩

/-- If a member is renamed at or above a class then some class in breadth-first order is the last
one that renames it. -/
lemma Renames.exists_split (hnew : h.Renames kind m above v)
    (hchain : ReflTransGen h.DirectlyAbove name above) :
    ∃ before root after new, h.breadthFirst name = before ++ root :: after ∧
      h.Renames kind m root new ∧ ∀ behind ∈ after, ∀ w, ¬h.Renames kind m behind w := by
  obtain ⟨node, hnode⟩ := mem_iff_exists_node.1 (hnew.mem hchain)
  have hfound := (mem_found_iff_nameIn kind m hnode).2 ⟨above, hchain, hnew.name_eq⟩
  rw [found_eq_breadthFirst kind m hnode] at hfound
  obtain ⟨first, hfirst, hname⟩ := List.mem_filterMap.1 hfound
  obtain ⟨before, root, after, hsplit, ⟨new, hroot⟩, hafter⟩ :=
    exists_last (p := fun other => ∃ w, h.Renames kind m other w)
      ⟨first, hfirst, v, hname, hnew.renamed⟩
  exact ⟨before, root, after, new, hsplit, hroot, fun behind hbehind w hw =>
    hafter behind hbehind ⟨w, hw⟩⟩

/-- Whoever stands in breadth-first order can be reached. -/
lemma reflTransGen_of_mem_breadthFirst (habove : above ∈ h.breadthFirst name) :
    ReflTransGen h.DirectlyAbove name above := by
  have hlevel : ∀ n names, above ∈ h.ancestors names n →
      ∃ first ∈ names, ReflTransGen h.DirectlyAbove first above := by
    intro n
    induction n with
    | zero => exact fun names habove => ⟨above, habove, .refl⟩
    | succ n ih =>
      intro names habove
      obtain ⟨next, hnext, hchain⟩ := ih _ habove
      obtain ⟨first, hfirst, hnext⟩ := List.mem_flatMap.1 hnext
      exact ⟨first, hfirst, .head (mem_supertypesOf.1 hnext) hchain⟩
  rw [breadthFirst, List.mem_eraseDups] at habove
  obtain ⟨n, -, habove⟩ := List.mem_flatMap.1 habove
  obtain ⟨first, hfirst, hchain⟩ := hlevel n [name] habove
  rwa [List.mem_singleton.1 hfirst] at hchain

/-- **Names that agree are undisputed.** If all new names that a member has at or above a class are
the same then flattening in two passes does not change it. -/
theorem undisputed_of_agree
    (hagree : ∀ above other v w,
      ReflTransGen h.DirectlyAbove name above → h.Renames kind m above v →
      ReflTransGen h.DirectlyAbove name other → h.Renames kind m other w → v = w) :
    h.Undisputed kind m name := by
  intro above v hchain hv
  obtain ⟨before, root, after, new, hsplit, hroot, -⟩ := hv.exists_split hchain
  refine ⟨new, before, root, after, hsplit, hroot, fun behind hbehind other w hother hw => ?_⟩
  have hin : ∀ behind ∈ root :: after, ReflTransGen h.DirectlyAbove name behind :=
    fun behind hbehind => reflTransGen_of_mem_breadthFirst <| by
      rw [hsplit]
      exact List.mem_append_right before hbehind
  exact hagree other root w new ((hin behind hbehind).trans hother) hw
    (hin root List.mem_cons_self) hroot

/-! ## Disputed names -/

lemma Within.head {start mid : String} {n : Nat} (hstep : h.DirectlyAbove start mid)
    (hw : h.Within mid n above) : h.Within start (n + 1) above := by
  induction hw with
  | refl n => exact .tail (.refl n) hstep
  | tail _ hlast ih => exact .tail ih hlast

lemma exists_within (hchain : ReflTransGen h.DirectlyAbove name above) :
    ∃ n, h.Within name n above := by
  induction hchain with
  | refl => exact ⟨0, .refl 0⟩
  | tail _ hstep ih =>
    obtain ⟨n, hn⟩ := ih
    exact ⟨n + 1, .tail hn hstep⟩

lemma PartOf.within (hpart : PartOf part h) {n : Nat} (hw : part.Within name n above) :
    h.Within name n above := by
  induction hw with
  | refl n => exact .refl n
  | tail _ hstep ih => exact .tail ih (hpart.directlyAbove hstep)

/-- Some of the classes of a hierarchy. -/
def restrict (h : Hierarchy) (keep : String → Bool) : Hierarchy := h.filter fun name _ => keep name

lemma getElem?_restrict (h : Hierarchy) (keep : String → Bool) (name : String) :
    (h.restrict keep)[name]? = if keep name then h[name]? else none := by
  rw [restrict, Std.ExtTreeMap.getElem?_filter']
  cases keep name <;> cases h[name]? <;> rfl

lemma mem_restrict {keep : String → Bool} :
    name ∈ h.restrict keep ↔ name ∈ h ∧ keep name = true := by
  rw [mem_iff_exists_node, mem_iff_exists_node, getElem?_restrict]
  cases keep name <;> simp

lemma partOf_restrict (h : Hierarchy) (keep : String → Bool) : PartOf (h.restrict keep) h := by
  intro name node hnode
  rw [getElem?_restrict] at hnode
  split at hnode
  · exact hnode
  · simp at hnode

/-- The classes on chains of `n` supertypes from `start` to `root`. -/
def OnWay (h : Hierarchy) (start root : String) (n : Nat) (name : String) : Prop :=
  ∃ i j, i + j = n ∧ h.Within start i name ∧ h.Within name j root

/-- The first part of a chain is kept along with all classes on the way to its end. -/
lemma Within.restrict {start : String} {keep : String → Bool} {n i j : Nat}
    (hkeep : ∀ other, h.OnWay start root n other → keep other = true) (hi : h.Within start i name)
    (hj : h.Within name j root) (hij : i + j = n) : (h.restrict keep).Within start i name := by
  induction hi generalizing j with
  | refl i => exact .refl i
  | @tail i mid above hmid hstep ih =>
    have hj' := hj.head hstep
    obtain ⟨node, hnode, habove⟩ := hstep
    refine .tail (ih hj' (by omega)) ⟨node, ?_, habove⟩
    rw [getElem?_restrict, if_pos (hkeep mid ⟨i, j + 1, by omega, hmid, hj'⟩), hnode]

/-- If a class can reach a new name then it takes it in some part of the hierarchy, all classes of
which can reach it as well.

**Proof sketch.** Let the part be all classes on the shortest chains between the two. There the
class that gives the name is farther away than all others, so that it counts
(`nameIn_flatten_of_nearer`). -/
lemma Renames.exists_restrict (hroot : h.Renames kind m root new)
    (hchain : ReflTransGen h.DirectlyAbove name root) :
    ∃ keep, (∀ other ∈ h.restrict keep, ReflTransGen h.DirectlyAbove other root) ∧
      (h.restrict keep).flatten.nameIn kind m name = some new := by
  classical
  have hex := exists_within hchain
  let n := Nat.find hex
  have hn : h.Within name n root := Nat.find_spec hex
  let keep (other : String) : Bool := h.OnWay name root n other
  have hkeep : ∀ other, h.OnWay name root n other → keep other = true := fun _ => decide_eq_true
  have honWay : ∀ other ∈ h.restrict keep, h.OnWay name root n other := fun _ hother =>
    of_decide_eq_true (mem_restrict.1 hother).2
  have hroot' : (h.restrict keep).nameIn kind m root = some new := by
    rw [nameIn, getElem?_restrict, if_pos (hkeep root ⟨n, 0, rfl, hn, .refl 0⟩)]
    exact hroot.name_eq
  refine ⟨keep, fun other hother => ?_, nameIn_flatten_of_nearer (mem_restrict.2 ⟨?_, ?_⟩) ?_ hroot'
    hroot.renamed fun other v _ hv _ hne => ?_⟩
  · obtain ⟨_, _, _, _, hj⟩ := honWay other hother
    exact hj.reflTransGen
  · exact hroot.mem hchain
  · exact hkeep name ⟨0, n, Nat.zero_add n, .refl 0, hn⟩
  · exact (hn.restrict hkeep (.refl 0) rfl).reflTransGen
  · obtain ⟨i, j, hij, hi, hj⟩ := honWay other (mem_of_nameIn hv)
    refine ⟨i, hi.restrict hkeep hj hij, fun hw => ?_⟩
    -- Nothing but the end of the chains is as far away as the end.
    have hi' : ¬i < n := fun hlt => Nat.find_min hex hlt ((partOf_restrict h keep).within hw)
    obtain rfl : j = 0 := by omega
    obtain rfl := hj.eq_of_zero
    rw [hroot'] at hv
    exact hne (Option.some.inj hv).symm

/-- A new name is the last one in a second pass, if a first one hands it to some class in
breadth-first order and the classes behind that one can neither reach it nor have others.

**Proof sketch.** Flatten a part in which the class takes the name (`Renames.exists_restrict`).
Whoever belongs to it can reach the name, hence no class behind does. -/
lemma Renames.exists_nameIn_flatten_withFlat {before behind : List String} {last : String}
    (hroot : h.Renames kind m root new) (hchain : ReflTransGen h.DirectlyAbove last root)
    (hmem : name ∈ h) (hsplit : h.breadthFirst name = before ++ last :: behind)
    (hbehind : ∀ other ∈ behind, ¬ReflTransGen h.DirectlyAbove other root ∧
      ∀ v, ¬h.Renames kind m other v) :
    ∃ part, PartOf part h ∧ (h.withFlat part).flatten.nameIn kind m name = some new := by
  obtain ⟨keep, hkeep, htaken⟩ := hroot.exists_restrict hchain
  have hpart := partOf_restrict h keep
  refine ⟨h.restrict keep, hpart, ?_⟩
  have hlast : (h.withFlat (h.restrict keep)).Renames kind m last new := by
    refine ⟨?_, hroot.renamed⟩
    rw [hpart.nameIn_withFlat, if_pos (mem_flatten.1 (mem_of_nameIn htaken)), htaken]
  have hsplit' : (h.withFlat (h.restrict keep)).breadthFirst name = before ++ last :: behind := by
    rw [hpart.breadthFirst_withFlat, hsplit]
  refine nameIn_flatten_of_last (mem_withFlat.2 hmem) hsplit' hlast fun other hother v hv => ?_
  obtain ⟨hunreached, hkept⟩ := hbehind other hother
  obtain ⟨hname, hrenamed⟩ := hv
  rw [hpart.nameIn_withFlat] at hname
  split at hname
  · next hin => exact absurd (hkeep other hin) hunreached
  · exact absurd ⟨hname, hrenamed⟩ (hkept v)

/-- **Two passes cannot change a name exactly if it is undisputed**, whatever part of the hierarchy
the first one is about.

**Proof sketch.** Suppose that the last new name in breadth-first order is disputed. Among the
classes from there on take the last one that can reach another new name. In the second pass this
name can be the last one (`Renames.exists_nameIn_flatten_withFlat`), and in a single pass it is
not. -/
theorem undisputed_iff : h.Undisputed kind m name ↔
    ∀ part, PartOf part h →
      (h.withFlat part).flatten.nameIn kind m name = h.flatten.nameIn kind m name := by
  refine ⟨fun hname part hpart => hname.nameIn_flatten_withFlat hpart, fun hsame => ?_⟩
  intro above v hchain hv
  have hmem := hv.mem hchain
  obtain ⟨before, root, after, new, hsplit, hroot, hafter⟩ := hv.exists_split hchain
  refine ⟨new, before, root, after, hsplit, hroot, ?_⟩
  by_contra hdisputed
  push Not at hdisputed
  obtain ⟨between, last, behind, hsplit', ⟨other, w, hother, hw, hne⟩, hbehind⟩ :=
    exists_last (p := fun last => ∃ other w, ReflTransGen h.DirectlyAbove last other ∧
      h.Renames kind m other w ∧ w ≠ new) hdisputed
  -- The last class to reach another name may be the one that gives the last name.
  have hsub : ∀ next ∈ behind, next ∈ after := by
    rcases List.suffix_cons_iff.1 ⟨between, hsplit'.symm⟩ with heq | hsuffix
    · exact fun next hnext => (List.cons.inj heq).2 ▸ hnext
    · exact fun next hnext => hsuffix.subset (List.mem_cons_of_mem last hnext)
  have hjoined : h.breadthFirst name = (before ++ between) ++ last :: behind := by
    rw [hsplit, hsplit', List.append_assoc]
  obtain ⟨part, hpart, htwice⟩ := hw.exists_nameIn_flatten_withFlat hother hmem hjoined
    fun next hnext => ⟨fun hreached => hbehind next hnext ⟨other, w, hreached, hw, hne⟩,
      hafter next (hsub next hnext)⟩
  have honce := nameIn_flatten_of_last hmem hsplit hroot fun next hnext v hv =>
    absurd hv (hafter next hnext v)
  rw [hsame part hpart, honce] at htwice
  exact hne (Option.some.inj htwice).symm

end Hierarchy
end Reclass
