import Reclass.Proofs.Hierarchy.TwoPasses
import Reclass.Proofs.Session.InheritedNames

set_option relaxedAutoImplicit false
set_option autoImplicit false

/-!
# A batch recorded in two parts

A session may record its classes in several batches. The hierarchy that it ends up with has been
flattened with every batch, the first classes more than once. Compared with recording all classes at
once it lists the same classes under the same new names, each with the same members, of which the
same ones are renamed. A member may have got another one of the new names that are given above its
class. It has not if no other new name can be met behind the one that counts.

## Main definitions

* `Reclass.RenameTable.memberName?` — what a table says about a member.
* `Reclass.RenameTable.Alike` — two tables that differ at most in which new names members have.
* `Reclass.ClassTree.Undisputed` — the members that two batches cannot call differently.

## Main results

* `Reclass.Hierarchy.renames_ofBatch_iff` — the new names in the hierarchy of a batch.
* `Reclass.Session.recordBatch_in_two` — what two batches have in common with one.
* `Reclass.Session.recordBatch_parts_in_two` — and a member that they call differently.
* `Reclass.Session.same_for_all_parts_iff` — exactly when it never matters.
-/

namespace Reclass

/-! ## Tables -/

namespace RenameTable

/-- What a table says about a member, which is given with new class names. -/
def memberName? (t : RenameTable) : MemberKind → String → Member → Option String
  | .field => t.fieldName?
  | .method => t.methodName?

lemma memberName?_eq (t : RenameTable) (kind : MemberKind) (owner : String) (m : Member) :
    t.memberName? kind owner m = t[owner]?.bind fun names => (names.members kind)[m]? := by
  cases kind <;> rfl

/-- Two tables list the same classes with the same new names and with the same members, of which
the same ones keep their names. -/
structure Alike (t u : RenameTable) : Prop where
  newName_eq : ∀ name : String, t[name]?.map ClassNames.newName = u[name]?.map ClassNames.newName
  listed_eq : ∀ kind name m, (t.memberName? kind name m).isSome = (u.memberName? kind name m).isSome
  kept_iff : ∀ kind name m,
    t.memberName? kind name m = some m.name ↔ u.memberName? kind name m = some m.name

/-- A table is what it says about the names of classes and of their members. -/
lemma eq_of_memberName? {t u : RenameTable}
    (hnew : ∀ name : String, t[name]?.map ClassNames.newName = u[name]?.map ClassNames.newName)
    (hmember : ∀ kind name m, t.memberName? kind name m = u.memberName? kind name m) : t = u := by
  refine Std.ExtTreeMap.ext_getElem? fun name => ?_
  have hnew := hnew name
  have hmember := fun kind m => hmember kind name m
  simp only [memberName?_eq] at hmember
  cases ht : t[name]? with
  | none =>
    rw [ht] at hnew
    exact (Option.map_eq_none_iff.1 hnew.symm).symm
  | some names =>
    rw [ht] at hnew hmember
    obtain ⟨names', hu, hnames⟩ := Option.map_eq_some_iff.1 hnew.symm
    rw [hu] at hmember
    have hfields : names.fields = names'.fields :=
      Std.ExtTreeMap.ext_getElem? fun m => hmember .field m
    have hmethods : names.methods = names'.methods :=
      Std.ExtTreeMap.ext_getElem? fun m => hmember .method m
    rw [hu]
    obtain ⟨_, _, _⟩ := names
    obtain ⟨_, _, _⟩ := names'
    simp only at hnames hfields hmethods
    rw [hnames, hfields, hmethods]

end RenameTable

namespace Hierarchy

variable {h part : Hierarchy} {kind : MemberKind} {m : Member} {name : String}

/-- The new name that a class has for a private member. -/
def hiddenNameIn (h : Hierarchy) (kind : MemberKind) (m : Member) (name : String) : Option String :=
  h[name]?.bind fun node => (node.members kind true)[m]?

/-- What the table of a flattened hierarchy says about a member. -/
lemma memberName?_toTable_flatten (h : Hierarchy) (kind : MemberKind) (name : String) (m : Member) :
    h.flatten.toTable.memberName? kind name m =
      (h.hiddenNameIn kind m name).or (h.flatten.nameIn kind m name) := by
  rw [RenameTable.memberName?_eq, hiddenNameIn]
  cases hnode : h[name]? with
  | none =>
    rw [getElem?_toTable_flatten_eq_none hnode, nameIn, getElem?_flatten, hnode]
    rfl
  | some node =>
    obtain ⟨names, hnames, -, hmembers⟩ := getElem?_toTable_flatten hnode
    rw [hnames, Option.bind_some, hmembers, nameIn_flatten hnode]
    rfl

lemma PartOf.hiddenNameIn_withFlat (hpart : PartOf part h) :
    (h.withFlat part).hiddenNameIn kind m name = h.hiddenNameIn kind m name := by
  rw [hiddenNameIn, hiddenNameIn, hpart.getElem?_withFlat, getElem?_flatten]
  cases hnode : part[name]? with
  | none => rfl
  | some node =>
    rw [hpart _ _ hnode, Option.map_some, Option.some_or, Option.bind_some, Option.bind_some,
      HierarchyNode.members_foldl_inheritFrom_private]

lemma newName_toTable_flatten (h : Hierarchy) (name : String) :
    h.flatten.toTable[name]?.map ClassNames.newName = h[name]?.map HierarchyNode.newName := by
  rw [getElem?_toTable, getElem?_flatten, Option.map_map, Option.map_map]
  congr 1
  funext node
  exact HierarchyNode.newName_foldl_inheritFrom node _

lemma PartOf.newName_withFlat (hpart : PartOf part h) (name : String) :
    (h.withFlat part)[name]?.map HierarchyNode.newName = h[name]?.map HierarchyNode.newName := by
  rw [hpart.getElem?_withFlat, getElem?_flatten]
  cases hnode : part[name]? with
  | none => rfl
  | some node =>
    rw [hpart _ _ hnode, Option.map_some, Option.some_or, Option.map_some, Option.map_some,
      HierarchyNode.newName_foldl_inheritFrom]

/-- **The tables of two passes and of one** differ at most in which new names members have. -/
theorem PartOf.alike_withFlat (hpart : PartOf part h) :
    (h.withFlat part).flatten.toTable.Alike h.flatten.toTable where
  newName_eq name := by
    rw [newName_toTable_flatten, newName_toTable_flatten, hpart.newName_withFlat]
  listed_eq kind name m := by
    rw [memberName?_toTable_flatten, memberName?_toTable_flatten, hpart.hiddenNameIn_withFlat,
      Option.isSome_or, Option.isSome_or, hpart.isSome_flatten_withFlat]
  kept_iff kind name m := by
    rw [memberName?_toTable_flatten, memberName?_toTable_flatten, hpart.hiddenNameIn_withFlat]
    cases h.hiddenNameIn kind m name with
    | some new => rfl
    | none => exact hpart.nameIn_flatten_withFlat_eq_self_iff

/-! ## Batches -/

variable {r : Renaming} {first second : List ClassTree}

/-- The classes of a first batch are part of the hierarchy of two. -/
lemma partOf_ofBatch (hdistinct : ((first ++ second).map ClassTree.name).Nodup) :
    PartOf (ofBatch r first) (ofBatch r (first ++ second)) := by
  intro name node hnode
  have hfirst : (first.map ClassTree.name).Nodup :=
    (List.map_append ▸ hdistinct).of_append_left
  obtain ⟨c, hc, hname, rfl⟩ := (getElem?_ofBatch_eq_some_iff r hfirst).1 hnode
  exact (getElem?_ofBatch_eq_some_iff r hdistinct).2
    ⟨c, List.mem_append_left second hc, hname, rfl⟩

lemma ofBatch_append : ofBatch r (first ++ second) =
    second.foldl (fun h c => h.insert c.name (.ofClass r c)) (ofBatch r first) :=
  List.foldl_append

/-- Adding a second batch to the flattened hierarchy of a first one gives the hierarchy of both, of
which a part was flattened before. -/
lemma foldl_insert_flatten (hdistinct : ((first ++ second).map ClassTree.name).Nodup) :
    second.foldl (fun h c => h.insert c.name (.ofClass r c)) (ofBatch r first).flatten =
      (ofBatch r (first ++ second)).withFlat (ofBatch r first) := by
  refine Std.ExtTreeMap.ext_getElem? fun name => ?_
  rw [(partOf_ofBatch hdistinct).getElem?_withFlat, ofBatch_append]
  rw [List.map_append] at hdistinct
  by_cases hsecond : ∃ c ∈ second, c.name = name
  · obtain ⟨c, hc, rfl⟩ := hsecond
    -- Names are distinct, so that nothing of the first batch is replaced.
    have hnone : (ofBatch r first)[c.name]? = none :=
      getElem?_ofBatch_eq_none r fun d hd heq =>
        List.disjoint_of_nodup_append hdistinct (List.mem_map_of_mem hd)
          (heq ▸ List.mem_map_of_mem hc)
    rw [getElem?_foldl_insert_of_mem _ _ hdistinct.of_append_right hc,
      getElem?_foldl_insert_of_mem _ _ hdistinct.of_append_right hc, getElem?_flatten, hnone]
    rfl
  · have hne : ∀ c ∈ second, c.name ≠ name := fun c hc heq => hsecond ⟨c, hc, heq⟩
    rw [getElem?_foldl_insert_of_forall_ne _ _ hne, getElem?_foldl_insert_of_forall_ne _ _ hne,
      getElem?_flatten]
    cases (ofBatch r first)[name]? <;> rfl

/-- What a class of a batch renames. -/
lemma renames_ofBatch_iff (hdistinct : (first.map ClassTree.name).Nodup) {kind : MemberKind}
    {m : Member} {name new : String} : (ofBatch r first).Renames kind m name new ↔
      (∃ c ∈ first, c.name = name ∧ c.Declares r kind false m) ∧ new = r.nameAt kind name m ∧
        new ≠ m.name := by
  have hname : (ofBatch r first).nameIn kind m name = some new ↔
      (∃ c ∈ first, c.name = name ∧ c.Declares r kind false m) ∧ new = r.nameAt kind name m := by
    rw [nameIn, Option.bind_eq_some_iff]
    constructor
    · rintro ⟨node, hnode, hnew⟩
      obtain ⟨c, hc, rfl, rfl⟩ := (getElem?_ofBatch_eq_some_iff r hdistinct).1 hnode
      rw [HierarchyNode.getElem?_members_ofClass] at hnew
      split at hnew
      · next hdecl => exact ⟨⟨c, hc, rfl, hdecl⟩, (Option.some.inj hnew).symm⟩
      · simp at hnew
    · rintro ⟨⟨c, hc, rfl, hdecl⟩, rfl⟩
      refine ⟨_, (getElem?_ofBatch_eq_some_iff r hdistinct).2 ⟨c, hc, rfl, rfl⟩, ?_⟩
      rw [HierarchyNode.getElem?_members_ofClass, if_pos hdecl]
  constructor
  · rintro ⟨hnew, hrenamed⟩
    exact ⟨(hname.1 hnew).1, (hname.1 hnew).2, hrenamed⟩
  · rintro ⟨hdecl, hnew, hrenamed⟩
    exact ⟨hname.2 ⟨hdecl, hnew⟩, hrenamed⟩

/-- Every part of the hierarchy of a batch is that of some classes of the batch. -/
lemma PartOf.exists_split {classes : List ClassTree}
    (hdistinct : (classes.map ClassTree.name).Nodup) (hpart : PartOf part (ofBatch r classes)) :
    ∃ first second, (first ++ second).Perm classes ∧ ofBatch r first = part := by
  classical
  refine ⟨classes.filter fun c => c.name ∈ part, _, List.filter_append_perm _ _, ?_⟩
  have hfirst : ((classes.filter fun c => c.name ∈ part).map ClassTree.name).Nodup :=
    hdistinct.sublist (List.filter_sublist.map _)
  refine Std.ExtTreeMap.ext_getElem? fun name => ?_
  cases hnode : part[name]? with
  | none =>
    refine getElem?_ofBatch_eq_none r fun c hc heq => ?_
    have hmem := of_decide_eq_true (List.mem_filter.1 hc).2
    rw [heq, mem_iff_exists_node, hnode] at hmem
    simp at hmem
  | some node =>
    obtain ⟨c, hc, rfl, rfl⟩ := (getElem?_ofBatch_eq_some_iff r hdistinct).1 (hpart _ _ hnode)
    have hmem : c.name ∈ part := mem_iff_exists_node.2 ⟨_, hnode⟩
    exact (getElem?_ofBatch_eq_some_iff r hfirst).2
      ⟨c, List.mem_filter.2 ⟨hc, decide_eq_true hmem⟩, rfl, rfl⟩

end Hierarchy

/-- No new name of a member is disputed for a class of a batch, or the class has the member
privately. -/
def ClassTree.Undisputed (c : ClassTree) (r : Renaming) (classes : List ClassTree)
    (kind : MemberKind) (m : Member) : Prop :=
  c.Declares r kind true m ∨ (Hierarchy.ofBatch r classes).Undisputed kind m c.name

/-- **A table says the same about a member, whatever classes are recorded first**, exactly if no new
name of the member is disputed. -/
theorem ClassTree.undisputed_iff {c : ClassTree} {r : Renaming} {classes : List ClassTree}
    {kind : MemberKind} {m : Member} (hdistinct : (classes.map ClassTree.name).Nodup)
    (hc : c ∈ classes) : c.Undisputed r classes kind m ↔
      ∀ part, Hierarchy.PartOf part (Hierarchy.ofBatch r classes) →
        ((Hierarchy.ofBatch r classes).withFlat part).flatten.toTable.memberName? kind c.name m =
          (Hierarchy.ofBatch r classes).flatten.toTable.memberName? kind c.name m := by
  have hhidden : (Hierarchy.ofBatch r classes).hiddenNameIn kind m c.name =
      if c.Declares r kind true m then some (r.nameAt kind c.name m) else none := by
    have hnode := (Hierarchy.getElem?_ofBatch_eq_some_iff r hdistinct).2 ⟨c, hc, rfl, rfl⟩
    rw [Hierarchy.hiddenNameIn, hnode, Option.bind_some, HierarchyNode.getElem?_members_ofClass]
  by_cases hdecl : c.Declares r kind true m
  · refine iff_of_true (.inl hdecl) fun part hpart => ?_
    rw [Hierarchy.memberName?_toTable_flatten, Hierarchy.memberName?_toTable_flatten,
      hpart.hiddenNameIn_withFlat, hhidden, if_pos hdecl, Option.some_or, Option.some_or]
  · rw [Undisputed, or_iff_right hdecl, Hierarchy.undisputed_iff]
    refine forall₂_congr fun part hpart => ?_
    rw [Hierarchy.memberName?_toTable_flatten, Hierarchy.memberName?_toTable_flatten,
      hpart.hiddenNameIn_withFlat, hhidden, if_neg hdecl, Option.none_or, Option.none_or]

/-- If no new name is disputed then it is the same table, whatever classes are recorded first. -/
lemma Hierarchy.PartOf.toTable_eq {r : Renaming} {classes : List ClassTree} {part : Hierarchy}
    (hdistinct : (classes.map ClassTree.name).Nodup)
    (hpart : Hierarchy.PartOf part (Hierarchy.ofBatch r classes))
    (hall : ∀ c ∈ classes, ∀ kind m, c.Undisputed r classes kind m) :
    ((Hierarchy.ofBatch r classes).withFlat part).flatten.toTable =
      (Hierarchy.ofBatch r classes).flatten.toTable := by
  have halike := hpart.alike_withFlat
  refine RenameTable.eq_of_memberName? halike.newName_eq fun kind name m => ?_
  by_cases hname : ∃ c ∈ classes, c.name = name
  · obtain ⟨c, hc, rfl⟩ := hname
    exact (ClassTree.undisputed_iff hdistinct hc).1 (hall c hc kind m) part hpart
  · have hnone := Hierarchy.getElem?_toTable_flatten_eq_none <|
      Hierarchy.getElem?_ofBatch_eq_none r fun c hc heq => hname ⟨c, hc, heq⟩
    have hnew := halike.newName_eq name
    rw [hnone] at hnew
    rw [RenameTable.memberName?_eq, RenameTable.memberName?_eq, hnone,
      Option.map_eq_none_iff.1 hnew]

namespace Session

variable {s : Session} {first second : List ClassTree}

/-- Recording two batches flattens the hierarchy of both with the first one flattened before. -/
lemma recordBatch_recordBatch (hfresh : s.workspace.hierarchy = ∅)
    (hname : ∀ c ∈ first ++ second, c.name ≠ "")
    (hdistinct : ((first ++ second).map ClassTree.name).Nodup) :
    let h := (Hierarchy.ofBatch s.givenRenaming (first ++ second)).withFlat
      (Hierarchy.ofBatch s.givenRenaming first)
    ((s.recordBatch first).session.recordBatch second).result = .ok h.flatten.size ∧
      ((s.recordBatch first).session.recordBatch second).session.inheritedNames =
        h.flatten.toTable := by
  intro h
  have hfirst := recordBatch_eq hfresh fun c hc => hname c (List.mem_append_left second hc)
  have hsecond := recordBatch_of_names (s := (s.recordBatch first).session) (h := h)
    (fun c hc => hname c (List.mem_append_right first hc))
    (by rw [hfirst]; exact Hierarchy.foldl_insert_flatten hdistinct)
  rw [hsecond]
  exact ⟨rfl, rfl⟩

/-- A new session that has recorded a batch knows the names of its flattened hierarchy. -/
lemma inheritedNames_recordBatch (hfresh : s.workspace.hierarchy = ∅)
    (hname : ∀ c ∈ first, c.name ≠ "") :
    (s.recordBatch first).session.inheritedNames =
      (Hierarchy.ofBatch s.givenRenaming first).flatten.toTable := by
  rw [recordBatch_eq hfresh hname]
  rfl

/-- **Two batches do almost the same as one.** Let a new session record a batch of classes and then
another one, with distinct names that are not empty. The hierarchy then has as many classes as if
the session had recorded all of them at once. Its table lists the same classes with the same new
names and with the same members, of which the same ones are renamed. It also has the same new name
for every member that is undisputed, so that it is the same table if all members are.

**Proof sketch.** Recording the second batch flattens the hierarchy of both, of which the part with
the first batch has been flattened before (`recordBatch_recordBatch`). Such tables are alike
(`alike_withFlat`), and they agree on what is undisputed (`undisputed_iff`). -/
theorem recordBatch_in_two (hfresh : s.workspace.hierarchy = ∅)
    (hname : ∀ c ∈ first ++ second, c.name ≠ "")
    (hdistinct : ((first ++ second).map ClassTree.name).Nodup) :
    let once := s.recordBatch (first ++ second)
    let twice := (s.recordBatch first).session.recordBatch second
    (∃ count, once.result = .ok count ∧ twice.result = .ok count) ∧
      twice.session.inheritedNames.Alike once.session.inheritedNames ∧
      (∀ c ∈ first ++ second, ∀ kind m, c.Undisputed s.givenRenaming (first ++ second) kind m →
        twice.session.inheritedNames.memberName? kind c.name m =
          once.session.inheritedNames.memberName? kind c.name m) ∧
      ((∀ c ∈ first ++ second, ∀ kind m, c.Undisputed s.givenRenaming (first ++ second) kind m) →
        twice.session.inheritedNames = once.session.inheritedNames) := by
  intro once twice
  have hpart := Hierarchy.partOf_ofBatch (r := s.givenRenaming) hdistinct
  have honce : once = _ := recordBatch_eq hfresh hname
  obtain ⟨htwice, htwicenames⟩ := recordBatch_recordBatch hfresh hname hdistinct
  have honcenames := inheritedNames_recordBatch hfresh hname
  refine ⟨⟨_, by rw [honce], ?_⟩, ?_, fun c hc kind m hundisputed => ?_, fun hall => ?_⟩
  · rw [htwice]
    simp only [Hierarchy.flatten, Hierarchy.withFlat, Std.ExtTreeMap.size_map]
  · rw [htwicenames, honcenames]
    exact hpart.alike_withFlat
  · rw [htwicenames, honcenames]
    exact (ClassTree.undisputed_iff hdistinct hc).1 hundisputed _ hpart
  · rw [htwicenames, honcenames]
    exact hpart.toTable_eq hdistinct hall

/-- A class with the given supertypes that declares a method `tick` or nothing. -/
def ticking (name : String) (interfaces : List String) (declares : Bool) : ClassTree where
  header := { version := 52, access := 33, name := name, interfaces := interfaces }
  methods := if declares then [{ access := 1, name := "tick", descriptor := "()V" }] else []

/-- New names for the method `tick` in two classes. -/
def tickNames (one new other new' : String) : Renaming :=
  let names (owner new : String) : ClassNames :=
    ⟨owner, ∅, (∅ : MemberNames).insert ⟨"tick", "()V"⟩ new⟩
  .ofTable (((∅ : RenameTable).insert one (names one new)).insert other (names other new'))

/-- An interface arrives after two classes below it. The nearer one renames the method, too; the
name that the interface gives is the last one in breadth-first order, and no name is above it. -/
theorem recordBatch_in_two_of_late_parent :
    let t := tickNames "a/B" "step" "a/I" "update"
    let tick : Member := ⟨"tick", "()V"⟩
    let first := [ticking "a/B" ["a/I"] true, ticking "a/C" ["a/B"] false]
    let second := [ticking "a/I" [] true]
    let s : Session := { given := some t }
    (∀ c ∈ first ++ second, c.name ≠ "") ∧ ((first ++ second).map ClassTree.name).Nodup ∧
      (ticking "a/C" ["a/B"] false).Undisputed t (first ++ second) .method tick ∧
      ((s.recordBatch first).session.recordBatch second).session.inheritedNames.memberName?
          .method "a/C" tick =
        (s.recordBatch (first ++ second)).session.inheritedNames.memberName?
          .method "a/C" tick := by
  intro t tick first second s
  have hname : ∀ c ∈ first ++ second, c.name ≠ "" := by decide
  have hdistinct : ((first ++ second).map ClassTree.name).Nodup := by decide
  have hundisputed : (ticking "a/C" ["a/B"] false).Undisputed t (first ++ second) .method tick := by
    refine .inr fun _ _ _ _ => ⟨"update", ["a/C", "a/B"], "a/I", [], by decide,
      ⟨by decide, by decide⟩, fun behind hbehind other v hchain hv => ?_⟩
    obtain rfl := List.mem_singleton.1 hbehind
    rcases hchain.cases_head with rfl | ⟨above, hstep, -⟩
    · have hupdate : (Hierarchy.ofBatch t (first ++ second)).nameIn .method tick "a/I" =
          some "update" := by decide
      exact (Option.some.inj (hupdate.symm.trans hv.name_eq)).symm
    · have hnone : (Hierarchy.ofBatch t (first ++ second)).supertypesOf "a/I" = [] := by decide
      have habove := Hierarchy.mem_supertypesOf.2 hstep
      rw [hnone] at habove
      exact absurd habove List.not_mem_nil
  obtain ⟨-, -, hsame, -⟩ := recordBatch_in_two (s := s) rfl hname hdistinct
  exact ⟨hname, hdistinct, hundisputed, hsame _ (by simp [first]) _ _ hundisputed⟩

/-- A class lists two interfaces that rename a method differently, and then a class below the first
one. Recorded at once the name that the second interface gives is the last one. If the class between
has got the other name from a batch before, then that one is behind it; so it is when nothing is
added but all has been flattened before. -/
theorem recordBatch_parts_in_two :
    let t := tickNames "a/I" "update" "a/J" "refresh"
    let tick : Member := ⟨"tick", "()V"⟩
    let first := [ticking "a/I" [] true, ticking "a/B" ["a/I"] false]
    let second := [ticking "a/J" [] true, ticking "a/C" ["a/I", "a/J", "a/B"] false]
    let s : Session := { given := some t }
    let once := s.recordBatch (first ++ second)
    let twice := (s.recordBatch first).session.recordBatch second
    let again := once.session.recordBatch []
    (∀ c ∈ first ++ second, c.name ≠ "") ∧ ((first ++ second).map ClassTree.name).Nodup ∧
      once.session.inheritedNames.memberName? .method "a/C" tick = some "refresh" ∧
      twice.session.inheritedNames.memberName? .method "a/C" tick = some "update" ∧
      again.session.inheritedNames.memberName? .method "a/C" tick = some "update" ∧
      twice.session.inheritedNames ≠ once.session.inheritedNames ∧
      again.session.inheritedNames ≠ once.session.inheritedNames := by
  intro t tick first second s once twice again
  have hname : ∀ c ∈ first ++ second, c.name ≠ "" := by decide
  have hdistinct : ((first ++ second).map ClassTree.name).Nodup := by decide
  let h := Hierarchy.ofBatch t (first ++ second)
  have horder : h.breadthFirst "a/C" = ["a/C", "a/I", "a/J", "a/B"] := by decide
  have hmem : "a/C" ∈ h := by decide
  have hhidden : h.hiddenNameIn .method tick "a/C" = none := by decide
  -- Once the class between has the other name, it is the last one that has a new name.
  have hC : ∀ part, Hierarchy.PartOf part h → "a/B" ∈ part →
      part.flatten.nameIn .method tick "a/B" = some "update" →
      (h.withFlat part).flatten.toTable.memberName? .method "a/C" tick = some "update" := by
    intro part hpart hB hupdate
    have hlast : (h.withFlat part).Renames .method tick "a/B" "update" :=
      ⟨by rw [hpart.nameIn_withFlat, if_pos hB, hupdate], by decide⟩
    rw [Hierarchy.memberName?_toTable_flatten, hpart.hiddenNameIn_withFlat, hhidden,
      Option.none_or]
    have hsplit : (h.withFlat part).breadthFirst "a/C" = ["a/C", "a/I", "a/J"] ++ "a/B" :: [] := by
      rw [hpart.breadthFirst_withFlat, horder]
      rfl
    exact Hierarchy.nameIn_flatten_of_last (Hierarchy.mem_withFlat.2 hmem) hsplit hlast (by simp)
  have hB : ∀ batch : List ClassTree,
      (Hierarchy.ofBatch t batch).breadthFirst "a/B" = ["a/B"] ++ "a/I" :: [] →
      (Hierarchy.ofBatch t batch).nameIn .method tick "a/I" = some "update" →
      "a/B" ∈ Hierarchy.ofBatch t batch →
      (Hierarchy.ofBatch t batch).flatten.nameIn .method tick "a/B" = some "update" :=
    fun batch hsplit hupdate hmem =>
      Hierarchy.nameIn_flatten_of_last hmem hsplit ⟨hupdate, by decide⟩ (by simp)
  have honce : once.session.inheritedNames.memberName? .method "a/C" tick = some "refresh" := by
    rw [inheritedNames_recordBatch rfl hname, Hierarchy.memberName?_toTable_flatten]
    refine (congrArg (Option.or · _) hhidden).trans ?_
    have hsplit : h.breadthFirst "a/C" = ["a/C", "a/I"] ++ "a/J" :: ["a/B"] := horder
    refine Hierarchy.nameIn_flatten_of_last hmem hsplit ⟨by decide, by decide⟩
      fun behind hbehind v hv => ?_
    obtain rfl := List.mem_singleton.1 hbehind
    have hnone : h.nameIn .method tick "a/B" = none := by decide
    exact absurd (hnone.symm.trans hv.name_eq) (by simp)
  have htwice : twice.session.inheritedNames.memberName? .method "a/C" tick = some "update" := by
    rw [(recordBatch_recordBatch rfl hname hdistinct).2]
    exact hC _ (Hierarchy.partOf_ofBatch hdistinct) (by decide)
      (hB first (by decide) (by decide) (by decide))
  have hagain : again.session.inheritedNames.memberName? .method "a/C" tick = some "update" := by
    have hnil := (first ++ second).append_nil
    have hname' : ∀ c ∈ (first ++ second) ++ [], c.name ≠ "" := by rwa [hnil]
    have hdistinct' : (((first ++ second) ++ []).map ClassTree.name).Nodup := by rwa [hnil]
    rw [(recordBatch_recordBatch rfl hname' hdistinct').2, hnil]
    exact hC h (fun _ _ hnode => hnode) (by decide) (hB _ (by decide) (by decide) (by decide))
  refine ⟨hname, hdistinct, honce, htwice, hagain, fun heq => ?_, fun heq => ?_⟩
  · rw [heq, honce] at htwice
    simp at htwice
  · rw [heq, honce] at hagain
    simp at hagain

/-- **Exactly when it never matters in which parts a batch is recorded**: if every member of it is
undisputed. -/
theorem same_for_all_parts_iff {classes : List ClassTree} (hfresh : s.workspace.hierarchy = ∅)
    (hname : ∀ c ∈ classes, c.name ≠ "") (hdistinct : (classes.map ClassTree.name).Nodup) :
    (∀ first second, (first ++ second).Perm classes →
      ((s.recordBatch first).session.recordBatch second).session.inheritedNames =
        (s.recordBatch classes).session.inheritedNames) ↔
      ∀ c ∈ classes, ∀ kind m, c.Undisputed s.givenRenaming classes kind m := by
  have htwice : ∀ first second : List ClassTree, (first ++ second).Perm classes →
      ((s.recordBatch first).session.recordBatch second).session.inheritedNames =
        ((Hierarchy.ofBatch s.givenRenaming classes).withFlat
          (Hierarchy.ofBatch s.givenRenaming first)).flatten.toTable ∧
      Hierarchy.PartOf (Hierarchy.ofBatch s.givenRenaming first)
        (Hierarchy.ofBatch s.givenRenaming classes) := by
    intro first second hperm
    have hdistinct' : ((first ++ second).map ClassTree.name).Nodup :=
      (hperm.map _).nodup_iff.2 hdistinct
    have hbatch : Hierarchy.ofBatch s.givenRenaming (first ++ second) =
        Hierarchy.ofBatch s.givenRenaming classes :=
      foldl_insert_perm _ _ hperm hdistinct ∅
    rw [← hbatch]
    exact ⟨(recordBatch_recordBatch hfresh (fun c hc => hname c (hperm.mem_iff.1 hc)) hdistinct').2,
      Hierarchy.partOf_ofBatch hdistinct'⟩
  rw [inheritedNames_recordBatch hfresh hname]
  constructor
  · intro hsame c hc kind m
    refine (ClassTree.undisputed_iff hdistinct hc).2 fun part hpart => ?_
    obtain ⟨first, second, hperm, rfl⟩ := hpart.exists_split hdistinct
    rw [← hsame first second hperm, (htwice first second hperm).1]
  · intro hall first second hperm
    obtain ⟨hnames, hpart⟩ := htwice first second hperm
    rw [hnames, hpart.toTable_eq hdistinct hall]

end Session
end Reclass
