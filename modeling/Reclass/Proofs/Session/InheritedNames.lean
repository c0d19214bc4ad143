import Mathlib
import Reclass.Proofs.ClassName.Shape
import Reclass.Proofs.Hierarchy.Inheritance
import Reclass.Session

set_option relaxedAutoImplicit false
set_option autoImplicit false

/-!
# The names of a recorded batch

Once a batch has been recorded, a session asks its flattened hierarchy before the given names. The
hierarchy answers alone for the classes of the batch: there the given names are seen only through
the members that were recorded. Classes keep their given names, and so do descriptors; members of
the batch get the name that counts among those found above their class.

## Main definitions

* `Reclass.Renaming.layered` — the given names below those of a recorded batch.

## Main results

* `Reclass.Renaming.className_layered` — recording a batch changes no class name.
* `Reclass.Renaming.nameAt_layered_of_mem` — what a member of the batch is called.
* `Reclass.Session.given_rename_lost_iff` — exactly when a member loses its given new name.
-/

namespace Reclass

open Relation

/-! ## Layered names -/

namespace Renaming

variable (t : Renaming) {classes : List ClassTree} (kind : MemberKind) (m : Member)

/-- The names that a session gives once a batch has been recorded: those of its flattened
hierarchy, and below them the given ones. -/
def layered (t : Renaming) (classes : List ClassTree) : Renaming :=
  (ofTable (Hierarchy.ofBatch t classes).flatten.toTable).orElse t

/-- For a class outside the batch the given names count. -/
lemma find?_layered_of_notMem {name : String} (hname : ∀ c ∈ classes, c.name ≠ name) :
    (t.layered classes).find? name = t.find? name := by
  have hnone := Hierarchy.getElem?_ofBatch_eq_none t hname
  simp only [layered, orElse, ofTable, Hierarchy.getElem?_toTable_flatten_eq_none hnone,
    Option.none_or]

/-- For a class of the batch the hierarchy answers alone. -/
lemma find?_layered_of_mem (hdistinct : (classes.map ClassTree.name).Nodup) {c : ClassTree}
    (hc : c ∈ classes) :
    ∃ names, (t.layered classes).find? c.name = some names ∧
      names.newName = t.typeName c.name ∧
      ∀ (kind : MemberKind) (m : Member), (names.members kind)[m]? =
        (if c.Declares t kind true m then some (t.nameAt kind c.name m) else none).or
          (m.settled? ((Hierarchy.ofBatch t classes).found c.name (.ofClass t c) kind m)) := by
  have hnode := (Hierarchy.getElem?_ofBatch_eq_some_iff t hdistinct).2 ⟨c, hc, rfl, rfl⟩
  obtain ⟨names, hnames, hnew, hmembers⟩ := Hierarchy.getElem?_toTable_flatten hnode
  refine ⟨names, ?_, ?_, fun kind m => ?_⟩
  · simp only [layered, orElse, ofTable, hnames, Option.some_or]
  · rw [hnew, HierarchyNode.newName_ofClass]
  · rw [hmembers, HierarchyNode.getElem?_members_ofClass]

/-- **Recording a batch changes no class name.**

**Proof sketch.** A class of the batch is recorded with its given name; other classes are looked up
among the given names. -/
theorem className_layered (hinternal : ∀ c ∈ classes, ClassName.IsInternal c.name)
    (hdistinct : (classes.map ClassTree.name).Nodup) :
    (t.layered classes).className = t.className := by
  funext name
  by_cases hmem : ∃ c ∈ classes, c.name = name
  · obtain ⟨c, hc, rfl⟩ := hmem
    obtain ⟨names, hfind, hnew, -⟩ := t.find?_layered_of_mem hdistinct hc
    rw [← (hinternal c hc).typeName_eq t, ← hnew]
    simp only [className, hfind]
  · have hfind := t.find?_layered_of_notMem fun c hc heq => hmem ⟨c, hc, heq⟩
    simp only [className, hfind]

/-- What a member is called depends on the class behind its owner only. -/
lemma nameAt_congr {owner other : String}
    (h : ClassName.ofOwner? owner = ClassName.ofOwner? other) :
    t.nameAt kind owner m = t.nameAt kind other m := by
  simp only [nameAt, owner?, h]

/-- A member whose owner is no class of the batch keeps its given name. -/
lemma nameAt_layered_of_notMem {owner : String}
    (howner : ∀ c ∈ classes, ClassName.ofOwner? owner ≠ some c.name) :
    (t.layered classes).nameAt kind owner m = t.nameAt kind owner m := by
  cases ho : ClassName.ofOwner? owner with
  | none => simp only [nameAt, owner?, ho, Option.bind_none]
  | some name =>
    have hfind := t.find?_layered_of_notMem fun c hc heq => howner c hc (by rw [ho, heq])
    simp only [nameAt, owner?, ho, Option.bind_some, hfind]

/-- **What a member of the batch is called**: if its class declares it privately, by its given
name, and else by the name that counts among those found in the class and above it. -/
theorem nameAt_layered_of_mem (hinternal : ∀ c ∈ classes, ClassName.IsInternal c.name)
    (hdistinct : (classes.map ClassTree.name).Nodup) {c : ClassTree} (hc : c ∈ classes) :
    (t.layered classes).nameAt kind c.name m =
      if c.Declares t kind true m then t.nameAt kind c.name m
      else (m.settled? ((Hierarchy.ofBatch t classes).found c.name (.ofClass t c) kind m)).getD
        m.name := by
  obtain ⟨names, hfind, -, hmembers⟩ := t.find?_layered_of_mem hdistinct hc
  rw [nameAt, owner?, (hinternal c hc).ofOwner?_eq, Option.bind_some, hfind, Option.bind_some,
    hmembers]
  split
  · rw [Option.some_or, Option.getD_some]
  · rw [Option.none_or]

end Renaming

/-! ## Recorded sessions -/

namespace Session

variable {s : Session} {t : Renaming} {classes : List ClassTree}

/-- Recording classes with names succeeds. The hierarchy with these classes is flattened and added
to the session, and so are the names in it. -/
lemma recordBatch_of_names (hname : ∀ c ∈ classes, c.name ≠ "") {h : Hierarchy}
    (hadded : classes.foldl (fun h c => h.insert c.name (.ofClass s.givenRenaming c))
      s.workspace.hierarchy = h) :
    s.recordBatch classes =
      ⟨.ok h.flatten.size,
        { s.withHierarchy h.flatten with inherited := some (.ofTable h.flatten.toTable) }⟩ := by
  rw [recordBatch, Hierarchy.addClasses_eq s.givenRenaming hname, hadded]

/-- Recording a batch of classes with names succeeds in a session that has recorded nothing. Its
flattened hierarchy and the names in it are added to the session. -/
lemma recordBatch_eq (hfresh : s.workspace.hierarchy = ∅) (hname : ∀ c ∈ classes, c.name ≠ "") :
    s.recordBatch classes =
      ⟨.ok (Hierarchy.ofBatch s.givenRenaming classes).flatten.size,
        { s.withHierarchy (Hierarchy.ofBatch s.givenRenaming classes).flatten with
          inherited :=
            some (.ofTable (Hierarchy.ofBatch s.givenRenaming classes).flatten.toTable) }⟩ :=
  recordBatch_of_names hname (by rw [hfresh]; rfl)

/-- Once a batch has been recorded the session asks it before the given names. -/
lemma recordBatch_fresh (hgiven : s.given = some t) (hremap : s.settings.remap = true)
    (hfresh : s.workspace.hierarchy = ∅) (hname : ∀ c ∈ classes, c.name ≠ "") :
    (s.recordBatch classes).result = .ok (Hierarchy.ofBatch t classes).flatten.size ∧
      (s.recordBatch classes).session.settings = s.settings ∧
      (s.recordBatch classes).session.renaming? = some (t.layered classes) := by
  have hrenaming : s.givenRenaming = t := by rw [givenRenaming, hgiven, Option.getD_some]
  rw [recordBatch_eq hfresh hname, hrenaming]
  refine ⟨rfl, rfl, ?_⟩
  simp only [renaming?, withHierarchy, hremap, hgiven, if_true]
  rfl

/-- **Exactly when a member loses its given new name.** Record a batch of classes with distinct
internal names in a new session, and take a member that the given names rename. The session leaves
it under its old name if and only if its owner stands for a class of the batch which does not
declare the member, and no class above that one declares it without `private` and has a given new
name for it. A member of a class outside the batch, one that its class declares, and one that is
renamed above its class are never left behind.

**Proof sketch.** Outside the batch the given names count (`nameAt_layered_of_notMem`). For a class
of the batch see `nameAt_layered_of_mem`: a private member has its given name. Otherwise the member
keeps its name exactly when no name found renames it (`settled?_getD_eq_iff`), and the names found
are those given in the class and above it (`mem_found_iff`); if the class declares the member
itself, its given name is among them. -/
theorem given_rename_lost_iff (hgiven : s.given = some t) (hremap : s.settings.remap = true)
    (hfresh : s.workspace.hierarchy = ∅)
    (hinternal : ∀ c ∈ classes, ClassName.IsInternal c.name)
    (hdistinct : (classes.map ClassTree.name).Nodup) (kind : MemberKind)
    (owner name descriptor : String)
    (hrenamed : t.memberName kind owner name descriptor ≠ name) :
    ∃ count r, (s.recordBatch classes).result = .ok count ∧
      (s.recordBatch classes).session.renaming? = some r ∧
      (r.memberName kind owner name descriptor = name ↔
        ∃ c ∈ classes, ClassName.ofOwner? owner = some c.name ∧
          (∀ hidden, ¬c.Declares t kind hidden (t.member kind name descriptor)) ∧
          ∀ b ∈ classes, TransGen (ClassTree.DirectlyAbove classes) c.name b.name →
            b.Declares t kind false (t.member kind name descriptor) →
            t.memberName kind b.name name descriptor = name) := by
  obtain ⟨hresult, -, hrenaming⟩ := recordBatch_fresh hgiven hremap hfresh
    fun c hc => (hinternal c hc).ne_empty
  refine ⟨_, _, hresult, hrenaming, ?_⟩
  have hmember : (t.layered classes).member kind name descriptor =
      t.member kind name descriptor := by
    rw [Renaming.member, Renaming.member,
      Renaming.memberDescriptor_congr (t.className_layered hinternal hdistinct)]
  set m := t.member kind name descriptor with hm
  have hname : m.name = name := rfl
  simp only [Renaming.memberName_eq_nameAt, hmember, ← hm] at hrenamed ⊢
  constructor
  · intro hlost
    by_cases howner : ∀ c ∈ classes, ClassName.ofOwner? owner ≠ some c.name
    · rw [t.nameAt_layered_of_notMem kind m howner] at hlost
      exact absurd hlost hrenamed
    · push Not at howner
      obtain ⟨c, hc, howner⟩ := howner
      have hclass := (hinternal c hc).ofOwner?_eq
      rw [Renaming.nameAt_congr _ kind m (howner.trans hclass.symm)] at hrenamed hlost
      rw [t.nameAt_layered_of_mem kind m hinternal hdistinct hc] at hlost
      split at hlost
      · exact absurd hlost hrenamed
      · next hprivate =>
        have hall := m.settled?_getD_eq_iff.1 hlost
        refine ⟨c, hc, howner, fun hidden hdecl => ?_, fun b hb habove hdecl => ?_⟩
        · cases hidden with
          | true => exact hprivate hdecl
          | false =>
            exact hrenamed (hall _ ((Hierarchy.mem_found_iff t kind m hdistinct hc).2
              ⟨c, hc, .inl rfl, hdecl, rfl⟩))
        · exact hall _ ((Hierarchy.mem_found_iff t kind m hdistinct hc).2
            ⟨b, hb, .inr habove, hdecl, rfl⟩)
  · rintro ⟨c, hc, howner, hundeclared, habove⟩
    have hclass := (hinternal c hc).ofOwner?_eq
    rw [Renaming.nameAt_congr _ kind m (howner.trans hclass.symm),
      t.nameAt_layered_of_mem kind m hinternal hdistinct hc, if_neg (hundeclared true)]
    refine m.settled?_getD_eq_iff.2 fun v hv => ?_
    obtain ⟨b, hb, hbc, hdecl, rfl⟩ := (Hierarchy.mem_found_iff t kind m hdistinct hc).1 hv
    rcases hbc with rfl | hchain
    · exact absurd hdecl (hundeclared false)
    · exact habove b hb hchain hdecl

/-- A class declares a method, the class below it and the table rename it, and a third class only
mentions it: the second class is left behind exactly if nothing above it is renamed. -/
theorem given_rename_lost_iff_below_declaration :
    let names : ClassNames := ⟨"a/A", ∅, (∅ : MemberNames).insert ⟨"m", "()V"⟩ "x"⟩
    let t : Renaming := .ofTable ((∅ : RenameTable).insert "a/B" names)
    let above : ClassTree :=
      { header := { version := 52, access := 33, name := "a/A" }
        methods := [{ access := 1, name := "m", descriptor := "()V" }] }
    let below : ClassTree :=
      { header := { version := 52, access := 33, name := "a/B", superName := some "a/A" } }
    let classes := [above, below]
    let s : Session := { given := some t }
    (∀ c ∈ classes, ClassName.IsInternal c.name) ∧ (classes.map ClassTree.name).Nodup ∧
      t.memberName .method "a/B" "m" "()V" ≠ "m" ∧
      ∃ count r, (s.recordBatch classes).result = .ok count ∧
        (s.recordBatch classes).session.renaming? = some r ∧
        (r.memberName .method "a/B" "m" "()V" = "m" ↔
          ∃ c ∈ classes, ClassName.ofOwner? "a/B" = some c.name ∧
            (∀ hidden, ¬c.Declares t .method hidden (t.member .method "m" "()V")) ∧
            ∀ b ∈ classes, TransGen (ClassTree.DirectlyAbove classes) c.name b.name →
              b.Declares t .method false (t.member .method "m" "()V") →
              t.memberName .method b.name "m" "()V" = "m") := by
  intro names t above below classes s
  have hinternal : ∀ c ∈ classes, ClassName.IsInternal c.name := by
    intro c hc
    rcases List.mem_pair.1 hc with rfl | rfl <;> exact ⟨by decide, by decide, by decide⟩
  have hdistinct : (classes.map ClassTree.name).Nodup := by decide
  have hrenamed : t.memberName .method "a/B" "m" "()V" ≠ "m" := by
    have hx : t.memberName .method "a/B" "m" "()V" = "x" := by cbv
    rw [hx]
    decide
  exact ⟨hinternal, hdistinct, hrenamed,
    given_rename_lost_iff rfl rfl rfl hinternal hdistinct .method "a/B" "m" "()V" hrenamed⟩

/-- The given names call a method of a class `x`. The class does not declare the method, so that
once it has been recorded alone the method is called `m` again. -/
theorem given_rename_lost :
    let names : ClassNames := ⟨"a/A", ∅, (∅ : MemberNames).insert ⟨"m", "()V"⟩ "x"⟩
    let t : Renaming := .ofTable ((∅ : RenameTable).insert "a/A" names)
    let c : ClassTree := { header := { version := 52, access := 33, name := "a/A" } }
    let s : Session := { given := some t }
    ClassName.IsInternal c.name ∧ t.memberName .method "a/A" "m" "()V" = "x" ∧
      (s.recordBatch [c]).result = .ok 1 ∧
      (s.recordBatch [c]).session.renaming?.map (·.memberName .method "a/A" "m" "()V") =
        some "m" := by
  refine ⟨⟨by decide, by decide, by decide⟩, ?_, ?_, ?_⟩ <;> cbv

end Session

end Reclass
