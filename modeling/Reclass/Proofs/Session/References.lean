import Reclass.Proofs.Session.InheritedNames
import Reclass.Proofs.Session.Transform

set_option relaxedAutoImplicit false
set_option autoImplicit false

/-!
# References to inherited members

A reference may name a member through a class that only inherits it. Once the batch has been
recorded such a reference is renamed as the declaration is, provided that there is one declaration
to follow: whatever else the class inherits under that name comes from above the declaration, and
the given names agree on it.

Members are told apart by their descriptors with *new* class names. Two descriptors may become the
same, and then the members are the same for a table; therefore what a class declares is asked up to
the new class names throughout.

## Main definitions

* `Reclass.ClassTree.DeclarationsBecome`, `ReferencesBecome` — the new name of a member where it
  is declared and where it is referred to.
* `Reclass.InheritsMember` — a class inherits a member from one class only.

## Main results

* `Reclass.InheritsMember.nameAt_layered` — both classes call the member the same.
* `Reclass.Session.references_follow_declaration` — references follow the declaration.
-/

namespace Reclass

open Relation

/-! ## New names in a class -/

/-- Where the first class declares the member, the second one declares a member called `new`. -/
def ClassTree.DeclarationsBecome (kind : MemberKind) (name descriptor new : String)
    (before after : ClassTree) : Prop :=
  List.Forall₂ (fun d d' => d.name = name → d.descriptor = descriptor → d'.name = new)
    (before.declarations kind) (after.declarations kind)

/-- Where an instruction of the first class refers to the member, that of the second one refers to
a member called `new`. -/
def ClassTree.ReferencesBecome (kind : MemberKind) (target : MemberRef) (new : String)
    (before after : ClassTree) : Prop :=
  List.Forall₂ (fun m m' => List.Forall₂
      (fun i i' => i.target? = some (kind, target) →
        ∃ target', i'.target? = some (kind, target') ∧ target'.name = new)
      m.instructions m'.instructions)
    before.methods after.methods

namespace Renaming

variable (r : Renaming) (a : AccessRecord) (kind : MemberKind) (c : ClassTree)

/-- A class that is renamed declares its members under their new names. -/
lemma declarationsBecome (name descriptor : String) :
    ClassTree.DeclarationsBecome kind name descriptor (r.memberName kind c.name name descriptor) c
      (r.classTree (a.classTree c)) := by
  have hrenamed : ∀ d : Declaration, ∀ access : UInt32,
      d.name = name → d.descriptor = descriptor →
      (r.declaration kind c.name { d with access := access }).name =
        r.memberName kind c.name name descriptor := by
    rintro d access rfl rfl
    rfl
  rw [ClassTree.DeclarationsBecome, declarations_classTree]
  cases kind with
  | field =>
    simp only [ClassTree.declarations, AccessRecord.classTree, List.map_map,
      List.forall₂_map_left_iff, List.forall₂_map_right_iff, List.forall₂_same]
    exact fun f _ => hrenamed ⟨f.access, f.name, f.descriptor⟩ _
  | method =>
    simp only [ClassTree.declarations, AccessRecord.classTree, List.map_map,
      List.forall₂_map_left_iff, List.forall₂_map_right_iff, List.forall₂_same]
    exact fun m _ => hrenamed ⟨m.access, m.name, m.descriptor⟩ _

/-- A class that is renamed refers to members by their new names. -/
lemma referencesBecome (target : MemberRef) :
    ClassTree.ReferencesBecome kind target
      (r.memberName kind target.owner target.name target.descriptor) c
      (r.classTree (a.classTree c)) := by
  simp only [ClassTree.ReferencesBecome, classTree, AccessRecord.classTree, method,
    List.forall₂_map_right_iff, List.forall₂_same]
  intro m _ i _ htarget
  refine ⟨r.memberRef kind target, ?_, r.memberRef_name kind target⟩
  rw [target?_instruction, htarget]
  rfl

end Renaming

/-! ## Inherited members -/

/-- The class `below` inherits the member from the class `above` alone. It does not declare the
member, while `above` declares it, and not privately; other classes from which `below` inherits it
are above `above`; and as far as the given names rename it in those classes, they agree. -/
structure InheritsMember (t : Renaming) (classes : List ClassTree) (kind : MemberKind)
    (name descriptor : String) (below above : ClassTree) : Prop where
  below_mem : below ∈ classes
  above_mem : above ∈ classes
  chain : TransGen (ClassTree.DirectlyAbove classes) below.name above.name
  declared : ∃ d ∈ above.declarations kind, d.name = name ∧ d.descriptor = descriptor
  visible : ¬above.Declares t kind true (t.member kind name descriptor)
  undeclared : ∀ hidden, ¬below.Declares t kind hidden (t.member kind name descriptor)
  others : ∀ c ∈ classes, c ≠ above →
    TransGen (ClassTree.DirectlyAbove classes) below.name c.name →
    c.Declares t kind false (t.member kind name descriptor) →
    TransGen (ClassTree.DirectlyAbove classes) above.name c.name
  agree : ∀ c ∈ classes, ∀ c' ∈ classes,
    TransGen (ClassTree.DirectlyAbove classes) below.name c.name →
    TransGen (ClassTree.DirectlyAbove classes) below.name c'.name →
    c.Declares t kind false (t.member kind name descriptor) →
    c'.Declares t kind false (t.member kind name descriptor) →
    t.memberName kind c.name name descriptor ≠ name →
    t.memberName kind c'.name name descriptor ≠ name →
    t.memberName kind c.name name descriptor = t.memberName kind c'.name name descriptor

/-- **A class calls an inherited member as the class does that declares it.**

**Proof sketch.** Neither class has a private entry for the member, so both call it by the name that
counts among those found (`Renaming.nameAt_layered_of_mem`). Both find the same names: what is above
`above` is above `below` too, and conversely `below` finds nothing but what `above` declares and
what lies above that. The names found agree, so that their order does not matter
(`Member.settled?_getD_congr`). -/
theorem InheritsMember.nameAt_layered {t : Renaming} {classes : List ClassTree} {kind : MemberKind}
    {name descriptor : String} {below above : ClassTree}
    (hinternal : ∀ c ∈ classes, ClassName.IsInternal c.name)
    (hdistinct : (classes.map ClassTree.name).Nodup)
    (h : InheritsMember t classes kind name descriptor below above) :
    (t.layered classes).nameAt kind below.name (t.member kind name descriptor) =
      (t.layered classes).nameAt kind above.name (t.member kind name descriptor) := by
  set m := t.member kind name descriptor with hm
  have hnameAt : ∀ owner, t.nameAt kind owner m = t.memberName kind owner name descriptor :=
    fun owner => (t.memberName_eq_nameAt kind owner name descriptor).symm
  have hbelow := fun v => Hierarchy.mem_found_iff t kind m hdistinct h.below_mem (v := v)
  have habove := fun v => Hierarchy.mem_found_iff t kind m hdistinct h.above_mem (v := v)
  -- nothing is found in the lower class itself
  have hstrict : ∀ b, (b = below ∨ TransGen (ClassTree.DirectlyAbove classes) below.name b.name) →
      b.Declares t kind false m →
      TransGen (ClassTree.DirectlyAbove classes) below.name b.name := by
    intro b hb hdecl
    refine hb.resolve_left fun heq => ?_
    exact h.undeclared false (heq ▸ hdecl)
  rw [t.nameAt_layered_of_mem kind m hinternal hdistinct h.below_mem,
    t.nameAt_layered_of_mem kind m hinternal hdistinct h.above_mem, if_neg (h.undeclared true),
    if_neg h.visible]
  refine m.settled?_getD_congr (fun v => ?_) fun v hv w hw hv' hw' => ?_
  · rw [hbelow, habove]
    constructor
    · rintro ⟨b, hb, hchain, hdecl, rfl⟩
      refine ⟨b, hb, ?_, hdecl, rfl⟩
      by_cases heq : b = above
      · exact .inl heq
      · exact .inr (h.others b hb heq (hstrict b hchain hdecl) hdecl)
    · rintro ⟨b, hb, rfl | hchain, hdecl, rfl⟩
      · exact ⟨b, hb, .inr h.chain, hdecl, rfl⟩
      · exact ⟨b, hb, .inr (h.chain.trans hchain), hdecl, rfl⟩
  · obtain ⟨b, hb, hchain, hdecl, rfl⟩ := (hbelow v).1 hv
    obtain ⟨b', hb', hchain', hdecl', rfl⟩ := (hbelow w).1 hw
    rw [hnameAt] at hv' hw' ⊢
    rw [hnameAt]
    exact h.agree b hb b' hb' (hstrict b hchain hdecl) (hstrict b' hchain' hdecl') hdecl hdecl'
      hv' hw'

/-! ## References -/

namespace Session

/-- **References follow the declaration.** Transform a batch of classes with distinct internal names
in a new session that flattens the hierarchy. If a class inherits a member from one class only, then
every instruction of the batch that refers to the member through the inheriting class carries the
new name under which the other class now declares it.

**Proof sketch.** The batch is recorded first, and each class then gets the names of the recorded
batch (`recordBatch_fresh`, `transformEach_eq`). By these names both classes call the member the
same (`InheritsMember.nameAt_layered`). -/
theorem references_follow_declaration {s : Session} {t : Renaming} {classes : List ClassTree}
    {kind : MemberKind} {name descriptor : String} {below above : ClassTree}
    (hgiven : s.given = some t) (hremap : s.settings.remap = true)
    (hflatten : s.settings.flattenHierarchy = true) (hfresh : s.workspace.hierarchy = ∅)
    (hinherited : s.inherited = none)
    (hinternal : ∀ c ∈ classes, ClassName.IsInternal c.name)
    (hdistinct : (classes.map ClassTree.name).Nodup)
    (hinherits : InheritsMember t classes kind name descriptor below above) :
    ∃ outs new, (s.transformBatch classes).result = .ok (outs.map .ok) ∧
      List.Forall₂ (fun c out =>
        (c = above → ClassTree.DeclarationsBecome kind name descriptor new c out) ∧
          ClassTree.ReferencesBecome kind ⟨below.name, name, descriptor⟩ new c out)
        classes outs := by
  have hname : ∀ c ∈ classes, c.name ≠ "" := fun c hc => (hinternal c hc).ne_empty
  obtain ⟨hresult, -, hrenaming⟩ := recordBatch_fresh hgiven hremap hfresh hname
  have hbatch : (s.transformBatch classes).result =
      .ok (classes.map fun c => .ok ((s.recordBatch classes).session.transformed c)) := by
    simp only [transformBatch, hflatten, hinherited, Option.isNone_none, Bool.and_self, if_true,
      hresult, transformEach_eq hname hdistinct]
  have hmember : (t.layered classes).member kind name descriptor =
      t.member kind name descriptor := by
    rw [Renaming.member, Renaming.member,
      Renaming.memberDescriptor_congr (t.className_layered hinternal hdistinct)]
  have hsame : (t.layered classes).memberName kind below.name name descriptor =
      (t.layered classes).memberName kind above.name name descriptor := by
    rw [Renaming.memberName_eq_nameAt, Renaming.memberName_eq_nameAt, hmember]
    exact hinherits.nameAt_layered hinternal hdistinct
  refine ⟨classes.map (s.recordBatch classes).session.transformed,
    (t.layered classes).memberName kind above.name name descriptor, ?_, ?_⟩
  · rw [hbatch, List.map_map]
    rfl
  · rw [List.forall₂_map_right_iff, List.forall₂_same]
    intro c _
    simp only [transformed, hrenaming, Option.elim_some]
    refine ⟨fun habove => ?_, ?_⟩
    · subst habove
      exact Renaming.declarationsBecome _ _ kind c name descriptor
    · rw [← hsame]
      exact Renaming.referencesBecome _ _ kind c ⟨below.name, name, descriptor⟩

/-- A method is called through a class that inherits it from its superclass, where it is renamed. -/
theorem references_follow_declaration_of_superclass :
    let names : ClassNames := ⟨"a/Base", ∅, (∅ : MemberNames).insert ⟨"tick", "()V"⟩ "update"⟩
    let t : Renaming := .ofTable ((∅ : RenameTable).insert "a/Base" names)
    let above : ClassTree :=
      { header := { version := 52, access := 33, name := "a/Base" }
        methods := [{ access := 1, name := "tick", descriptor := "()V" }] }
    let below : ClassTree :=
      { header := { version := 52, access := 33, name := "a/Derived", superName := "a/Base" } }
    let caller : ClassTree :=
      { header := { version := 52, access := 33, name := "a/Caller" }
        methods := [{
          access := 1, name := "go", descriptor := "()V"
          instructions := [.method 182 ⟨"a/Derived", "tick", "()V"⟩ false] }] }
    let classes := [above, below, caller]
    let s : Session := { settings := { flattenHierarchy := true }, given := some t }
    InheritsMember t classes .method "tick" "()V" below above ∧
      (∀ c ∈ classes, ClassName.IsInternal c.name) ∧ (classes.map ClassTree.name).Nodup ∧
      ∃ outs new, (s.transformBatch classes).result = .ok (outs.map .ok) ∧
        List.Forall₂ (fun c out =>
          (c = above → ClassTree.DeclarationsBecome .method "tick" "()V" new c out) ∧
            ClassTree.ReferencesBecome .method ⟨below.name, "tick", "()V"⟩ new c out)
          classes outs := by
  intro names t above below caller classes s
  have hclasses : ∀ c ∈ classes, c = above ∨ c = below ∨ c = caller := by
    simp [classes]
  have hbelow : ∀ hidden, ¬below.Declares t .method hidden (t.member .method "tick" "()V") := by
    decide
  have hcaller : ¬caller.Declares t .method false (t.member .method "tick" "()V") := by
    decide
  have honly : ∀ c ∈ classes, c.Declares t .method false (t.member .method "tick" "()V") →
      c = above := by
    intro c hc hdecl
    rcases hclasses c hc with rfl | rfl | rfl
    · rfl
    · exact absurd hdecl (hbelow false)
    · exact absurd hdecl hcaller
  have hinherits : InheritsMember t classes .method "tick" "()V" below above := {
    below_mem := by simp [classes]
    above_mem := by simp [classes]
    chain := .single ⟨below, by simp [classes], rfl, by decide⟩
    declared := ⟨_, List.mem_singleton_self _, rfl, rfl⟩
    visible := by decide
    undeclared := hbelow
    others := fun c hc hne _ hdecl => absurd (honly c hc hdecl) hne
    agree := fun c hc c' hc' _ _ hdecl hdecl' _ _ => by
      rw [honly c hc hdecl, honly c' hc' hdecl'] }
  have hinternal : ∀ c ∈ classes, ClassName.IsInternal c.name := by
    intro c hc
    rcases hclasses c hc with rfl | rfl | rfl <;> exact ⟨by decide, by decide, by decide⟩
  have hdistinct : (classes.map ClassTree.name).Nodup := by decide
  exact ⟨hinherits, hinternal, hdistinct,
    references_follow_declaration rfl rfl rfl rfl rfl hinternal hdistinct hinherits⟩

/-- Two classes get the same new name, so that two descriptors become the same. A class then has a
private method that is the inherited one by the new descriptors alone, or declares next to the
method that is inherited from it a private one with the same new descriptor. In the first case the
reference keeps the old name while the declaration is renamed; in the second case the reference gets
the name from farther up, which the declaration does not get. -/
theorem references_lost_among_equal_descriptors :
    let t : Renaming := .ofTable ((((∅ : RenameTable).insert "a/X" ⟨"z/Z", ∅, ∅⟩).insert
      "a/Y" ⟨"z/Z", ∅, ∅⟩).insert
      "a/A" ⟨"a/A", ∅, (∅ : MemberNames).insert ⟨"m", "(Lz/Z;)V"⟩ "x"⟩)
    let s : Session := { settings := { flattenHierarchy := true }, given := some t }
    let shared : MethodDecl := { access := 1, name := "m", descriptor := "(La/X;)V" }
    let secret : MethodDecl := { access := 2, name := "m", descriptor := "(La/Y;)V" }
    let calling (owner : String) : MethodDecl :=
      { access := 1, name := "go", descriptor := "()V"
        instructions := [.method 182 ⟨owner, "m", "(La/X;)V"⟩ false] }
    let top : ClassTree :=
      { header := { version := 52, access := 33, name := "a/A" }, methods := [shared] }
    let middle : ClassTree :=
      { header := { version := 52, access := 33, name := "a/B", superName := some "a/A" }
        methods := [calling "a/B", secret] }
    let doubled : ClassTree := { middle with methods := [shared, secret] }
    let bottom : ClassTree :=
      { header := { version := 52, access := 33, name := "a/C", superName := some "a/B" }
        methods := [calling "a/C"] }
    let methods (classes : List ClassTree) := (s.transformBatch classes).result.map
      (List.map fun out => out.map fun c =>
        c.methods.map fun m => (m.name, m.instructions.map Instruction.target?))
    (∀ c ∈ [top, middle, doubled, bottom], ClassName.IsInternal c.name) ∧
      ClassTree.DirectlyAbove [top, middle] middle.name top.name ∧
      ClassTree.DirectlyAbove [top, doubled, bottom] bottom.name doubled.name ∧
      ClassTree.DirectlyAbove [top, doubled, bottom] doubled.name top.name ∧
      (∀ d ∈ middle.declarations .method ++ bottom.declarations .method,
        (d.name, d.descriptor) ≠ (shared.name, shared.descriptor)) ∧
      methods [top, middle] =
        .ok [.ok [("x", [])],
          .ok [("go", [some (.method, ⟨"a/B", "m", "(Lz/Z;)V"⟩)]), ("m", [])]] ∧
      methods [top, doubled, bottom] =
        .ok [.ok [("x", [])], .ok [("m", []), ("m", [])],
          .ok [("go", [some (.method, ⟨"a/C", "x", "(Lz/Z;)V"⟩)])]] := by
  refine ⟨fun c hc => ?_, ?_, ?_, ?_, by decide, ?_, ?_⟩
  · simp only [List.mem_cons, List.not_mem_nil, or_false] at hc
    rcases hc with rfl | rfl | rfl | rfl <;> exact ⟨by decide, by decide, by decide⟩
  · exact ⟨_, List.mem_cons_of_mem _ List.mem_cons_self, rfl, List.mem_cons_self⟩
  · exact ⟨_, List.mem_cons_of_mem _ (List.mem_cons_of_mem _ List.mem_cons_self), rfl,
      List.mem_cons_self⟩
  · exact ⟨_, List.mem_cons_of_mem _ List.mem_cons_self, rfl, List.mem_cons_self⟩
  · cbv
  · cbv

end Session

end Reclass
