import Reclass.Proofs.Renaming.Idle
import Reclass.Proofs.Renaming.Nameless
import Reclass.Proofs.Session.InheritedNames
import Reclass.Proofs.Session.Transform

set_option relaxedAutoImplicit false
set_option autoImplicit false

/-!
# What flattening changes

A new session may flatten the hierarchy of a batch before it transforms it, or may do without. In
both cases every class goes through the same access requests and gets the same name, and so do all
classes that it mentions. Hence the results only differ in the names of members, and if no names are
given they do not differ at all.

## Main definitions

* `Reclass.Session.flattening` — the session with the setting on or off.

## Main results

* `Reclass.Renaming.Idle.layered` — without given names a recorded batch has no new ones.
* `Reclass.Session.flattening_keeps_all_but_member_names` — two sessions that differ in the setting.
-/

namespace Reclass

namespace Renaming

variable {t : Renaming} {classes : List ClassTree}

/-- The renaming that changes nothing is idle. -/
lemma idle_identity : identity.Idle where
  className_eq := rfl
  nameAt_eq kind owner m := by
    have howner : identity.owner? owner = none := by
      unfold owner?
      cases ClassName.ofOwner? owner <;> rfl
    rw [nameAt, howner]
    rfl

/-- **Without given names a recorded batch has no new ones.**

**Proof sketch.** Recording changes no class name (`className_layered`). For a member every name
that is found above a class of the batch is its own, so that this is the one that counts
(`nameAt_layered_of_mem`, `settled?_getD_eq_iff`). -/
theorem Idle.layered (h : t.Idle) (hinternal : ∀ c ∈ classes, ClassName.IsInternal c.name)
    (hdistinct : (classes.map ClassTree.name).Nodup) : (t.layered classes).Idle where
  className_eq := (t.className_layered hinternal hdistinct).trans h.className_eq
  nameAt_eq kind owner m := by
    by_cases howner : ∀ c ∈ classes, ClassName.ofOwner? owner ≠ some c.name
    · rw [t.nameAt_layered_of_notMem kind m howner, h.nameAt_eq]
    · push Not at howner
      obtain ⟨c, hc, howner⟩ := howner
      rw [Renaming.nameAt_congr _ kind m (howner.trans (hinternal c hc).ofOwner?_eq.symm),
        t.nameAt_layered_of_mem kind m hinternal hdistinct hc, h.nameAt_eq]
      split
      · rfl
      · refine m.settled?_getD_eq_iff.2 fun v hv => ?_
        obtain ⟨b, -, -, -, rfl⟩ := (Hierarchy.mem_found_iff t kind m hdistinct hc).1 hv
        exact h.nameAt_eq kind b.name m

end Renaming

namespace Session

variable {s : Session} {classes : List ClassTree}

/-- The session with the setting that asks for a flattened hierarchy on or off. -/
def flattening (s : Session) (on : Bool) : Session :=
  { s with settings := { s.settings with flattenHierarchy := on } }

/-! ## Recorded sessions -/

/-- A session that has recorded a batch makes of a class what the names of the batch above the given
ones make of it. -/
lemma transformed_recordBatch (hfresh : s.workspace.hierarchy = ∅)
    (hname : ∀ c ∈ classes, c.name ≠ "") (c : ClassTree) :
    (s.recordBatch classes).session.transformed c =
      if s.settings.remap then
        (s.givenRenaming.layered classes).classTree ((s.accessFor c.name).classTree c)
      else (s.accessFor c.name).classTree c := by
  rw [recordBatch_eq hfresh hname]
  cases hremap : s.settings.remap with
  | false =>
    simp only [transformed, renaming?, withHierarchy, hremap, Bool.false_eq_true, if_false]
    rfl
  | true =>
    simp only [transformed, renaming?, withHierarchy, hremap, if_true]
    cases hgiven : s.given with
    | some t =>
      rw [givenRenaming, hgiven]
      rfl
    | none =>
      have hbelow : ∀ r : Renaming, r.orElse .identity = r := fun r => by
        simp only [Renaming.orElse, Renaming.identity, Option.or_none]
      rw [givenRenaming, hgiven, Option.getD_none, Renaming.layered, hbelow]
      rfl

/-- A new session that has recorded nothing makes of a class what the given names make of it. -/
lemma transformed_of_inherited_none (hinherited : s.inherited = none) (c : ClassTree) :
    s.transformed c =
      if s.settings.remap then s.givenRenaming.classTree ((s.accessFor c.name).classTree c)
      else (s.accessFor c.name).classTree c := by
  cases hremap : s.settings.remap with
  | false => simp only [transformed, renaming?, hremap, Bool.false_eq_true, if_false, Option.elim]
  | true =>
    simp only [transformed, renaming?, hremap, hinherited, if_true, givenRenaming]
    cases s.given with
    | some t => rfl
    | none => exact (Renaming.idle_identity.classTree_eq _).symm

/-- Recording changes what a session makes of a class in the names of members only, and if no names
are given not at all. -/
lemma transformed_recordBatch_alike (hinherited : s.inherited = none)
    (hfresh : s.workspace.hierarchy = ∅)
    (hinternal : ∀ c ∈ classes, ClassName.IsInternal c.name)
    (hdistinct : (classes.map ClassTree.name).Nodup) (c : ClassTree) :
    ((s.recordBatch classes).session.transformed c).nameless = (s.transformed c).nameless ∧
      (s.given = none → (s.recordBatch classes).session.transformed c = s.transformed c) := by
  rw [transformed_recordBatch hfresh (fun c hc => (hinternal c hc).ne_empty),
    transformed_of_inherited_none hinherited]
  cases s.settings.remap with
  | false => exact ⟨rfl, fun _ => rfl⟩
  | true =>
    have hclasses := s.givenRenaming.className_layered hinternal hdistinct
    refine ⟨Renaming.nameless_classTree_congr hclasses _, fun hgiven => ?_⟩
    have hidle : s.givenRenaming.Idle := by
      rw [givenRenaming, hgiven]
      exact Renaming.idle_identity
    exact ((hidle.layered hinternal hdistinct).classTree_eq _).trans (hidle.classTree_eq _).symm

/-! ## Two sessions -/

/-- **Flattening changes the names of members only.** Take a new session with any access requests
and a batch of classes with distinct internal names. Whether the session flattens the hierarchy or
not, every class of the batch is transformed, and the results agree in order and in everything but
the names of members. If no names are given then they are the same.

**Proof sketch.** With the setting on the batch is recorded first, and then each class is
transformed for itself (`transformEach_eq`). The names of the recorded batch are above the given
ones and agree with them on classes (`transformed_recordBatch_alike`). -/
theorem flattening_keeps_all_but_member_names (hinherited : s.inherited = none)
    (hfresh : s.workspace.hierarchy = ∅)
    (hinternal : ∀ c ∈ classes, ClassName.IsInternal c.name)
    (hdistinct : (classes.map ClassTree.name).Nodup) :
    ∃ on off : List ClassTree,
      ((s.flattening true).transformBatch classes).result = .ok (on.map .ok) ∧
      ((s.flattening false).transformBatch classes).result = .ok (off.map .ok) ∧
      on.map ClassTree.nameless = off.map ClassTree.nameless ∧ (s.given = none → on = off) := by
  have hname : ∀ c ∈ classes, c.name ≠ "" := fun c hc => (hinternal c hc).ne_empty
  have hrecorded : ((s.flattening true).recordBatch classes).result = .ok _ :=
    congrArg Reply.result (recordBatch_eq (s := s.flattening true) hfresh hname)
  have halike := fun c => transformed_recordBatch_alike (s := s.flattening true) hinherited hfresh
    hinternal hdistinct c
  refine ⟨classes.map ((s.flattening true).recordBatch classes).session.transformed,
    classes.map s.transformed, ?_, ?_, ?_, fun hgiven => ?_⟩
  · have hflatten : ((s.flattening true).settings.flattenHierarchy &&
        (s.flattening true).inherited.isNone) = true := by
      simp only [flattening, hinherited, Option.isNone_none, Bool.and_self]
    simp only [transformBatch, hflatten, if_true, hrecorded, transformEach_eq hname hdistinct,
      List.map_map, Function.comp_def]
  · simp only [transformBatch, flattening, Bool.false_and, Bool.false_eq_true, if_false,
      transformEach_eq hname hdistinct, List.map_map]
    rfl
  · rw [List.map_map, List.map_map]
    exact List.map_congr_left fun c _ => (halike c).1
  · exact List.map_congr_left fun c _ => (halike c).2 hgiven

/-- A class calls a method that it inherits. A request waits for this class, and once there are
given names for the method and once there are none. -/
theorem flattening_keeps_all_but_member_names_of_caller :
    let names : ClassNames := ⟨"a/Base", ∅, (∅ : MemberNames).insert ⟨"tick", "()V"⟩ "update"⟩
    let t : Renaming := .ofTable ((∅ : RenameTable).insert "a/Base" names)
    let go : MethodDecl :=
      { access := 1, name := "go", descriptor := "()V"
        instructions := [.method 182 ⟨"a/Derived", "tick", "()V"⟩ false] }
    let base : ClassTree :=
      { header := { version := 52, access := 33, name := "a/Base" }
        methods := [{ access := 1, name := "tick", descriptor := "()V" }] }
    let derived : ClassTree :=
      { header := { version := 52, access := 32, name := "a/Derived", superName := some "a/Base" }
        methods := [go] }
    let classes := [base, derived]
    let waiting := ({} : AccessLedger).set "a/Derived" (.pending (.ofClass { isFinal := true }))
    let blank : Session := { workspace := { access := waiting } }
    let s : Session := { blank with given := some t }
    (∀ c ∈ classes, ClassName.IsInternal c.name) ∧ (classes.map ClassTree.name).Nodup ∧
      (∃ on off : List ClassTree,
        ((s.flattening true).transformBatch classes).result = .ok (on.map .ok) ∧
        ((s.flattening false).transformBatch classes).result = .ok (off.map .ok) ∧
        on.map ClassTree.nameless = off.map ClassTree.nameless) ∧
      ∃ outs : List ClassTree,
        ((blank.flattening true).transformBatch classes).result = .ok (outs.map .ok) ∧
        ((blank.flattening false).transformBatch classes).result = .ok (outs.map .ok) := by
  intro names t go base derived classes waiting blank s
  have hinternal : ∀ c ∈ classes, ClassName.IsInternal c.name := by
    intro c hc
    rcases List.mem_pair.1 hc with rfl | rfl <;> exact ⟨by decide, by decide, by decide⟩
  have hdistinct : (classes.map ClassTree.name).Nodup := by decide
  obtain ⟨on, off, hon, hoff, halike, -⟩ := flattening_keeps_all_but_member_names (s := s)
    rfl rfl hinternal hdistinct
  obtain ⟨outs, others, houts, hothers, -, hsame⟩ := flattening_keeps_all_but_member_names
    (s := blank) rfl rfl hinternal hdistinct
  obtain rfl := hsame rfl
  exact ⟨hinternal, hdistinct, ⟨on, off, hon, hoff, halike⟩, outs, houts, hothers⟩

end Session

end Reclass
