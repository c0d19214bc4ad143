import Reclass.Proofs.Hierarchy.Recording
import Reclass.Proofs.Session.Transform

set_option relaxedAutoImplicit false
set_option autoImplicit false

/-!
# How a batch ends

Classes that a session transforms may hold anything, and each of them gets its own result. There is
one exception: access requests and the hierarchy know classes by name, so that a class without a
name ends the whole batch as soon as one of them is asked. Nothing else ends a batch, and an object
in its written form ends with a fault for the same reason only.

## Main definitions

* `Reclass.Session.prepared` — the session once a batch has been recorded, if it has to be.
* `Reclass.Session.wantsNames` — sessions that ask for the names of the classes of a batch.

## Main results

* `Reclass.Session.transformBatch_eq_transformEach` — what recording a batch comes to.
* `Reclass.Session.transformEach_result` — what becomes of classes, one after the other.
* `Reclass.Session.ends_unless_unnamed` — what ends a batch, or the work on a written class.
-/

namespace Reclass

/-- A class without a name ends the recording of a batch. -/
lemma Hierarchy.addClasses_unnamed (r : Renaming) {classes : List ClassTree}
    (hunnamed : ∃ c ∈ classes, c.name = "") (h : Hierarchy) :
    ∃ recorded, h.addClasses r classes = (recorded, some .className) := by
  induction classes generalizing h with
  | nil =>
    obtain ⟨c, hc, -⟩ := hunnamed
    exact absurd hc List.not_mem_nil
  | cons c cs ih =>
    rw [addClasses]
    by_cases hname : c.name = ""
    · have hfault : h.addClass r c = .error .className := by
        simp only [addClass, add, MissingName.require, hname, if_true]
        rfl
      exact ⟨h, by rw [hfault]⟩
    · rw [addClass_eq r hname]
      obtain ⟨d, hd, hdname⟩ := hunnamed
      rcases List.mem_cons.1 hd with rfl | hd
      · exact absurd hdname hname
      · exact ih ⟨d, hd, hdname⟩ _

namespace Session

variable (s : Session) {classes : List ClassTree} {c : ClassTree}

/-! ## Recording a batch -/

/-- A session as the classes of a batch find it: the batch has been recorded, if it has to be. -/
def prepared (s : Session) (classes : List ClassTree) : Session :=
  if s.settings.flattenHierarchy && s.inherited.isNone then (s.recordBatch classes).session else s

/-- A batch does not change the settings. -/
lemma settings_prepared (classes : List ClassTree) :
    (s.prepared classes).settings = s.settings := by
  unfold prepared recordBatch
  split
  · split <;> rfl
  · rfl

/-- If a batch can be recorded, or need not be, then its classes are transformed one after the
other. -/
lemma transformBatch_eq_transformEach
    (hname : (s.settings.flattenHierarchy && s.inherited.isNone) = true →
      ∀ c ∈ classes, c.name ≠ "") :
    s.transformBatch classes = (s.prepared classes).transformEach classes := by
  unfold transformBatch prepared
  split
  · next hrecords =>
    unfold recordBatch
    rw [Hierarchy.addClasses_eq _ (hname hrecords)]
  · rfl

/-! ## Classes without names -/

/-- The session asks for the names of the classes of a batch, to apply access or to record them. -/
def wantsNames (s : Session) : Bool :=
  s.settings.applyAccess || (s.settings.flattenHierarchy && s.inherited.isNone)

variable {s}

/-- A class without a name is a fault if access is applied. -/
lemma transform_unnamed (ha : s.settings.applyAccess = true) (hname : c.name = "") :
    s.transform c = ⟨.error .className, s⟩ := by
  rw [transform_eq_runParts, runParts_parts_unnamed s ha hname]
  rfl

/-- A class without a name ends what a session does with classes, if access is applied. -/
lemma transformEach_unnamed (ha : s.settings.applyAccess = true)
    (hunnamed : ∃ c ∈ classes, c.name = "") :
    (s.transformEach classes).result = .error .className := by
  induction classes generalizing s with
  | nil =>
    obtain ⟨c, hc, -⟩ := hunnamed
    exact absurd hc List.not_mem_nil
  | cons c cs ih =>
    rw [transformEach]
    by_cases hname : c.name = ""
    · rw [transform_unnamed ha hname]
    · have hsettings : (s.afterTransform c.name).settings.applyAccess = true := by
        rw [afterTransform_eq]
        exact ha
      obtain ⟨d, hd, hdname⟩ := hunnamed
      rcases List.mem_cons.1 hd with rfl | hd
      · exact absurd hdname hname
      · rw [s.transform_eq hname]
        simp only [ih hsettings ⟨d, hd, hdname⟩]
        rfl

/-- **What becomes of classes, one after the other**, if they have names or no access is applied.
Each class finds the session as the ones before have left it. -/
lemma transformEach_result (hname : s.settings.applyAccess = true → ∀ c ∈ classes, c.name ≠ "") :
    (s.transformEach classes).result = .ok (classes.mapIdx fun i c =>
      .ok ((s.afterTransforms ((classes.take i).map ClassTree.name)).transformed c)) := by
  induction classes generalizing s with
  | nil => rfl
  | cons c cs ih =>
    have hfirst := s.transform_eq_of_applies fun ha => hname ha c List.mem_cons_self
    have hothers := ih (s := s.afterTransforms [c.name]) fun ha c' hc' =>
      hname ha c' (List.mem_cons_of_mem c hc')
    rw [transformEach, hfirst, afterTransform_eq, List.mapIdx_cons]
    simp only [hothers, List.take_zero, List.map_nil, afterTransforms_nil, List.take_succ_cons,
      List.map_cons, afterTransforms_afterTransforms, List.singleton_append]
    rfl

/-- A class without a name ends a batch that is recorded, before any class is transformed. -/
lemma transformBatch_unnamed (hrecords : (s.settings.flattenHierarchy && s.inherited.isNone) = true)
    (hunnamed : ∃ c ∈ classes, c.name = "") :
    (s.transformBatch classes).result = .error .className := by
  obtain ⟨recorded, hrecord⟩ :=
    Hierarchy.addClasses_unnamed s.givenRenaming hunnamed s.workspace.hierarchy
  rw [transformBatch, if_pos hrecords, recordBatch, hrecord]

/-- The work on a written class, if it has a name or no access is applied. -/
lemma transformWritten_of_applies {name : String} {traits : Option (List (Trait ClassTree))}
    {bytes : List UInt8} (hread : s.codec.readClass name bytes = .ok c)
    (hname : s.settings.applyAccess = true → c.name ≠ "") :
    s.transformWritten name traits bytes =
      ⟨.ok ((Trait.applyAll name s.traitRenaming traits (s.transformed c)).bind
        (s.codec.writeClass name)), s.afterTransforms [c.name]⟩ := by
  rw [transformWritten, hread]
  dsimp only
  rw [s.transform_eq_of_applies hname, afterTransform_eq]
  rfl

/-- **Nothing but a class without a name ends a batch**, and it does if the session wants names.
Otherwise there is a result for every class, in the order of the batch: a class finds the session
as the ones before have left it. An object in its written form gives a result as well, whatever its
bytes and traits are, unless it is a class without a name and access is applied.

**Proof sketch.** A class without a name can neither be recorded (`Hierarchy.addClasses_unnamed`)
nor asked for its access (`transformEach_unnamed`). With names, or if nobody asks for them, classes
go through one by one (`transformEach_result`). -/
theorem ends_unless_unnamed (s : Session) :
    (∀ classes : List ClassTree, (s.transformBatch classes).result =
      if s.wantsNames ∧ ∃ c ∈ classes, c.name = "" then .error .className
      else .ok (classes.mapIdx fun i c => .ok (((s.prepared classes).afterTransforms
        ((classes.take i).map ClassTree.name)).transformed c))) ∧
    ∀ (name : String) (traits : Option (List (Trait ClassTree))) (bytes : List UInt8),
      (s.transformWritten name traits bytes).result =
        match s.codec.readClass name bytes with
        | .error e => .ok (.error e)
        | .ok c =>
          if s.settings.applyAccess ∧ c.name = "" then .error .className
          else .ok ((Trait.applyAll name s.traitRenaming traits (s.transformed c)).bind
            (s.codec.writeClass name)) := by
  refine ⟨fun classes => ?_, fun name traits bytes => ?_⟩
  · split_ifs with hends
    · obtain ⟨hwants, hunnamed⟩ := hends
      by_cases hrecords : (s.settings.flattenHierarchy && s.inherited.isNone) = true
      · exact transformBatch_unnamed hrecords hunnamed
      · have ha : s.settings.applyAccess = true := by
          simpa [wantsNames, hrecords] using hwants
        rw [s.transformBatch_eq_transformEach fun h => absurd h hrecords]
        exact transformEach_unnamed (by rw [settings_prepared]; exact ha) hunnamed
    · have hnamed : s.wantsNames = true → ∀ c ∈ classes, c.name ≠ "" :=
        fun hwants c hc hname => hends ⟨hwants, c, hc, hname⟩
      rw [s.transformBatch_eq_transformEach fun h => hnamed (by simp [wantsNames, h])]
      refine transformEach_result fun ha => hnamed ?_
      rw [settings_prepared] at ha
      simp [wantsNames, ha]
  · cases hread : s.codec.readClass name bytes with
    | error e => rw [transformWritten, hread]
    | ok c =>
      dsimp only
      split_ifs with hends
      · rw [transformWritten, hread]
        dsimp only
        rw [transform_unnamed hends.1 hends.2]
        rfl
      · rw [transformWritten_of_applies hread fun ha hname => hends ⟨ha, hname⟩]

/-- A class without a name among two others, and in its written form. If no access is applied then
all three of them have results. -/
theorem batch_ended_by_unnamed :
    let named (name : String) : ClassTree := { header := { version := 52, access := 33, name } }
    let classes : List ClassTree := [named "a/A", named "", named "a/B"]
    (({} : Session).transformBatch classes).result = .error .className ∧
      (({} : Session).transformWritten "a/A" none (named "").toBytes).result = .error .className ∧
      (({ settings := { applyAccess := false } } : Session).transformBatch classes).result =
        .ok (classes.map .ok) := by
  exact ⟨rfl, rfl, rfl⟩

end Session

end Reclass
