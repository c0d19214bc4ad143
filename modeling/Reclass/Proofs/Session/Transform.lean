import Mathlib.Data.List.Nodup
import Reclass.Proofs.Pipeline.Traversal
import Reclass.Session

set_option relaxedAutoImplicit false
set_option autoImplicit false

/-!
# What a session makes of a class

A session passes every class through a pipeline of at most two filters. Seen from outside, a class
with a name gets the access that waits for it and then its new names, and the session differs from
before only in that the access has been taken.

## Main definitions

* `Reclass.AccessLedger.afterTakes` — a ledger once the records of some classes have been taken.
* `Reclass.Session.parts` — the filters that every class passes.
* `Reclass.Session.transformed` — what a session makes of a class.
* `Reclass.Session.afterTransform`, `afterTransforms` — the session after a class, or several.

## Main results

* `Reclass.Session.runParts_parts` — what the filters of a session make of a class.
* `Reclass.Session.transform_eq` — a class is transformed as a whole.
* `Reclass.Session.transformEach_eq` — the classes of a batch do not notice each other.
-/

namespace Reclass

/-! ## Taking access -/

namespace AccessLedger

/-- The ledger once the record of a class, if there is one, has been taken. -/
def afterTake (l : AccessLedger) (name : String) : AccessLedger :=
  if (l.record? name).isSome then l.set name .closed else l

/-- Whatever waits for a class with a name is taken. -/
lemma take_eq (l : AccessLedger) {name : String} (hname : name ≠ "") :
    l.take name = .ok (l.record? name, l.afterTake name) := by
  unfold take afterTake
  simp only [MissingName.require, hname, if_false]
  cases l.record? name <;> rfl

/-- The ledger once the records of some classes, as far as there are any, have been taken. -/
def afterTakes (l : AccessLedger) (names : List String) : AccessLedger :=
  ⟨l.classes.map fun name status => if name ∈ names then .closed else status⟩

/-- Ledgers that know the same of every class are equal. -/
lemma ext_classes {l m : AccessLedger} (h : ∀ name : String, l.classes[name]? = m.classes[name]?) :
    l = m := by
  cases l
  cases m
  exact congrArg mk (Std.ExtTreeMap.ext_getElem? fun {name} => h name)

variable (l : AccessLedger) (names others : List String) (name : String)

/-- What is known of a class once records have been taken. -/
lemma getElem?_afterTakes :
    (l.afterTakes names).classes[name]? =
      if name ∈ names then l.classes[name]?.map fun _ => .closed else l.classes[name]? := by
  rw [afterTakes, Std.ExtTreeMap.getElem?_map]
  split_ifs
  · rfl
  · exact Option.map_id'

/-- No record waits for the classes whose records have been taken. -/
lemma record?_afterTakes :
    (l.afterTakes names).record? name = if name ∈ names then none else l.record? name := by
  rw [record?, record?, getElem?_afterTakes]
  split_ifs
  · cases l.classes[name]? <;> rfl
  · rfl

/-- A class is closed once its record has been taken. -/
lemma isClosed_afterTakes : (l.afterTakes names).isClosed name =
    (l.isClosed name || decide (name ∈ names) && (l.record? name).isSome) := by
  rw [isClosed, isClosed, record?, getElem?_afterTakes]
  split_ifs with hname
  · cases l.classes[name]? with
    | none => simp
    | some status => cases status <;> simp [hname]
  · simp [hname]

/-- Records are taken all at once or some after others. -/
lemma afterTakes_afterTakes :
    (l.afterTakes names).afterTakes others = l.afterTakes (names ++ others) := by
  refine ext_classes fun name => ?_
  simp only [getElem?_afterTakes, List.mem_append]
  by_cases h : name ∈ names <;> by_cases h' : name ∈ others <;> simp [h, h', Function.comp_def]

variable {names others}

/-- It does not matter in which order records are taken, nor how often it is tried. -/
lemma afterTakes_congr (h : ∀ name, name ∈ names ↔ name ∈ others) :
    l.afterTakes names = l.afterTakes others := by
  simp only [afterTakes, h]

/-- Taking no record changes nothing. -/
lemma afterTakes_nil : l.afterTakes [] = l :=
  ext_classes fun name => by rw [getElem?_afterTakes, if_neg List.not_mem_nil]

/-- Taking one record is taking some. -/
lemma afterTake_eq_afterTakes : l.afterTake name = l.afterTakes [name] := by
  refine ext_classes fun other => ?_
  rw [getElem?_afterTakes]
  by_cases hname : other = name
  · subst hname
    cases hstatus : l.classes[other]? with
    | none => simp [afterTake, record?, hstatus]
    | some status => cases status <;> simp [afterTake, record?, set, hstatus]
  · have hmem : other ∉ [name] := by rwa [List.mem_singleton]
    rw [if_neg hmem, afterTake]
    split
    · exact (getElem?_insert_ite ..).trans (if_neg hname)
    · rfl

end AccessLedger

namespace Workspace

/-- The workspace once the records of some classes have been taken, if access is applied. -/
def afterTakes (w : Workspace) (applies : Bool) (names : List String) : Workspace :=
  if applies then { w with access := w.access.afterTakes names } else w

variable (w : Workspace) (applies : Bool) {names others : List String}

/-- Records are taken all at once or some after others. -/
lemma afterTakes_afterTakes :
    (w.afterTakes applies names).afterTakes applies others =
      w.afterTakes applies (names ++ others) := by
  unfold afterTakes
  split
  · rw [AccessLedger.afterTakes_afterTakes]
  · rfl

/-- It does not matter in which order records are taken, nor how often it is tried. -/
lemma afterTakes_congr (h : ∀ name, name ∈ names ↔ name ∈ others) :
    w.afterTakes applies names = w.afterTakes applies others := by
  rw [afterTakes, AccessLedger.afterTakes_congr _ h, afterTakes]

/-- Taking no record changes nothing. -/
lemma afterTakes_nil : w.afterTakes applies [] = w := by
  rw [afterTakes, AccessLedger.afterTakes_nil, ite_self]

/-- Taking some records leaves another one waiting. -/
lemma record?_afterTakes {name : String} (hname : name ∉ names) :
    (w.afterTakes applies names).access.record? name = w.access.record? name := by
  unfold afterTakes
  split
  · rw [AccessLedger.record?_afterTakes, if_neg hname]
  · rfl

end Workspace

namespace Session

/-! ## Single classes -/

/-- The access that a session applies to a class. -/
def accessFor (s : Session) (name : String) : AccessRecord :=
  if s.settings.applyAccess then (s.workspace.access.record? name).getD {} else {}

/-- What a session makes of a class: its access applied, then its names replaced. -/
def transformed (s : Session) (c : ClassTree) : ClassTree :=
  let c := (s.accessFor c.name).classTree c
  s.renaming?.elim c fun r => r.classTree c

/-- The session once it has transformed a class. -/
def afterTransform (s : Session) (name : String) : Session :=
  if s.settings.applyAccess then
    { s with workspace := { s.workspace with access := s.workspace.access.afterTake name } }
  else s

/-- The session once it has transformed classes of these names. -/
def afterTransforms (s : Session) (names : List String) : Session :=
  { s with workspace := s.workspace.afterTakes s.settings.applyAccess names }

/-- The filters that every class passes: access requests, then renaming, as far as they apply. -/
def parts (s : Session) : List (Part Empty) :=
  (if s.settings.applyAccess then [.filter .access] else []) ++
    s.renaming?.toList.map fun r => .filter (.rename r)

variable (s : Session)

/-- Transforming one class is transforming some. -/
lemma afterTransform_eq (name : String) : s.afterTransform name = s.afterTransforms [name] := by
  unfold afterTransform afterTransforms Workspace.afterTakes
  rw [AccessLedger.afterTake_eq_afterTakes]
  split <;> rfl

/-- Classes are transformed all at once or some after others. -/
lemma afterTransforms_afterTransforms (names others : List String) :
    (s.afterTransforms names).afterTransforms others = s.afterTransforms (names ++ others) := by
  unfold afterTransforms
  rw [Workspace.afterTakes_afterTakes]

/-- What is left of a session does not depend on the order of the classes. -/
lemma afterTransforms_congr {names others : List String}
    (h : ∀ name, name ∈ names ↔ name ∈ others) :
    s.afterTransforms names = s.afterTransforms others := by
  rw [afterTransforms, Workspace.afterTakes_congr _ _ h, afterTransforms]

/-- Transforming no class changes nothing. -/
lemma afterTransforms_nil : s.afterTransforms [] = s := by
  rw [afterTransforms, Workspace.afterTakes_nil]

/-- Transforming classes one by one is transforming them all. -/
lemma foldl_afterTransform (classes : List ClassTree) :
    classes.foldl (fun s c => s.afterTransform c.name) s =
      s.afterTransforms (classes.map ClassTree.name) := by
  induction classes generalizing s with
  | nil => exact s.afterTransforms_nil.symm
  | cons c cs ih =>
    rw [List.foldl_cons, ih, afterTransform_eq, afterTransforms_afterTransforms, List.map_cons,
      List.singleton_append]

/-- **What the filters of a session make of a class**: the class transformed as a whole, if it has a
name or no access is applied.

**Proof sketch.** There are four chains, with and without either filter. Each filter hands on the
events of a whole class (`Chain.feedAll_attach_access`, `Chain.feedAll_attach_rename`), so that the
sink hears those of the class that comes out. -/
lemma runParts_parts {c : ClassTree} (hname : s.settings.applyAccess = true → c.name ≠ "") :
    Pipeline.runParts s.parts s.workspace c =
      { tree := .ok (s.transformed c), workspace := (s.afterTransform c.name).workspace
        log := [] } := by
  unfold parts transformed accessFor afterTransform
  cases ha : s.settings.applyAccess with
  | false =>
    simp only [Bool.false_eq_true, if_false, AccessRecord.classTree_empty]
    cases s.renaming? with
    | none => exact Pipeline.runParts_eq ⟨rfl, rfl, rfl⟩
    | some r =>
      exact Pipeline.runParts_eq
        (Chain.feedAll_attach_rename (@Chain.sink Empty) r c () s.workspace)
  | true =>
    have htake := s.workspace.access.take_eq (hname ha)
    simp only [if_true]
    cases s.renaming? with
    | none =>
      exact Pipeline.runParts_eq (Chain.feedAll_attach_access (@Chain.sink Empty) htake () {})
    | some r =>
      exact Pipeline.runParts_eq ((Chain.feedAll_attach_access
        (Chain.attach (.rename r) (@Chain.sink Empty)) htake ("", ()) {}).trans
        (Chain.feedAll_attach_rename (@Chain.sink Empty) r _ () _))

/-- A class without a name is a fault as soon as its access is asked for. -/
lemma runParts_parts_unnamed {c : ClassTree} (ha : s.settings.applyAccess = true)
    (hname : c.name = "") :
    Pipeline.runParts s.parts s.workspace c =
      { tree := .error .className, workspace := s.workspace, log := [] } := by
  have hfault := Chain.feedAll_attach_access_unnamed
    (Chain.ofParts (s.renaming?.toList.map fun r => .filter (.rename r)) (@Chain.sink Empty)) hname
    s.workspace (Chain.start _) {}
  unfold parts
  rw [if_pos ha]
  exact Pipeline.runParts_eq_of_fault hfault

/-- **Every class passes the filters of its session**; a session without filters gives the class
back. -/
lemma transform_eq_runParts (c : ClassTree) :
    s.transform c = ⟨(Pipeline.runParts s.parts s.workspace c).tree.map .ok,
      { s with workspace := (Pipeline.runParts s.parts s.workspace c).workspace }⟩ := by
  unfold transform pipeline parts
  cases s.settings.applyAccess with
  | false =>
    cases s.renaming? with
    | none =>
      have hrun : Pipeline.runParts ([] : List (Part Empty)) s.workspace c =
          { tree := .ok c, workspace := s.workspace, log := [] } :=
        Pipeline.runParts_eq ⟨rfl, rfl, rfl⟩
      simp [hrun]
      rfl
    | some r => rfl
  | true =>
    cases s.renaming? with
    | none => rfl
    | some r => rfl

/-- **A class with a name is transformed as a whole.** Without a name it is if no access is
applied. -/
theorem transform_eq_of_applies {c : ClassTree}
    (hname : s.settings.applyAccess = true → c.name ≠ "") :
    s.transform c = ⟨.ok (.ok (s.transformed c)), s.afterTransform c.name⟩ := by
  rw [transform_eq_runParts, runParts_parts s hname]
  unfold afterTransform
  split <;> rfl

/-- A class with a name is transformed as a whole. -/
theorem transform_eq {c : ClassTree} (hname : c.name ≠ "") :
    s.transform c = ⟨.ok (.ok (s.transformed c)), s.afterTransform c.name⟩ :=
  s.transform_eq_of_applies fun _ => hname

/-! ## Batches -/

variable {s} {c : ClassTree} {name : String}

/-- Taking the access of some classes leaves that of another one waiting. -/
lemma transformed_afterTransforms {names : List String} (hne : c.name ∉ names) :
    (s.afterTransforms names).transformed c = s.transformed c := by
  have hrecord := s.workspace.record?_afterTakes s.settings.applyAccess hne
  have haccess : (s.afterTransforms names).accessFor c.name = s.accessFor c.name := by
    unfold accessFor afterTransforms
    rw [hrecord]
  rw [transformed, haccess]
  rfl

/-- Taking the access of one class leaves that of another one waiting. -/
lemma transformed_afterTransform (hne : c.name ≠ name) :
    (s.afterTransform name).transformed c = s.transformed c := by
  rw [afterTransform_eq]
  exact transformed_afterTransforms fun hmem => hne (List.mem_singleton.1 hmem)

/-- **Classes with distinct names do not notice each other**: each of them is transformed as if it
came first.

**Proof sketch.** Induction on the batch. The first class takes its own access only, so that the
others find theirs (`transformed_afterTransform`). -/
theorem transformEach_eq {classes : List ClassTree} (hname : ∀ c ∈ classes, c.name ≠ "")
    (hdistinct : (classes.map ClassTree.name).Nodup) :
    s.transformEach classes = ⟨.ok (classes.map fun c => .ok (s.transformed c)),
      classes.foldl (fun s c => s.afterTransform c.name) s⟩ := by
  induction classes generalizing s with
  | nil => rfl
  | cons c cs ih =>
    obtain ⟨hfresh, hdistinct⟩ := List.nodup_cons.1 hdistinct
    have hothers : cs.map (fun c' => Except.ok ((s.afterTransform c.name).transformed c')) =
        cs.map fun c' => (Except.ok (s.transformed c') : Except Failure ClassTree) := by
      refine List.map_congr_left fun c' hc' => ?_
      have hne : c'.name ≠ c.name := fun h => hfresh (h ▸ List.mem_map_of_mem hc')
      rw [transformed_afterTransform hne]
    rw [transformEach, s.transform_eq (hname c List.mem_cons_self)]
    simp only [ih (fun c' hc' => hname c' (List.mem_cons_of_mem c hc')) hdistinct, hothers]
    rfl

end Session

end Reclass
