import Reclass.Proofs.Session.Batch

set_option relaxedAutoImplicit false
set_option autoImplicit false

/-!
# Failures stay with their object

A session works on objects in their written form, one after the other. Some cannot be read, and the
traits of others fail. If those that can be read are classes with distinct names then every object
gets the answer that it would get alone. What an object leaves behind in the session does not depend
on its traits either: the record of its class is taken before they are applied, and nothing else is
touched.

## Main definitions

* `Reclass.WrittenObject` — an object, with the traits that are to be applied to it.
* `Reclass.Session.replies` — objects one after the other, whatever comes of them.
* `Reclass.Session.SparesOthers` — sessions that differ at most in the access of some classes.

## Main results

* `Reclass.Session.replies_eq` — the answers, and the session after each of them.
* `Reclass.Session.failures_stay_with_object` — what a failure leaves alone.
-/

namespace Reclass

/-- An object in its written form, with the traits that are to be applied to it. -/
structure WrittenObject where
  name : String
  traits : Option (List (Trait ClassTree)) := none
  bytes : List UInt8

namespace Session

variable (s : Session)

/-! ## Objects one after the other -/

/-- What a session does with an object. -/
def reply (s : Session) (o : WrittenObject) : Reply (Except Failure (List UInt8)) :=
  s.transformWritten o.name o.traits o.bytes

/-- What a session does with objects, one after the other. None of them ends the others. -/
def replies (s : Session) : List WrittenObject → List (Reply (Except Failure (List UInt8)))
  | [] => []
  | o :: os => s.reply o :: (s.reply o).session.replies os

/-- The class in an object, if it can be read. -/
def classIn? (s : Session) (o : WrittenObject) : Option ClassTree :=
  (s.codec.readClass o.name o.bytes).toOption

/-- The names of the classes in objects that can be read. -/
def namesIn (s : Session) (objects : List WrittenObject) : List String :=
  objects.filterMap fun o => (s.classIn? o).map ClassTree.name

/-! ## One object -/

variable {s} {o : WrittenObject} {c : ClassTree}

/-- The class in an object is what the codec reads. -/
lemma classIn?_eq_some_iff : s.classIn? o = some c ↔ s.codec.readClass o.name o.bytes = .ok c := by
  unfold classIn?
  cases s.codec.readClass o.name o.bytes <;> simp [Except.toOption]

/-- A class that can be read is among those that can be read. -/
lemma name_mem_namesIn {objects : List WrittenObject} (ho : o ∈ objects) (hc : c ∈ s.classIn? o) :
    c.name ∈ s.namesIn objects :=
  List.mem_filterMap.2 ⟨o, ho, Option.map_eq_some_iff.2 ⟨c, hc, rfl⟩⟩

/-- An object that cannot be read is answered with a failure and leaves the session alone. -/
lemma reply_of_unreadable (hunread : s.classIn? o = none) :
    ∃ failure, s.reply o = ⟨.ok (.error failure), s⟩ := by
  unfold reply transformWritten
  cases hread : s.codec.readClass o.name o.bytes with
  | error failure => exact ⟨failure, rfl⟩
  | ok c => simp [classIn?_eq_some_iff.2 hread] at hunread

/-- What an object that can be read leaves behind is what the class in it does; the traits come
after that. -/
lemma session_reply (hread : s.classIn? o = some c) :
    (s.reply o).session = (s.transform c).session := by
  rw [reply, transformWritten, classIn?_eq_some_iff.1 hread]

/-- What becomes of an object with a class that has a name. -/
lemma reply_of_named (hread : s.classIn? o = some c) (hname : c.name ≠ "") :
    s.reply o = ⟨.ok ((Trait.applyAll o.name s.traitRenaming o.traits (s.transformed c)).bind
      (s.codec.writeClass o.name)), s.afterTransforms [c.name]⟩ :=
  transformWritten_of_applies (classIn?_eq_some_iff.1 hread) fun _ => hname

/-- The answer for an object does not depend on whether other classes have been transformed. -/
lemma result_reply_afterTransforms {names : List String}
    (hclass : ∀ c ∈ s.classIn? o, c.name ≠ "" ∧ c.name ∉ names) :
    ((s.afterTransforms names).reply o).result = (s.reply o).result := by
  cases hread : s.classIn? o with
  | none =>
    unfold reply transformWritten
    cases hbytes : s.codec.readClass o.name o.bytes with
    | error failure =>
      have hsame : (s.afterTransforms names).codec.readClass o.name o.bytes = .error failure :=
        hbytes
      rw [hsame]
    | ok c => simp [classIn?_eq_some_iff.2 hbytes] at hread
  | some c =>
    obtain ⟨hname, hother⟩ := hclass c hread
    have hread' : (s.afterTransforms names).classIn? o = some c := hread
    rw [reply_of_named hread hname, reply_of_named hread' hname,
      transformed_afterTransforms hother]
    rfl

/-- The session has lost the record of the class in an object, if there is one, that has a name. -/
lemma session_reply_of_named (hname : ∀ c ∈ s.classIn? o, c.name ≠ "") :
    (s.reply o).session = s.afterTransforms (s.namesIn [o]) := by
  cases hread : s.classIn? o with
  | none =>
    obtain ⟨failure, hreply⟩ := reply_of_unreadable hread
    have hnames : s.namesIn [o] = [] := by simp [namesIn, hread]
    rw [hreply, hnames, afterTransforms_nil]
  | some c =>
    have hnames : s.namesIn [o] = [c.name] := by simp [namesIn, hread]
    rw [reply_of_named hread (hname c hread), hnames]

/-! ## What stays as it is -/

/-- The sessions differ at most in the access of the classes of some names. -/
structure SparesOthers (s t : Session) (names : List String) : Prop where
  settings : t.settings = s.settings
  given : t.given = s.given
  inherited : t.inherited = s.inherited
  codec : t.codec = s.codec
  hierarchy : t.workspace.hierarchy = s.workspace.hierarchy
  record? : ∀ name ∉ names, t.workspace.access.record? name = s.workspace.access.record? name
  isClosed : ∀ name ∉ names, t.workspace.access.isClosed name = s.workspace.access.isClosed name

/-- Transforming classes spares all others. -/
lemma sparesOthers_afterTransforms (names : List String) :
    s.SparesOthers (s.afterTransforms names) names where
  settings := rfl
  given := rfl
  inherited := rfl
  codec := rfl
  hierarchy := by
    unfold afterTransforms Workspace.afterTakes
    split <;> rfl
  record? name hname := s.workspace.record?_afterTakes s.settings.applyAccess hname
  isClosed name hname := by
    unfold afterTransforms Workspace.afterTakes
    split
    · rw [AccessLedger.isClosed_afterTakes, decide_eq_false hname, Bool.false_and, Bool.or_false]
    · rfl

/-- A session that stays as it is spares everything. -/
lemma SparesOthers.refl (names : List String) : s.SparesOthers s names :=
  ⟨rfl, rfl, rfl, rfl, rfl, fun _ _ => rfl, fun _ _ => rfl⟩

/-- An object spares all classes but the one in it, whatever comes of it. -/
lemma sparesOthers_reply (s : Session) (o : WrittenObject) :
    s.SparesOthers (s.reply o).session (s.namesIn [o]) := by
  cases hread : s.classIn? o with
  | none =>
    obtain ⟨failure, hreply⟩ := reply_of_unreadable hread
    rw [hreply]
    exact .refl _
  | some c =>
    have hnames : s.namesIn [o] = [c.name] := by simp [namesIn, hread]
    rw [session_reply hread, hnames]
    by_cases hfault : s.settings.applyAccess = true ∧ c.name = ""
    · rw [transform_unnamed hfault.1 hfault.2]
      exact .refl _
    · rw [s.transform_eq_of_applies fun ha hname => hfault ⟨ha, hname⟩, afterTransform_eq]
      exact sparesOthers_afterTransforms _

/-- **What objects one after the other are answered, and the session after each of them.** Every
answer is the one that the object gets alone. The session has lost the records of the classes that
have been read so far, and is the same otherwise.

**Proof sketch.** Induction on the objects. One that cannot be read changes nothing. The others find
the session without the record of the first one, which is not theirs
(`result_reply_afterTransforms`). -/
lemma replies_eq {objects : List WrittenObject}
    (hname : ∀ o ∈ objects, ∀ c ∈ s.classIn? o, c.name ≠ "")
    (hdistinct : (s.namesIn objects).Nodup) :
    s.replies objects = objects.mapIdx fun i o =>
      ⟨(s.reply o).result, s.afterTransforms (s.namesIn (objects.take (i + 1)))⟩ := by
  induction objects generalizing s with
  | nil => rfl
  | cons o os ih =>
    have hnames : ∀ os, s.namesIn (o :: os) = s.namesIn [o] ++ s.namesIn os := fun os =>
      List.filterMap_append (l := [o])
    rw [hnames, List.nodup_append] at hdistinct
    obtain ⟨-, hdistinct, hdisjoint⟩ := hdistinct
    have hsession := session_reply_of_named (hname o List.mem_cons_self)
    -- the codec is the same afterwards, so that the others are read as before
    have hothers := ih (s := s.afterTransforms (s.namesIn [o]))
      (fun o' ho' => hname o' (List.mem_cons_of_mem o ho')) hdistinct
    rw [replies, List.mapIdx_cons, hsession, hothers]
    refine congrArg₂ List.cons ?_ (List.mapIdx_eq_mapIdx_iff.2 fun i hi => ?_)
    · rw [Nat.zero_add, List.take_succ_cons, List.take_zero, ← hsession]
    · have hmem : os[i] ∈ os := List.getElem_mem hi
      have hclass : ∀ c ∈ s.classIn? os[i], c.name ≠ "" ∧ c.name ∉ s.namesIn [o] := fun c hc =>
        ⟨hname _ (List.mem_cons_of_mem o hmem) c hc, fun hown =>
          hdisjoint _ hown _ (name_mem_namesIn hmem hc) rfl⟩
      have hresult := result_reply_afterTransforms hclass
      rw [hresult, afterTransforms_afterTransforms, List.take_succ_cons, hnames (os.take (i + 1))]
      rfl

/-- **Failures stay with their object.** Let a session work on objects one after the other. Suppose
that those that can be read are classes with distinct names.

1. Every object gets the answer that it gets alone; failures of others, in reading or in any trait,
   do not show. The session after it has lost the records of the classes read so far, and no more.
2. There is an answer for every object.

This goes for every session and object:

3. If the object cannot be read then the session stays as it is.
4. Other traits, those that fail included, leave the same session.
5. No record, closed class or part of the hierarchy is touched, but for those of the class in the
   object. -/
theorem failures_stay_with_object (s : Session) {objects : List WrittenObject}
    (hname : ∀ o ∈ objects, ∀ c ∈ s.classIn? o, c.name ≠ "")
    (hdistinct : (s.namesIn objects).Nodup) :
    (s.replies objects = objects.mapIdx fun i o =>
      ⟨(s.reply o).result, s.afterTransforms (s.namesIn (objects.take (i + 1)))⟩) ∧
    (∀ o ∈ objects, ∃ answer, (s.reply o).result = .ok answer) ∧
    ∀ (t : Session) (o : WrittenObject),
      (t.classIn? o = none → (t.reply o).session = t) ∧
      (∀ traits, (t.reply { o with traits }).session = (t.reply o).session) ∧
      t.SparesOthers (t.reply o).session (t.namesIn [o]) := by
  refine ⟨replies_eq hname hdistinct, fun o ho => ?_,
    fun t o => ⟨fun hunread => ?_, fun traits => ?_, t.sparesOthers_reply o⟩⟩
  · cases hread : s.classIn? o with
    | none =>
      obtain ⟨failure, hreply⟩ := reply_of_unreadable hread
      exact ⟨_, congrArg Reply.result hreply⟩
    | some c => exact ⟨_, congrArg Reply.result (reply_of_named hread (hname o ho c hread))⟩
  · obtain ⟨failure, hreply⟩ := reply_of_unreadable hunread
    rw [hreply]
  · cases hread : t.classIn? o with
    | none =>
      obtain ⟨failure, hreply⟩ := reply_of_unreadable hread
      obtain ⟨failure', hreply'⟩ := reply_of_unreadable (o := { o with traits }) hread
      rw [hreply, hreply']
    | some c => rw [session_reply hread, session_reply (o := { o with traits }) hread]

/-- Bytes that are no class, a class with a trait that fails, for which access was requested, and a
third object that is not touched by either. -/
theorem failures_stay_with_object_of_third :
    let named (name : String) : ClassTree := { header := { version := 52, access := 33, name } }
    let refused : Trait ClassTree := { apply := fun _ _ => .error ["refused"] }
    let s : Session :=
      { workspace := { access := ({} : AccessLedger).set "a/A" (.pending (.ofClass {})) } }
    let objects : List WrittenObject :=
      [{ name := "a/X", bytes := [52] },
        { name := "a/A", traits := some [refused], bytes := (named "a/A").toBytes },
        { name := "a/B", bytes := (named "a/B").toBytes }]
    s.namesIn objects = ["a/A", "a/B"] ∧
      s.replies objects = objects.mapIdx fun i o =>
        ⟨(s.reply o).result, s.afterTransforms (s.namesIn (objects.take (i + 1)))⟩ := by
  intro named refused s objects
  have hnames : s.namesIn objects = ["a/A", "a/B"] := by decide +kernel
  have hname : ∀ o ∈ objects, ∀ c ∈ s.classIn? o, c.name ≠ "" := by
    intro o ho c hc hempty
    have hmem := name_mem_namesIn ho hc
    simp [hnames, hempty] at hmem
  exact ⟨hnames, (s.failures_stay_with_object hname (by rw [hnames]; decide)).1⟩

end Session

end Reclass
