import Reclass.Proofs.Json.Reading
import Reclass.Proofs.Map.Insertion
import Reclass.Proofs.Member.Kind
import Reclass.RenameTable.Document

set_option relaxedAutoImplicit false
set_option autoImplicit false

/-!
# Documents of rename tables

A rename table that is written as a document is read back without loss, whatever text stands in it.
The document tells nothing but what the table says: it does not show in which order the table was
filled, and members come sorted, in whatever order they were collected.

## Main definitions

* `Reclass.ClassNames.Slot`, `Reclass.RenameTable.Entry` — one new name, of a class or of a member.
* `Reclass.RenameTable.enter` — enters a new name into a table.

## Main results

* `Reclass.RenameTable.ofJson?_toJson` — a table is read back from its record.
* `Reclass.RenameTable.foldl_enter_perm` — new names may be entered in any order.
* `Reclass.RenameTable.document_lossless_and_canonical` — documents keep the contents of a table and
  nothing else.
-/

namespace Reclass

open Json

/-! ## Reading what has been written -/

/-- Items that are read back one by one are read back together. -/
lemma mapM_map_eq_some {α β : Type} {write : α → β} {read? : β → Option α}
    (h : ∀ a, read? (write a) = some a) (l : List α) : (l.map write).mapM read? = some l := by
  induction l with
  | nil => rfl
  | cons a l ih =>
    rw [List.map_cons, List.mapM_cons, h, ih]
    rfl

namespace MemberNames

/-- The record of one member. -/
def entryJson (p : Member × String) : Value :=
  .object
    [entry "name" (ofText p.1.name), entry "descriptor" (ofText p.1.descriptor),
      entry "renamed" (ofText p.2)]

/-- Members are written as a list of records. -/
lemma toJson_eq (names : MemberNames) : names.toJson = .array (names.toList.map entryJson) := rfl

/-- A member is read back from its record. -/
lemma entry?_entryJson (p : Member × String) : entry? (entryJson p) = some p := rfl

/-- The members of a class are read back from their records. -/
lemma ofJson?_toJson (names : MemberNames) : ofJson? names.toJson = some names := by
  rw [toJson_eq, ofJson?, Value.list?, mapM_map_eq_some entry?_entryJson, Option.map_some]
  exact congrArg some (ofEntries_toList names)

end MemberNames

/-- The new names of a class are read back from their record. -/
lemma ClassNames.ofJson?_toJson (names : ClassNames) : ofJson? names.toJson = some names := by
  have hrecord : names.toJson.record? ["renamed_name", "fields", "methods"] =
      some [some (ofText names.newName), some names.fields.toJson, some names.methods.toJson] := rfl
  simp only [ofJson?, hrecord, Value.required?, Value.withDefault?, MemberNames.ofJson?_toJson]
  rfl

namespace RenameTable

/-- A table is read back from its record. -/
theorem ofJson?_toJson (t : RenameTable) : ofJson? t.toJson = some t := by
  have hrecord : t.toJson.record? ["classes"] =
      some [some (.object (t.toList.map fun p => entry p.1 p.2.toJson))] := rfl
  have hclasses : Value.dictionary? ClassNames.ofJson?
      (.object (t.toList.map fun p => entry p.1 p.2.toJson)) = some t.toList :=
    mapM_map_eq_some (fun p => by
      simp only [entry, ClassNames.ofJson?_toJson]) t.toList
  simp only [ofJson?, hrecord, Value.withDefault?, hclasses]
  exact congrArg some (ofEntries_toList t)

/-- A table is read back from its document. -/
theorem read_toDocument (t : RenameTable) : read t.toDocument = .ok t := by
  have hdocument : ofDocument? t.toDocument = some t := by
    rw [ofDocument?, toDocument, Value.parse?_pretty, Option.bind_some, ofJson?_toJson]
  rw [read, hdocument]

end RenameTable

/-! ## Filling a table -/

namespace ClassNames

/-- What a table can give a new name: a class itself or one of its members. -/
inductive Slot where
  | itself
  | member (kind : MemberKind) (m : Member)
deriving DecidableEq

/-- Sets one new name. -/
def set (names : ClassNames) (new : String) : Slot → ClassNames
  | .itself => { names with newName := new }
  | .member .field m => { names with fields := names.fields.insert m new }
  | .member .method m => { names with methods := names.methods.insert m new }

/-- It does not matter which of two new names of a class is set first. -/
lemma set_comm (names : ClassNames) {s s' : Slot} (hne : s ≠ s') (new new' : String) :
    (names.set new s).set new' s' = (names.set new' s').set new s := by
  cases s with
  | itself =>
    cases s' with
    | itself => exact absurd rfl hne
    | member kind m => cases kind <;> rfl
  | member kind m =>
    cases s' with
    | itself => cases kind <;> rfl
    | member kind' m' =>
      have hm : kind = kind' → m ≠ m' := fun hkind h => hne (by rw [hkind, h])
      cases kind <;> cases kind'
      · simp only [set, insert_comm names.fields (hm rfl)]
      · rfl
      · rfl
      · simp only [set, insert_comm names.methods (hm rfl)]

end ClassNames

namespace RenameTable

/-- One new name in a table. -/
structure Entry where
  owner : String
  slot : ClassNames.Slot
  newName : String
deriving DecidableEq

/-- What an entry gives a new name. -/
def Entry.key (e : Entry) : String × ClassNames.Slot := (e.owner, e.slot)

/-- Enters a new name into a table, which need not list the class yet. -/
def enter (t : RenameTable) (e : Entry) : RenameTable :=
  t.edit e.owner fun names => names.set e.newName e.slot

/-- What a table says about a class after a change of a class. -/
lemma namesOf_edit (t : RenameTable) (name other : String) (change : ClassNames → ClassNames) :
    (t.edit name change).namesOf other =
      if other = name then change (t.namesOf name) else t.namesOf other := by
  rw [namesOf, getElem?_edit]
  split
  · rfl
  · rfl

/-- It does not matter which of two new names is entered first. -/
lemma enter_comm (t : RenameTable) {d e : Entry} (hne : d.key ≠ e.key) :
    (t.enter d).enter e = (t.enter e).enter d := by
  refine Std.ExtTreeMap.ext_getElem? fun name => ?_
  simp only [enter, getElem?_edit, namesOf_edit]
  by_cases howner : d.owner = e.owner
  · have hslot : d.slot ≠ e.slot := fun h => hne (Prod.ext howner h)
    simp only [howner, if_true]
    split_ifs with hname
    · rw [ClassNames.set_comm _ hslot]
    · rfl
  · have howner' : e.owner ≠ d.owner := fun h => howner h.symm
    split_ifs with he hd
    · exact absurd (hd.symm.trans he) howner
    · rfl
    · rfl
    · rfl

/-- It does not matter in which order new names are entered. -/
lemma foldl_enter_perm {es es' : List Entry} (hperm : es.Perm es')
    (hdistinct : (es'.map Entry.key).Nodup) (t : RenameTable) :
    es.foldl enter t = es'.foldl enter t := by
  have hdistinct' : (es.map Entry.key).Nodup := (hperm.map Entry.key).nodup_iff.2 hdistinct
  refine hperm.foldl_eq' (fun d hd e he t => ?_) t
  by_cases hde : d = e
  · rw [hde]
  · exact t.enter_comm fun heq => hde (List.inj_on_of_nodup_map hdistinct' hd he heq)

/-! ## The same contents -/

/-- Two tables list the same classes and members under the same new names. -/
structure SameContents (t t' : RenameTable) : Prop where
  newName (name : String) : t[name]?.map ClassNames.newName = t'[name]?.map ClassNames.newName
  field (owner : String) (m : Member) : t.fieldName? owner m = t'.fieldName? owner m
  method (owner : String) (m : Member) : t.methodName? owner m = t'.methodName? owner m

/-- Tables with the same contents are the same table. -/
lemma SameContents.eq {t t' : RenameTable} (h : SameContents t t') : t = t' := by
  refine Std.ExtTreeMap.ext_getElem? fun name => ?_
  have hnew := h.newName name
  have hfield := h.field name
  have hmethod := h.method name
  simp only [fieldName?, methodName?] at hfield hmethod
  cases hn : t[name]? with
  | none =>
    rw [hn, Option.map_none] at hnew
    exact (Option.map_eq_none_iff.1 hnew.symm).symm
  | some names =>
    cases hn' : t'[name]? with
    | none => simp [hn, hn'] at hnew
    | some names' =>
      simp only [hn, hn', Option.map_some, Option.bind_some, Option.some.injEq]
        at hnew hfield hmethod
      have hfields : names.fields = names'.fields := Std.ExtTreeMap.ext_getElem? hfield
      have hmethods : names.methods = names'.methods := Std.ExtTreeMap.ext_getElem? hmethod
      cases names
      cases names'
      simp_all

/-- **Documents keep the contents of a table and nothing else.** Every table is read back from its
document. Tables with the same contents have the same document, and so has a table whatever the
order in which new names are entered one by one. The members of a class are written as one list
in whatever order they are collected before they are sorted.

**Proof sketch.** Indented JSON is read back (`Json.Value.parse?_pretty`), and every part of a table
is read back from its record (`ofJson?_toJson`), since the entries of a map make the map. New names
for different things commute (`enter_comm`). There is one way to sort entries with distinct keys
(`mergeSort_eq_toList`). -/
theorem document_lossless_and_canonical :
    (∀ t : RenameTable, read t.toDocument = .ok t) ∧
    (∀ t t' : RenameTable, SameContents t t' → t.toDocument = t'.toDocument) ∧
    (∀ (t : RenameTable) (es es' : List Entry), es.Perm es' → (es'.map Entry.key).Nodup →
      (es.foldl enter t).toDocument = (es'.foldl enter t).toDocument) ∧
    (∀ (names : MemberNames) (collected : List (Member × String)),
      collected.Perm names.toList →
        names.toJson =
          .array ((collected.mergeSort fun p q => (compare p.1 q.1).isLE).map
            MemberNames.entryJson)) := by
  refine ⟨read_toDocument, fun t t' h => ?_, fun t es es' hperm hdistinct => ?_,
    fun names collected hperm => ?_⟩
  · rw [h.eq]
  · rw [foldl_enter_perm hperm hdistinct]
  · rw [MemberNames.toJson_eq, mergeSort_eq_toList names hperm]

/-- New names with a quote, a backslash and a line end, entered forwards and backwards. -/
theorem document_lossless_and_canonical_of_quoted :
    let es : List Entry :=
      [⟨"a/A", .itself, "n/\"\\\n"⟩, ⟨"a/A", .member .method ⟨"m", "()V"⟩, "x"⟩,
        ⟨"a/A", .member .method ⟨"k", "()V"⟩, "y"⟩, ⟨"b/B", .itself, "n/B"⟩]
    let t := es.foldl enter ∅
    let t' := es.reverse.foldl enter ∅
    let collected : List (Member × String) := [(⟨"m", "()V"⟩, "x"), (⟨"k", "()V"⟩, "y")]
    let methods := (t.namesOf "a/A").methods
    es.Perm es.reverse ∧ (es.reverse.map Entry.key).Nodup ∧ SameContents t t' ∧
      collected.Perm methods.toList ∧
      t.toDocument = t'.toDocument ∧ read t.toDocument = .ok t' ∧
      methods.toJson =
        .array ((collected.mergeSort fun p q => (compare p.1 q.1).isLE).map
          MemberNames.entryJson) := by
  intro es t t' collected methods
  obtain ⟨hread, hsame, horder, hsorted⟩ := document_lossless_and_canonical
  have hperm : es.Perm es.reverse := (List.reverse_perm es).symm
  have hdistinct : (es.reverse.map Entry.key).Nodup := by decide
  have ht : t = t' := foldl_enter_perm hperm hdistinct ∅
  have hcontents : SameContents t t' :=
    ⟨fun name => by rw [ht], fun owner m => by rw [ht], fun owner m => by rw [ht]⟩
  have hcollected : collected.Perm methods.toList := by
    have hlist : methods.toList = [(⟨"k", "()V"⟩, "y"), (⟨"m", "()V"⟩, "x")] := by decide
    rw [hlist]
    exact List.Perm.swap _ _ _
  refine ⟨hperm, hdistinct, hcontents, hcollected, horder ∅ es es.reverse hperm hdistinct, ?_,
    hsorted methods collected hcollected⟩
  rw [hsame t t' hcontents, hread t']

end RenameTable

end Reclass
