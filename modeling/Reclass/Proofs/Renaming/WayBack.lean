import Reclass.Proofs.Pipeline.Traversal
import Reclass.Proofs.RenameTable.Undo
import Reclass.Proofs.Renaming.Plain

set_option relaxedAutoImplicit false
set_option autoImplicit false

/-!
# Renaming there and back

A class that was renamed by a table comes back by the table that leads back, provided that nothing
the class mentions gets in the way: no other class and no other member has one of the new names.
What was renamed is read again because the new names are plain, and it is found again because they
are distinct. New names may well be old names of other classes, so that classes trade their names.

## Main definitions

* `Reclass.Mention.classNames` — the classes that are named in a place.
* `Reclass.RenameTable.Undoable` — nothing in the class gets in the way of coming back.

## Main results

* `Reclass.RenameTable.Undoable.comeBack` — every place of the class comes back.
* `Reclass.Pipeline.run_undo` — a class that passes through both pipelines comes back.
-/

namespace Reclass

/-! ## Nothing in the way -/

/-- The classes that are named in a place. -/
def Mention.classNames : Mention → List String
  | .type text => ClassName.inType text
  | .descriptor .field text => Descriptor.classNames text
  | .descriptor .method text => Descriptor.methodClassNames text
  | .signature text => Signature.namesInText text
  | .innerName binary _ => ClassName.inType binary
  | .member .field target =>
    ClassName.inType target.owner ++ Descriptor.classNames target.descriptor
  | .member .method target =>
    ClassName.inType target.owner ++ Descriptor.methodClassNames target.descriptor

/-- An inner class that gets this binary name gets this simple name, whatever it was called
before. -/
def ClassName.HasSimpleName (binary declared : String) : Prop :=
  ∀ other before, other ≠ binary → innerName other binary before = declared

/-- A class that the table renames can be led back.

* All names in the table are plain, and no two classes get the same new name.
* A class that is mentioned but not listed does not have a new name of another one.
* Within a class no two members of a kind have the same new name and the same old descriptor, and
  none that is mentioned but left alone has those of a renamed one.
* Fields have no method descriptors, signatures mention no nested classes in parts, and renamed
  inner classes have the simple names that their binary names call for. -/
structure RenameTable.Undoable (t : RenameTable) (c : ClassTree) : Prop where
  listed_plain : ∀ (name : String) (names : ClassNames), t[name]? = some names →
    ClassName.Plain name
  new_plain : ∀ (name : String) (names : ClassNames), t[name]? = some names →
    ClassName.Plain names.newName
  distinct : t.DistinctNewNames
  fresh : ∀ place ∈ c.mentions, ∀ name ∈ place.classNames, t[name]? = none →
    ∀ (other : String) (names : ClassNames), t[other]? = some names → names.newName ≠ name
  members_distinct : ∀ (name : String) (names : ClassNames) (kind : MemberKind) (m m' : Member)
    (new : String), t[name]? = some names → (names.members kind)[m]? = some new →
      (names.members kind)[m']? = some new →
        t.oldDescriptor kind m'.descriptor = t.oldDescriptor kind m.descriptor → m' = m
  left_alone : ∀ (kind : MemberKind) (target : MemberRef) (name : String) (names : ClassNames),
    .member kind target ∈ c.mentions → ClassName.ofOwner? target.owner = some name →
      t[name]? = some names →
        (Renaming.ofTable t).memberName kind target.owner target.name target.descriptor =
          target.name →
        ∀ (m : Member) (new : String), (names.members kind)[m]? = some new → new ≠ m.name →
          (⟨new, t.oldDescriptor kind m.descriptor⟩ : Member) ≠ ⟨target.name, target.descriptor⟩
  field_descriptors : ∀ target : MemberRef, .member .field target ∈ c.mentions →
    MethodType.parse? target.descriptor.toList = none
  no_dots : ∀ text : String, .signature text ∈ c.mentions → '.' ∉ text.toList
  simple_names : ∀ binary declared : String, .innerName binary declared ∈ c.mentions →
    (Renaming.ofTable t).typeName binary ≠ binary → ClassName.HasSimpleName binary declared

/-! ## Places -/

namespace RenameTable

variable {t : RenameTable} {c : ClassTree}

/-- Descriptors of methods are led back like those in a class. -/
lemma oldDescriptor_method :
    t.oldDescriptor .method = (Renaming.ofTable t.undo).methodDescriptor := by
  funext text
  rw [oldDescriptor, oldMethodDescriptor, oldName_oldNames]
  rfl

/-- Descriptors of fields are led back like those in a class unless they look like methods. -/
lemma oldDescriptor_field :
    t.oldDescriptor .field = (Renaming.ofTable t.undo).fieldDescriptor := by
  funext text
  rw [oldDescriptor, oldFieldDescriptor, oldName_oldNames]
  rfl

namespace Undoable

variable (h : t.Undoable c)

include h

/-- Only plain names are replaced. -/
lemma plainNames : (Renaming.ofTable t).PlainNames := ⟨h.listed_plain, h.new_plain⟩

variable {place : Mention} (hplace : place ∈ c.mentions)

include hplace

/-- Mentioned classes come back. -/
lemma className : ∀ name ∈ place.classNames,
    (Renaming.ofTable t.undo).className ((Renaming.ofTable t).className name) = name := by
  intro name hname
  cases hlisted : t[name]? with
  | none => exact className_undo_of_unlisted hlisted (h.fresh place hplace name hname hlisted)
  | some names => exact className_undo h.distinct hlisted

omit hplace

variable {kind : MemberKind} {target : MemberRef} (htarget : .member kind target ∈ c.mentions)

include htarget

/-- The descriptors of mentioned members come back. -/
lemma memberDescriptor : (Renaming.ofTable t.undo).memberDescriptor kind
    ((Renaming.ofTable t).memberDescriptor kind target.descriptor) = target.descriptor := by
  cases kind with
  | field =>
    exact h.plainNames.descriptor_comesBack fun name hname =>
      h.className htarget name (List.mem_append_right _ hname)
  | method =>
    exact h.plainNames.methodDescriptor_comesBack fun name hname =>
      h.className htarget name (List.mem_append_right _ hname)

/-- The table leads the descriptors of mentioned members back as well. -/
lemma oldDescriptor : t.oldDescriptor kind
    ((Renaming.ofTable t).memberDescriptor kind target.descriptor) = target.descriptor := by
  have hback := h.memberDescriptor htarget
  cases kind with
  | method =>
    rw [oldDescriptor_method]
    exact hback
  | field =>
    change t.oldDescriptor .field ((Renaming.ofTable t).descriptor target.descriptor) = _
    rw [oldDescriptor_field, Renaming.descriptor_eq_ite]
    cases hmethod : Descriptor.isMethod target.descriptor with
    | true =>
      have hnone := h.field_descriptors target htarget
      have hsame : (Renaming.ofTable t).methodDescriptor target.descriptor = target.descriptor := by
        rw [Renaming.methodDescriptor_eq_replacedText, replacedText, hnone]
        rfl
      rw [if_pos rfl, hsame, Renaming.fieldDescriptor_of_isMethod hmethod]
    | false =>
      rw [if_neg Bool.false_ne_true]
      refine h.plainNames.fieldDescriptor_comesBack fun name hname => ?_
      refine h.className htarget name (List.mem_append_right _ ?_)
      rw [Descriptor.classNames, hmethod]
      exact hname

/-- The way back knows the class behind a mentioned owner if the table does. -/
lemma owner?_undo : (Renaming.ofTable t.undo).owner? ((Renaming.ofTable t).typeName target.owner) =
    (ClassName.ofOwner? target.owner).bind fun name =>
      t[name]?.map (undoNames t.oldNames name) := by
  rw [Renaming.owner?, h.plainNames.ofOwner?_typeName]
  cases hclass : ClassName.ofOwner? target.owner with
  | none => rfl
  | some name =>
    rw [Option.map_some, Option.bind_some, Option.bind_some]
    change t.undo[(Renaming.ofTable t).className name]? = _
    cases hlisted : t[name]? with
    | some names =>
      rw [className_ofTable hlisted, getElem?_undo h.distinct hlisted]
      rfl
    | none =>
      rw [className_ofTable_eq_self hlisted]
      refine getElem?_undo_eq_none fun other names hother hnew => ?_
      have hplain : ClassName.Plain name := hnew ▸ h.new_plain other names hother
      have hname := ClassName.mem_inType hclass hplain
      refine h.fresh _ htarget name ?_ hlisted other names hother hnew
      cases kind <;> exact List.mem_append_left _ hname

/-- **The names of mentioned members come back.**

**Proof sketch.** The way back knows the class behind the owner exactly if the table does
(`owner?_undo`). If it does then the new name of the member leads back to the old one, since nothing
else has both this name and this descriptor (`undoMembers_comesBack`). Otherwise both leave the name
alone. -/
theorem memberName : (Renaming.ofTable t.undo).memberName kind
    ((Renaming.ofTable t).typeName target.owner)
    ((Renaming.ofTable t).memberName kind target.owner target.name target.descriptor)
    ((Renaming.ofTable t).memberDescriptor kind target.descriptor) = target.name := by
  have hback := h.owner?_undo htarget
  cases howner : (Renaming.ofTable t).owner? target.owner with
  | none =>
    have hnone := Option.bind_eq_none_iff.1 howner
    rw [Renaming.memberName_of_owner?_eq_none howner, Renaming.memberName_of_owner?_eq_none]
    rw [hback, Option.bind_eq_none_iff]
    exact fun name hname => Option.map_eq_none_iff.2 (hnone name hname)
  | some names =>
    obtain ⟨name, hname, hlisted⟩ := Option.bind_eq_some_iff.1 howner
    have hlisted : t[name]? = some names := hlisted
    have hleft := h.left_alone kind target name names htarget hname hlisted
    rw [hname, Option.bind_some, hlisted, Option.map_some] at hback
    rw [Renaming.memberName_of_owner? howner] at hleft
    rw [Renaming.memberName_of_owner? hback, Renaming.memberName_of_owner? howner,
      members_undoNames, Renaming.member, h.memberDescriptor htarget]
    refine undoMembers_comesBack rfl (h.oldDescriptor htarget) ?_ hleft
    exact fun m new hm hm' => h.members_distinct name names kind _ m new hlisted hm hm'

omit htarget

/-- Every place of the class comes back. -/
theorem comeBack : ComeBack (Renaming.ofTable t) (Renaming.ofTable t.undo) c.mentions := by
  intro place hplace
  have hr := h.plainNames
  have hnames := h.className hplace
  cases place with
  | type text => exact hr.typeName_comesBack hnames
  | descriptor kind text =>
    cases kind with
    | field => exact hr.descriptor_comesBack hnames
    | method => exact hr.methodDescriptor_comesBack hnames
  | signature text => exact hr.signature_comesBack (h.no_dots text hplace) hnames
  | innerName binary declared =>
    by_cases hsame : (Renaming.ofTable t).typeName binary = binary
    · rw [Mention.ComesBack, hsame, ClassName.innerName_self, ClassName.innerName_self]
    · exact h.simple_names binary declared hplace hsame _ _ hsame
  | member kind target => exact h.memberName hplace

end Undoable

end RenameTable

/-! ## Pipelines -/

namespace Pipeline

variable {τ : Type}

/-- A pipeline that renames and does nothing else. -/
def ofRenaming (r : Renaming) : Except Failure (Pipeline τ) :=
  (({} : Pipeline τ).useRenaming r).requestRenaming

/-- A pipeline that renames yields the renamed class. -/
lemma run_ofRenaming (r : Renaming) (w : Workspace) (c : ClassTree) :
    (ofRenaming r).bind (fun p : Pipeline τ => p.run w c) =
      .ok { tree := .ok (r.classTree c), workspace := w, log := [] } := by
  have hchain := Chain.feedAll_attach_rename (@Chain.sink τ) r c () w
  exact congrArg Except.ok (runParts_eq hchain)

/-- **A renamed class comes back.** What a pipeline with a table makes of a class, a pipeline with
the table that leads back turns into the class again, in whatever workspaces the two run.

**Proof sketch.** A pipeline with a table makes the renamed class (`run_ofRenaming`), and a class
comes back if all its places do (`ComeBack.classTree`). That they do was shown place by place
(`RenameTable.Undoable.comeBack`). -/
theorem run_undo {t : RenameTable} {c : ClassTree} (h : t.Undoable c) (w w' : Workspace) :
    ∃ renamed : ClassTree,
      (ofRenaming (.ofTable t)).bind (fun p : Pipeline τ => p.run w c) =
        .ok { tree := .ok renamed, workspace := w, log := [] } ∧
      (ofRenaming (.ofTable t.undo)).bind (fun p : Pipeline τ => p.run w' renamed) =
        .ok { tree := .ok c, workspace := w', log := [] } := by
  have hback := h.comeBack.classTree h.plainNames.keepsHandles
  refine ⟨(Renaming.ofTable t).classTree c, run_ofRenaming _ w c, ?_⟩
  rw [run_ofRenaming, hback]

/-- Two classes trade their names, a field and an inner class go along, and an array of the other
class stands in between. All of it comes back. -/
theorem run_undo_traded :
    let cat : ClassNames := ⟨"zoo/Dog", (∅ : MemberNames).insert ⟨"friend", "Lzoo/Cat;"⟩ "mate", ∅⟩
    let t : RenameTable := (((∅ : RenameTable).insert "zoo/Cat" cat).insert "zoo/Dog"
      { newName := "zoo/Cat" }).insert "zoo/Cat$Paw" { newName := "zoo/Dog$Tail" }
    let c : ClassTree :=
      { header :=
          { version := 52, access := 33, name := "zoo/Cat"
            innerClasses := [⟨"zoo/Cat$Paw", some "zoo/Cat", some "Paw", 1⟩] }
        fields := [{ access := 1, name := "friend", descriptor := "Lzoo/Dog;" }]
        methods := [
          { access := 1, name := "all", descriptor := "()[Lzoo/Dog;"
            signature := some "()[Lzoo/Dog;"
            instructions := [.field 180 ⟨"zoo/Cat", "friend", "Lzoo/Dog;"⟩] }] }
    t.Undoable c ∧
      ∃ renamed : ClassTree,
        (ofRenaming (.ofTable t)).bind (fun p : Pipeline Empty => p.run {} c) =
          .ok { tree := .ok renamed, workspace := {}, log := [] } ∧
        (ofRenaming (.ofTable t.undo)).bind (fun p : Pipeline Empty => p.run {} renamed) =
          .ok { tree := .ok c, workspace := {}, log := [] } := by
  intro cat t c
  have hentries : ∀ (name : String) (names : ClassNames), t[name]? = some names →
      (name, names) ∈ t.toList := fun _ _ h => Std.ExtTreeMap.mem_toList_iff_getElem?_eq_some.2 h
  have hplain : ∀ p ∈ t.toList, ClassName.Plain p.1 ∧ ClassName.Plain p.2.newName := by
    decide +kernel
  have hdistinct : ∀ p ∈ t.toList, ∀ q ∈ t.toList, p.2.newName = q.2.newName → p.1 = q.1 := by
    decide +kernel
  have hmembers : ∀ p ∈ t.toList, (p.2.members .method).toList = [] ∧
      ∀ q ∈ (p.2.members .field).toList, q = (⟨"friend", "Lzoo/Cat;"⟩, "mate") := by
    decide +kernel
  have hmember : ∀ (name : String) (names : ClassNames) (kind : MemberKind) (m : Member)
      (new : String), t[name]? = some names → (names.members kind)[m]? = some new →
        kind = .field ∧ m = ⟨"friend", "Lzoo/Cat;"⟩ := by
    intro name names kind m new h hm
    obtain ⟨hmethods, hfields⟩ := hmembers _ (hentries name names h)
    have hmem := Std.ExtTreeMap.mem_toList_iff_getElem?_eq_some.2 hm
    cases kind with
    | field => exact ⟨rfl, congrArg Prod.fst (hfields _ hmem)⟩
    | method => exact absurd (hmethods ▸ hmem) List.not_mem_nil
  have hplaces : c.mentions = [.type "zoo/Cat", .type "zoo/Cat$Paw", .type "zoo/Cat",
      .innerName "zoo/Cat$Paw" "Paw", .descriptor .field "Lzoo/Dog;",
      .member .field ⟨"zoo/Cat", "friend", "Lzoo/Dog;"⟩, .descriptor .method "()[Lzoo/Dog;",
      .member .method ⟨"zoo/Cat", "all", "()[Lzoo/Dog;"⟩, .signature "()[Lzoo/Dog;",
      .type "zoo/Cat", .descriptor .field "Lzoo/Dog;",
      .member .field ⟨"zoo/Cat", "friend", "Lzoo/Dog;"⟩] := rfl
  have hnames : ∀ name ∈ c.mentions.flatMap Mention.classNames, (t[name]?).isSome = true := by
    decide +kernel
  have hfield : ∀ target : MemberRef, .member .field target ∈ c.mentions →
      target = ⟨"zoo/Cat", "friend", "Lzoo/Dog;"⟩ := by
    intro target h
    rw [hplaces] at h
    simpa using h
  have hrenamed : (Renaming.ofTable t).memberName .field "zoo/Cat" "friend" "Lzoo/Dog;" ≠
      "friend" := by
    decide +kernel
  have hundoable : t.Undoable c :=
    { listed_plain := fun name names h => (hplain _ (hentries name names h)).1
      new_plain := fun name names h => (hplain _ (hentries name names h)).2
      distinct := fun a b x y ha hb => hdistinct _ (hentries a x ha) _ (hentries b y hb)
      fresh := fun place hplace name hname hnone => by
        have hsome := hnames name (List.mem_flatMap.2 ⟨place, hplace, hname⟩)
        rw [hnone] at hsome
        exact absurd hsome (by decide)
      members_distinct := fun name names kind m m' new h hm hm' _ => by
        rw [(hmember name names kind m new h hm).2, (hmember name names kind m' new h hm').2]
      left_alone := fun kind target name names htarget _ h hsame m new hm => by
        obtain ⟨rfl, -⟩ := hmember name names kind m new h hm
        rw [hfield target htarget] at hsame
        exact absurd hsame hrenamed
      field_descriptors := fun target htarget => by
        rw [hfield target htarget]
        rfl
      no_dots := fun text htext => by
        rw [hplaces] at htext
        obtain rfl : text = "()[Lzoo/Dog;" := by simpa using htext
        decide
      simple_names := fun binary declared h _ other before hne => by
        rw [hplaces] at h
        obtain ⟨rfl, rfl⟩ : binary = "zoo/Cat$Paw" ∧ declared = "Paw" := by simpa using h
        rw [ClassName.innerName, if_neg hne]
        rfl }
  exact ⟨hundoable, run_undo hundoable {} {}⟩

end Pipeline

end Reclass
