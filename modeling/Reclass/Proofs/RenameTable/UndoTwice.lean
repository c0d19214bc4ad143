import Reclass.Proofs.RenameTable.Undo
import Reclass.Proofs.Renaming.Plain

set_option relaxedAutoImplicit false
set_option autoImplicit false

/-!
# The way back from the way back

The way back of a table finds classes and members by their new names and leads to the old ones.
Taken twice it gives the table again, if nothing is lost on the way: no two classes and no two
members of a class may be found by the same new name, an old class name has to be one that can stand
in a descriptor, and no descriptor may name a class by a name that is an old one only. Descriptors
are rewritten and rewritten back; what is no descriptor stays both times.

## Main definitions

* `Reclass.RenameTable.LosesNothing` — nothing in the table is lost on the way back.

## Main results

* `Reclass.RenameTable.losesNothing_iff` — whether something is lost can be computed.
* `Reclass.RenameTable.LosesNothing.oldDescriptor_comesBack` — descriptors of members come back.
* `Reclass.RenameTable.undo_undo` — the way back from the way back is the table.
-/

namespace Reclass

/-- The classes named in a descriptor of one kind. -/
def Descriptor.classNamesAt : MemberKind → String → List String
  | .field => fieldClassNames
  | .method => methodClassNames

namespace RenameTable

variable {t : RenameTable}

/-! ## The way back as a table -/

/-- What the way back lists comes from a class of the table. -/
lemma exists_of_getElem?_undo {name : String} {back : ClassNames} (h : t.undo[name]? = some back) :
    ∃ names, t[back.newName]? = some names ∧ names.newName = name := by
  rw [undo_eq_rekey] at h
  obtain ⟨old, names, hlisted, hnew, rfl⟩ := exists_of_getElem?_rekey h
  exact ⟨names, hlisted, hnew⟩

/-- The way back gives every class a new name of its own. -/
lemma distinctNewNames_undo (t : RenameTable) : t.undo.DistinctNewNames := by
  intro a b x y ha hb hsame
  obtain ⟨names, hnames, rfl⟩ := exists_of_getElem?_undo ha
  obtain ⟨names', hnames', rfl⟩ := exists_of_getElem?_undo hb
  rw [hsame, hnames'] at hnames
  rw [Option.some.inj hnames]

/-- The old name of a class is one that the table lists, or else the name itself. -/
lemma oldName_eq_or_listed (name : String) :
    oldName t.oldNames name = name ∨ ∃ names, t[oldName t.oldNames name]? = some names := by
  rw [oldName_oldNames]
  cases hback : t.undo[name]? with
  | none => exact .inl (className_ofTable_eq_self hback)
  | some back =>
    obtain ⟨names, hlisted, -⟩ := exists_of_getElem?_undo hback
    rw [className_ofTable hback]
    exact .inr ⟨names, hlisted⟩

/-! ## Nothing is lost -/

/-- Nothing in the table is lost on the way back.

* No two classes get the same new name, and no two members of a class get the same new name if they
  have the same descriptor.
* The names of listed classes are not empty and hold neither a semicolon nor a closing parenthesis.
* A class that is named in the descriptor of a member, where new names are expected, is not listed
  unless its name is also a new one. -/
structure LosesNothing (t : RenameTable) : Prop where
  distinct : t.DistinctNewNames
  listed : ∀ (name : String) (names : ClassNames), t[name]? = some names →
    name ≠ "" ∧ ';' ∉ name.toList ∧ ')' ∉ name.toList
  known : ∀ (name : String) (names : ClassNames) (kind : MemberKind) (m : Member) (new : String),
    t[name]? = some names → (names.members kind)[m]? = some new →
      ∀ inside ∈ Descriptor.classNamesAt kind m.descriptor,
        ∀ its : ClassNames, t[inside]? = some its →
          ∃ (other : String) (names' : ClassNames),
            t[other]? = some names' ∧ names'.newName = inside
  members_distinct : ∀ (name : String) (names : ClassNames) (kind : MemberKind) (m m' : Member)
    (new : String), t[name]? = some names → (names.members kind)[m]? = some new →
      (names.members kind)[m']? = some new → m'.descriptor = m.descriptor → m' = m

/-- Whether something is lost is seen from the entries of the table. -/
lemma losesNothing_iff : t.LosesNothing ↔
    (∀ p ∈ t.toList, ∀ q ∈ t.toList, p.2.newName = q.2.newName → p.1 = q.1) ∧
    (∀ p ∈ t.toList, p.1 ≠ "" ∧ ';' ∉ p.1.toList ∧ ')' ∉ p.1.toList) ∧
    ∀ p ∈ t.toList, ∀ kind ∈ [MemberKind.field, .method], ∀ m ∈ (p.2.members kind).toList,
      (∀ inside ∈ Descriptor.classNamesAt kind m.1.descriptor, inside ∈ t →
        ∃ q ∈ t.toList, q.2.newName = inside) ∧
      ∀ m' ∈ (p.2.members kind).toList,
        m'.2 = m.2 → m'.1.descriptor = m.1.descriptor → m'.1 = m.1 := by
  simp only [Prod.forall, Prod.exists, Std.ExtTreeMap.mem_toList_iff_getElem?_eq_some]
  have hkinds : ∀ kind : MemberKind, kind ∈ [MemberKind.field, .method] := by
    intro kind
    cases kind <;> decide
  constructor
  · intro h
    refine ⟨fun a x ha b y hb => h.distinct a b x y ha hb, h.listed,
      fun name names hlisted kind _ m new hm => ⟨fun inside hinside hmem => ?_, ?_⟩⟩
    · exact h.known name names kind m new hlisted hm inside hinside t[inside]
        (Std.ExtTreeMap.getElem?_eq_some_getElem hmem)
    · rintro m' _ hm' rfl
      exact h.members_distinct name names kind m m' _ hlisted hm hm'
  · rintro ⟨hdistinct, hlisted, hmembers⟩
    refine ⟨fun a b x y ha hb => hdistinct a x ha b y hb, hlisted,
      fun name names kind m new hname hm inside hinside its hits => ?_,
      fun name names kind m m' new hname hm hm' => ?_⟩
    · have hmem : inside ∈ t := Std.ExtTreeMap.mem_iff_isSome_getElem?.2 (by rw [hits]; rfl)
      exact (hmembers name names hname kind (hkinds kind) m new hm).1 inside hinside hmem
    · exact (hmembers name names hname kind (hkinds kind) m new hm).2 m' new hm' rfl

instance (t : RenameTable) : Decidable t.LosesNothing := decidable_of_iff' _ losesNothing_iff

namespace LosesNothing

variable (h : t.LosesNothing)

include h

/-- The old name of a class leads to the class again, unless its own name is an old one only. -/
lemma oldName_comesBack {name : String} (hknown : ∀ its : ClassNames, t[name]? = some its →
      ∃ (other : String) (names' : ClassNames),
        t[other]? = some names' ∧ names'.newName = name) :
    oldName t.undo.oldNames (oldName t.oldNames name) = name := by
  rw [oldName_oldNames, oldName_oldNames]
  cases hback : t.undo[name]? with
  | some back => exact className_undo (distinctNewNames_undo t) hback
  | none =>
    refine className_undo_of_unlisted hback fun new back' hback' hold => ?_
    obtain ⟨names, hlisted, -⟩ := exists_of_getElem?_undo hback'
    obtain ⟨other, names', hother, rfl⟩ := hknown names (hold ▸ hlisted)
    rw [getElem?_undo h.distinct hother] at hback
    exact absurd hback (Option.some_ne_none _)

/-- An old class name can stand in the place of the new one. -/
lemma oldName_fits {name : String} (hne : name ≠ "") (hfree : ';' ∉ name.toList) :
    oldName t.oldNames name ≠ "" ∧ ';' ∉ (oldName t.oldNames name).toList := by
  rcases oldName_eq_or_listed (t := t) name with heq | ⟨names, hlisted⟩
  · rw [heq]
    exact ⟨hne, hfree⟩
  · exact ⟨(h.listed _ names hlisted).1, (h.listed _ names hlisted).2.1⟩

/-- It can stand among parameters if the new one can. -/
lemma paren_notMem_oldName {name : String} (hclosed : ')' ∉ name.toList) :
    ')' ∉ (oldName t.oldNames name).toList := by
  rcases oldName_eq_or_listed (t := t) name with heq | ⟨names, hlisted⟩
  · rwa [heq]
  · exact (h.listed _ names hlisted).2.2

/-- **The descriptors of members come back.**

**Proof sketch.** A descriptor is read again after its class names were replaced, because the old
names can stand in it, and each of them comes back. Text that cannot be read stays. -/
theorem oldDescriptor_comesBack {name : String} {names : ClassNames} {kind : MemberKind}
    {m : Member} {new : String} (hlisted : t[name]? = some names)
    (hm : (names.members kind)[m]? = some new) :
    t.undo.oldDescriptor kind (t.oldDescriptor kind m.descriptor) = m.descriptor := by
  have hback : ∀ inside ∈ Descriptor.classNamesAt kind m.descriptor,
      oldName t.undo.oldNames (oldName t.oldNames inside) = inside :=
    fun inside hinside =>
      h.oldName_comesBack (h.known name names kind m new hlisted hm inside hinside)
  cases kind with
  | field =>
    refine replacedText_comesBack fun ty hread => ?_
    obtain ⟨hwf, htext⟩ := FieldType.parse?_eq_some_iff.1 hread
    rw [Descriptor.classNamesAt, Descriptor.fieldClassNames, hread] at hback
    have hfits := FieldType.wellFormed_rename fun inside hinside =>
      h.oldName_fits (FieldType.wellFormed_iff.1 hwf inside hinside).1
        (FieldType.wellFormed_iff.1 hwf inside hinside).2
    exact ⟨FieldType.parse?_eq_some_iff.2 ⟨hfits, rfl⟩, FieldType.rename_rename hback, htext⟩
  | method =>
    refine replacedText_comesBack fun ty hread => ?_
    obtain ⟨hwf, htext⟩ := MethodType.parse?_eq_some_iff.1 hread
    rw [Descriptor.classNamesAt, Descriptor.methodClassNames, hread] at hback
    have hfits := hwf.rename_of_names
      (fun inside hinside => h.oldName_fits (hwf.names inside hinside).1
        (hwf.names inside hinside).2)
      fun p hp inside hinside => h.paren_notMem_oldName (hwf.closed p hp inside hinside)
    exact ⟨MethodType.parse?_eq_some_iff.2 ⟨hfits, rfl⟩, MethodType.rename_rename hback, htext⟩

/-- What the table says about the members of a class comes back. -/
lemma members_comeBack {name : String} {names : ClassNames} (hlisted : t[name]? = some names)
    (kind : MemberKind) : undoMembers (t.undo.oldDescriptor kind)
      (undoMembers (t.oldDescriptor kind) (names.members kind)) = names.members kind := by
  have hback : ∀ (m : Member) (new : String), (names.members kind)[m]? = some new →
      t.undo.oldDescriptor kind (t.oldDescriptor kind m.descriptor) = m.descriptor :=
    fun m new hm => h.oldDescriptor_comesBack hlisted hm
  rw [undoMembers_eq_rekey, undoMembers_eq_rekey]
  refine rekey_rekey (fun m new hm => ?_) (fun _ _ _ => rfl) fun m new m' new' hm hm' heq => ?_
  · rw [hback m new hm]
  · obtain ⟨rfl, hdescriptor⟩ := Member.mk.inj heq
    refine h.members_distinct name names kind m m' new' hlisted hm hm' ?_
    rw [← hback m' new' hm', hdescriptor, hback m new' hm]

end LosesNothing

/-- **The way back from the way back is the table.**

**Proof sketch.** Classes are found by distinct names both times, so a class comes back as soon as
its members do (`rekey_rekey`), and they do because two members with one new name have descriptors
that are still different when they are written with old class names. -/
theorem undo_undo (h : t.LosesNothing) : t.undo.undo = t := by
  rw [undo_eq_rekey t.undo, undo_eq_rekey t]
  refine rekey_rekey (fun _ _ _ => rfl) (fun name names hlisted => ?_)
    fun a x b y ha hb hsame => h.distinct b a y x hb ha hsame
  have hfields := h.members_comeBack hlisted .field
  have hmethods := h.members_comeBack hlisted .method
  exact congrArg₂ (ClassNames.mk names.newName) hfields hmethods

/-- Two classes trade their names and a third one takes the old name of a fourth. Two fields get the
same name, one of them with a descriptor that is none. -/
theorem undo_undo_traded :
    let a : ClassNames := { newName := "z/B", fields :=
      ((∅ : MemberNames).insert ⟨"f", "[Lz/B;"⟩ "x").insert ⟨"f", "[Lz/B"⟩ "x" }
    let b : ClassNames := { newName := "z/A", methods :=
      (∅ : MemberNames).insert ⟨"m", "(ILz/A;)Lz/D;"⟩ "n" }
    let t : RenameTable := ((((∅ : RenameTable).insert "z/A" a).insert "z/B" b).insert "z/C"
      { newName := "z/D" }).insert "z/D" { newName := "z/E" }
    t.LosesNothing ∧ t.undo.undo = t := by
  intro a b t
  have hnothing : t.LosesNothing := by decide +kernel
  exact ⟨hnothing, undo_undo hnothing⟩

end RenameTable

end Reclass
