import Reclass.Proofs.ClassTree.Binary
import Reclass.Proofs.Renaming.Idle
import Reclass.Proofs.Session.Transform

set_option relaxedAutoImplicit false
set_option autoImplicit false

/-!
# Sessions that ask for nothing

A session may have new names, settings and traits and still ask for nothing: the names are those
that classes and members have already, no access waits for the class, and the traits for it give it
back as it is. A class in its written form then comes out byte for byte, and the session is the same
as before.

## Main results

* `Reclass.Session.transformWritten_eq_self` — the written form of a class is given back.
-/

namespace Reclass

/-- Traits that give an object back do so one after the other. -/
lemma Trait.applyAll_eq_self {α : Type} {name : String} {r : Renaming} {payload : α}
    {traits : Option (List (Trait α))} (h : ∀ ts ∈ traits, ∀ t ∈ ts,
      t.target.covers name → t.apply r payload = .ok payload) :
    applyAll name r traits payload = .ok payload := by
  cases traits with
  | none => rfl
  | some ts =>
    have hall := h ts rfl
    rw [applyAll]
    clear h
    induction ts with
    | nil => rfl
    | cons t ts ih =>
      have hone : applyTo name r payload t = .ok payload := by
        unfold applyTo
        split
        · next hcovers => rw [hall t List.mem_cons_self hcovers, Except.mapError]
        · rfl
      rw [List.foldlM_cons, hone]
      exact ih fun t' ht' => hall t' (List.mem_cons_of_mem t ht')

namespace Renaming.ListsOwnNames

/-- A table that lists nothing lists own names. -/
lemma ofTable_empty : (ofTable ∅).ListsOwnNames where
  newName_eq hfind := absurd hfind (by simp [ofTable])
  memberName_eq hfind := absurd hfind (by simp [ofTable])

/-- A class with own names may be added to a table of own names. -/
lemma ofTable_insert {t : RenameTable} (h : (ofTable t).ListsOwnNames) {names : ClassNames}
    (hmembers : ∀ kind (m : Member) {new}, (names.members kind)[m]? = some new → new = m.name) :
    (ofTable (t.insert names.newName names)).ListsOwnNames := by
  have hcases : ∀ {name found}, (ofTable (t.insert names.newName names)).find? name = some found →
      name = names.newName ∧ found = names ∨ (ofTable t).find? name = some found := by
    intro name found hfind
    change (t.insert names.newName names)[name]? = some found at hfind
    rw [Std.ExtTreeMap.getElem?_insert] at hfind
    split at hfind
    · next heq =>
      exact .inl ⟨(Std.compare_eq_iff_eq.1 heq).symm, (Option.some.inj hfind).symm⟩
    · exact .inr hfind
  refine ⟨fun hfind => ?_, fun hfind => ?_⟩
  · rcases hcases hfind with ⟨rfl, rfl⟩ | hfind
    · rfl
    · exact h.newName_eq hfind
  · rcases hcases hfind with ⟨rfl, rfl⟩ | hfind
    · exact hmembers
    · exact h.memberName_eq hfind

end Renaming.ListsOwnNames

namespace Session

variable {s : Session} {c : ClassTree}

/-- The names in force are own names if the given ones and those of a recorded batch are. -/
lemma listsOwnNames_of_renaming? (hgiven : ∀ r ∈ s.given, r.ListsOwnNames)
    (hinherited : ∀ r ∈ s.inherited, r.ListsOwnNames) : ∀ r ∈ s.renaming?, r.ListsOwnNames := by
  intro r hr
  rw [Option.mem_def, renaming?] at hr
  split at hr
  · split at hr
    · next first second hfirst hsecond =>
      obtain rfl := Option.some.inj hr
      exact (hinherited first hfirst).orElse (hgiven second hsecond)
    · next first hfirst _ =>
      obtain rfl := Option.some.inj hr
      exact hinherited first hfirst
    · exact hgiven r hr
  · simp at hr

/-- If nothing is asked for a class then it comes out as it went in.

**Proof sketch.** No access is applied and none is taken, and an idle renaming leaves the class as
it is (`Renaming.Idle.classTree_eq`). -/
lemma transform_eq_self (hname : c.name ≠ "")
    (hnames : ∀ r ∈ s.renaming?, r.ListsOwnNames)
    (hrecord : s.workspace.access.record? c.name = none) :
    s.transform c = ⟨.ok (.ok c), s⟩ := by
  have haccess : s.accessFor c.name = {} := by
    simp only [accessFor, hrecord, Option.getD_none, ite_self]
  have htree : s.transformed c = c := by
    rw [transformed, haccess, AccessRecord.classTree_empty]
    cases hr : s.renaming? with
    | none => rfl
    | some r => exact (hnames r hr).idle.classTree_eq c
  have hafter : s.afterTransform c.name = s := by
    simp only [afterTransform, AccessLedger.afterTake, hrecord, Option.isSome_none,
      Bool.false_eq_true, if_false, ite_self]
  rw [s.transform_eq hname, htree, hafter]

/-- **A session that asks for nothing gives the written form of a class back**, and stays as it is.
The class may hold any text, descriptors and signatures that cannot be read included. Its form has
to be shorter than 2⁶⁴ bytes.

**Proof sketch.** The class is read as it was written (`Codec.read_binary_append`), comes out of the
pipeline and out of the traits unchanged, and is written again. -/
theorem transformWritten_eq_self (hcodec : s.codec = .binary) (hname : c.name ≠ "")
    (hsize : c.toBytes.length < 2 ^ 64) (hnames : ∀ r ∈ s.renaming?, r.ListsOwnNames)
    (hrecord : s.workspace.access.record? c.name = none) (name : String)
    (traits : Option (List (Trait ClassTree))) (htraits : ∀ ts ∈ traits, ∀ t ∈ ts,
      t.target.covers name → t.apply s.traitRenaming c = .ok c) :
    s.transformWritten name traits c.toBytes = ⟨.ok (.ok c.toBytes), s⟩ := by
  have hread : s.codec.readClass name c.toBytes = .ok c := by
    have hback := Codec.read_binary_append hsize []
    rw [List.append_nil] at hback
    rw [hcodec, Codec.readClass, hback]
    rfl
  have hwrite : s.codec.writeClass name c = .ok c.toBytes := by
    rw [hcodec]
    rfl
  rw [transformWritten, hread]
  dsimp only
  rw [transform_eq_self hname hnames hrecord]
  simp only [Except.map, bind, Except.bind, Trait.applyAll_eq_self htraits, hwrite]

/-- Both layers of names list a method by its own name, one trait gives the class back, and another
one, which fails, is for a different object. The class has a method with a text that is no
descriptor, and a signature that cannot be read. -/
theorem transformWritten_eq_self_of_own_names :
    let names : ClassNames := ⟨"a/B", ∅, (∅ : MemberNames).insert ⟨"run", "(La/B;)V"⟩ "run"⟩
    let r : Renaming := .ofTable ((∅ : RenameTable).insert names.newName names)
    let s : Session := { settings := { flattenHierarchy := true }, given := some r
                         inherited := some r }
    let run : MethodDecl := { access := 1, name := "run", descriptor := "(La/B;)V" }
    let odd : MethodDecl := { access := 1, name := "odd", descriptor := "(La/B" }
    let c : ClassTree :=
      { header := { version := 52, access := 33, name := "a/B", signature := some "<:La/B;" }
        methods := [run, odd] }
    let traits : List (Trait ClassTree) :=
      [{ apply := fun _ c => .ok c },
        { target := { scope := .only "a/C" }, apply := fun _ _ => .error ["refused"] }]
    c.toBytes.length < 2 ^ 64 ∧ (∀ r ∈ s.renaming?, r.ListsOwnNames) ∧
      s.transformWritten "a/B" (some traits) c.toBytes = ⟨.ok (.ok c.toBytes), s⟩ := by
  intro names r s run odd c traits
  have hmembers : ∀ kind (m : Member) {new}, (names.members kind)[m]? = some new →
      new = m.name := by
    intro kind m new hnew
    cases kind with
    | field => simp [names, ClassNames.members] at hnew
    | method =>
      simp only [names, ClassNames.members, Std.ExtTreeMap.getElem?_insert,
        Std.compare_eq_iff_eq] at hnew
      split at hnew
      · next heq => rw [← heq, ← Option.some.inj hnew]
      · simp at hnew
  have hown : r.ListsOwnNames := .ofTable_insert .ofTable_empty hmembers
  have hboth : ∀ r' ∈ some r, r'.ListsOwnNames := by
    rintro _ ⟨⟩
    exact hown
  have hnames : ∀ r ∈ s.renaming?, r.ListsOwnNames := listsOwnNames_of_renaming? hboth hboth
  have hsize : c.toBytes.length < 2 ^ 64 := by decide +kernel
  have htraits : ∀ ts ∈ some traits, ∀ t ∈ ts, t.target.covers "a/B" →
      t.apply s.traitRenaming c = .ok c := by
    rintro _ ⟨⟩ t ht hcovers
    rcases List.mem_pair.1 ht with rfl | rfl
    · rfl
    · exact absurd hcovers (by decide)
  exact ⟨hsize, hnames,
    transformWritten_eq_self rfl (by decide) hsize hnames rfl "a/B" (some traits) htraits⟩

end Session

end Reclass
