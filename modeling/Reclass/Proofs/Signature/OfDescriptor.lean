import Reclass.Proofs.Signature.Spelling

set_option relaxedAutoImplicit false
set_option autoImplicit false

/-!
# Descriptors as signatures

A descriptor is written like a signature without type variables, type arguments and nested
segments. The two are read in different ways: a method descriptor is cut at its first closing
parenthesis and split at semicolons, whereas a signature is read from left to right. They also
accept different class names. In a descriptor a name runs to the semicolon; in a signature `<` and
`.` end it as well, and a closing parenthesis does not.

Every descriptor type is embedded into the trees of signatures, with the same text and the same
class names. The tree is well-formed exactly if no class name holds one of the two characters, and
then the text is renamed in the same way, whichever way it is read.

## Main definitions

* `Reclass.FieldType.typeSig` — a field type as a type in a signature.
* `Reclass.FieldType.signature`, `Reclass.MethodType.signature` — descriptors as signatures.
* `Reclass.Descriptor.Embeds` — the class names in a descriptor.

## Main results

* `Reclass.FieldType.wellFormed_typeSig_iff` — the field types that a signature may hold.
* `Reclass.Signature.renameText?_of_descriptor` — a descriptor is renamed like a signature.
-/

namespace Reclass

open Signature (Identifier endsSegment)

/-! ## Types -/

/-- No character of a class name ends it in a signature before the semicolon does. -/
def ClassName.Unbroken (name : String) : Prop := '<' ∉ name.toList ∧ '.' ∉ name.toList

/-- A name is a segment of a class type if it can stand in a descriptor and is unbroken. -/
lemma ClassName.identifier_iff {name : String} : Identifier endsSegment name ↔
    (name ≠ "" ∧ ';' ∉ name.toList) ∧ ClassName.Unbroken name := by
  constructor
  · rintro ⟨hne, hfree⟩
    refine ⟨⟨hne, fun hc => ?_⟩, fun hc => ?_, fun hc => ?_⟩ <;>
      exact absurd (hfree _ hc) (by decide)
  · rintro ⟨⟨hne, hsemicolon⟩, hopening, hdot⟩
    refine ⟨hne, fun c hc => ?_⟩
    have hc' : c ≠ '<' ∧ c ≠ '.' ∧ c ≠ ';' :=
      ⟨fun h => hopening (h ▸ hc), fun h => hdot (h ▸ hc), fun h => hsemicolon (h ▸ hc)⟩
    simp [endsSegment, hc']

namespace TypeSig

/-- A type below some array dimensions. -/
def arrays (t : TypeSig) : Nat → TypeSig
  | 0 => t
  | n + 1 => .array (t.arrays n)

variable (t : TypeSig) (n : Nat)

lemma render_arrays : (t.arrays n).render = List.replicate n '[' ++ t.render := by
  induction n with
  | zero => rfl
  | succ n ih => rw [arrays, render, ih, List.replicate_succ, List.cons_append]

lemma rename_arrays (f : String → String) : (t.arrays n).rename f = (t.rename f).arrays n := by
  induction n with
  | zero => rfl
  | succ n ih => rw [arrays, rename, ih, arrays]

lemma wellFormed_arrays : (t.arrays n).WellFormed ↔ t.WellFormed := by
  induction n with
  | zero => rfl
  | succ n ih => rw [arrays, WellFormed, ih]

end TypeSig

/-- An element type as a type in a signature. -/
def ElementType.typeSig : ElementType → TypeSig
  | primitive p => .primitive p
  | object name => .object name .done

namespace FieldType

/-- A field type as a type in a signature. -/
def typeSig (t : FieldType) : TypeSig := t.element.typeSig.arrays t.dimensions

/-- The text of a field type is its text in a signature. -/
lemma render_typeSig (t : FieldType) : t.typeSig.render = t.render := by
  rw [typeSig, TypeSig.render_arrays, render]
  cases t.element <;>
    simp [ElementType.typeSig, ElementType.render, TypeSig.render, ClassTail.render]

/-- It makes no difference whether class names are replaced before or after. -/
lemma typeSig_rename (t : FieldType) (f : String → String) :
    (t.rename f).typeSig = t.typeSig.rename f := by
  rw [typeSig, typeSig, TypeSig.rename_arrays, rename]
  cases t.element <;>
    simp [ElementType.typeSig, ElementType.rename, TypeSig.rename, ClassTail.rename]

/-- **A field type may stand in a signature** exactly if it has a text and its class name is
unbroken. -/
theorem wellFormed_typeSig_iff (t : FieldType) :
    t.typeSig.WellFormed ↔ t.WellFormed ∧ ∀ name ∈ t.classNames, ClassName.Unbroken name := by
  rw [typeSig, TypeSig.wellFormed_arrays, WellFormed, classNames]
  cases t.element with
  | primitive p =>
    simp [ElementType.typeSig, TypeSig.WellFormed, ElementType.WellFormed, ElementType.classNames]
  | object name =>
    simp [ElementType.typeSig, TypeSig.WellFormed, ClassTail.WellFormed, ElementType.WellFormed,
      ElementType.classNames, ClassName.identifier_iff]

end FieldType

/-! ## Whole descriptors -/

namespace FieldType

/-- A field descriptor as a signature. -/
def signature (t : FieldType) : Signature := ⟨none, .types t.typeSig []⟩

lemma render_signature (t : FieldType) : t.signature.render = t.render := by
  simp [signature, Signature.render, Signature.renderFormals, SignatureBody.render, render_typeSig]

lemma signature_rename (t : FieldType) (f : String → String) :
    (t.rename f).signature = t.signature.rename f := by
  simp [signature, Signature.rename, SignatureBody.rename, typeSig_rename]

lemma wellFormed_signature (t : FieldType) (hwf : t.WellFormed)
    (hnames : ∀ name ∈ t.classNames, ClassName.Unbroken name) : t.signature.WellFormed := by
  refine ⟨fun _ hformals => (Option.some_ne_none _ hformals.symm).elim, ?_⟩
  exact List.forall_mem_singleton.2 (t.wellFormed_typeSig_iff.2 ⟨hwf, hnames⟩)

end FieldType

namespace MethodType

/-- A method descriptor as a signature. It has no type parameters and names no exceptions. -/
def signature (t : MethodType) : Signature :=
  ⟨none, .method (t.params.map FieldType.typeSig) t.result.typeSig []⟩

/-- The text of a method type is its text as a signature. -/
lemma render_signature (t : MethodType) : t.signature.render = t.render := by
  simp [signature, Signature.render, Signature.renderFormals, SignatureBody.render, render,
    FieldType.render_typeSig, List.flatMap_map]

/-- It makes no difference whether class names are replaced before or after. -/
lemma signature_rename (t : MethodType) (f : String → String) :
    (t.rename f).signature = t.signature.rename f := by
  simp [signature, Signature.rename, SignatureBody.rename, rename, FieldType.typeSig_rename]

/-- A method type is well-formed as a signature if its class names are unbroken. -/
lemma wellFormed_signature (t : MethodType) (hwf : t.WellFormed)
    (hnames : ∀ name ∈ t.classNames, ClassName.Unbroken name) : t.signature.WellFormed := by
  obtain ⟨hparams, hresult⟩ := List.forall_mem_append.1 hnames
  refine ⟨fun _ hformals => (Option.some_ne_none _ hformals.symm).elim, ?_⟩
  refine List.forall_mem_append.2 ⟨List.forall_mem_map.2 fun p hp => ?_, ?_⟩
  · exact p.wellFormed_typeSig_iff.2 ⟨(hwf.params p hp).1, fun name hname =>
      hparams name (List.mem_flatMap.2 ⟨p, hp, hname⟩)⟩
  · rw [List.forall_mem_singleton]
    exact t.result.wellFormed_typeSig_iff.2 ⟨hwf.result, hresult⟩

end MethodType

/-! ## Renaming -/

/-- The class names in a text, read as a field descriptor or as a method descriptor. -/
def Descriptor.Embeds (text name : String) : Prop :=
  (∃ t : FieldType, t.Spelled id text.toList ∧ name ∈ t.classNames) ∨
    ∃ (t : MethodType) (params : List (List Char)) (result : List Char),
      t.Spelled id params result text.toList ∧ name ∈ t.classNames

namespace Signature

variable {f : String → String} {text out : String}

/-- The text of a well-formed signature is renamed to the text of the renamed signature. -/
lemma renameText?_of_eq_render {s : Signature} (hwf : s.WellFormed)
    (htext : text.toList = s.render) :
    renameText? f text = some (String.ofList (s.rename f).render) := by
  rw [renameText?, parse?_eq_some_iff.2 ⟨hwf, htext⟩, Option.map_some]

/-- **A descriptor is renamed like a signature.** Let the class names in a text hold neither `<` nor
`.`. If the text is renamed as a field descriptor or as a method descriptor, then it is a signature
as well and is renamed in the same way.

**Proof sketch.** The type that the descriptor is read as is well-formed as a signature, with the
same text, before and after its class names are replaced. -/
theorem renameText?_of_descriptor
    (hnames : ∀ name, Descriptor.Embeds text name → '<' ∉ name.toList ∧ '.' ∉ name.toList)
    (hout : Descriptor.renameField? f text = some out ∨
      Descriptor.renameMethod? f text = some out) :
    renameText? f text = some out := by
  rcases hout with hout | hout
  · obtain ⟨t, hread, rfl⟩ := Option.map_eq_some_iff.1 hout
    obtain ⟨hwf, htext⟩ := FieldType.parse?_eq_some_iff.1 hread
    have hunbroken : ∀ name ∈ t.classNames, ClassName.Unbroken name := fun name hname =>
      hnames name (.inl ⟨t, FieldType.parse?_eq_some_iff_spelled.1 hread, hname⟩)
    rw [← t.render_signature] at htext
    rw [renameText?_of_eq_render (t.wellFormed_signature hwf hunbroken) htext, ← t.signature_rename,
      FieldType.render_signature]
  · obtain ⟨t, hread, rfl⟩ := Option.map_eq_some_iff.1 hout
    obtain ⟨hwf, htext⟩ := MethodType.parse?_eq_some_iff.1 hread
    obtain ⟨params, result, hspelled⟩ := MethodType.parse?_eq_some_iff_spelled.1 hread
    have hunbroken : ∀ name ∈ t.classNames, ClassName.Unbroken name := fun name hname =>
      hnames name (.inr ⟨t, params, result, hspelled, hname⟩)
    rw [← t.render_signature] at htext
    rw [renameText?_of_eq_render (t.wellFormed_signature hwf hunbroken) htext, ← t.signature_rename,
      MethodType.render_signature]

/-- Arrays of a class that gets another name, and a result whose name has other delimiters in it. -/
theorem renameText?_of_descriptor_of_delimiters :
    let f : String → String := fun name => if name = "a/Ä" then "b/(x" else name
    let text := "([[La/Ä;I)La)B^:*;"
    let out := "([[Lb/(x;I)La)B^:*;"
    (∀ name, Descriptor.Embeds text name → '<' ∉ name.toList ∧ '.' ∉ name.toList) ∧
      Descriptor.renameMethod? f text = some out ∧ renameText? f text = some out := by
  intro f text out
  have hfield : FieldType.parse? text.toList = none := by decide
  have hmethod : MethodType.parse? text.toList =
      some ⟨[⟨2, .object "a/Ä"⟩, ⟨0, .primitive .int⟩], ⟨0, .object "a)B^:*"⟩⟩ := by decide
  have hnames : ∀ name, Descriptor.Embeds text name → '<' ∉ name.toList ∧ '.' ∉ name.toList := by
    rintro name (⟨t, ht, -⟩ | ⟨t, params, result, ht, hname⟩)
    · rw [← FieldType.parse?_eq_some_iff_spelled, hfield] at ht
      simp at ht
    · have hread := MethodType.parse?_eq_some_iff_spelled.2 ⟨params, result, ht⟩
      obtain rfl := Option.some.inj (hmethod.symm.trans hread)
      have hname' : name = "a/Ä" ∨ name = "a)B^:*" := by
        simpa [MethodType.classNames, FieldType.classNames, ElementType.classNames] using hname
      rcases hname' with rfl | rfl <;> decide
  have hout : Descriptor.renameMethod? f text = some out := by
    rw [Descriptor.renameMethod?_of_parse? hmethod]
    decide
  exact ⟨hnames, hout, renameText?_of_descriptor hnames (.inr hout)⟩

end Signature

end Reclass
