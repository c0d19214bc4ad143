import Mathlib.Data.List.Forall2
import Reclass.Proofs.Renaming.Idle

set_option relaxedAutoImplicit false
set_option autoImplicit false

/-!
# How descriptors are written

The grammar of descriptors as rules that say how a type is written, with the name of its class
through a function on class names. With the identity the rules give the texts that are descriptors;
with a renaming they give what a descriptor becomes. A method descriptor is the texts of its
parameters in parentheses and the text of its result: the rules say which texts may stand there, and
that is the only way in which a text can be taken apart.

## Main definitions

* `Reclass.FieldType.Spelled`, `Reclass.MethodType.Spelled` — the rules.
* `Reclass.Descriptor.RewrittenInPlace` — what rewriting does to a text, part by part.

## Main results

* `Reclass.FieldType.spelled_iff`, `Reclass.MethodType.spelled_iff` — the types that are written,
  and how.
* `Reclass.Descriptor.rename_in_place` — rewriting accepts the texts of the grammar and replaces
  their class names where they stand.
-/

namespace Reclass

/-! ## The grammar -/

/-- How a field type is written: its brackets, then a letter, or a class name between `L` and `;`.
The old name is not empty and holds no semicolon. -/
inductive FieldType.Spelled (f : String → String) : FieldType → List Char → Prop
  | primitive (n : Nat) (p : Primitive) :
      FieldType.Spelled f ⟨n, .primitive p⟩ (List.replicate n '[' ++ [p.letter])
  | object (n : Nat) {name : String} (hne : name ≠ "") (hfree : ';' ∉ name.toList) :
      FieldType.Spelled f ⟨n, .object name⟩
        (List.replicate n '[' ++ 'L' :: (f name).toList ++ [';'])

/-- How a method type is written: the texts of its parameters in parentheses, then the text of its
result. No parameter is `V` or an array of it, and the class of none has a closing parenthesis in
its name. The result may be `V`, but no array of it. -/
structure MethodType.Spelled (f : String → String) (t : MethodType) (params : List (List Char))
    (result cs : List Char) : Prop where
  text_eq : cs = '(' :: params.flatten ++ ')' :: result
  params : List.Forall₂ (FieldType.Spelled f) t.params params
  params_void : ∀ p ∈ t.params, p.element ≠ .primitive .void
  params_closed : ∀ p ∈ t.params, ∀ name ∈ p.classNames, ')' ∉ name.toList
  result : t.result.Spelled f result
  result_void : t.result.element = .primitive .void → t.result.dimensions = 0

/-! ## What is written -/

/-- If a relation takes some items to one value each then it takes lists of such items to the list
of their values. -/
lemma forall₂_iff_eq_map {α β : Type} {R : α → β → Prop} {P : α → Prop} {g : α → β}
    (h : ∀ a b, R a b ↔ P a ∧ b = g a) {as : List α} {bs : List β} :
    List.Forall₂ R as bs ↔ (∀ a ∈ as, P a) ∧ bs = as.map g := by
  have hR : R = fun a b => P a ∧ g a = b := by
    funext a b
    rw [h, eq_comm (a := b)]
  rw [hR, List.forall₂_and_left, ← List.forall₂_map_left_iff (R := Eq), List.forall₂_eq_eq_eq,
    eq_comm (a := bs)]

section

variable {f : String → String} {cs : List Char}

/-- A field type is written if it is well-formed, and then in one way. -/
lemma FieldType.spelled_iff (t : FieldType) :
    t.Spelled f cs ↔ t.WellFormed ∧ cs = (t.rename f).render := by
  obtain ⟨n, e⟩ := t
  constructor
  · intro h
    cases h with
    | primitive => exact ⟨trivial, rfl⟩
    | object _ hne hfree =>
      refine ⟨⟨hne, hfree⟩, ?_⟩
      simp [render, rename, ElementType.rename, ElementType.render]
  · rintro ⟨hwf, rfl⟩
    cases e with
    | primitive p => exact .primitive n p
    | object name =>
      have hspelled : (FieldType.mk n (.object name)).Spelled f _ := .object n hwf.1 hwf.2
      simpa [render, rename, ElementType.rename, ElementType.render] using hspelled

/-- Parameters are written one by one. -/
lemma FieldType.forall₂_spelled_iff {ps : List FieldType} {texts : List (List Char)} :
    List.Forall₂ (FieldType.Spelled f) ps texts ↔
      (∀ p ∈ ps, p.WellFormed) ∧ texts = ps.map fun p => (p.rename f).render :=
  forall₂_iff_eq_map fun p _ => p.spelled_iff

/-- A method type is written if it is well-formed, and then in one way. -/
lemma MethodType.spelled_iff (t : MethodType) {params : List (List Char)} {result : List Char} :
    t.Spelled f params result cs ↔
      t.WellFormed ∧ params = (t.rename f).params.map FieldType.render ∧
        result = (t.rename f).result.render ∧ cs = (t.rename f).render := by
  have hmap : (t.rename f).params.map FieldType.render =
      t.params.map fun p => (p.rename f).render := List.map_map ..
  rw [hmap]
  constructor
  · intro h
    obtain ⟨hwf, rfl⟩ := FieldType.forall₂_spelled_iff.1 h.params
    obtain ⟨hresult, rfl⟩ := t.result.spelled_iff.1 h.result
    refine ⟨⟨fun p hp => ⟨hwf p hp, h.params_void p hp⟩, h.params_closed, hresult,
      h.result_void⟩, rfl, rfl, ?_⟩
    rw [h.text_eq, render, List.flatMap_def, hmap]
    rfl
  · rintro ⟨hwf, rfl, rfl, rfl⟩
    refine ⟨?_, FieldType.forall₂_spelled_iff.2 ⟨fun p hp => (hwf.params p hp).1, rfl⟩,
      fun p hp => (hwf.params p hp).2, hwf.closed, t.result.spelled_iff.2 ⟨hwf.result, rfl⟩,
      hwf.result_void⟩
    rw [render, List.flatMap_def, hmap]

/-- A text is read as the field type that is written like this. -/
lemma FieldType.parse?_eq_some_iff_spelled {t : FieldType} :
    parse? cs = some t ↔ t.Spelled id cs := by
  rw [parse?_eq_some_iff, spelled_iff, rename_id]

/-- A text is read as the method type that is written like this. -/
lemma MethodType.parse?_eq_some_iff_spelled {t : MethodType} :
    parse? cs = some t ↔ ∃ params result, t.Spelled id params result cs := by
  simp only [parse?_eq_some_iff, spelled_iff, rename_id, exists_and_left, exists_eq_left]

end

/-! ## Rewriting -/

namespace Descriptor

/-- What rewriting by `f`, and by `g` after it, does to a text. -/
structure RewrittenInPlace (f g : String → String) (text : String) : Prop where
  /-- A field descriptor is accepted exactly if it is written as some field type, and becomes what
  the same type is written as with the new class name. -/
  field_iff : ∀ out, renameField? f text = some out ↔
    ∃ t : FieldType, t.Spelled id text.toList ∧ t.Spelled f out.toList
  /-- A method descriptor is accepted exactly if it is written as some method type, and every
  parameter and the result become what they are written as with the new class names. -/
  method_iff : ∀ out, renameMethod? f text = some out ↔
    ∃ (t : MethodType) (params params' : List (List Char)) (result result' : List Char),
      t.Spelled id params result text.toList ∧ t.Spelled f params' result' out.toList
  /-- A method descriptor has one decomposition, which is the one that it is split into. -/
  parts_unique : ∀ (t : MethodType) (params : List (List Char)) (result : List Char),
    t.Spelled id params result text.toList →
      methodParts? text = some (params.map String.ofList, String.ofList result) ∧
        ∀ (t' : MethodType) (params' : List (List Char)) (result' : List Char),
          t'.Spelled id params' result' text.toList → t' = t ∧ params' = params ∧ result' = result
  /-- What is accepted stays as it is under the identity. -/
  field_id : ∀ out, renameField? f text = some out → renameField? id text = some text
  /-- What is accepted stays as it is under the identity. -/
  method_id : ∀ out, renameMethod? f text = some out → renameMethod? id text = some text
  /-- Rewriting twice is rewriting once, if the first new name can stand in a descriptor. -/
  field_comp : (∀ t : FieldType, t.Spelled id text.toList →
      ∀ name ∈ t.classNames, f name ≠ "" ∧ ';' ∉ (f name).toList) →
    (renameField? f text).bind (renameField? g) = renameField? (g ∘ f) text
  /-- Rewriting twice is rewriting once, if the first new names can stand in a descriptor, between
  parentheses too. -/
  method_comp : (∀ (t : MethodType) (params : List (List Char)) (result : List Char),
      t.Spelled id params result text.toList →
      ∀ name ∈ t.classNames, f name ≠ "" ∧ ';' ∉ (f name).toList ∧ ')' ∉ (f name).toList) →
    (renameMethod? f text).bind (renameMethod? g) = renameMethod? (g ∘ f) text

variable {f g : String → String} {text out : String}

/-- A field descriptor that is read as a type is rewritten to what this type is written as. -/
lemma renameField?_of_parse? {t : FieldType} (h : FieldType.parse? text.toList = some t) :
    renameField? f text = some (String.ofList (t.rename f).render) := by
  rw [renameField?, h, Option.map_some]

/-- A method descriptor that is read as a type is rewritten to what this type is written as. -/
lemma renameMethod?_of_parse? {t : MethodType} (h : MethodType.parse? text.toList = some t) :
    renameMethod? f text = some (String.ofList (t.rename f).render) := by
  rw [renameMethod?, h, Option.map_some]

/-- What is rewritten as a field descriptor, and into what. -/
lemma renameField?_eq_some_iff : renameField? f text = some out ↔
    ∃ t : FieldType, t.Spelled id text.toList ∧ t.Spelled f out.toList := by
  rw [renameField?, Option.map_eq_some_iff]
  refine exists_congr fun t => ?_
  rw [FieldType.parse?_eq_some_iff_spelled]
  refine and_congr_right fun ht => ?_
  have hwf := (t.spelled_iff.1 ht).1
  rw [t.spelled_iff, and_iff_right hwf, ← String.toList_inj, String.toList_ofList, eq_comm]

/-- What is rewritten as a method descriptor, and into what. -/
lemma renameMethod?_eq_some_iff : renameMethod? f text = some out ↔
    ∃ (t : MethodType) (params params' : List (List Char)) (result result' : List Char),
      t.Spelled id params result text.toList ∧ t.Spelled f params' result' out.toList := by
  rw [renameMethod?, Option.map_eq_some_iff]
  refine exists_congr fun t => ?_
  rw [MethodType.parse?_eq_some_iff_spelled]
  constructor
  · rintro ⟨⟨params, result, ht⟩, rfl⟩
    have hwf := (t.spelled_iff.1 ht).1
    exact ⟨params, _, result, _, ht,
      t.spelled_iff.2 ⟨hwf, rfl, rfl, String.toList_ofList⟩⟩
  · rintro ⟨params, params', result, result', ht, ht'⟩
    refine ⟨⟨params, result, ht⟩, ?_⟩
    rw [← (t.spelled_iff.1 ht').2.2.2, String.ofList_toList]

/-- **Descriptors are rewritten in place.** A text is rewritten exactly if the grammar gives it.
The parts of a method descriptor are determined by its text, and each is rewritten where it stands.

**Proof sketch.** Reading is the inverse of writing (`FieldType.parse?_eq_some_iff`,
`MethodType.parse?_eq_some_iff`), and a type that is read back after its names were replaced gives
the law of composition. -/
theorem rename_in_place (f g : String → String) (text : String) : RewrittenInPlace f g text where
  field_iff _ := renameField?_eq_some_iff
  method_iff _ := renameMethod?_eq_some_iff
  parts_unique t params result h := by
    obtain ⟨hwf, hparams, hresult, htext⟩ := t.spelled_iff.1 h
    rw [MethodType.rename_id] at hparams hresult htext
    refine ⟨?_, fun t' params' result' h' => ?_⟩
    · rw [methodParts?, htext, MethodType.splitMethod?_render hwf, Option.map_some, hparams,
        hresult]
    · have hread := MethodType.parse?_eq_some_iff_spelled.2 ⟨params, result, h⟩
      rw [MethodType.parse?_eq_some_iff_spelled.2 ⟨params', result', h'⟩] at hread
      obtain rfl := Option.some.inj hread
      obtain ⟨-, hparams', hresult', -⟩ := t'.spelled_iff.1 h'
      rw [MethodType.rename_id] at hparams' hresult'
      exact ⟨rfl, hparams'.trans hparams.symm, hresult'.trans hresult.symm⟩
  field_id out h := by
    obtain ⟨t, ht, -⟩ := renameField?_eq_some_iff.1 h
    exact renameField?_eq_some_iff.2 ⟨t, ht, ht⟩
  method_id out h := by
    obtain ⟨t, params, -, result, -, ht, -⟩ := renameMethod?_eq_some_iff.1 h
    exact renameMethod?_eq_some_iff.2 ⟨t, params, params, result, result, ht, ht⟩
  field_comp hf := by
    cases hread : FieldType.parse? text.toList with
    | none => simp [renameField?, hread]
    | some t =>
      have hwf := FieldType.wellFormed_rename (hf t (FieldType.parse?_eq_some_iff_spelled.1 hread))
      have hagain : FieldType.parse? (String.ofList (t.rename f).render).toList =
          some (t.rename f) := by
        rw [String.toList_ofList]
        exact FieldType.parse?_eq_some_iff.2 ⟨hwf, rfl⟩
      rw [renameField?_of_parse? hread, renameField?_of_parse? hread, Option.bind_some,
        renameField?_of_parse? hagain, t.rename_comp]
  method_comp hf := by
    cases hread : MethodType.parse? text.toList with
    | none => simp [renameMethod?, hread]
    | some t =>
      obtain ⟨params, result, ht⟩ := MethodType.parse?_eq_some_iff_spelled.1 hread
      have hnames := hf t params result ht
      have hwf : (t.rename f).WellFormed := (t.spelled_iff.1 ht).1.rename_of_names
        (fun name hname => ⟨(hnames name hname).1, (hnames name hname).2.1⟩)
        fun p hp name hname => (hnames name
          (List.mem_append_left _ (List.mem_flatMap.2 ⟨p, hp, hname⟩))).2.2
      have hagain : MethodType.parse? (String.ofList (t.rename f).render).toList =
          some (t.rename f) := by
        rw [String.toList_ofList]
        exact MethodType.parse?_eq_some_iff.2 ⟨hwf, rfl⟩
      rw [renameMethod?_of_parse? hread, renameMethod?_of_parse? hread, Option.bind_some,
        renameMethod?_of_parse? hagain, t.rename_comp]

/-- Two classes trade their names and trade them back. -/
theorem rename_in_place_traded :
    let trade : String → String := fun name => if name = "a/A" then "a/B" else "a/A"
    let text := "(I[La/A;)La/B;"
    (∀ name, trade name ≠ "" ∧ ';' ∉ (trade name).toList ∧ ')' ∉ (trade name).toList) ∧
      (renameMethod? trade text).bind (renameMethod? trade) =
        renameMethod? (trade ∘ trade) text := by
  intro trade text
  have hnames : ∀ name, trade name ≠ "" ∧ ';' ∉ (trade name).toList ∧
      ')' ∉ (trade name).toList := by
    intro name
    simp only [trade]
    split <;> decide
  exact ⟨hnames, (rename_in_place trade trade text).method_comp fun _ _ _ _ name _ => hnames name⟩

end Descriptor

end Reclass
