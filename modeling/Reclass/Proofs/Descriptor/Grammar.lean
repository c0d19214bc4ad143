import Mathlib.Data.List.Basic
import Mathlib.Tactic.Lemma
import Reclass.Proofs.ClassName.Shape

set_option relaxedAutoImplicit false
set_option autoImplicit false

/-!
# The grammar of descriptors

A text is read as a field or method type exactly if it is the text of a well-formed one, and then
it is read as that one. What is well-formed depends on the class names only, apart from `V`, which
is no type of a parameter. So the text of a type whose class names were replaced is read again,
as long as the new names are plain.

## Main definitions

* `Reclass.FieldType.WellFormed`, `Reclass.MethodType.WellFormed` — the types that have a text.
* `Reclass.FieldType.classNames`, `Reclass.MethodType.classNames` — the class names inside.

## Main results

* `Reclass.FieldType.parse?_eq_some_iff`, `Reclass.MethodType.parse?_eq_some_iff` — reading is the
  inverse of writing.
* `Reclass.FieldType.parse?_render_rename`, `Reclass.MethodType.parse?_render_rename` — a renamed
  type is read again.
-/

namespace Reclass

/-- A list comes back from two maps if all its items do. -/
lemma map_map_cancel {α β : Type} {f : α → β} {g : β → α} {l : List α}
    (h : ∀ x ∈ l, g (f x) = x) : (l.map f).map g = l := by
  rw [List.map_map]
  exact (List.map_congr_left h).trans (List.map_id l)

/-! ## Element types -/

namespace ElementType

variable {e : ElementType} {cs : List Char}

/-- A class name is not empty and holds no semicolon. -/
def WellFormed : ElementType → Prop
  | primitive _ => True
  | object name => name ≠ "" ∧ ';' ∉ name.toList

/-- The class name inside, if there is one. -/
def classNames : ElementType → List String
  | primitive _ => []
  | object name => [name]

/-- An element type has a text, and that does not start with a bracket. -/
lemma exists_render_eq_cons (e : ElementType) :
    ∃ c rest, e.render = c :: rest ∧ c ≠ '[' ∧ c ≠ ')' ∧ c ≠ '(' ∧ c ≠ '<' := by
  cases e with
  | primitive p => exact ⟨p.letter, [], rfl, by cases p <;> decide⟩
  | object name => exact ⟨'L', name.toList ++ [';'], rfl, by decide⟩

/-- A text is read as an element type exactly if it is the text of it. -/
lemma parse?_eq_some_iff : parse? cs = some e ↔ e.WellFormed ∧ cs = e.render := by
  constructor
  · intro h
    unfold parse? at h
    split at h
    · next c =>
      obtain ⟨p, hp, rfl⟩ := Option.map_eq_some_iff.1 h
      exact ⟨trivial, by rw [Primitive.ofLetter?_eq_some_iff.1 hp]; rfl⟩
    · split at h
      · next name hname =>
        split at h
        · next hwf =>
          obtain rfl := Option.some.inj h
          rw [Descriptor.objectName?_eq_some_iff] at hname
          refine ⟨⟨?_, ?_⟩, ?_⟩
          · simpa using hwf.1
          · simpa using hwf.2
          · rw [hname, render, String.toList_ofList]
        · exact absurd h (by simp)
      · exact absurd h (by simp)
  · rintro ⟨hwf, rfl⟩
    cases e with
    | primitive p => simp [render, parse?]
    | object name =>
      have hne : name.toList ≠ [] := fun hnil => hwf.1 (String.toList_eq_nil_iff.1 hnil)
      have hobject := Descriptor.objectName?_eq_some_iff.2
        (rfl : (object name).render = 'L' :: name.toList ++ [';'])
      unfold parse?
      split
      · next c hc =>
        have hlen := congrArg List.length hc
        simp [render] at hlen
      · rw [hobject]
        simp only [hne, hwf.2, ne_eq, not_false_eq_true, and_self, if_true, String.ofList_toList]

end ElementType

/-! ## Field types -/

namespace Descriptor

variable {n : Nat} {c : Char} {cs rest first : List Char}

/-- Brackets in front are counted up to the first other character. -/
lemma brackets_replicate (hc : c ≠ '[') :
    brackets (List.replicate n '[' ++ c :: rest) = List.replicate n '[' := by
  rw [brackets, List.takeWhile_append_of_pos (by simp),
    List.takeWhile_cons_of_neg (by simpa using hc), List.append_nil]

/-- The element follows the brackets. -/
lemma element_replicate (hc : c ≠ '[') :
    element (List.replicate n '[' ++ c :: rest) = c :: rest := by
  rw [element, List.dropWhile_append_of_pos (by simp),
    List.dropWhile_cons_of_neg (by simpa using hc)]

/-- The brackets of a text are brackets. -/
lemma brackets_eq_replicate (cs : List Char) :
    brackets cs = List.replicate (brackets cs).length '[' := by
  refine List.eq_replicate_iff.2 ⟨rfl, fun c hc => ?_⟩
  have hall := List.all_takeWhile (p := (· == '[')) (l := cs)
  simpa using List.all_eq_true.1 hall c hc

/-- Text that starts with a bracket has brackets. -/
lemma brackets_ne_nil (h : cs.head? = some '[') : brackets cs ≠ [] := by
  obtain ⟨tail, rfl⟩ := List.head?_eq_some_iff.1 h
  exact List.cons_ne_nil _ _

end Descriptor

namespace FieldType

variable {t : FieldType} {cs rest : List Char} {f g : String → String}

/-- A field type is well-formed if its element is. -/
def WellFormed (t : FieldType) : Prop := t.element.WellFormed

/-- The class name inside, if there is one. -/
def classNames (t : FieldType) : List String := t.element.classNames

/-- The parts of the text of a field type. -/
lemma split_render (t : FieldType) (rest : List Char) :
    Descriptor.brackets (t.render ++ rest) = List.replicate t.dimensions '[' ∧
      Descriptor.element (t.render ++ rest) = t.element.render ++ rest := by
  obtain ⟨c, tail, hc, hne, -⟩ := t.element.exists_render_eq_cons
  rw [render, hc, List.append_assoc, List.cons_append]
  exact ⟨Descriptor.brackets_replicate hne, Descriptor.element_replicate hne⟩

/-- **Reading a field type is the inverse of writing it.** -/
theorem parse?_eq_some_iff : parse? cs = some t ↔ t.WellFormed ∧ cs = t.render := by
  rw [parse?, Option.map_eq_some_iff]
  constructor
  · rintro ⟨e, he, rfl⟩
    obtain ⟨hwf, helement⟩ := ElementType.parse?_eq_some_iff.1 he
    refine ⟨hwf, ?_⟩
    rw [render, ← Descriptor.brackets_eq_replicate, ← helement,
      Descriptor.brackets_append_element]
  · rintro ⟨hwf, rfl⟩
    obtain ⟨hbrackets, helement⟩ := t.split_render []
    rw [List.append_nil, List.append_nil] at helement
    rw [List.append_nil] at hbrackets
    refine ⟨t.element, ?_, ?_⟩
    · rw [helement]
      exact ElementType.parse?_eq_some_iff.2 ⟨hwf, rfl⟩
    · rw [hbrackets, List.length_replicate]

/-- The text of a field type starts neither like a method descriptor nor like a signature with
type parameters. -/
lemma head?_render (t : FieldType) : t.render.head? ≠ some '(' ∧ t.render.head? ≠ some '<' := by
  obtain ⟨c, tail, hc, -, -, hparen, hangle⟩ := t.element.exists_render_eq_cons
  rw [render, hc]
  cases t.dimensions with
  | zero => simp [hparen, hangle]
  | succ n => simp [List.replicate_succ]

/-- The text of a field type is not empty. -/
lemma length_render_pos (t : FieldType) : 0 < t.render.length := by
  obtain ⟨c, tail, hc, -⟩ := t.element.exists_render_eq_cons
  rw [render, hc, List.length_append, List.length_cons]
  omega

/-- The text of a field type holds a parenthesis only if its class name does. -/
lemma paren_mem_render_iff {c : Char} (hc : c = '(' ∨ c = ')') :
    c ∈ t.render ↔ ∃ name ∈ t.classNames, c ∈ name.toList := by
  rw [render, List.mem_append, classNames]
  cases t.element with
  | primitive q =>
    have hletter : c ≠ q.letter := by rcases hc with rfl | rfl <;> cases q <;> decide
    rcases hc with rfl | rfl <;> simp [ElementType.render, ElementType.classNames, hletter]
  | object name =>
    rcases hc with rfl | rfl <;> simp [ElementType.render, ElementType.classNames]

/-- A renamed field type names the renamed class. -/
lemma classNames_rename : (t.rename f).classNames = t.classNames.map f := by
  obtain ⟨n, e⟩ := t
  cases e <;> rfl

/-- A field type names one class at most. -/
lemma eq_of_mem_classNames {name other : String} (h : name ∈ t.classNames)
    (h' : other ∈ t.classNames) : name = other := by
  obtain ⟨n, e⟩ := t
  cases e with
  | primitive p => exact absurd h List.not_mem_nil
  | object found => exact (List.mem_singleton.1 h).trans (List.mem_singleton.1 h').symm

/-- A field type stays if its class name does. -/
lemma rename_eq_self (t : FieldType) (h : ∀ name ∈ t.classNames, f name = name) :
    t.rename f = t := by
  obtain ⟨n, e⟩ := t
  cases e with
  | primitive p => rfl
  | object name =>
    have hname : f name = name := h name List.mem_cons_self
    rw [rename, ElementType.rename, hname]

/-- A field type is well-formed if its class name is not empty and holds no semicolon. -/
lemma wellFormed_iff : t.WellFormed ↔ ∀ name ∈ t.classNames, name ≠ "" ∧ ';' ∉ name.toList := by
  obtain ⟨n, e⟩ := t
  cases e <;> simp [WellFormed, ElementType.WellFormed, classNames, ElementType.classNames]

/-- A field type is well-formed with any new class name that is not empty and holds no
semicolon. -/
lemma wellFormed_rename (h : ∀ name ∈ t.classNames, f name ≠ "" ∧ ';' ∉ (f name).toList) :
    (t.rename f).WellFormed := by
  rw [wellFormed_iff, classNames_rename, List.forall_mem_map]
  exact h

/-- Replacing the class name by a plain one keeps a field type well-formed. -/
lemma WellFormed.rename (h : t.WellFormed) (hf : ∀ name, f name = name ∨ ClassName.Plain (f name)) :
    (t.rename f).WellFormed := by
  refine wellFormed_rename fun name hname => ?_
  rcases hf name with heq | hplain
  · rw [heq]
    exact wellFormed_iff.1 h name hname
  · exact ⟨hplain.ne_empty, hplain.notMem ';' (by decide)⟩

/-- A field type is read again after its class name has been replaced. -/
theorem parse?_render_rename (h : parse? cs = some t)
    (hf : ∀ name, f name = name ∨ ClassName.Plain (f name)) :
    parse? (t.rename f).render = some (t.rename f) :=
  parse?_eq_some_iff.2 ⟨(parse?_eq_some_iff.1 h).1.rename hf, rfl⟩

/-- Two replacements make one. -/
lemma rename_comp (t : FieldType) (f g : String → String) :
    (t.rename f).rename g = t.rename (g ∘ f) := by
  obtain ⟨n, e⟩ := t
  cases e <;> rfl

/-- Two replacements that cancel on the class name give the field type back. -/
lemma rename_rename (h : ∀ name ∈ t.classNames, g (f name) = name) :
    (t.rename f).rename g = t := by
  rw [rename_comp]
  exact t.rename_eq_self h

end FieldType

/-! ## Splitting -/

namespace Descriptor

variable {cs first rest result : List Char} {ps : List FieldType} {parts : List (List Char)}

/-- What is split off is a part of the text and not `V`, nor an array of it. -/
lemma splitFirst?_sound (h : splitFirst? cs = some (first, rest)) :
    cs = first ++ rest ∧ element first ≠ ['V'] := by
  have hcs := brackets_append_element cs
  have hreplicate := brackets_eq_replicate cs
  unfold splitFirst? at h
  split at h
  · exact absurd h (by simp)
  · next c tail helement =>
    rw [helement] at hcs
    split at h
    · next hc =>
      obtain ⟨⟨name, after⟩, hcut, heq⟩ := Option.map_eq_some_iff.1 h
      obtain ⟨rfl, rfl⟩ := Prod.mk.inj heq
      obtain ⟨rfl, -, d, later, rfl, hd⟩ := Text.upTo?_eq_some_iff.1 hcut
      obtain rfl : d = ';' := by simpa using hd
      refine ⟨?_, ?_⟩
      · refine hcs.symm.trans ?_
        simp [hc]
      · rw [hreplicate, List.append_assoc, List.cons_append, element_replicate (by decide)]
        simp
    · split at h
      · next hc =>
        obtain ⟨rfl, rfl⟩ := Prod.mk.inj (Option.some.inj h)
        have hne : c ≠ '[' := by
          rintro rfl
          exact absurd hc.2 (by decide)
        refine ⟨?_, ?_⟩
        · refine hcs.symm.trans ?_
          simp
        · rw [hreplicate, element_replicate hne]
          simpa using hc.1
      · exact absurd h (by simp)

/-- The text of a field type other than `V` or an array of it is split off as it is. -/
lemma splitFirst?_render {t : FieldType} (hwf : t.WellFormed)
    (hvoid : t.element ≠ .primitive .void) (rest : List Char) :
    splitFirst? (t.render ++ rest) = some (t.render, rest) := by
  obtain ⟨hbrackets, helement⟩ := t.split_render rest
  rw [splitFirst?, helement, hbrackets]
  cases he : t.element with
  | primitive p =>
    have hletter : p.letter ≠ 'V' := by
      intro hp
      refine hvoid (he.trans (congrArg _ ?_))
      cases p <;> simp_all [Primitive.letter]
    have hobject : p.letter ≠ 'L' := by cases p <;> decide
    simp [ElementType.render, FieldType.render, he, hletter, hobject]
  | object name =>
    have hname : ';' ∉ name.toList := by
      rw [FieldType.WellFormed, he] at hwf
      exact hwf.2
    have hcut : Text.upTo? (· == ';') (name.toList ++ ';' :: rest) =
        some (name.toList, ';' :: rest) := by
      refine Text.upTo?_eq_some_iff.2 ⟨rfl, fun c hc => ?_, ';', rest, rfl, rfl⟩
      rw [beq_eq_false_iff_ne]
      exact fun heq => hname (heq ▸ hc)
    simp [ElementType.render, FieldType.render, he, hcut]

/-- The parts of a text make it up, and none is `V` or an array of it. -/
lemma splitAll?_sound {bound : Nat} (h : splitAll? bound cs = some parts) :
    cs = parts.flatten ∧ ∀ part ∈ parts, element part ≠ ['V'] := by
  induction bound generalizing cs parts with
  | zero =>
    cases cs with
    | nil =>
      obtain rfl := Option.some.inj h
      exact ⟨rfl, fun _ hpart => absurd hpart List.not_mem_nil⟩
    | cons c cs => exact absurd h (by simp [splitAll?])
  | succ bound ih =>
    cases cs with
    | nil =>
      obtain rfl := Option.some.inj h
      exact ⟨rfl, fun _ hpart => absurd hpart List.not_mem_nil⟩
    | cons c cs =>
      rw [splitAll?] at h
      · split at h
        · exact absurd h (by simp)
        · next first rest hfirst =>
          obtain ⟨others, hothers, rfl⟩ := Option.map_eq_some_iff.1 h
          obtain ⟨hcs, hvoid⟩ := splitFirst?_sound hfirst
          obtain ⟨rfl, hall⟩ := ih hothers
          refine ⟨by rw [hcs, List.flatten_cons], fun part hpart => ?_⟩
          rcases List.mem_cons.1 hpart with rfl | hpart
          · exact hvoid
          · exact hall part hpart
      · simp

/-- The texts of parameters are split apart. -/
lemma splitAll?_render {bound : Nat} (hbound : ps.length ≤ bound)
    (hps : ∀ p ∈ ps, p.WellFormed ∧ p.element ≠ .primitive .void) :
    splitAll? bound (ps.flatMap FieldType.render) = some (ps.map FieldType.render) := by
  induction ps generalizing bound with
  | nil => cases bound <;> rfl
  | cons p ps ih =>
    obtain ⟨bound, rfl⟩ : ∃ b, bound = b + 1 := ⟨bound - 1, by simp at hbound; omega⟩
    obtain ⟨hwf, hvoid⟩ := hps p List.mem_cons_self
    have hrest := ih (by simpa using hbound) fun q hq => hps q (List.mem_cons_of_mem _ hq)
    have hne : (p :: ps).flatMap FieldType.render ≠ [] := by
      have hpos := p.length_render_pos
      intro hnil
      rw [List.flatMap_cons, List.append_eq_nil_iff] at hnil
      simp [hnil.1] at hpos
    rw [splitAll?]
    · rw [List.flatMap_cons, splitFirst?_render hwf hvoid]
      simp only [hrest, Option.map_some, List.map_cons]
    · simpa using hne

/-- A method descriptor is made of its parameters, which hold no closing parenthesis, and its
result. -/
lemma splitMethod?_sound (h : splitMethod? cs = some (parts, result)) :
    cs = '(' :: parts.flatten ++ ')' :: result ∧ ')' ∉ parts.flatten ∧
      (∀ part ∈ parts, element part ≠ ['V']) ∧ isResult result = true := by
  unfold splitMethod? at h
  split at h
  · next rest =>
    split at h
    · next inside d after hcut =>
      split at h
      · next params hparams =>
        split at h
        · next hresult =>
          obtain ⟨rfl, rfl⟩ := Prod.mk.inj (Option.some.inj h)
          obtain ⟨rfl, hinside, d', rest', heq, hd⟩ := Text.upTo?_eq_some_iff.1 hcut
          obtain ⟨rfl, rfl⟩ := List.cons.inj heq
          obtain rfl : d = ')' := by simpa using hd
          obtain ⟨rfl, hvoid⟩ := splitAll?_sound hparams
          exact ⟨rfl, fun hmem => absurd (hinside ')' hmem) (by simp), hvoid, hresult⟩
        · exact absurd h (by simp)
      · exact absurd h (by simp)
    · exact absurd h (by simp)
  · exact absurd h (by simp)

end Descriptor

/-! ## Method types -/

namespace MethodType

variable {t : MethodType} {cs : List Char} {f g : String → String}

/-- Parameters are well-formed, are not `V` nor arrays of it, and hold no closing parenthesis. The
result may be `V` but no array of it. -/
structure WellFormed (t : MethodType) : Prop where
  params : ∀ p ∈ t.params, p.WellFormed ∧ p.element ≠ .primitive .void
  closed : ∀ p ∈ t.params, ∀ name ∈ p.classNames, ')' ∉ name.toList
  result : t.result.WellFormed
  result_void : t.result.element = .primitive .void → t.result.dimensions = 0

/-- The class names inside. -/
def classNames (t : MethodType) : List String :=
  t.params.flatMap FieldType.classNames ++ t.result.classNames

/-- Reading the parts of a parameter list is the inverse of writing them. -/
lemma mapM_parse?_eq_some_iff {parts : List (List Char)} {ps : List FieldType} :
    parts.mapM FieldType.parse? = some ps ↔
      (∀ p ∈ ps, p.WellFormed) ∧ parts = ps.map FieldType.render := by
  induction parts generalizing ps with
  | nil =>
    rw [List.mapM_nil]
    constructor
    · intro h
      obtain rfl := Option.some.inj h
      exact ⟨by simp, rfl⟩
    · rintro ⟨-, h⟩
      rw [List.map_eq_nil_iff.1 h.symm]
      rfl
  | cons part parts ih =>
    have hcons : (part :: parts).mapM FieldType.parse? = some ps ↔
        ∃ q, FieldType.parse? part = some q ∧
          ∃ qs, parts.mapM FieldType.parse? = some qs ∧ q :: qs = ps := by
      simp [List.mapM_cons, Option.bind_eq_some_iff]
    rw [hcons]
    constructor
    · rintro ⟨q, hq, qs, hqs, rfl⟩
      obtain ⟨hwf, rfl⟩ := FieldType.parse?_eq_some_iff.1 hq
      obtain ⟨hall, rfl⟩ := ih.1 hqs
      refine ⟨fun p hp => ?_, rfl⟩
      rcases List.mem_cons.1 hp with rfl | hp
      · exact hwf
      · exact hall p hp
    · rintro ⟨hall, hparts⟩
      cases ps with
      | nil => exact absurd hparts (by simp)
      | cons q qs =>
        obtain ⟨rfl, rfl⟩ := List.cons.inj hparts
        exact ⟨q, FieldType.parse?_eq_some_iff.2 ⟨hall q List.mem_cons_self, rfl⟩, qs,
          ih.2 ⟨fun p hp => hall p (List.mem_cons_of_mem _ hp), rfl⟩, rfl⟩

/-- Every parameter takes up some text. -/
lemma length_le_length_flatMap_render (ps : List FieldType) :
    ps.length ≤ (ps.flatMap FieldType.render).length := by
  induction ps with
  | nil => exact Nat.le_refl _
  | cons p ps ih =>
    have hpos := p.length_render_pos
    rw [List.flatMap_cons, List.length_append, List.length_cons]
    omega

/-- Results are recognised. -/
lemma isResult_render_iff {p : FieldType} (hwf : p.WellFormed) :
    Descriptor.isResult p.render = true ↔
      (p.element = .primitive .void → p.dimensions = 0) := by
  by_cases hvoid : p.element = .primitive .void
  · have hsplit : Descriptor.splitFirst? p.render = none := by
      obtain ⟨-, helement⟩ := p.split_render []
      rw [List.append_nil, List.append_nil, hvoid] at helement
      rw [Descriptor.splitFirst?, helement]
      rfl
    simp only [Descriptor.isResult, hsplit, hvoid, Bool.or_false, beq_iff_eq, true_imp_iff]
    rw [FieldType.render, hvoid]
    cases p.dimensions <;> simp [ElementType.render, Primitive.letter, List.replicate_succ]
  · have hsplit := Descriptor.splitFirst?_render hwf hvoid []
    rw [List.append_nil] at hsplit
    simp [Descriptor.isResult, hsplit, hvoid]

/-- The text of a method type is split where it was put together: its parameters hold no closing
parenthesis. -/
lemma splitMethod?_render (hwf : t.WellFormed) :
    Descriptor.splitMethod? t.render =
      some (t.params.map FieldType.render, t.result.render) := by
  have hinside : ∀ c ∈ t.params.flatMap FieldType.render, (c == ')') = false := by
    intro c hc
    obtain ⟨p, hp, hcp⟩ := List.mem_flatMap.1 hc
    rw [beq_eq_false_iff_ne]
    rintro rfl
    obtain ⟨name, hname, hparen⟩ := (FieldType.paren_mem_render_iff (.inr rfl)).1 hcp
    exact hwf.closed p hp name hname hparen
  have hcut : Text.upTo? (· == ')')
      (t.params.flatMap FieldType.render ++ ')' :: t.result.render) =
        some (t.params.flatMap FieldType.render, ')' :: t.result.render) :=
    Text.upTo?_eq_some_iff.2 ⟨rfl, hinside, ')', _, rfl, rfl⟩
  have hbound := length_le_length_flatMap_render t.params
  simp only [Descriptor.splitMethod?, render, List.cons_append, hcut,
    Descriptor.splitAll?_render hbound hwf.params,
    (isResult_render_iff hwf.result).2 hwf.result_void, if_true]

/-- **Reading a method type is the inverse of writing it.**

**Proof sketch.** A text that is read is cut at the first closing parenthesis and split; each part
is the text of the type that it is read as (`FieldType.parse?_eq_some_iff`). Conversely the
parameters of a well-formed type hold no closing parenthesis, so their text is cut and split where
it was put together (`splitMethod?_render`). -/
theorem parse?_eq_some_iff : parse? cs = some t ↔ t.WellFormed ∧ cs = t.render := by
  constructor
  · intro h
    unfold parse? at h
    split at h
    · exact absurd h (by simp)
    · next parts last hsplit =>
      split at h
      · next ps r hps hr =>
        obtain rfl := Option.some.inj h
        obtain ⟨hwf, rfl⟩ := mapM_parse?_eq_some_iff.1 hps
        obtain ⟨hresult, rfl⟩ := FieldType.parse?_eq_some_iff.1 hr
        obtain ⟨rfl, hclosed, hvoid, hlast⟩ := Descriptor.splitMethod?_sound hsplit
        refine ⟨⟨fun p hp => ⟨hwf p hp, fun hp' => ?_⟩, fun p hp name hname hparen => ?_, hresult,
          (isResult_render_iff hresult).1 hlast⟩, rfl⟩
        · refine hvoid p.render (List.mem_map_of_mem hp) ?_
          have helement := (p.split_render []).2
          rw [List.append_nil, List.append_nil] at helement
          rw [helement, hp']
          rfl
        · refine hclosed (List.mem_flatten.2 ⟨p.render, List.mem_map_of_mem hp, ?_⟩)
          exact (FieldType.paren_mem_render_iff (.inr rfl)).2 ⟨name, hname, hparen⟩
      · exact absurd h (by simp)
  · rintro ⟨hwf, rfl⟩
    have hps := mapM_parse?_eq_some_iff.2 ⟨fun p hp => (hwf.params p hp).1, rfl⟩
    have hr := FieldType.parse?_eq_some_iff.2 ⟨hwf.result, rfl⟩
    simp only [parse?, splitMethod?_render hwf, hps, hr]

/-- The class names inside are not empty and hold no semicolon. -/
lemma WellFormed.names (h : t.WellFormed) :
    ∀ name ∈ t.classNames, name ≠ "" ∧ ';' ∉ name.toList := by
  intro name hname
  rcases List.mem_append.1 hname with hname | hname
  · obtain ⟨p, hp, hname⟩ := List.mem_flatMap.1 hname
    exact FieldType.wellFormed_iff.1 (h.params p hp).1 name hname
  · exact FieldType.wellFormed_iff.1 h.result name hname

/-- A method type stays well-formed with new class names that are not empty and hold no semicolon,
if those of the parameters hold no closing parenthesis either. -/
lemma WellFormed.rename_of_names (h : t.WellFormed)
    (hnames : ∀ name ∈ t.classNames, f name ≠ "" ∧ ';' ∉ (f name).toList)
    (hclosed : ∀ p ∈ t.params, ∀ name ∈ p.classNames, ')' ∉ (f name).toList) :
    (t.rename f).WellFormed := by
  obtain ⟨hparams, hresult⟩ := List.forall_mem_append.1 hnames
  have hvoid : ∀ p : FieldType, (p.rename f).element = .primitive .void →
      p.element = .primitive .void := by
    rintro ⟨n, e⟩ he
    cases e with
    | primitive q => exact he
    | object name => exact absurd he (by simp [FieldType.rename, ElementType.rename])
  refine ⟨List.forall_mem_map.2 fun p hp => ⟨?_, fun he => (h.params p hp).2 (hvoid p he)⟩,
    List.forall_mem_map.2 fun p hp => ?_, FieldType.wellFormed_rename hresult,
    fun he => h.result_void (hvoid _ he)⟩
  · exact FieldType.wellFormed_rename fun name hname =>
      hparams name (List.mem_flatMap.2 ⟨p, hp, hname⟩)
  · rw [FieldType.classNames_rename, List.forall_mem_map]
    exact hclosed p hp

/-- Replacing class names by plain ones keeps a method type well-formed. -/
lemma WellFormed.rename (h : t.WellFormed) (hf : ∀ name, f name = name ∨ ClassName.Plain (f name)) :
    (t.rename f).WellFormed := by
  refine h.rename_of_names (fun name hname => ?_) fun p hp name hname => ?_
  · rcases hf name with heq | hplain
    · rw [heq]
      exact h.names name hname
    · exact ⟨hplain.ne_empty, hplain.notMem ';' (by decide)⟩
  · rcases hf name with heq | hplain
    · rw [heq]
      exact h.closed p hp name hname
    · exact hplain.notMem ')' (by decide)

/-- A method type is read again after its class names have been replaced. -/
theorem parse?_render_rename (h : parse? cs = some t)
    (hf : ∀ name, f name = name ∨ ClassName.Plain (f name)) :
    parse? (t.rename f).render = some (t.rename f) :=
  parse?_eq_some_iff.2 ⟨(parse?_eq_some_iff.1 h).1.rename hf, rfl⟩

/-- Two replacements make one. -/
lemma rename_comp (t : MethodType) (f g : String → String) :
    (t.rename f).rename g = t.rename (g ∘ f) := by
  have hparam : FieldType.rename g ∘ FieldType.rename f = FieldType.rename (g ∘ f) :=
    funext fun p => p.rename_comp f g
  simp only [rename, List.map_map, hparam, FieldType.rename_comp]

/-- A method type stays if its class names do. -/
lemma rename_eq_self (t : MethodType) (h : ∀ name ∈ t.classNames, f name = name) :
    t.rename f = t := by
  obtain ⟨ps, result⟩ := t
  obtain ⟨hps, hresult⟩ := List.forall_mem_append.1 h
  have hparams : ps.map (FieldType.rename f) = ps :=
    List.map_congr_left (fun p hp => p.rename_eq_self fun name hname =>
      hps name (List.mem_flatMap.2 ⟨p, hp, hname⟩)) |>.trans (List.map_id ps)
  rw [rename, hparams, result.rename_eq_self hresult]

/-- Two replacements that cancel on the class names give the method type back. -/
lemma rename_rename (h : ∀ name ∈ t.classNames, g (f name) = name) :
    (t.rename f).rename g = t := by
  rw [rename_comp]
  exact t.rename_eq_self h

end MethodType

end Reclass
