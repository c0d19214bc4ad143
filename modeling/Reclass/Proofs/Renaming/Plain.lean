import Reclass.Proofs.Renaming.Mention
import Reclass.Proofs.Signature.Grammar

set_option relaxedAutoImplicit false
set_option autoImplicit false

/-!
# Plain renamings

If only plain names are replaced, and by plain ones, then text of every shape keeps its shape: a
descriptor is read again after its class names have been replaced, an array stays one, and the owner
of a member stands for the renamed class. So a text comes back as soon as its class names do.

## Main definitions

* `Reclass.Renaming.PlainNames` — only plain names are replaced, and by plain names.
* `Reclass.Descriptor.classNames`, `Reclass.Signature.namesInText`, `Reclass.ClassName.inType` — the
  classes that a text names.

## Main results

* `Reclass.Renaming.PlainNames.descriptor_comesBack`, `signature_comesBack`, `typeName_comesBack` —
  a text comes back if its class names do.
* `Reclass.Renaming.PlainNames.ofOwner?_typeName` — a renamed owner stands for the renamed class.
* `Reclass.Renaming.PlainNames.keepsHandles` — handles stay what they are.
-/

namespace Reclass

/-! ## Plain renamings -/

/-- Only plain names are replaced, and by plain names. -/
structure Renaming.PlainNames (r : Renaming) : Prop where
  listed : ∀ name names, r.find? name = some names → ClassName.Plain name
  new : ∀ name names, r.find? name = some names → ClassName.Plain names.newName

namespace Renaming.PlainNames

variable {r : Renaming} (hr : r.PlainNames)

include hr

/-- A class keeps its name or gets a plain one. -/
lemma className_eq_or_plain (name : String) :
    r.className name = name ∨ ClassName.Plain (r.className name) := by
  unfold className
  cases hfind : r.find? name with
  | none => exact .inl rfl
  | some names => exact .inr (hr.new name names hfind)

/-- A name that is not plain stays. -/
lemma className_of_not_plain {name : String} (h : ¬ClassName.Plain name) :
    r.className name = name := by
  unfold className
  cases hfind : r.find? name with
  | none => rfl
  | some names => exact absurd (hr.listed name names hfind) h

end Renaming.PlainNames

/-! ## Descriptors -/

section Text

variable {α : Type} {parse : List Char → Option α} {render : α → List Char} {f g : α → α}
  {text : String}

/-- A text with what it was read as replaced. Text that cannot be read stays. -/
def replacedText (parse : List Char → Option α) (render : α → List Char) (f : α → α)
    (text : String) : String :=
  ((parse text.toList).map fun t => String.ofList (render (f t))).getD text

/-- A text comes back if it is read again after the replacement and what was read comes back. -/
lemma replacedText_comesBack (h : ∀ t, parse text.toList = some t →
      parse (render (f t)) = some (f t) ∧ g (f t) = t ∧ text.toList = render t) :
    replacedText parse render g (replacedText parse render f text) = text := by
  unfold replacedText
  cases hparse : parse text.toList with
  | none => simp only [hparse, Option.map_none, Option.getD_none]
  | some t =>
    obtain ⟨hagain, hback, htext⟩ := h t hparse
    simp only [Option.map_some, Option.getD_some, String.toList_ofList, hagain, hback, ← htext,
      String.ofList_toList]

end Text

namespace Descriptor

variable {text : String}

/-- The class named in a field descriptor. -/
def fieldClassNames (text : String) : List String :=
  ((FieldType.parse? text.toList).map FieldType.classNames).getD []

/-- The classes named in a method descriptor. -/
def methodClassNames (text : String) : List String :=
  ((MethodType.parse? text.toList).map MethodType.classNames).getD []

/-- The classes named in a descriptor of either kind. -/
def classNames (text : String) : List String :=
  if isMethod text then methodClassNames text else fieldClassNames text

/-- Text that is read as a method type looks like one. -/
lemma isMethod_of_parse? {t : MethodType} (h : MethodType.parse? text.toList = some t) :
    isMethod text = true := by
  obtain ⟨-, htext⟩ := MethodType.parse?_eq_some_iff.1 h
  unfold isMethod
  rw [htext]
  rfl

/-- Text that looks like a method type starts accordingly. -/
lemma head?_of_isMethod (h : isMethod text = true) :
    text.toList.head? = some '(' ∨ text.toList.head? = some '<' := by
  unfold isMethod at h
  split at h
  · next tail htext => exact .inl (by rw [htext]; rfl)
  · next tail htext => exact .inr (by rw [htext]; rfl)
  · exact absurd h (by decide)

/-- Text that is read as a field type does not look like a method type. -/
lemma isMethod_of_parse?_field {t : FieldType} (h : FieldType.parse? text.toList = some t) :
    isMethod text = false := by
  obtain ⟨-, htext⟩ := FieldType.parse?_eq_some_iff.1 h
  obtain ⟨hparen, hangle⟩ := t.head?_render
  rw [← htext] at hparen hangle
  rw [← Bool.not_eq_true]
  intro hmethod
  rcases head?_of_isMethod hmethod with hhead | hhead
  · exact hparen hhead
  · exact hangle hhead

/-- An array does not look like a method type. -/
lemma isMethod_of_array (h : text.toList.head? = some '[') : isMethod text = false := by
  rw [← Bool.not_eq_true]
  intro hmethod
  rcases head?_of_isMethod hmethod with hhead | hhead <;> simp [h] at hhead

/-- The text of an object descriptor. -/
lemma toList_ofInternalName (name : String) :
    (ofInternalName name).toList = 'L' :: name.toList ++ [';'] := by
  rw [ofInternalName, String.toList_append, String.toList_append]
  rfl

/-- The class inside of an object descriptor is found. -/
lemma internalName?_ofInternalName (name : String) :
    internalName? (ofInternalName name) = some name := by
  have hobject := objectName?_eq_some_iff.2 (toList_ofInternalName name)
  rw [internalName?, hobject, Option.map_some, String.ofList_toList]

/-- A text in which a class is found is an object descriptor. -/
lemma ofInternalName_of_internalName? {name : String} (h : internalName? text = some name) :
    ofInternalName name = text := by
  obtain ⟨cs, hcs, rfl⟩ := Option.map_eq_some_iff.1 h
  refine String.toList_injective ?_
  rw [toList_ofInternalName, String.toList_ofList, objectName?_eq_some_iff.1 hcs]

end Descriptor

/-! ## The class behind an owner -/

namespace ClassName

variable {text name : String}

/-- An array that is read stands for the class that it names, if it names one. -/
lemma ofOwner?_of_parse? {t : FieldType} (harray : text.toList.head? = some '[')
    (h : FieldType.parse? text.toList = some t) : ofOwner? text = t.classNames.head? := by
  obtain ⟨-, htext⟩ := FieldType.parse?_eq_some_iff.1 h
  obtain ⟨hbrackets, helement⟩ := t.split_render []
  rw [List.append_nil, ← htext] at hbrackets helement
  have hne : Descriptor.brackets text.toList ≠ [] := Descriptor.brackets_ne_nil harray
  rw [ofOwner?, helement, List.append_nil, FieldType.classNames]
  cases t.element with
  | primitive p =>
    have hobject : Descriptor.objectName? (ElementType.primitive p).render = none := by
      cases p <;> rfl
    simp only [hobject, hne, false_and, if_false]
    rfl
  | object name =>
    have hobject := Descriptor.objectName?_eq_some_iff.2
      (rfl : (ElementType.object name).render = 'L' :: name.toList ++ [';'])
    simp only [hobject, String.ofList_toList]
    rfl

/-- An array that stands for a class with a plain name is read. -/
lemma parse?_of_ofOwner? (harray : text.toList.head? = some '[') (h : ofOwner? text = some name)
    (hplain : Plain name) : FieldType.parse? text.toList =
      some ⟨(Descriptor.brackets text.toList).length, .object name⟩ := by
  have hne : Descriptor.brackets text.toList ≠ [] := Descriptor.brackets_ne_nil harray
  unfold ofOwner? at h
  split at h
  · next cs hcs =>
    obtain rfl := Option.some.inj h
    have helement : Descriptor.element text.toList =
        (ElementType.object (String.ofList cs)).render := by
      rw [Descriptor.objectName?_eq_some_iff.1 hcs, ElementType.render, String.toList_ofList]
    have hwf : (ElementType.object (String.ofList cs)).WellFormed :=
      ⟨hplain.ne_empty, hplain.notMem ';' (by decide)⟩
    rw [FieldType.parse?, ElementType.parse?_eq_some_iff.2 ⟨hwf, helement⟩]
    rfl
  · exact absurd h (by simp [hne])

/-- An object descriptor stands for the class inside. -/
lemma ofOwner?_ofInternalName (name : String) :
    ofOwner? (Descriptor.ofInternalName name) = some name := by
  have htext := Descriptor.toList_ofInternalName name
  have hobject := Descriptor.objectName?_eq_some_iff.2 htext
  have helement : Descriptor.element (Descriptor.ofInternalName name).toList =
      (Descriptor.ofInternalName name).toList := by
    rw [htext]
    rfl
  simp only [ofOwner?, helement, hobject, String.ofList_toList]

end ClassName

/-! ## Class names in a text -/

/-- The classes named in a generic signature. -/
def Signature.namesInText (text : String) : List String :=
  ((Signature.parse? text.toList).map Signature.classNames).getD []

/-- The classes named in a type of any shape. -/
def ClassName.inType (text : String) : List String :=
  if text.toList.head? = some '[' then Descriptor.classNames text
  else
    match Descriptor.internalName? text with
    | some inside => [inside]
    | none => [text]

/-- The class behind the owner of a member is named there if its name is plain. -/
lemma ClassName.mem_inType {text name : String} (h : ofOwner? text = some name)
    (hplain : Plain name) : name ∈ inType text := by
  rw [inType]
  by_cases harray : text.toList.head? = some '['
  · rw [if_pos harray, Descriptor.classNames, Descriptor.isMethod_of_array harray,
      if_neg Bool.false_ne_true, Descriptor.fieldClassNames, parse?_of_ofOwner? harray h hplain]
    exact List.mem_cons_self
  · rw [if_neg harray]
    cases hobject : Descriptor.internalName? text with
    | some inside =>
      rw [← Descriptor.ofInternalName_of_internalName? hobject, ofOwner?_ofInternalName] at h
      exact List.mem_singleton.2 (Option.some.inj h).symm
    | none =>
      have hempty : text ≠ "" := by
        rintro rfl
        have hnone : ofOwner? "" = none := by decide
        exact Option.some_ne_none name (h.symm.trans hnone)
      have hinternal : IsInternal text := ⟨hempty, harray, hobject⟩
      rw [hinternal.ofOwner?_eq] at h
      exact List.mem_singleton.2 (Option.some.inj h).symm

/-! ## Text by text -/

namespace Renaming

variable {r back : Renaming} {text : String}

/-- The new form of a field descriptor, where text of another kind stays. -/
def fieldDescriptor (r : Renaming) : String → String :=
  replacedText FieldType.parse? FieldType.render (FieldType.rename r.className)

/-- The new form of a method descriptor is that of the type that it is read as. -/
lemma methodDescriptor_eq_replacedText : r.methodDescriptor =
    replacedText MethodType.parse? MethodType.render (MethodType.rename r.className) := rfl

/-- A descriptor is renamed as its look demands. -/
lemma descriptor_eq_ite : r.descriptor text =
    if Descriptor.isMethod text then r.methodDescriptor text else r.fieldDescriptor text := rfl

/-- Text that does not look like a method type is no method descriptor. -/
lemma methodDescriptor_of_not_isMethod (h : Descriptor.isMethod text = false) :
    r.methodDescriptor text = text := by
  rw [methodDescriptor_eq_replacedText, replacedText]
  cases hparse : MethodType.parse? text.toList with
  | none => rfl
  | some t => exact absurd (Descriptor.isMethod_of_parse? hparse) (by simp [h])

/-- Text that looks like a method type is no field descriptor. -/
lemma fieldDescriptor_of_isMethod (h : Descriptor.isMethod text = true) :
    r.fieldDescriptor text = text := by
  rw [fieldDescriptor, replacedText]
  cases hparse : FieldType.parse? text.toList with
  | none => rfl
  | some t => exact absurd (Descriptor.isMethod_of_parse?_field hparse) (by simp [h])

/-- A renamed method descriptor still looks like one, and other text does not become one. -/
lemma isMethod_methodDescriptor :
    Descriptor.isMethod (r.methodDescriptor text) = Descriptor.isMethod text := by
  rw [methodDescriptor_eq_replacedText, replacedText]
  cases h : MethodType.parse? text.toList with
  | none => rfl
  | some t =>
    rw [Descriptor.isMethod_of_parse? h]
    unfold Descriptor.isMethod
    rw [Option.map_some, Option.getD_some, String.toList_ofList]
    rfl

/-- The class inside of an object descriptor is renamed. -/
lemma typeName_object {inside : String} (harray : text.toList.head? ≠ some '[')
    (hobject : Descriptor.internalName? text = some inside) :
    r.typeName text = Descriptor.ofInternalName (r.className inside) := by
  rw [typeName, if_neg harray]
  simp only [hobject]

/-- A name that is neither that of an array nor inside of an object descriptor is that of a
class. -/
lemma typeName_bare (harray : text.toList.head? ≠ some '[')
    (hobject : Descriptor.internalName? text = none) : r.typeName text = r.className text := by
  rw [typeName, if_neg harray]
  simp only [hobject]

/-- An object descriptor is renamed inside. -/
lemma typeName_ofInternalName (name : String) :
    r.typeName (Descriptor.ofInternalName name) =
      Descriptor.ofInternalName (r.className name) := by
  refine typeName_object ?_ (Descriptor.internalName?_ofInternalName name)
  rw [Descriptor.toList_ofInternalName]
  simp

/-- An array is renamed as a field descriptor. -/
lemma typeName_array (h : text.toList.head? = some '[') :
    r.typeName text = r.fieldDescriptor text := by
  rw [typeName, if_pos h, descriptor_eq_ite, Descriptor.isMethod_of_array h,
    if_neg Bool.false_ne_true]

/-- An array stays an array. -/
lemma head?_typeName (h : text.toList.head? = some '[') :
    (r.typeName text).toList.head? = some '[' := by
  rw [typeName_array h, fieldDescriptor, replacedText]
  cases hparse : FieldType.parse? text.toList with
  | none => exact h
  | some t =>
    obtain ⟨-, htext⟩ := FieldType.parse?_eq_some_iff.1 hparse
    obtain ⟨c, tail, hc, hne, -⟩ := t.element.exists_render_eq_cons
    rw [htext, FieldType.render, hc] at h
    rw [Option.map_some, Option.getD_some, String.toList_ofList, FieldType.render,
      FieldType.rename]
    cases hn : t.dimensions with
    | zero =>
      rw [hn] at h
      exact absurd (Option.some.inj h) hne
    | succ n => rfl

namespace PlainNames

variable (hr : r.PlainNames)

include hr

/-- Renamed text of either kind stays of this kind. -/
lemma isMethod_descriptor : Descriptor.isMethod (r.descriptor text) = Descriptor.isMethod text := by
  rw [descriptor_eq_ite]
  split
  · exact isMethod_methodDescriptor
  · rw [fieldDescriptor, replacedText]
    cases h : FieldType.parse? text.toList with
    | none => rfl
    | some t =>
      have hagain := FieldType.parse?_render_rename h hr.className_eq_or_plain
      rw [Descriptor.isMethod_of_parse?_field h, Option.map_some, Option.getD_some]
      exact Descriptor.isMethod_of_parse?_field (by rwa [String.toList_ofList])

/-- A method descriptor comes back if its class names do. -/
lemma methodDescriptor_comesBack
    (h : ∀ name ∈ Descriptor.methodClassNames text, back.className (r.className name) = name) :
    back.methodDescriptor (r.methodDescriptor text) = text := by
  rw [methodDescriptor_eq_replacedText, methodDescriptor_eq_replacedText]
  refine replacedText_comesBack fun t ht => ?_
  rw [Descriptor.methodClassNames, ht] at h
  exact ⟨MethodType.parse?_render_rename ht hr.className_eq_or_plain, MethodType.rename_rename h,
    (MethodType.parse?_eq_some_iff.1 ht).2⟩

/-- A field descriptor comes back if its class name does. -/
lemma fieldDescriptor_comesBack
    (h : ∀ name ∈ Descriptor.fieldClassNames text, back.className (r.className name) = name) :
    back.fieldDescriptor (r.fieldDescriptor text) = text := by
  refine replacedText_comesBack fun t ht => ?_
  rw [Descriptor.fieldClassNames, ht] at h
  exact ⟨FieldType.parse?_render_rename ht hr.className_eq_or_plain, FieldType.rename_rename h,
    (FieldType.parse?_eq_some_iff.1 ht).2⟩

/-- **A descriptor comes back if its class names do.** -/
theorem descriptor_comesBack
    (h : ∀ name ∈ Descriptor.classNames text, back.className (r.className name) = name) :
    back.descriptor (r.descriptor text) = text := by
  have hkind : Descriptor.isMethod (r.descriptor text) = Descriptor.isMethod text :=
    hr.isMethod_descriptor
  rw [Descriptor.classNames] at h
  rw [descriptor_eq_ite (r := back), hkind, descriptor_eq_ite (r := r)]
  cases hmethod : Descriptor.isMethod text with
  | true =>
    rw [hmethod] at h
    exact hr.methodDescriptor_comesBack h
  | false =>
    rw [hmethod] at h
    exact hr.fieldDescriptor_comesBack h

/-! ## Signatures -/

/-- **A signature without nested classes comes back if its class names do.** -/
theorem signature_comesBack (hdot : '.' ∉ text.toList)
    (h : ∀ name ∈ Signature.namesInText text, back.className (r.className name) = name) :
    back.signature (r.signature text) = text := by
  change replacedText Signature.parse? Signature.render (Signature.rename back.className)
    (replacedText Signature.parse? Signature.render (Signature.rename r.className) text) = text
  refine replacedText_comesBack fun s hs => ?_
  have htext := (Signature.parse?_eq_some_iff.1 hs).2
  rw [Signature.namesInText, hs] at h
  exact ⟨Signature.parse?_render_rename hs hdot hr.className_eq_or_plain,
    Signature.rename_rename (htext ▸ hdot) h, htext⟩

/-! ## Types -/

/-- A name that is neither that of an array nor inside of an object descriptor stays so. -/
lemma className_bare (harray : text.toList.head? ≠ some '[')
    (hobject : Descriptor.internalName? text = none) :
    (r.className text).toList.head? ≠ some '[' ∧
      Descriptor.internalName? (r.className text) = none := by
  rcases hr.className_eq_or_plain text with heq | hplain
  · rw [heq]
    exact ⟨harray, hobject⟩
  · exact ⟨hplain.isInternal.not_array, hplain.isInternal.not_object⟩

/-- **A type comes back if its class names do.**

**Proof sketch.** An array stays one (`head?_typeName`) and comes back as a descriptor. An object
descriptor is taken apart again to the new name. A bare name stays bare since new names are plain
(`className_bare`). -/
theorem typeName_comesBack
    (h : ∀ name ∈ ClassName.inType text, back.className (r.className name) = name) :
    back.typeName (r.typeName text) = text := by
  rw [ClassName.inType] at h
  by_cases harray : text.toList.head? = some '['
  · have hhead := head?_typeName (r := r) harray
    rw [if_pos harray] at h
    rw [typeName, if_pos hhead, typeName, if_pos harray]
    exact hr.descriptor_comesBack h
  · rw [if_neg harray] at h
    cases hobject : Descriptor.internalName? text with
    | some inside =>
      rw [hobject] at h
      have hinside := h inside List.mem_cons_self
      rw [typeName_object harray hobject, typeName_ofInternalName, hinside]
      exact Descriptor.ofInternalName_of_internalName? hobject
    | none =>
      rw [hobject] at h
      have hname := h text List.mem_cons_self
      obtain ⟨harray', hobject'⟩ := hr.className_bare harray hobject
      rw [typeName_bare harray hobject, typeName_bare harray' hobject', hname]

/-! ## Owners of members -/

/-- A renamed array stands for the renamed class, if it stands for a class. -/
lemma ofOwner?_typeName_array (harray : text.toList.head? = some '[') :
    ClassName.ofOwner? (r.typeName text) = (ClassName.ofOwner? text).map r.className := by
  cases hparse : FieldType.parse? text.toList with
  | none =>
    rw [typeName_array harray, fieldDescriptor, replacedText, hparse, Option.map_none,
      Option.getD_none]
    cases howner : ClassName.ofOwner? text with
    | none => rfl
    | some name =>
      have hplain : ¬ClassName.Plain name := fun hplain => by
        simp [ClassName.parse?_of_ofOwner? harray howner hplain] at hparse
      rw [Option.map_some, hr.className_of_not_plain hplain]
  | some t =>
    have harray' := head?_typeName (r := r) harray
    have hagain := FieldType.parse?_render_rename hparse hr.className_eq_or_plain
    have htype : r.typeName text = String.ofList (t.rename r.className).render := by
      rw [typeName_array harray, fieldDescriptor, replacedText, hparse]
      rfl
    rw [← String.toList_ofList (l := (t.rename r.className).render), ← htype] at hagain
    rw [ClassName.ofOwner?_of_parse? harray' hagain, ClassName.ofOwner?_of_parse? harray hparse,
      FieldType.classNames_rename, List.head?_map]

/-- A renamed name stands for itself again. -/
lemma ofOwner?_className (harray : text.toList.head? ≠ some '[')
    (hobject : Descriptor.internalName? text = none) :
    ClassName.ofOwner? (r.className text) = (ClassName.ofOwner? text).map r.className := by
  by_cases hempty : text = ""
  · have hsame := hr.className_of_not_plain fun hplain => hplain.ne_empty hempty
    rw [hsame, hempty]
    rfl
  · obtain ⟨harray', hobject'⟩ := hr.className_bare harray hobject
    have hempty' : r.className text ≠ "" := by
      rcases hr.className_eq_or_plain text with heq | hplain
      · rwa [heq]
      · exact hplain.ne_empty
    have hinternal : ClassName.IsInternal text := ⟨hempty, harray, hobject⟩
    have hinternal' : ClassName.IsInternal (r.className text) := ⟨hempty', harray', hobject'⟩
    rw [hinternal.ofOwner?_eq, hinternal'.ofOwner?_eq]
    rfl

/-- **A renamed owner stands for the renamed class.**

**Proof sketch.** An array that is read stands for its class name, and so does the array that it
becomes. An array that is not read stays, and if it stands for a class at all then the name of that
is not plain (`ofOwner?_typeName_array`). An object descriptor stands for what is inside, and any
other text for itself (`ofOwner?_className`). -/
theorem ofOwner?_typeName :
    ClassName.ofOwner? (r.typeName text) = (ClassName.ofOwner? text).map r.className := by
  by_cases harray : text.toList.head? = some '['
  · exact hr.ofOwner?_typeName_array harray
  · cases hobject : Descriptor.internalName? text with
    | some inside =>
      rw [typeName_object harray hobject, ClassName.ofOwner?_ofInternalName,
        ← Descriptor.ofInternalName_of_internalName? hobject, ClassName.ofOwner?_ofInternalName]
      rfl
    | none =>
      rw [typeName_bare harray hobject]
      exact hr.ofOwner?_className harray hobject

/-! ## Handles -/

/-- A field type with a parenthesis inside stays. -/
lemma rename_of_paren {t : FieldType} (h : '(' ∈ t.render) : t.rename r.className = t := by
  refine t.rename_eq_self fun name hname => hr.className_of_not_plain fun hplain => ?_
  obtain ⟨other, hother, hparen⟩ := (FieldType.paren_mem_render_iff (.inl rfl)).1 h
  obtain rfl := FieldType.eq_of_mem_classNames hname hother
  exact hplain.notMem '(' (by decide) hparen

/-- Renaming brings no parenthesis into a field type. -/
lemma paren_mem_render_rename {t : FieldType} (h : '(' ∈ (t.rename r.className).render) :
    '(' ∈ t.render := by
  obtain ⟨new, hnew, hparen⟩ := (FieldType.paren_mem_render_iff (.inl rfl)).1 h
  rw [FieldType.classNames_rename] at hnew
  obtain ⟨name, hname, rfl⟩ := List.mem_map.1 hnew
  rcases hr.className_eq_or_plain name with heq | hplain
  · rw [heq] at hparen
    exact (FieldType.paren_mem_render_iff (.inl rfl)).2 ⟨name, hname, hparen⟩
  · exact absurd hparen (hplain.notMem '(' (by decide))

/-- Renamed text has a parenthesis if the text before has one. -/
lemma paren_mem_descriptor_iff : '(' ∈ (r.descriptor text).toList ↔ '(' ∈ text.toList := by
  rw [descriptor_eq_ite]
  split
  · rw [methodDescriptor_eq_replacedText, replacedText]
    cases hparse : MethodType.parse? text.toList with
    | none => rfl
    | some t =>
      rw [(MethodType.parse?_eq_some_iff.1 hparse).2, Option.map_some, Option.getD_some,
        String.toList_ofList]
      exact iff_of_true List.mem_cons_self List.mem_cons_self
  · rw [fieldDescriptor, replacedText]
    cases hparse : FieldType.parse? text.toList with
    | none => rfl
    | some t =>
      rw [(FieldType.parse?_eq_some_iff.1 hparse).2, Option.map_some, Option.getD_some,
        String.toList_ofList]
      exact ⟨hr.paren_mem_render_rename, fun h => by rwa [hr.rename_of_paren h]⟩

/-- Text with a parenthesis is renamed as a method descriptor if at all. -/
lemma methodDescriptor_of_paren (h : '(' ∈ text.toList) :
    r.methodDescriptor text = r.descriptor text := by
  rw [descriptor_eq_ite]
  cases hmethod : Descriptor.isMethod text with
  | true => rfl
  | false =>
    rw [methodDescriptor_of_not_isMethod hmethod, if_neg Bool.false_ne_true, fieldDescriptor,
      replacedText]
    cases hparse : FieldType.parse? text.toList with
    | none => rfl
    | some t =>
      have htext := (FieldType.parse?_eq_some_iff.1 hparse).2
      rw [htext] at h
      rw [Option.map_some, Option.getD_some, hr.rename_of_paren h, ← htext, String.ofList_toList]

/-- **Handles stay what they are.** -/
theorem keepsHandles : r.KeepsHandles := by
  refine ⟨fun h => ?_, fun h => ?_⟩
  · rw [Bool.eq_iff_iff, Handle.isMethod, Handle.isMethod, List.contains_iff_mem,
      List.contains_iff_mem]
    exact hr.paren_mem_descriptor_iff
  · rw [Handle.kind]
    split
    · next hmethod =>
      rw [Handle.isMethod, List.contains_iff_mem] at hmethod
      exact hr.methodDescriptor_of_paren hmethod
    · rfl

end PlainNames

end Renaming

end Reclass
