import Reclass.Proofs.Descriptor.Spelling
import Reclass.Proofs.Member.Kind

set_option relaxedAutoImplicit false
set_option autoImplicit false

/-!
# References renamed alike

A member is declared in one place and referred to from many: from record components, instructions
and method handles, whose owner may be written as a class name, as an object or as an array of
objects. Each place is renamed on its own. Here a member is an owner, a name and a descriptor, and
the three get one new form wherever they stand.

The exception are handles. A handle is taken to be about a method as soon as its descriptor holds a
parenthesis, and the name of a class may hold one. A handle on a field of such a type gets the name
of a method.

## Main definitions

* `Reclass.ClassName.inArray` — an owner written as an object or as an array of objects.
* `Reclass.Renaming.RenamedAlike` — the new form of a member, and the places where it stands.

## Main results

* `Reclass.Renaming.references_renamed_alike` — every member with a descriptor of its kind has one
  new form.
* `Reclass.Renaming.handle_parts_from_field` — a handle that gets another name than its field.
-/

namespace Reclass

/-! ## Owners and descriptors -/

/-- A class as an object descriptor, below some array dimensions. -/
def ClassName.inArray (dimensions : Nat) (name : String) : String :=
  String.ofList (FieldType.mk dimensions (.object name)).render

/-- An array of objects stands for the class of its elements. -/
lemma ClassName.ofOwner?_inArray (dimensions : Nat) (name : String) :
    ofOwner? (inArray dimensions name) = some name := by
  obtain ⟨-, helement⟩ := (FieldType.mk dimensions (.object name)).split_render []
  rw [List.append_nil, List.append_nil] at helement
  have hobject := Descriptor.objectName?_eq_some_iff.2
    (rfl : (ElementType.object name).render = 'L' :: name.toList ++ [';'])
  simp only [ofOwner?, inArray, String.toList_ofList, helement, hobject, String.ofList_toList]

/-- Descriptors of one kind rewritten, and text that is none refused. -/
def Descriptor.renameAt? : MemberKind → (String → String) → String → Option String
  | .field => renameField?
  | .method => renameMethod?

namespace Renaming

variable {r : Renaming} {kind : MemberKind} {text : String}

/-- The new form of a descriptor of its kind. -/
lemma renameAt?_eq_some (h : (Descriptor.renameAt? kind r.className text).isSome) :
    Descriptor.renameAt? kind r.className text = some (r.memberDescriptor kind text) := by
  obtain ⟨out, hout⟩ := Option.isSome_iff_exists.1 h
  rw [hout]
  cases kind with
  | field =>
    obtain ⟨t, ht, -⟩ := Descriptor.renameField?_eq_some_iff.1 hout
    have hmethod := Descriptor.isMethod_of_parse?_field
      (FieldType.parse?_eq_some_iff_spelled.2 ht)
    rw [memberDescriptor, descriptor, hmethod, if_neg Bool.false_ne_true]
    exact congrArg some (congrArg (Option.getD · text) hout).symm
  | method => exact congrArg some (congrArg (Option.getD · text) hout).symm

/-- The look of a descriptor of its kind leads to the same new form. -/
lemma descriptor_of_renameAt? (h : (Descriptor.renameAt? kind r.className text).isSome) :
    r.descriptor text = r.memberDescriptor kind text := by
  cases kind with
  | field => rfl
  | method =>
    obtain ⟨out, hout⟩ := Option.isSome_iff_exists.1 h
    obtain ⟨t, params, -, result, -, ht, -⟩ := Descriptor.renameMethod?_eq_some_iff.1 hout
    have hmethod := Descriptor.isMethod_of_parse?
      (MethodType.parse?_eq_some_iff_spelled.2 ⟨_, _, ht⟩)
    rw [descriptor, hmethod, if_pos rfl]
    rfl

/-- A method descriptor starts with a parenthesis. -/
lemma paren_mem_of_renameMethod? {f : String → String}
    (h : (Descriptor.renameMethod? f text).isSome) : '(' ∈ text.toList := by
  obtain ⟨out, hout⟩ := Option.isSome_iff_exists.1 h
  obtain ⟨t, params, -, result, -, ht, -⟩ := Descriptor.renameMethod?_eq_some_iff.1 hout
  rw [ht.text_eq]
  exact List.mem_cons_self

/-- Members are looked up in the class behind their owner, however the owner is written. -/
lemma memberName_congr_owner {owner owner' : String}
    (h : ClassName.ofOwner? owner' = ClassName.ofOwner? owner) (name descriptor : String) :
    r.memberName kind owner' name descriptor = r.memberName kind owner name descriptor := by
  rw [memberName_eq_nameAt, memberName_eq_nameAt, nameAt, nameAt, owner?, owner?, h]

/-! ## Handles -/

/-- The name of a handle is that of a method if its descriptor holds a parenthesis, and else that of
a field. -/
lemma handle_eq (h : Handle) : r.handle h =
    { h with
      target :=
        { owner := r.typeName h.target.owner
          name := r.memberName (if '(' ∈ h.target.descriptor.toList then .method else .field)
            h.target.owner h.target.name h.target.descriptor
          descriptor := r.descriptor h.target.descriptor } } := by
  by_cases hparen : '(' ∈ h.target.descriptor.toList <;>
    simp [handle, Handle.isMethod, hparen, memberName]

/-! ## One new form -/

/-- `new` is the new form of a member wherever it stands. -/
structure RenamedAlike (r : Renaming) (kind : MemberKind) (m new : MemberRef) : Prop where
  /-- The new owner is the new name of the class. -/
  owner : new.owner = r.className m.owner
  /-- The new name is the one that is listed for the class, under the new descriptor. -/
  name : new.name = ((r.find? m.owner).bind fun names =>
    (names.members kind)[(⟨m.name, new.descriptor⟩ : Member)]?).getD m.name
  /-- The new descriptor names the new classes. -/
  descriptor : Descriptor.renameAt? kind r.className m.descriptor = some new.descriptor
  /-- So is the member renamed where the class declares it, -/
  declared : ∀ c : ClassTree, c.name = m.owner → ∀ (i : Nat) (d : Declaration),
    (c.declarations kind)[i]? = some d → d.name = m.name → d.descriptor = m.descriptor →
      ∃ d', ((r.classTree c).declarations kind)[i]? = some d' ∧
        new = ⟨(r.classTree c).name, d'.name, d'.descriptor⟩
  /-- a field also where it is a component of the record, -/
  component : kind = .field → ∀ c : ClassTree, c.name = m.owner → ∀ (i : Nat) (p : RecordComponent),
    c.header.recordComponents[i]? = some p → p.name = m.name → p.descriptor = m.descriptor →
      ∃ p', (r.classTree c).header.recordComponents[i]? = some p' ∧
        new = ⟨(r.classTree c).name, p'.name, p'.descriptor⟩
  /-- where an instruction refers to it, -/
  instruction : ∀ i : Instruction, i.target? = some (kind, m) →
    (r.instruction i).target? = some (kind, new)
  /-- and where a handle does, if no class in the type of a field has a parenthesis in its name. -/
  handle : (kind = .field → '(' ∉ m.descriptor.toList) → ∀ h : Handle, h.target = m →
    r.handle h = { h with target := new }
  /-- Otherwise the handle gets the name that a method of this descriptor would get. -/
  handle_of_paren : kind = .field → '(' ∈ m.descriptor.toList → ∀ h : Handle, h.target = m →
    r.handle h =
      { h with target := { new with name := r.methodName m.owner m.name m.descriptor } }
  /-- With an object or an array of objects as its owner, an instruction gives the same new name, -/
  instruction_inArray : ∀ (n : Nat) (i : Instruction),
    i.target? = some (kind, { m with owner := ClassName.inArray n m.owner }) →
      ∃ new', (r.instruction i).target? = some (kind, new') ∧ new'.name = new.name
  /-- and so does a handle. -/
  handle_inArray : ∀ (n : Nat) (h : Handle), h.target = m →
    (r.handle { h with target := { m with owner := ClassName.inArray n m.owner } }).target.name =
      (r.handle h).target.name

/-- **One reference gets one new form wherever it stands.** The exception are handles on fields
whose type names a class with a parenthesis in its name.

**Proof sketch.** The owner is an internal name, so it stands for itself as a class and as the owner
of a member (`ClassName.IsInternal`). The descriptor is one of its kind, so that the reading that
depends on its look agrees with the reading for the kind (`descriptor_of_renameAt?`). What is left
is that every place renames owner, name and descriptor by the same three functions. -/
theorem references_renamed_alike (r : Renaming) (kind : MemberKind) (m : MemberRef)
    (howner : ClassName.IsInternal m.owner)
    (hdescriptor : (Descriptor.renameAt? kind r.className m.descriptor).isSome) :
    ∃ new, r.RenamedAlike kind m new := by
  have hclass := howner.typeName_eq r
  have hread := renameAt?_eq_some hdescriptor
  have hlook := descriptor_of_renameAt? hdescriptor
  have hinstruction : ∀ (i : Instruction) (target : MemberRef), i.target? = some (kind, target) →
      (r.instruction i).target? = some (kind, r.memberRef kind target) := by
    intro i target hi
    rw [target?_instruction, hi]
    rfl
  have hshape : ∀ n, ClassName.ofOwner? (ClassName.inArray n m.owner) =
      ClassName.ofOwner? m.owner := by
    intro n
    rw [ClassName.ofOwner?_inArray, howner.ofOwner?_eq]
  refine ⟨⟨r.className m.owner, r.memberName kind m.owner m.name m.descriptor,
    r.memberDescriptor kind m.descriptor⟩, ?_⟩
  exact {
    owner := rfl
    name := by
      rw [memberName_eq_nameAt, nameAt, owner?, howner.ofOwner?_eq]
      rfl
    descriptor := hread
    declared := fun c hc i d hd hname hdesc => by
      refine ⟨r.declaration kind c.name d, ?_, ?_⟩
      · rw [declarations_classTree, List.getElem?_map, hd]
        rfl
      · rw [declaration, hc, hname, hdesc, ← hclass, ← hc]
        rfl
    component := fun hkind c hc i p hp hname hdesc => by
      subst hkind
      refine ⟨r.recordComponent c.name p, ?_, ?_⟩
      · have hmap : (r.classTree c).header.recordComponents =
            c.header.recordComponents.map (r.recordComponent c.name) := rfl
        rw [hmap, List.getElem?_map, hp]
        rfl
      · rw [recordComponent, hc, hname, hdesc, ← hclass, ← hc]
        rfl
    instruction := fun i hi => by
      rw [hinstruction i m hi]
      cases kind <;> simp only [memberRef, fieldRef, methodRef, hclass] <;> rfl
    handle := fun hparen h hh => by
      have hkind : (if '(' ∈ m.descriptor.toList then MemberKind.method else .field) = kind := by
        cases kind with
        | field => exact if_neg (hparen rfl)
        | method => exact if_pos (paren_mem_of_renameMethod? hdescriptor)
      rw [handle_eq, hh, hkind, hclass, hlook]
    handle_of_paren := fun hkind hparen h hh => by
      rw [handle_eq, hh, if_pos hparen, hclass, hlook]
      rfl
    instruction_inArray := fun n i hi => by
      refine ⟨_, hinstruction i _ hi, ?_⟩
      rw [memberRef_name]
      exact memberName_congr_owner (hshape n) m.name m.descriptor
    handle_inArray := fun n h hh => by
      rw [handle_eq, handle_eq, hh]
      exact memberName_congr_owner (hshape n) m.name m.descriptor }

/-- A method with a new name, in a class with a new name that its descriptor names as well. -/
theorem references_renamed_alike_of_method :
    let names : ClassNames := ⟨"n/D", ∅, (∅ : MemberNames).insert ⟨"m", "(Ln/D;)V"⟩ "call"⟩
    let r : Renaming := .ofTable ((∅ : RenameTable).insert "a/D" names)
    let m : MemberRef := ⟨"a/D", "m", "(La/D;)V"⟩
    ClassName.IsInternal m.owner ∧
      (Descriptor.renameAt? .method r.className m.descriptor).isSome ∧
      ∃ new, r.RenamedAlike .method m new := by
  intro names r m
  have howner : ClassName.IsInternal m.owner := ⟨by decide, by decide, by decide⟩
  have hdescriptor : (Descriptor.renameAt? .method r.className m.descriptor).isSome := by
    decide +kernel
  exact ⟨howner, hdescriptor, references_renamed_alike r .method m howner hdescriptor⟩

/-- The type of a field names the class `a(b`. Instructions on the field get its new name, and
handles on it keep the old one. -/
theorem handle_parts_from_field :
    let names : ClassNames := ⟨"a/D", (∅ : MemberNames).insert ⟨"n", "La(b;"⟩ "x", ∅⟩
    let r : Renaming := .ofTable ((∅ : RenameTable).insert "a/D" names)
    let m : MemberRef := ⟨"a/D", "n", "La(b;"⟩
    ClassName.IsInternal m.owner ∧
      Descriptor.renameField? r.className m.descriptor = some m.descriptor ∧
      r.fieldRef m = { m with name := "x" } ∧
      r.handle ⟨1, m, false⟩ = ⟨1, m, false⟩ := by
  refine ⟨⟨by decide, by decide, by decide⟩, ?_, ?_, ?_⟩ <;> decide +kernel

end Renaming

end Reclass
