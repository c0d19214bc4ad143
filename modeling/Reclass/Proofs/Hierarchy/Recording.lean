import Reclass.Proofs.Hierarchy.Reach
import Reclass.Proofs.Map.Insertion
import Reclass.Proofs.Member.Kind

set_option relaxedAutoImplicit false
set_option autoImplicit false

/-!
# What recording a batch leaves

Recording a class keeps its new name, its supertypes and the new names of its members. Since the
new name of a member depends on nothing but the class and what identifies the member, a node says
for every member whether the class declares it, and then its new name; declaring a member twice
makes no difference.

## Main definitions

* `Reclass.ClassTree.Declares` — a class declares a member, privately or not.
* `Reclass.ClassTree.DirectlyAbove` — the supertypes that a batch knows of.
* `Reclass.Hierarchy.ofBatch` — the hierarchy of a batch.

## Main results

* `Reclass.HierarchyNode.getElem?_members_ofClass` — what a node says about a member.
* `Reclass.Hierarchy.addClasses_eq` — recording classes with names succeeds.
* `Reclass.Hierarchy.getElem?_ofBatch_eq_some_iff` — the nodes of a batch.
* `Reclass.Hierarchy.directlyAbove_ofBatch` — the supertypes in its hierarchy.
-/

namespace Reclass

/-- What no step changes is not changed by all of them. -/
lemma foldl_frame {σ δ β : Type} (view : σ → β) (step : σ → δ → σ)
    (hstep : ∀ s d, view (step s d) = view s) (l : List δ) (s : σ) :
    view (l.foldl step s) = view s := by
  induction l generalizing s with
  | nil => rfl
  | cons d l ih => rw [List.foldl_cons, ih, hstep]

/-- A view that follows every step by one of its own follows all of them. -/
lemma foldl_view {σ δ β γ : Type} (view : σ → β) (step : σ → δ → σ) (next : β → γ → β) (g : δ → γ)
    (hstep : ∀ s d, view (step s d) = next (view s) (g d)) (l : List δ) (s : σ) :
    view (l.foldl step s) = (l.map g).foldl next (view s) := by
  induction l generalizing s with
  | nil => rfl
  | cons d l ih => rw [List.foldl_cons, ih, hstep, List.map_cons, List.foldl_cons]

/-! ## Nodes -/

/-- The class declares a member, given as a table lists it, privately or not. -/
def ClassTree.Declares (c : ClassTree) (r : Renaming) (kind : MemberKind) (hidden : Bool)
    (m : Member) : Prop :=
  ∃ d ∈ c.declarations kind,
    AccessFlags.isPrivate d.access = hidden ∧ r.member kind d.name d.descriptor = m

instance (c : ClassTree) (r : Renaming) (kind : MemberKind) (hidden : Bool) (m : Member) :
    Decidable (c.Declares r kind hidden m) :=
  inferInstanceAs (Decidable (∃ d : Declaration, d ∈ c.declarations kind ∧
    AccessFlags.isPrivate d.access = hidden ∧ r.member kind d.name d.descriptor = m))

namespace HierarchyNode

variable (r : Renaming) (owner : String) (kind : MemberKind) (hidden : Bool)

/-- The members of a node with one declaration more. -/
def addDeclaration (m : MemberNames) (d : Declaration) : MemberNames :=
  if AccessFlags.isPrivate d.access = hidden then
    m.insert (r.member kind d.name d.descriptor)
      (r.nameAt kind owner (r.member kind d.name d.descriptor))
  else m

/-- A field that is added joins the fields. -/
lemma members_addField (n : HierarchyNode) (f : FieldDecl) :
    (addField r owner n f).members .field hidden =
      addDeclaration r owner .field hidden (n.members .field hidden)
        ⟨f.access, f.name, f.descriptor⟩ := by
  cases hidden <;> cases hp : AccessFlags.isPrivate f.access <;>
    simp [addField, addDeclaration, members, hp] <;> rfl

/-- A method that is added joins the methods. -/
lemma members_addMethod (n : HierarchyNode) (m : MethodDecl) :
    (addMethod r owner n m).members .method hidden =
      addDeclaration r owner .method hidden (n.members .method hidden)
        ⟨m.access, m.name, m.descriptor⟩ := by
  cases hidden <;> cases hp : AccessFlags.isPrivate m.access <;>
    simp [addMethod, addDeclaration, members, hp] <;> rfl

/-- A field that is added changes nothing else. -/
lemma addField_frame (n : HierarchyNode) (f : FieldDecl) :
    (addField r owner n f).members .method hidden = n.members .method hidden ∧
      (addField r owner n f).newName = n.newName ∧
      (addField r owner n f).supertypes = n.supertypes := by
  unfold addField
  dsimp only
  split <;> cases hidden <;> exact ⟨rfl, rfl, rfl⟩

/-- A method that is added changes nothing else. -/
lemma addMethod_frame (n : HierarchyNode) (m : MethodDecl) :
    (addMethod r owner n m).members .field hidden = n.members .field hidden ∧
      (addMethod r owner n m).newName = n.newName ∧
      (addMethod r owner n m).supertypes = n.supertypes := by
  unfold addMethod
  dsimp only
  split <;> cases hidden <;> exact ⟨rfl, rfl, rfl⟩

/-- The members of a node are collected from the declarations of its class. -/
lemma members_ofClass (c : ClassTree) :
    (ofClass r c).members kind hidden =
      (c.declarations kind).foldl (addDeclaration r c.name kind hidden) ∅ := by
  have hstart : (ofHeader r c.header).members kind hidden = ∅ := by
    cases kind <;> cases hidden <;> rfl
  cases kind with
  | field =>
    rw [ofClass, foldl_frame (fun n : HierarchyNode => n.members .field hidden) _
        fun n m => (addMethod_frame r c.name hidden n m).1,
      foldl_view (fun n : HierarchyNode => n.members .field hidden) _ _ _
        (members_addField r c.name hidden), hstart]
    rfl
  | method =>
    rw [ofClass, foldl_view (fun n : HierarchyNode => n.members .method hidden) _ _ _
        (members_addMethod r c.name hidden),
      foldl_frame (fun n : HierarchyNode => n.members .method hidden) _
        fun n f => (addField_frame r c.name hidden n f).1, hstart]
    rfl

/-- **What a node says about a member**: its new name, if the class declares it. -/
theorem getElem?_members_ofClass (c : ClassTree) (m : Member) :
    ((ofClass r c).members kind hidden)[m]? =
      if c.Declares r kind hidden m then some (r.nameAt kind c.name m) else none := by
  rw [members_ofClass]
  exact getElem?_foldl_insert_if (fun d : Declaration => r.member kind d.name d.descriptor) _
    (fun d => AccessFlags.isPrivate d.access = hidden) (r.nameAt kind c.name) ∅ m

/-- A node keeps the new name of its class. -/
lemma newName_ofClass (c : ClassTree) : (ofClass r c).newName = r.typeName c.name := by
  rw [ofClass, foldl_frame newName _ fun n m => (addMethod_frame r c.name false n m).2.1,
    foldl_frame newName _ fun n f => (addField_frame r c.name false n f).2.1]
  rfl

/-- A node keeps the supertypes of its class. -/
lemma supertypes_ofClass (c : ClassTree) : (ofClass r c).supertypes = c.header.supertypes := by
  rw [ofClass, foldl_frame supertypes _ fun n m => (addMethod_frame r c.name false n m).2.2,
    foldl_frame supertypes _ fun n f => (addField_frame r c.name false n f).2.2]
  rfl

end HierarchyNode

/-! ## Batches -/

/-- A class of the batch is called `below` and lists `above` as a supertype. -/
def ClassTree.DirectlyAbove (classes : List ClassTree) (below above : String) : Prop :=
  ∃ c ∈ classes, c.name = below ∧ above ∈ c.header.supertypes

namespace Hierarchy

variable (r : Renaming) {classes : List ClassTree}

/-- The hierarchy of a batch. -/
def ofBatch (classes : List ClassTree) : Hierarchy :=
  classes.foldl (fun h c => h.insert c.name (.ofClass r c)) ∅

/-- Recording a class that has a name succeeds. -/
lemma addClass_eq {c : ClassTree} (hname : c.name ≠ "") (h : Hierarchy) :
    h.addClass r c = .ok (h.insert c.name (.ofClass r c)) := by
  simp only [addClass, add, MissingName.require, hname, if_false]
  rfl

/-- Recording classes that have names succeeds. -/
lemma addClasses_eq (hname : ∀ c ∈ classes, c.name ≠ "") (h : Hierarchy) :
    h.addClasses r classes =
      (classes.foldl (fun h c => h.insert c.name (.ofClass r c)) h, none) := by
  induction classes generalizing h with
  | nil => rfl
  | cons c cs ih =>
    rw [addClasses, addClass_eq r (hname c List.mem_cons_self)]
    exact ih (fun d hd => hname d (List.mem_cons_of_mem _ hd)) _

/-- **The nodes of a batch** without repeated names are those of its classes. -/
theorem getElem?_ofBatch_eq_some_iff (hdistinct : (classes.map ClassTree.name).Nodup)
    {name : String} {node : HierarchyNode} :
    (ofBatch r classes)[name]? = some node ↔
      ∃ c ∈ classes, c.name = name ∧ node = .ofClass r c := by
  constructor
  · intro hnode
    by_cases hmem : ∃ c ∈ classes, c.name = name
    · obtain ⟨c, hc, rfl⟩ := hmem
      rw [ofBatch, getElem?_foldl_insert_of_mem _ _ hdistinct hc] at hnode
      exact ⟨c, hc, rfl, (Option.some.inj hnode).symm⟩
    · rw [ofBatch, getElem?_foldl_insert_of_forall_ne _ _ fun c hc heq => hmem ⟨c, hc, heq⟩]
        at hnode
      simp at hnode
  · rintro ⟨c, hc, rfl, rfl⟩
    exact getElem?_foldl_insert_of_mem _ _ hdistinct hc ∅

/-- A name that no class of the batch has is unknown to its hierarchy. -/
lemma getElem?_ofBatch_eq_none {name : String} (hname : ∀ c ∈ classes, c.name ≠ name) :
    (ofBatch r classes)[name]? = none := by
  rw [ofBatch, getElem?_foldl_insert_of_forall_ne _ _ hname]
  simp

/-- The supertypes in the hierarchy of a batch are those that its classes list. -/
lemma directlyAbove_ofBatch (hdistinct : (classes.map ClassTree.name).Nodup) :
    (ofBatch r classes).DirectlyAbove = ClassTree.DirectlyAbove classes := by
  funext below above
  refine propext ⟨?_, ?_⟩
  · rintro ⟨node, hnode, habove⟩
    obtain ⟨c, hc, rfl, rfl⟩ := (getElem?_ofBatch_eq_some_iff r hdistinct).1 hnode
    rw [HierarchyNode.supertypes_ofClass] at habove
    exact ⟨c, hc, rfl, habove⟩
  · rintro ⟨c, hc, rfl, habove⟩
    refine ⟨.ofClass r c, (getElem?_ofBatch_eq_some_iff r hdistinct).2 ⟨c, hc, rfl, rfl⟩, ?_⟩
    rwa [HierarchyNode.supertypes_ofClass]

end Hierarchy

end Reclass
