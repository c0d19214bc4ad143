import Mathlib.Logic.Basic
import Mathlib.Tactic.Lemma
import Reclass.Pipeline.Basic

set_option relaxedAutoImplicit false
set_option autoImplicit false

/-!
# Classes passed through a pipeline

A class goes through a pipeline event by event, but what comes out can be said of the class as a
whole: first the access that waits for it is applied, then it is renamed. Faults aside, the sink
hears exactly the events of that class, so that the class is rebuilt from them.

## Main definitions

* `Reclass.Outcome.Alike` — outcomes that look the same from outside.
* `Reclass.EventFilter.Passes` — what a filter makes of events without using the workspace.
* `Reclass.Chain.SelfContained` — chains that neither use the workspace nor fault.
* `Reclass.AccessRecord.classTree` — a class with the access that was requested.

## Main results

* `Reclass.Chain.feedAll_attach_access`, `feedAll_attach_rename` — a filter in front of a chain
  replaces a class by another one.
* `Reclass.Chain.feedAll_attach_access_unnamed` — a class without a name is a fault.
* `Reclass.Pipeline.runParts_eq`, `runParts_eq_of_fault` — the class that comes out, or the fault.
-/

namespace Reclass

variable {τ : Type}

/-! ## Outcomes -/

/-- Nobody outside can tell the outcomes apart; the states inside may differ. -/
structure Outcome.Alike {σ ρ : Type} (o : Outcome τ σ) (p : Outcome τ ρ) : Prop where
  workspace : o.workspace = p.workspace
  heard : o.heard = p.heard
  fault : o.fault = p.fault

/-- What comes of two things done one after the other. A fault of the first ends both. -/
def Outcome.andThen {σ : Type} (o : Outcome τ σ) (next : σ → Workspace → Outcome τ σ) :
    Outcome τ σ :=
  match o.fault with
  | some _ => o
  | none =>
    let others := next o.state o.workspace
    { others with heard := o.heard ++ others.heard }

namespace Outcome

variable {σ ρ : Type} {o : Outcome τ σ} {p : Outcome τ ρ}

/-- What looks like the second outcome looks like whatever that one looks like. -/
lemma Alike.trans {υ : Type} {q : Outcome τ υ} (h : o.Alike p) (h' : p.Alike q) : o.Alike q :=
  ⟨h.workspace.trans h'.workspace, h.heard.trans h'.heard, h.fault.trans h'.fault⟩

/-- Of three things in a row it does not matter which two are taken together. -/
lemma andThen_assoc (f g : σ → Workspace → Outcome τ σ) :
    (o.andThen f).andThen g = o.andThen fun s w => (f s w).andThen g := by
  unfold andThen
  cases ho : o.fault with
  | some fault => simp only [ho]
  | none =>
    dsimp only
    cases hf : (f o.state o.workspace).fault with
    | some fault => simp only [hf]
    | none => simp only [List.append_assoc]

/-- Without a fault both things are done. -/
lemma andThen_of_fault_none (h : o.fault = none) (next : σ → Workspace → Outcome τ σ) :
    o.andThen next = { next o.state o.workspace with
      heard := o.heard ++ (next o.state o.workspace).heard } := by
  simp only [andThen, h]

/-- Outcomes that are alike stay so if what follows is alike. -/
lemma Alike.andThen (h : o.Alike p) {f : σ → Workspace → Outcome τ σ}
    {g : ρ → Workspace → Outcome τ ρ} (hnext : ∀ w, (f o.state w).Alike (g p.state w)) :
    (o.andThen f).Alike (p.andThen g) := by
  unfold Outcome.andThen
  rw [← h.fault, ← h.workspace]
  cases o.fault with
  | some fault => exact h
  | none =>
    have hn := hnext o.workspace
    exact ⟨hn.workspace, congrArg₂ (· ++ ·) h.heard hn.heard, hn.fault⟩

end Outcome

/-! ## Filters in front of a chain -/

/-- Whatever the workspace is, the filter leaves it alone and passes these events on. -/
inductive EventFilter.Passes (f : EventFilter) : f.State → List Event → List Event → Prop
  | nil (s : f.State) : Passes f s [] []
  | cons {s s' : f.State} {e : Event} {es outs : List Event} (out : List Event)
      (hstep : ∀ w, f.step s w e = ⟨s', w, .ok out⟩) (hrest : Passes f s' es outs) :
      Passes f s (e :: es) (out ++ outs)

namespace Chain

variable {f : EventFilter} (next : Chain τ)

/-- Feeding events is feeding the first of them and then the others. -/
lemma feedAll_cons (c : Chain τ) (s : c.State) (w : Workspace) (e : Event) (es : List Event) :
    c.feedAll s w (e :: es) = (c.feed s w e).andThen fun s w => c.feedAll s w es := rfl

/-- Feeding events is feeding some of them and then the others. -/
lemma feedAll_append (c : Chain τ) (es fs : List Event) (s : c.State) (w : Workspace) :
    c.feedAll s w (es ++ fs) = (c.feedAll s w es).andThen fun s w => c.feedAll s w fs := by
  induction es generalizing s w with
  | nil => rfl
  | cons e es ih =>
    have hrest : (fun s w => c.feedAll s w (es ++ fs)) = fun s w =>
        (c.feedAll s w es).andThen fun s w => c.feedAll s w fs := by
      funext s w
      exact ih s w
    rw [List.cons_append, feedAll_cons, hrest, feedAll_cons, Outcome.andThen_assoc]

/-- Feeding one event in a row is feeding it. -/
lemma feedAll_singleton (c : Chain τ) (s : c.State) (w : Workspace) (e : Event) :
    c.feedAll s w [e] = c.feed s w e := by
  rw [feedAll_cons, Outcome.andThen]
  cases hfault : (c.feed s w e).fault with
  | some fault => rfl
  | none =>
    simp only [feedAll, List.append_nil]
    rw [← hfault]

/-- The sink hears what it is fed. -/
lemma feedAll_sink (s : (@sink τ).State) (w : Workspace) (es : List Event) :
    (@sink τ).feedAll s w es =
      { state := (), workspace := w, heard := es.map (Receiver.sink, ·) } := by
  induction es generalizing s w with
  | nil => rfl
  | cons e es ih =>
    rw [feedAll_cons, funext₂ ih]
    rfl

/-- Behind a filter the first event is what the filter makes of it. -/
lemma alike_feedAll_attach_cons {s s' : f.State} {w w' : Workspace} {e : Event}
    {es out outs : List Event} (hstep : f.step s w e = ⟨s', w', .ok out⟩)
    (hrest : ∀ t w, ((attach f next).feedAll (s', t) w es).Alike (next.feedAll t w outs))
    (t : next.State) :
    ((attach f next).feedAll (s, t) w (e :: es)).Alike (next.feedAll t w' (out ++ outs)) := by
  have hfeed : (attach f next).feed (s, t) w e =
      { next.feedAll t w' out with state := (s', (next.feedAll t w' out).state) } := by
    simp only [attach, hstep]
  have hcons : (attach f next).feedAll (s, t) w (e :: es) = _ := feedAll_cons _ _ _ _ _
  rw [hcons, hfeed, feedAll_append]
  have hfirst : Outcome.Alike { next.feedAll t w' out with
      state := (s', (next.feedAll t w' out).state) } (next.feedAll t w' out) := ⟨rfl, rfl, rfl⟩
  exact hfirst.andThen fun w => hrest _ w

/-- Behind a filter that faults on the first event nothing is heard. -/
lemma feedAll_attach_of_fault {s s' : f.State}
    {w w' : Workspace} {e : Event} {fault : MissingName}
    (hstep : f.step s w e = ⟨s', w', .error fault⟩) (t : next.State) (es : List Event) :
    (attach f next).feedAll (s, t) w (e :: es) =
      { state := (s', t), workspace := w', fault := some fault } := by
  have hfeed : (attach f next).feed (s, t) w e =
      { state := (s', t), workspace := w', fault := some fault } := by
    simp only [attach, hstep]
  have hcons : (attach f next).feedAll (s, t) w (e :: es) = _ := feedAll_cons _ _ _ _ _
  rw [hcons, hfeed]
  rfl

/-- A filter that leaves the workspace alone feeds the chain behind it with what it passes on. -/
lemma alike_feedAll_attach {s : f.State} {es out : List Event} (h : f.Passes s es out)
    (t : next.State) (w : Workspace) :
    ((attach f next).feedAll (s, t) w es).Alike (next.feedAll t w out) := by
  induction h generalizing t w with
  | nil s => exact ⟨rfl, rfl, rfl⟩
  | cons out hstep _ ih => exact alike_feedAll_attach_cons next (hstep w) (fun t w => ih t w) t

end Chain

/-- A transducer leaves the workspace alone. -/
lemma EventFilter.passes_ofTransducer (t : Transducer) (s : t.State) (es : List Event) :
    (EventFilter.ofTransducer t).Passes s es (t.runFrom s es) := by
  induction es generalizing s with
  | nil => exact EventFilter.Passes.nil (f := EventFilter.ofTransducer t) s
  | cons e es ih => exact .cons _ (fun _ => rfl) (ih _)

/-! ## Chains that keep to themselves -/

/-- What a chain does with an event does not depend on the workspace, which it leaves alone, and it
does not fault. -/
def Chain.SelfContained (c : Chain τ) : Prop :=
  ∀ (s : c.State) (w w' : Workspace) (e : Event),
    c.feed s w e = { c.feed s w' e with workspace := w, fault := none }

namespace Chain

variable {c next : Chain τ}

/-- The sink keeps to itself. -/
lemma selfContained_sink : (@sink τ).SelfContained := fun _ _ _ _ => rfl

/-- A listener keeps to itself if the chain behind it does. -/
lemma SelfContained.listen (h : next.SelfContained) (tag : τ) :
    (Chain.listen tag next).SelfContained := by
  intro s w w' e
  have hnext := h s w w' e
  unfold Chain.listen
  dsimp only
  rw [hnext]

/-- What keeps to itself does so for any number of events. -/
lemma SelfContained.feedAll_eq (h : c.SelfContained) (s : c.State) (w w' : Workspace)
    (es : List Event) :
    c.feedAll s w es = { c.feedAll s w' es with workspace := w, fault := none } := by
  induction es generalizing s with
  | nil => rfl
  | cons e es ih =>
    have hfault : ∀ w'', (c.feed s w'' e).fault = none := fun w'' => by rw [h s w'' w'' e]
    have hworkspace : ∀ w'', (c.feed s w'' e).workspace = w'' := fun w'' => by rw [h s w'' w'' e]
    have hstate : (c.feed s w e).state = (c.feed s w' e).state := by rw [h s w w' e]
    have hheard : (c.feed s w e).heard = (c.feed s w' e).heard := by rw [h s w w' e]
    rw [feedAll_cons, feedAll_cons, Outcome.andThen_of_fault_none (hfault w),
      Outcome.andThen_of_fault_none (hfault w'), hworkspace, hworkspace, hstate, hheard, ih]

/-- What keeps to itself does not fault. -/
lemma SelfContained.fault_feedAll (h : c.SelfContained) (s : c.State) (w : Workspace)
    (es : List Event) : (c.feedAll s w es).fault = none := by
  rw [h.feedAll_eq s w w es]

/-- What keeps to itself leaves the workspace alone. -/
lemma SelfContained.workspace_feedAll (h : c.SelfContained) (s : c.State) (w : Workspace)
    (es : List Event) : (c.feedAll s w es).workspace = w := by
  rw [h.feedAll_eq s w w es]

/-- A transducer keeps to itself if the chain behind it does. -/
lemma SelfContained.attach (h : next.SelfContained) (t : Transducer) :
    (Chain.attach (.ofTransducer t) next).SelfContained := by
  intro s w w' e
  have hnext := h.feedAll_eq s.2 w w' (t.step s.1 e).2
  unfold Chain.attach EventFilter.ofTransducer
  dsimp only
  rw [hnext]

end Chain

/-! ## Renaming on the way -/

namespace Transducer

variable (r : Renaming) (owner : String)

/-- Members are renamed one by one. -/
lemma runFrom_rename_members (fs : List FieldDecl) (ms : List MethodDecl) :
    (rename r).runFrom owner (fs.map .field ++ (ms.map .method ++ [.finish])) =
      (fs.map (r.field owner)).map .field ++
        ((ms.map (r.method owner)).map .method ++ [.finish]) := by
  induction fs with
  | cons f fs ih =>
    simp only [List.map_cons, List.cons_append]
    exact congrArg (Event.field (r.field owner f) :: ·) ih
  | nil =>
    induction ms with
    | nil => rfl
    | cons m ms ih =>
      simp only [List.map_cons, List.cons_append, List.map_nil, List.nil_append] at ih ⊢
      exact congrArg (Event.method (r.method owner m) :: ·) ih

/-- The events of a class become those of the renamed class, whatever class came before. -/
lemma runFrom_rename_events (c : ClassTree) :
    (rename r).runFrom owner c.events = (r.classTree c).events := by
  have hmembers := runFrom_rename_members r c.name c.fields c.methods
  change Event.start (r.header c.header) :: (rename r).runFrom c.name _ = _
  rw [hmembers]
  rfl

/-- The events of a class become those of the renamed class. -/
lemma run_rename_events (c : ClassTree) : (rename r).run c.events = (r.classTree c).events :=
  runFrom_rename_events r "" c

end Transducer

/-- Behind a filter that renames, a class is the renamed class. -/
theorem Chain.feedAll_attach_rename (next : Chain τ) (r : Renaming) (c : ClassTree)
    (t : next.State) (w : Workspace) :
    ((attach (.rename r) next).feedAll ("", t) w c.events).Alike
      (next.feedAll t w (r.classTree c).events) := by
  rw [← Transducer.run_rename_events]
  exact alike_feedAll_attach next (EventFilter.passes_ofTransducer (.rename r) "" c.events) t w

/-! ## Access on the way -/

namespace AccessRecord

variable (a : AccessRecord)

/-- A class with the access that a record requests for it and its members. -/
def classTree (c : ClassTree) : ClassTree where
  header := { c.header with access := (a.whole.map AccessSpec.toFlags).getD c.header.access }
  fields := c.fields.map fun f =>
    let requested := a.fields[(⟨f.name, f.descriptor⟩ : Member)]?
    { f with access := (requested.map AccessSpec.toFlags).getD f.access }
  methods := c.methods.map fun m =>
    let requested := a.methods[(⟨m.name, m.descriptor⟩ : Member)]?
    { m with access := (requested.map AccessSpec.toFlags).getD m.access }

/-- A record is applied to a class event by event. -/
lemma events_classTree (c : ClassTree) : (a.classTree c).events = c.events.map a.apply := by
  simp only [ClassTree.events, classTree, List.map_cons, List.map_append, List.map_map,
    List.map_nil]
  rfl

/-- A record leaves the number of events as it is. -/
lemma length_events_classTree (c : ClassTree) :
    (a.classTree c).events.length = c.events.length := by
  rw [a.events_classTree, List.length_map]

/-- Applying an empty record changes nothing. -/
@[simp] lemma classTree_empty (c : ClassTree) : ({} : AccessRecord).classTree c = c := by
  cases c
  simp [classTree]

end AccessRecord

namespace EventFilter

/-- The record of a class is applied to everything that follows its header. -/
lemma passes_access (a : AccessRecord) (fs : List FieldDecl) (ms : List MethodDecl) :
    access.Passes a (fs.map Event.field ++ (ms.map Event.method ++ [Event.finish]))
      ((fs.map Event.field ++ (ms.map Event.method ++ [Event.finish])).map a.apply) := by
  induction fs with
  | cons f fs ih => exact .cons [_] (fun _ => rfl) ih
  | nil =>
    induction ms with
    | nil => exact .cons [_] (fun _ => rfl) (.nil _)
    | cons m ms ih => exact .cons [_] (fun _ => rfl) ih

end EventFilter

/-- Behind a filter that applies access requests, a class is the class with the access that waited
for it, which has been taken. -/
theorem Chain.feedAll_attach_access (next : Chain τ) {c : ClassTree} {w : Workspace}
    {taken : Option AccessRecord} {ledger : AccessLedger}
    (htake : w.access.take c.name = .ok (taken, ledger)) (t : next.State) (a : AccessRecord) :
    ((attach .access next).feedAll (a, t) w c.events).Alike
      (next.feedAll t { w with access := ledger } ((taken.getD {}).classTree c).events) := by
  have hstep : EventFilter.access.step a w (.start c.header) = ⟨taken.getD {},
      { w with access := ledger }, .ok [(taken.getD {}).apply (.start c.header)]⟩ := by
    simp only [EventFilter.access, htake]
  rw [AccessRecord.events_classTree]
  exact alike_feedAll_attach_cons next hstep
    (fun t w => alike_feedAll_attach next (EventFilter.passes_access _ c.fields c.methods) t w) t

/-- A filter that applies access requests faults on a class without a name, and nothing is heard of
that class. -/
theorem Chain.feedAll_attach_access_unnamed (next : Chain τ) {c : ClassTree}
    (hname : c.name = "") (w : Workspace) (t : next.State) (a : AccessRecord) :
    (attach .access next).feedAll (a, t) w c.events =
      { state := (a, t), workspace := w, fault := some .className } := by
  have hheader : c.header.name = "" := hname
  have hstep : EventFilter.access.step a w (.start c.header) = ⟨a, w, .error .className⟩ := by
    simp only [EventFilter.access, hheader]
    rfl
  exact feedAll_attach_of_fault next hstep t _

/-! ## Rebuilding a class -/

/-- Of events that the sink alone hears, it hears all. -/
lemma Chain.sunk_map_sink (es : List Event) :
    sunk (es.map ((Receiver.sink : Receiver τ), ·)) = es := by
  rw [sunk, List.filterMap_map]
  exact List.filterMap_some

/-- If the sink hears the events of a class then that class comes out. -/
lemma Pipeline.runParts_eq {parts : List (Part τ)} {w w' : Workspace} {c made : ClassTree}
    (h : ((Chain.ofParts parts .sink).feedAll (Chain.ofParts parts .sink).start w c.events).Alike
      (Chain.sink.feedAll () w' made.events)) :
    runParts parts w c = { tree := .ok made, workspace := w', log := [] } := by
  have hsink := @Chain.feedAll_sink τ () w' made.events
  obtain ⟨hworkspace, hheard, hfault⟩ := hsink ▸ h
  have hover : Chain.overheard (made.events.map ((Receiver.sink : Receiver τ), ·)) = [] := by
    rw [Chain.overheard, List.filterMap_map]
    exact List.filterMap_eq_nil_iff.2 fun _ _ => rfl
  simp only [runParts, hworkspace, hheard, hfault, Chain.sunk_map_sink, hover,
    ClassTree.foldl_absorb_events]

/-- If the first event is a fault then nothing comes out. -/
lemma Pipeline.runParts_eq_of_fault {parts : List (Part τ)} {w : Workspace} {c : ClassTree}
    {state : (Chain.ofParts parts Chain.sink).State} {fault : MissingName}
    (h : (Chain.ofParts parts .sink).feedAll (Chain.ofParts parts .sink).start w c.events =
      { state, workspace := w, fault := some fault }) :
    runParts parts w c = { tree := .error fault, workspace := w, log := [] } := by
  simp only [runParts, h]
  rfl

end Reclass
