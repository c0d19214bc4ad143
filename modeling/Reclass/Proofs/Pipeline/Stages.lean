import Mathlib.Data.List.Induction
import Reclass.Proofs.Pipeline.Traversal

set_option relaxedAutoImplicit false
set_option autoImplicit false

/-!
# Stages of a chain

The stages of a chain are links, which turn events into others, and observers, which only hear them.
A chain of stages does what its links do one after the other. An observer hears what the links
before it make of the events, and nobody hears anything else because of it. What a chain lets its
receivers hear comes in order: once an event reaches an observer, everything behind has got what the
links in between make of the earlier events, and nothing of this one.

## Main definitions

* `Reclass.Stage` — a link or an observer.
* `Reclass.Transducer.passed` — what some links make of events, one link after the other.
* `Reclass.Chain.ofStages`, `Reclass.Chain.heardFor` — a chain of stages, and who hears what.
* `Reclass.Chain.heardBy` — what one of the receivers hears.
* `Reclass.Chain.Follows` — a receiver that is always as far as another one has been.

## Main results

* `Reclass.Chain.heardBy_sink` — the sink hears what the links make of the events.
* `Reclass.Chain.heardBy_observer` — an observer hears what the links before it make of them.
* `Reclass.Chain.heardFor_observer_aside` — an observer changes nothing for the others.
* `Reclass.Chain.follows_heardFor`, `watched_heardFor` — earlier stages come first, event by event.
-/

namespace Reclass

variable {τ : Type}

/-! ## Stages -/

/-- A stage of a chain: a link, which turns every event into some others, or an observer. -/
inductive Stage (τ : Type) where
  | link (t : Transducer)
  | observer (tag : τ)

namespace Stage

/-- A stage as a part of a chain. -/
def part : Stage τ → Part τ
  | link t => .filter (.ofTransducer t)
  | observer tag => .listener tag

/-- The links among some stages, in order. -/
def links (stages : List (Stage τ)) : List Transducer :=
  stages.filterMap fun
    | link t => some t
    | observer _ => none

/-- The tags of the observers among some stages, in order. -/
def tags (stages : List (Stage τ)) : List τ :=
  stages.filterMap fun
    | link _ => none
    | observer tag => some tag

/-- The links of stages with others behind. -/
lemma links_append (before after : List (Stage τ)) :
    links (before ++ after) = links before ++ links after := List.filterMap_append

/-- A link has no tag. -/
@[simp] lemma tags_link (t : Transducer) (stages : List (Stage τ)) :
    tags (link t :: stages) = tags stages := rfl

/-- An observer has a tag. -/
@[simp] lemma tags_observer (tag : τ) (stages : List (Stage τ)) :
    tags (observer tag :: stages) = tag :: tags stages := rfl

/-- The tags of stages with others behind. -/
@[simp] lemma tags_append (before after : List (Stage τ)) :
    tags (before ++ after) = tags before ++ tags after := List.filterMap_append

end Stage

/-- What links make of events, one link after the other. -/
def Transducer.passed (ts : List Transducer) (es : List Event) : List Event :=
  ts.foldl (fun es t => t.run es) es

namespace Chain

/-! ## What is heard -/

/-- A chain of stages that leads to a sink. -/
def ofStages (stages : List (Stage τ)) : Chain τ := ofParts (stages.map Stage.part) .sink

/-- Who hears what if a chain is fed from the start. -/
def heardFor (c : Chain τ) (w : Workspace) (es : List Event) : List (Receiver τ × Event) :=
  (c.feedAll c.start w es).heard

/-- What one of the receivers hears. -/
def heardBy [DecidableEq τ] (r : Receiver τ) (heard : List (Receiver τ × Event)) : List Event :=
  heard.filterMap fun h => if h.1 = r then some h.2 else none

/-- A chain of stages keeps to itself. -/
lemma selfContained_ofStages (stages : List (Stage τ)) : (ofStages stages).SelfContained := by
  induction stages with
  | nil => exact selfContained_sink
  | cons stage stages ih =>
    cases stage with
    | link t => exact ih.attach t
    | observer tag => exact ih.listen tag

variable {c next : Chain τ} (w : Workspace)

/-- One more event comes after the others. -/
lemma feedAll_append_singleton (h : c.SelfContained) (s : c.State) (es : List Event) (e : Event) :
    c.feedAll s w (es ++ [e]) = { c.feed (c.feedAll s w es).state w e with
      heard := (c.feedAll s w es).heard ++ (c.feed (c.feedAll s w es).state w e).heard } := by
  rw [feedAll_append, Outcome.andThen_of_fault_none (h.fault_feedAll s w es), feedAll_singleton,
    h.workspace_feedAll s w es]

/-- A listener in front does not change the state of a chain. -/
lemma state_feedAll_listen (h : next.SelfContained) (tag : τ) (s : next.State) (es : List Event) :
    ((listen tag next).feedAll s w es).state = (next.feedAll s w es).state := by
  induction es using List.reverseRecOn with
  | nil => rfl
  | append_singleton es e ih =>
    have hlisten := feedAll_append_singleton w (h.listen tag) s es e
    rw [feedAll_append_singleton w h s es e]
    exact (congrArg Outcome.state hlisten).trans (congrArg (fun s => (next.feed s w e).state) ih)

/-- With a listener in front the same is heard for one more event, after the listener itself has
heard it. -/
lemma heardFor_listen_append_singleton (h : next.SelfContained) (tag : τ) (es : List Event)
    (e : Event) : ∃ heard, next.heardFor w (es ++ [e]) = next.heardFor w es ++ heard ∧
      (listen tag next).heardFor w (es ++ [e]) =
        (listen tag next).heardFor w es ++ (.listener tag, e) :: heard := by
  refine ⟨(next.feed (next.feedAll next.start w es).state w e).heard, ?_, ?_⟩
  · rw [heardFor, feedAll_append_singleton w h]
    rfl
  · have hlisten := feedAll_append_singleton w (h.listen tag) next.start es e
    have hstate := state_feedAll_listen w h tag next.start es
    exact (congrArg Outcome.heard hlisten).trans
      (congrArg (fun s => _ ++ (.listener tag, e) :: (next.feed s w e).heard) hstate)

/-- Without stages the sink hears all events. -/
lemma heardFor_nil (es : List Event) :
    (ofStages ([] : List (Stage τ))).heardFor w es = es.map (.sink, ·) :=
  congrArg Outcome.heard (feedAll_sink () w es)

/-- A link feeds what is behind it with what it makes of the events. -/
lemma heardFor_link (t : Transducer) (stages : List (Stage τ)) (es : List Event) :
    (ofStages (.link t :: stages)).heardFor w es = (ofStages stages).heardFor w (t.run es) :=
  (alike_feedAll_attach (ofStages stages) (EventFilter.passes_ofTransducer t t.start es) _ w).heard

/-- An observer hears an event before all that is behind it. -/
lemma heardFor_observer (tag : τ) (stages : List (Stage τ)) (es : List Event) (e : Event) :
    ∃ heard, (ofStages stages).heardFor w (es ++ [e]) = (ofStages stages).heardFor w es ++ heard ∧
      (ofStages (.observer tag :: stages)).heardFor w (es ++ [e]) =
        (ofStages (.observer tag :: stages)).heardFor w es ++ (.listener tag, e) :: heard :=
  heardFor_listen_append_singleton w (selfContained_ofStages stages) tag es e

/-! ## One receiver -/

section

variable [DecidableEq τ] {stages before after : List (Stage τ)} {tag : τ} {r : Receiver τ}

/-- What a receiver hears comes in a row. -/
lemma heardBy_append (heard heard' : List (Receiver τ × Event)) :
    heardBy r (heard ++ heard') = heardBy r heard ++ heardBy r heard' := List.filterMap_append

/-- What another one hears does not count. -/
lemma heardBy_filter {r' : Receiver τ} (hne : r ≠ r') (heard : List (Receiver τ × Event)) :
    heardBy r (heard.filter (·.1 ≠ r')) = heardBy r heard := by
  rw [heardBy, List.filterMap_filter]
  refine congrArg (List.filterMap · heard) (funext fun h => ?_)
  by_cases hh : h.1 = r <;> simp [hh, hne]

/-- **An observer changes nothing for the others**: they hear the same, and in the same order. -/
theorem heardFor_observer_aside (before after : List (Stage τ)) (tag : τ) (es : List Event) :
    ((ofStages (before ++ .observer tag :: after)).heardFor w es).filter (·.1 ≠ .listener tag) =
      ((ofStages (before ++ after)).heardFor w es).filter (·.1 ≠ .listener tag) := by
  induction before generalizing es with
  | nil =>
    induction es using List.reverseRecOn with
    | nil => rfl
    | append_singleton es e ih =>
      obtain ⟨heard, hafter, hboth⟩ := heardFor_observer w tag after es e
      rw [List.nil_append] at ih ⊢
      rw [hboth, List.nil_append, hafter, List.filter_append, List.filter_append, ih,
        List.filter_cons_of_neg (by simp), List.nil_append]
  | cons stage before ihstages =>
    cases stage with
    | link t =>
      rw [List.cons_append, List.cons_append, heardFor_link, heardFor_link]
      exact ihstages _
    | observer tag' =>
      induction es using List.reverseRecOn with
      | nil => rfl
      | append_singleton es e ih =>
        obtain ⟨heard, hbehind, hboth⟩ :=
          heardFor_observer w tag' (before ++ .observer tag :: after) es e
        obtain ⟨heard', hbehind', hboth'⟩ := heardFor_observer w tag' (before ++ after) es e
        -- what is heard of `e` alone is the same, since it is before `e` and with `e`
        have hsame := ihstages (es ++ [e])
        rw [hbehind, hbehind', List.filter_append, List.filter_append, ihstages es] at hsame
        rw [List.cons_append, List.cons_append] at ih ⊢
        rw [hboth, hboth', List.filter_append, List.filter_append, ih, List.filter_cons,
          List.filter_cons, List.append_cancel_left hsame]

/-- What others than an observer hear does not depend on it. -/
lemma heardBy_observer_cons (hne : r ≠ .listener tag) (stages : List (Stage τ)) (es : List Event) :
    heardBy r ((ofStages (.observer tag :: stages)).heardFor w es) =
      heardBy r ((ofStages stages).heardFor w es) := by
  have haside := heardFor_observer_aside w [] stages tag es
  rw [List.nil_append, List.nil_append] at haside
  rw [← heardBy_filter hne, haside, heardBy_filter hne]

/-- **The sink hears what the links make of the events**, one link after the other. -/
theorem heardBy_sink (stages : List (Stage τ)) (es : List Event) :
    heardBy .sink ((ofStages stages).heardFor w es) =
      Transducer.passed (Stage.links stages) es := by
  induction stages generalizing es with
  | nil =>
    rw [heardFor_nil, heardBy, List.filterMap_map]
    exact List.filterMap_some
  | cons stage stages ih =>
    cases stage with
    | link t =>
      rw [heardFor_link]
      exact ih (t.run es)
    | observer tag =>
      rw [heardBy_observer_cons w (by simp)]
      exact ih es

/-- An observer that is not there hears nothing. -/
lemma heardBy_eq_nil (htag : tag ∉ Stage.tags stages) (es : List Event) :
    heardBy (.listener tag) ((ofStages stages).heardFor w es) = [] := by
  induction stages generalizing es with
  | nil =>
    rw [heardFor_nil, heardBy, List.filterMap_map]
    exact List.filterMap_eq_nil_iff.2 fun _ _ => rfl
  | cons stage stages ih =>
    cases stage with
    | link t =>
      rw [heardFor_link]
      exact ih htag (t.run es)
    | observer tag' =>
      have hne : tag ≠ tag' ∧ tag ∉ Stage.tags stages := by
        simpa using htag
      rw [heardBy_observer_cons w (by simp [hne.1])]
      exact ih hne.2 es

/-- Without a new observer everybody hears what they hear with it, and in the same order. -/
lemma filter_heardFor_of_notMem (hbefore : tag ∉ Stage.tags before)
    (hafter : tag ∉ Stage.tags after) (es : List Event) :
    ((ofStages (before ++ .observer tag :: after)).heardFor w es).filter (·.1 ≠ .listener tag) =
      (ofStages (before ++ after)).heardFor w es := by
  have hnew : tag ∉ Stage.tags (before ++ after) := by
    simp [hbefore, hafter]
  have hsilent := heardBy_eq_nil w hnew es
  rw [heardFor_observer_aside, List.filter_eq_self]
  intro h hmem
  have hnone := List.filterMap_eq_nil_iff.1 hsilent h hmem
  simpa using hnone

/-- An observer in front hears all events. -/
lemma heardBy_observer_self (htag : tag ∉ Stage.tags stages) (es : List Event) :
    heardBy (.listener tag) ((ofStages (.observer tag :: stages)).heardFor w es) = es := by
  induction es using List.reverseRecOn with
  | nil => rfl
  | append_singleton es e ih =>
    obtain ⟨heard, hbehind, hboth⟩ := heardFor_observer w tag stages es e
    have hsilent := heardBy_eq_nil w htag (es ++ [e])
    rw [hbehind, heardBy_append, List.append_eq_nil_iff] at hsilent
    have hfirst : heardBy (.listener tag) ((.listener tag, e) :: heard) = [e] := by
      rw [heardBy, List.filterMap_cons, if_pos rfl]
      exact congrArg (e :: ·) hsilent.2
    rw [hboth, heardBy_append, ih, hfirst]

/-- **An observer hears what the links before it make of the events.** -/
theorem heardBy_observer (hbefore : tag ∉ Stage.tags before) (hafter : tag ∉ Stage.tags after)
    (es : List Event) :
    heardBy (.listener tag) ((ofStages (before ++ .observer tag :: after)).heardFor w es) =
      Transducer.passed (Stage.links before) es := by
  induction before generalizing es with
  | nil => exact heardBy_observer_self w hafter es
  | cons stage before ih =>
    cases stage with
    | link t =>
      rw [List.cons_append, heardFor_link]
      exact ih hbefore (t.run es)
    | observer tag' =>
      have hne : tag ≠ tag' ∧ tag ∉ Stage.tags before := by
        simpa using hbefore
      rw [List.cons_append, heardBy_observer_cons w (by simp [hne.1])]
      exact ih hne.2 es

/-! ## Two receivers -/

/-- Whenever one receiver is about to hear an event, another one has got what becomes of all that
the first has heard before, and no more. -/
def Follows (a b : Receiver τ) (image : List Event → List Event)
    (heard : List (Receiver τ × Event)) : Prop :=
  ∀ early e late, heard = early ++ (a, e) :: late → heardBy b early = image (heardBy a early)

/-- What third parties hear does not count. -/
lemma follows_filter_iff {a b : Receiver τ} (ha : a ≠ r) (hb : b ≠ r)
    {image : List Event → List Event} {heard : List (Receiver τ × Event)} :
    Follows a b image (heard.filter (·.1 ≠ r)) ↔ Follows a b image heard := by
  constructor
  · intro h early e late heq
    have hfilter : heard.filter (·.1 ≠ r) =
        early.filter (·.1 ≠ r) ++ (a, e) :: late.filter (·.1 ≠ r) := by
      rw [heq, List.filter_append, List.filter_cons_of_pos (by simp [ha])]
    have himage := h _ e _ hfilter
    rwa [heardBy_filter ha, heardBy_filter hb] at himage
  · intro h early e late heq
    obtain ⟨first, others, rfl, rfl, hothers⟩ := List.filter_eq_append_iff.1 heq
    obtain ⟨skipped, rest, rfl, hskipped, -, rfl⟩ := List.filter_eq_cons_iff.1 hothers
    have hearly : (first ++ skipped).filter (·.1 ≠ r) = first.filter (·.1 ≠ r) := by
      rw [List.filter_append, List.filter_eq_nil_iff.2 hskipped, List.append_nil]
    have himage := h (first ++ skipped) e rest (List.append_assoc ..).symm
    rwa [← heardBy_filter ha, ← heardBy_filter hb, hearly] at himage

/-- An observer in front hears an event before any of it gets farther.

**Proof sketch.** Induction on the events. The observer is the first to hear the last one, when what
is behind has heard all that becomes of the others. -/
lemma follows_observer_self (htag : tag ∉ Stage.tags stages) (hr : r ≠ .listener tag)
    {image : List Event → List Event}
    (himage : ∀ es, heardBy r ((ofStages stages).heardFor w es) = image es) (es : List Event) :
    Follows (.listener tag) r image ((ofStages (.observer tag :: stages)).heardFor w es) := by
  induction es using List.reverseRecOn with
  | nil =>
    intro early e late heq
    exact absurd heq.symm (by simp [heardFor, feedAll])
  | append_singleton es e ih =>
    obtain ⟨heard, hbehind, hboth⟩ := heardFor_observer w tag stages es e
    have hbefore : heardBy r ((ofStages (.observer tag :: stages)).heardFor w es) = image
        (heardBy (.listener tag) ((ofStages (.observer tag :: stages)).heardFor w es)) := by
      rw [heardBy_observer_cons w hr, himage, heardBy_observer_self w htag]
    have hsilent := heardBy_eq_nil w htag (es ++ [e])
    rw [hbehind, heardBy_append, List.append_eq_nil_iff] at hsilent
    intro early e' late heq
    rw [hboth, List.append_eq_append_iff] at heq
    -- the observer hears `e'` as the last event, or before it; behind it nobody tells the observer
    rcases heq with ⟨skipped, rfl, hrest⟩ | ⟨skipped, hearlier, hrest⟩
    · cases skipped with
      | nil => rwa [List.append_nil]
      | cons first skipped =>
        obtain ⟨-, rfl⟩ := List.cons.inj hrest
        exact absurd hsilent.2 (by simp [heardBy])
    · cases skipped with
      | nil =>
        rw [List.append_nil] at hearlier
        rwa [← hearlier]
      | cons first skipped =>
        obtain ⟨rfl, -⟩ := List.cons.inj hrest
        exact ih early e' skipped hearlier

/-- **Earlier stages come first, event by event.** Once an event reaches an observer, each receiver
behind it has heard what becomes of the earlier events, and nothing of this one. -/
theorem follows_heardFor (hbefore : tag ∉ Stage.tags before) (hafter : tag ∉ Stage.tags after)
    (hr : ∀ tag', r = .listener tag' → tag' ≠ tag ∧ tag' ∉ Stage.tags before)
    {image : List Event → List Event}
    (himage : ∀ es, heardBy r ((ofStages after).heardFor w es) = image es) (es : List Event) :
    Follows (.listener tag) r image
      ((ofStages (before ++ .observer tag :: after)).heardFor w es) := by
  induction before generalizing es with
  | nil =>
    have hne : r ≠ .listener tag := fun h => (hr tag h).1 rfl
    exact follows_observer_self w hafter hne himage es
  | cons stage before ih =>
    cases stage with
    | link t =>
      rw [List.cons_append, heardFor_link]
      exact ih hbefore hr (t.run es)
    | observer tag' =>
      have hne : tag ≠ tag' ∧ tag ∉ Stage.tags before := by
        simpa using hbefore
      have hr' : ∀ tag'', r = .listener tag'' → tag'' ≠ tag' ∧ tag'' ∉ Stage.tags before := by
        intro tag'' h
        simpa using (hr tag'' h).2
      have hthird : r ≠ .listener tag' := fun h => (hr' tag' h).1 rfl
      have haside := heardFor_observer_aside w [] (before ++ .observer tag :: after) tag' es
      have hothers := ih hne.2 (fun tag'' h => ⟨(hr tag'' h).1, (hr' tag'' h).2⟩) es
      rw [List.nil_append, List.nil_append] at haside
      rw [List.cons_append, ← follows_filter_iff (r := .listener tag') (by simp [hne.1]) hthird,
        haside, follows_filter_iff (by simp [hne.1]) hthird]
      exact hothers

/-- **Two new observers see that earlier stages come first**, wherever they are put: in front of a
stage they hear what reaches that stage. Nobody else notices them.

**Proof sketch.** One after the other they may be left out (`filter_heardFor_of_notMem`). The order
is that of `follows_heardFor`. -/
theorem watched_heardFor {between : List (Stage τ)} {tag' : τ} (hne : tag ≠ tag')
    (htag : tag ∉ Stage.tags (before ++ (between ++ after)))
    (htag' : tag' ∉ Stage.tags (before ++ (between ++ after))) (es : List Event) :
    let watched := (ofStages
      (before ++ .observer tag :: (between ++ .observer tag' :: after))).heardFor w es
    (watched.filter (·.1 ≠ .listener tag)).filter (·.1 ≠ .listener tag') =
        (ofStages (before ++ (between ++ after))).heardFor w es ∧
      Follows (.listener tag) (.listener tag') (Transducer.passed (Stage.links between))
        watched := by
  simp only [Stage.tags_append, List.mem_append, not_or] at htag htag'
  obtain ⟨hbefore, hbetween, hafter⟩ := htag
  obtain ⟨hbefore', hbetween', hafter'⟩ := htag'
  have hbehind : tag ∉ Stage.tags (between ++ .observer tag' :: after) := by
    simp [hne, hbetween, hafter]
  have hbefore'' : tag' ∉ Stage.tags (before ++ between) := by
    simp [hbefore', hbetween']
  constructor
  · have hsecond := filter_heardFor_of_notMem w hbefore'' hafter' es
    rw [List.append_assoc, List.append_assoc] at hsecond
    rw [filter_heardFor_of_notMem w hbefore hbehind, hsecond]
  · refine follows_heardFor w hbefore hbehind ?_ (heardBy_observer w hbetween' hafter') es
    rintro tag'' ⟨⟩
    exact ⟨hne.symm, hbefore'⟩

/-- Everybody hears what is meant for them, and in order. -/
structure InOrder (stages : List (Stage τ)) (es : List Event) (heard : List (Receiver τ × Event)) :
    Prop where
  /-- An observer hears what the links before it make of the events. -/
  observer : ∀ before tag after, stages = before ++ .observer tag :: after →
    heardBy (.listener tag) heard = Transducer.passed (Stage.links before) es
  /-- An event reaches an observer before what becomes of it reaches the sink. -/
  before_sink : ∀ before tag after, stages = before ++ .observer tag :: after →
    Follows (.listener tag) .sink (Transducer.passed (Stage.links after)) heard
  /-- An event reaches an observer before what becomes of it reaches a later one. -/
  before_observer : ∀ before tag between tag' after,
    stages = before ++ .observer tag :: (between ++ .observer tag' :: after) →
    Follows (.listener tag) (.listener tag') (Transducer.passed (Stage.links between)) heard

/-- **A chain of stages is in order**, if observers have tags of their own. -/
theorem inOrder_heardFor (hdistinct : (Stage.tags stages).Nodup) (es : List Event) :
    InOrder stages es ((ofStages stages).heardFor w es) := by
  have hfresh : ∀ before tag after, stages = before ++ .observer tag :: after →
      tag ∉ Stage.tags before ∧ tag ∉ Stage.tags after := by
    rintro before tag after rfl
    rw [Stage.tags_append, Stage.tags_observer, List.nodup_append] at hdistinct
    obtain ⟨-, hrest, hdisjoint⟩ := hdistinct
    exact ⟨fun h => hdisjoint tag h tag List.mem_cons_self rfl, (List.nodup_cons.1 hrest).1⟩
  refine ⟨?_, ?_, ?_⟩
  · rintro before tag after rfl
    obtain ⟨hbefore, hafter⟩ := hfresh before tag after rfl
    exact heardBy_observer w hbefore hafter es
  · rintro before tag after rfl
    obtain ⟨hbefore, hafter⟩ := hfresh before tag after rfl
    exact follows_heardFor w hbefore hafter (fun _ h => by cases h) (heardBy_sink w after) es
  · rintro before tag between tag' after rfl
    obtain ⟨hbefore, hafter⟩ := hfresh before tag _ rfl
    obtain ⟨hbefore', hafter'⟩ := hfresh (before ++ .observer tag :: between) tag' after (by simp)
    simp only [Stage.tags_append, Stage.tags_observer, List.mem_append, List.mem_cons, not_or]
      at hbefore'
    obtain ⟨hbefore', hne, hbetween⟩ := hbefore'
    refine follows_heardFor w hbefore hafter ?_ (heardBy_observer w hbetween hafter') es
    rintro tag'' ⟨⟩
    exact ⟨hne, hbefore'⟩

end

end Chain

end Reclass
