import Reclass.Proofs.Trait.Stability

set_option relaxedAutoImplicit false
set_option autoImplicit false

/-!
# The traits that are run

Of the traits in a sequence those are due that are for the object: the ones for every object and the
ones for this one. They run by falling priority, those of one priority in the order in which they
were put together, each on what the one before made. The first that fails ends it. Nothing else in
the sequence has any influence: neither traits for other objects, wherever they stand, nor those
behind the first failure.

## Main definitions

* `Reclass.Trait.IsFor` — a trait is for an object.
* `Reclass.Trait.RunInTurn` — traits run one after the other, and what comes of it.
* `Reclass.Trait.AppliedByDue` — what the traits of a list do to an object.

## Main results

* `Reclass.Trait.RunInTurn.foldlM_applyTo` — those that are for the object run in turn.
* `Reclass.Trait.applyAll_congr` — lists with the same traits due, in the same order at every
  priority, give the same result.
* `Reclass.Trait.applied_by_due` — only the traits that are due are applied.
-/

namespace Reclass.Trait

variable {α : Type} {name : String} {r : Renaming}

/-! ## Traits for an object -/

/-- The trait is for every object, or for the one of this name. -/
def IsFor (name : String) (t : Trait α) : Prop :=
  t.target.scope = .everything ∨ t.target.scope = .only name

instance (name : String) (t : Trait α) : Decidable (IsFor name t) :=
  inferInstanceAs (Decidable (_ ∨ _))

/-- The traits of a list that are for the object, in their order. -/
def traitsFor (name : String) (ts : List (Trait α)) : List (Trait α) :=
  ts.filter fun t => IsFor name t

lemma covers_iff {t : Trait α} : t.target.covers name = true ↔ IsFor name t := by
  unfold Target.covers IsFor
  cases t.target.scope <;> simp

/-- A trait that is for the object is run. -/
lemma applyTo_of_isFor {t : Trait α} (h : IsFor name t) (x : α) :
    applyTo name r x t = (t.apply r x).mapError (.inTrait name) :=
  if_pos (covers_iff.2 h)

/-- A trait that is not for the object is passed over. -/
lemma applyTo_of_not_isFor {t : Trait α} (h : ¬IsFor name t) (x : α) :
    applyTo name r x t = .ok x :=
  if_neg (covers_iff.not.2 h)

/-! ## One after the other -/

/-- A trait that is run, and what it is given. -/
structure Run (α : Type) where
  trait : Trait α
  given : α

/-- Traits are run one after the other, each on what the one before made. These are the runs, and
what comes of them: what the last one made, or the cause for which the first one failed. Behind a
failure nothing is run. -/
inductive RunInTurn (r : Renaming) :
    List (Trait α) → α → List (Run α) → Except Cause α → Prop
  | done (x : α) : RunInTurn r [] x [] (.ok x)
  | next {t : Trait α} {ts : List (Trait α)} {x y : α} {runs : List (Run α)}
      {out : Except Cause α} (made : t.apply r x = .ok y) (rest : RunInTurn r ts y runs out) :
      RunInTurn r (t :: ts) x (⟨t, x⟩ :: runs) out
  | failed {t : Trait α} {ts : List (Trait α)} {x : α} {cause : Cause}
      (fails : t.apply r x = .error cause) : RunInTurn r (t :: ts) x [⟨t, x⟩] (.error cause)

/-- Traits can be run in turn on everything. -/
lemma exists_runInTurn (r : Renaming) (ts : List (Trait α)) (x : α) :
    ∃ runs out, RunInTurn r ts x runs out := by
  induction ts generalizing x with
  | nil => exact ⟨[], .ok x, .done x⟩
  | cons t ts ih =>
    cases happly : t.apply r x with
    | error cause => exact ⟨_, _, .failed happly⟩
    | ok y =>
      obtain ⟨runs, out, hrest⟩ := ih y
      exact ⟨_, _, .next happly hrest⟩

namespace RunInTurn

variable {ts : List (Trait α)} {x : α} {runs : List (Run α)} {out : Except Cause α}

/-- **The traits that are for the object are run in turn.** The result is what comes of them; a
cause is reported as that of the object. -/
theorem foldlM_applyTo (h : RunInTurn r (traitsFor name ts) x runs out) :
    ts.foldlM (applyTo name r) x = out.mapError (.inTrait name) := by
  induction ts generalizing x runs with
  | nil =>
    cases h
    rfl
  | cons t ts ih =>
    rw [List.foldlM_cons]
    by_cases hfor : IsFor name t
    · rw [traitsFor, List.filter_cons_of_pos (by simpa using hfor)] at h
      rw [applyTo_of_isFor hfor]
      cases h with
      | next made rest =>
        rw [made]
        exact ih rest
      | failed fails =>
        rw [fails]
        rfl
    · rw [traitsFor, List.filter_cons_of_neg (by simpa using hfor)] at h
      rw [applyTo_of_not_isFor hfor]
      exact ih h

/-- Traits that do the same when they are run give the same, whatever they would do otherwise. -/
lemma map {g : Trait α → Trait α} (h : RunInTurn r ts x runs out)
    (hg : ∀ run ∈ runs, (g run.trait).apply r run.given = run.trait.apply r run.given) :
    RunInTurn r (ts.map g) x (runs.map fun run => ⟨g run.trait, run.given⟩) out := by
  induction h with
  | done x => exact .done x
  | next made _ ih =>
    obtain ⟨hfirst, hrest⟩ := List.forall_mem_cons.1 hg
    exact .next (hfirst.trans made) (ih hrest)
  | failed fails => exact .failed ((hg _ List.mem_cons_self).trans fails)

end RunInTurn

/-! ## Sequences -/

/-- The traits of a list in the order in which they run, if they are for the object. -/
def due (name : String) (ts : List (Trait α)) : List (Trait α) := sort (traitsFor name ts)

/-- No traits are applied like an empty list of them. -/
lemma applyAll_orNone (ts : List (Trait α)) (x : α) :
    applyAll name r (orNone ts) x = ts.foldlM (applyTo name r) x := by
  cases ts <;> rfl

/-- Traits that were put together are applied to an object as those that are due are run. -/
lemma applyAll_ofList {ts : List (Trait α)} {x : α} {runs : List (Run α)} {out : Except Cause α}
    (h : RunInTurn r (due name ts) x runs out) :
    applyAll name r (SortedTraits.ofList ts).read x = out.mapError (.inTrait name) := by
  rw [due, traitsFor, sort_filter] at h
  exact (applyAll_orNone (sort ts) x).trans h.foldlM_applyTo

/-- Two lists give the same if they hold the same traits for the object, in the same order at every
priority. -/
lemma applyAll_congr {ts us : List (Trait α)}
    (h : AlikeInTies (traitsFor name us) (traitsFor name ts)) (x : α) :
    applyAll name r (SortedTraits.ofList us).read x =
      applyAll name r (SortedTraits.ofList ts).read x := by
  have hdue : due name us = due name ts := h.sort_eq
  obtain ⟨runs, out, hruns⟩ := exists_runInTurn r (due name ts) x
  rw [applyAll_ofList hruns, applyAll_ofList (hdue ▸ hruns)]

/-- What the traits of a list do to an object. Here `due` are the traits that are due, `runs` what
was run on what, and `out` what came of it. -/
structure AppliedByDue (name : String) (r : Renaming) (ts : List (Trait α)) (x : α)
    (due : List (Trait α)) (runs : List (Run α)) (out : Except Cause α) : Prop where
  /-- Due are the traits that are for the object, -/
  perm : due.Perm (traitsFor name ts)
  /-- by falling priority, -/
  falling : due.Pairwise fun a b => b.target.priority ≤ a.target.priority
  /-- those of one priority in the order given. -/
  ties : ∀ p, due.filter (fun t => t.target.priority = p) =
    (traitsFor name ts).filter fun t => t.target.priority = p
  /-- They are run in turn up to the first failure, -/
  inTurn : RunInTurn r due x runs out
  /-- and the result is what comes of it, a failure being one of the object. -/
  result : applyAll name r (SortedTraits.ofList ts).read x = out.mapError (.inTrait name)
  /-- It is the same with traits that are sorted when they are read. -/
  collected : applyAll name r (TraitBuffer.ofList ts).read.1 x =
    applyAll name r (SortedTraits.ofList ts).read x
  /-- It depends on a trait only through what the trait does in these runs. -/
  unrun : ∀ g : Trait α → Trait α, (∀ t, (g t).target = t.target) →
    (∀ run ∈ runs, (g run.trait).apply r run.given = run.trait.apply r run.given) →
      applyAll name r (SortedTraits.ofList (ts.map g)).read x =
        applyAll name r (SortedTraits.ofList ts).read x
  /-- Traits for other objects may be put in or taken out anywhere. -/
  others : ∀ us : List (Trait α), traitsFor name us = traitsFor name ts →
    applyAll name r (SortedTraits.ofList us).read x =
      applyAll name r (SortedTraits.ofList ts).read x
  /-- Traits may be reordered as long as those of one priority keep their order, -/
  reordered : ∀ us : List (Trait α),
    (∀ p, us.filter (fun t => t.target.priority = p) =
      ts.filter fun t => t.target.priority = p) →
        applyAll name r (SortedTraits.ofList us).read x =
          applyAll name r (SortedTraits.ofList ts).read x
  /-- and in any way if those that are for the object have different priorities. -/
  shuffled : ∀ us : List (Trait α), us.Perm ts →
    ((traitsFor name ts).map fun t => t.target.priority).Nodup →
      applyAll name r (SortedTraits.ofList us).read x =
        applyAll name r (SortedTraits.ofList ts).read x

/-- **Only the traits that are due are applied.**

**Proof sketch.** Passing over the traits for other objects and sorting can be done in any order
(`sort_filter`), so what is left to run is the sorted list of those that are for the object. This
list is determined by the order at every priority (`AlikeInTies.sort_eq`), which the traits for
other objects have no part in and which a change of places among different priorities keeps. -/
theorem applied_by_due (name : String) (r : Renaming) (ts : List (Trait α)) (x : α) :
    ∃ due runs out, AppliedByDue name r ts x due runs out := by
  obtain ⟨runs, out, hruns⟩ := exists_runInTurn r (due name ts) x
  have hresult := applyAll_ofList hruns
  refine ⟨due name ts, runs, out, ?_⟩
  exact {
    perm := sort_perm _
    falling := falling_sort _
    ties := fun p => atPriority_sort p _
    inTurn := hruns
    result := hresult
    collected := rfl
    unrun := fun g htarget hg => by
      have hfor : ∀ t : Trait α, IsFor name (g t) ↔ IsFor name t := by
        intro t
        rw [IsFor, IsFor, htarget]
      have hdue : due name (ts.map g) = (due name ts).map g := by
        rw [due, due, ← sort_map htarget]
        simp only [traitsFor, List.filter_map, Function.comp_def, hfor]
      have hruns' := hruns.map hg
      rw [← hdue] at hruns'
      rw [applyAll_ofList hruns', hresult]
    others := fun us hsame => applyAll_congr (fun p => by rw [hsame]) x
    reordered := fun us hties => applyAll_congr (AlikeInTies.filter hties _) x
    shuffled := fun us hperm hdistinct =>
      applyAll_congr (.of_perm (hperm.filter _) hdistinct) x }

end Reclass.Trait
