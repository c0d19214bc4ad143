import Mathlib.Data.List.TakeWhile
import Reclass.Proofs.Pipeline.Stages

set_option relaxedAutoImplicit false
set_option autoImplicit false

/-!
# Pipelines compose their links

A pipeline is built by calls in any order: stages are added, it is said where new names come from,
and renaming is requested. What it makes of a class is what its links make of the events of that
class, one after the other, with renaming behind all of them. Observers may be added or left out
without any effect on the class that comes out.

## Main definitions

* `Reclass.PipelineCall` — a call that builds a pipeline.
* `Reclass.Pipeline.ofCalls` — the pipeline after some calls.
* `Reclass.PipelineCall.finalStages` — the stages that run, renaming behind all others.

## Main results

* `Reclass.Pipeline.ofCalls_eq` — the pipeline after some calls.
* `Reclass.Pipeline.run_composes` — what a pipeline makes of a class, and who hears what.
-/

namespace Reclass

variable {τ : Type}

/-! ## Building a pipeline -/

/-- A call that builds a pipeline. -/
inductive PipelineCall (τ : Type) where
  | add (stage : Stage τ)
  | useRenaming (r : Renaming)
  | requestRenaming

namespace PipelineCall

/-- The stage that a call adds. -/
def stage? : PipelineCall τ → Option (Stage τ)
  | add stage => some stage
  | _ => none

/-- The new names that a call gives. -/
def renaming? : PipelineCall τ → Option Renaming
  | useRenaming r => some r
  | _ => none

/-- The call requests renaming. -/
def isRequest : PipelineCall τ → Bool
  | requestRenaming => true
  | _ => false

/-- The call adds an observer. -/
def isObserver : PipelineCall τ → Bool
  | add (.observer _) => true
  | _ => false

/-- Renaming is requested at a time when new names are known. -/
def renames (calls : List (PipelineCall τ)) : Bool :=
  (calls.dropWhile (·.renaming?.isNone)).any isRequest

/-- The new names that were given last. -/
def lastRenaming? (calls : List (PipelineCall τ)) : Option Renaming :=
  (calls.filterMap renaming?).getLast?

/-- The stages that run: those that were added, in order, and renaming behind all of them. -/
def finalStages (calls : List (PipelineCall τ)) : List (Stage τ) :=
  calls.filterMap stage? ++
    if renames calls then (lastRenaming? calls).toList.map fun r => .link (.rename r) else []

variable (calls : List (PipelineCall τ)) (call : PipelineCall τ)

/-- The last call that gives new names counts. -/
lemma lastRenaming?_append_singleton :
    lastRenaming? (calls ++ [call]) = call.renaming?.or (lastRenaming? calls) := by
  rw [lastRenaming?, List.filterMap_append, List.getLast?_append]
  cases call <;> rfl

/-- No new names have been given by a call. -/
lemma dropWhile_eq_nil_iff :
    calls.dropWhile (·.renaming?.isNone) = [] ↔ lastRenaming? calls = none := by
  rw [List.dropWhile_eq_nil_iff, lastRenaming?, List.getLast?_eq_none_iff,
    List.filterMap_eq_nil_iff]
  simp only [Option.isNone_iff_eq_none]

/-- A request counts if new names have been given before. -/
lemma renames_append_singleton :
    renames (calls ++ [call]) =
      (renames calls || call.isRequest && (lastRenaming? calls).isSome) := by
  have hunknown := dropWhile_eq_nil_iff calls
  unfold renames
  rw [List.dropWhile_append]
  cases hlast : lastRenaming? calls with
  | none =>
    rw [hunknown.2 hlast]
    cases call <;> rfl
  | some r =>
    have hknown : (calls.dropWhile (·.renaming?.isNone)).isEmpty = false := by
      rw [List.isEmpty_eq_false_iff]
      exact fun h => by simp [hunknown.1 h] at hlast
    simp [hknown]

/-- If classes are renamed then there are new names. -/
lemma lastRenaming?_of_renames {calls : List (PipelineCall τ)} (h : renames calls = true) :
    ∃ r, lastRenaming? calls = some r := by
  refine Option.ne_none_iff_exists'.1 fun hlast => ?_
  rw [renames, (dropWhile_eq_nil_iff calls).2 hlast] at h
  exact Bool.false_ne_true h

/-- Observers do not count for the new names. -/
lemma lastRenaming?_filter :
    lastRenaming? (calls.filter (!·.isObserver)) = lastRenaming? calls := by
  rw [lastRenaming?, List.filterMap_filter, lastRenaming?]
  refine congrArg (fun f => (List.filterMap f calls).getLast?) (funext fun call => ?_)
  rcases call with (t | tag) | r | _ <;> rfl

/-- Observers do not count for whether renaming is requested in time. -/
lemma renames_filter : renames (calls.filter (!·.isObserver)) = renames calls := by
  induction calls using List.reverseRecOn with
  | nil => rfl
  | append_singleton calls call ih =>
    rw [List.filter_append, renames_append_singleton]
    cases hobserver : call.isObserver with
    | true =>
      have hrequest : call.isRequest = false := by
        cases call <;> simp_all [isObserver, isRequest]
      rw [List.filter_cons_of_neg (by simp [hobserver]), List.filter_nil, List.append_nil, ih,
        hrequest, Bool.false_and, Bool.or_false]
    | false =>
      rw [List.filter_cons_of_pos (by simp [hobserver]), List.filter_nil, renames_append_singleton,
        ih, lastRenaming?_filter]

/-- Observers do not count for the links that run. -/
lemma links_finalStages_filter :
    Stage.links (finalStages (calls.filter (!·.isObserver))) = Stage.links (finalStages calls) := by
  have hlinks : Stage.links ((calls.filter (!·.isObserver)).filterMap stage?) =
      Stage.links (calls.filterMap stage?) := by
    simp only [Stage.links, List.filterMap_filterMap, List.filterMap_filter]
    refine congrArg (List.filterMap · calls) (funext fun call => ?_)
    rcases call with (t | tag) | r | _ <;> rfl
  rw [finalStages, finalStages, Stage.links_append, Stage.links_append, hlinks,
    lastRenaming?_filter, renames_filter]

end PipelineCall

namespace Pipeline

/-- What a call does to a pipeline. Renaming that is requested too early is not noted. -/
def perform (p : Pipeline τ) : PipelineCall τ → Pipeline τ
  | .add stage => p.add stage.part
  | .useRenaming r => p.useRenaming r
  | .requestRenaming =>
    match p.requestRenaming with
    | .ok p => p
    | .error _ => p

/-- The pipeline after some calls. -/
def ofCalls (calls : List (PipelineCall τ)) : Pipeline τ := calls.foldl perform {}

variable {calls : List (PipelineCall τ)}

/-- **The pipeline after some calls** has the stages that were added, the new names that were given
last, and renaming if it was requested in time.

**Proof sketch.** Induction on the calls, the last one first. -/
theorem ofCalls_eq (calls : List (PipelineCall τ)) :
    ofCalls calls =
      { parts := (calls.filterMap PipelineCall.stage?).map Stage.part
        renaming? := PipelineCall.lastRenaming? calls
        renamingRequested := PipelineCall.renames calls } := by
  induction calls using List.reverseRecOn with
  | nil => rfl
  | append_singleton calls call ih =>
    have hstep : ofCalls (calls ++ [call]) = (ofCalls calls).perform call := by
      rw [ofCalls, List.foldl_append]
      rfl
    rw [hstep, ih, PipelineCall.lastRenaming?_append_singleton,
      PipelineCall.renames_append_singleton, List.filterMap_append, List.map_append]
    cases call with
    | add stage => simp [perform, add, PipelineCall.stage?, PipelineCall.renaming?,
        PipelineCall.isRequest]
    | useRenaming r => simp [perform, useRenaming, PipelineCall.stage?, PipelineCall.renaming?,
        PipelineCall.isRequest]
    | requestRenaming =>
      cases hlast : PipelineCall.lastRenaming? calls <;>
        simp [perform, requestRenaming, PipelineCall.stage?, PipelineCall.renaming?,
          PipelineCall.isRequest]

/-! ## Running it -/

/-- The parts that run are the final stages, if there is something to do. -/
lemma finalParts_ofCalls
    (hwork : calls.filterMap PipelineCall.stage? ≠ [] ∨ PipelineCall.renames calls = true) :
    (ofCalls calls).finalParts = .ok ((PipelineCall.finalStages calls).map Stage.part) := by
  have hready : (ofCalls calls).hasWork = true := by
    rw [ofCalls_eq, hasWork]
    simpa using hwork
  rw [finalParts, hready, ofCalls_eq, PipelineCall.finalStages]
  cases hrenames : PipelineCall.renames calls with
  | false => simp
  | true =>
    obtain ⟨r, hlast⟩ := PipelineCall.lastRenaming?_of_renames hrenames
    simp [hlast]
    rfl

/-- The sink hears what it is said to hear. -/
lemma sunk_eq_heardBy [DecidableEq τ] (heard : List (Receiver τ × Event)) :
    Chain.sunk heard = Chain.heardBy .sink heard := by
  refine congrArg (List.filterMap · heard) (funext fun h => ?_)
  obtain ⟨r, e⟩ := h
  cases r <;> rfl

/-- What stages make of a class. -/
lemma runParts_stages [DecidableEq τ] (stages : List (Stage τ)) (w : Workspace) (c : ClassTree) :
    runParts (stages.map Stage.part) w c =
      { tree :=
          .ok ((Transducer.passed (Stage.links stages) c.events).foldl ClassTree.absorb .blank)
        workspace := w
        log := Chain.overheard ((Chain.ofStages stages).heardFor w c.events) } := by
  have hself := Chain.selfContained_ofStages stages
  have hfault := hself.fault_feedAll (Chain.start _) w c.events
  have hworkspace := hself.workspace_feedAll (Chain.start _) w c.events
  have hsunk := Chain.heardBy_sink w stages c.events
  rw [← sunk_eq_heardBy] at hsunk
  unfold Chain.heardFor at hsunk ⊢
  unfold Chain.ofStages at hfault hworkspace hsunk ⊢
  simp only [runParts, hfault, hworkspace, hsunk]

/-- What a pipeline makes of a class after some calls, if there is something to do. -/
lemma run_ofCalls [DecidableEq τ]
    (hwork : calls.filterMap PipelineCall.stage? ≠ [] ∨ PipelineCall.renames calls = true)
    (w : Workspace) (c : ClassTree) :
    (ofCalls calls).run w c = .ok
      { tree := .ok ((Transducer.passed (Stage.links (PipelineCall.finalStages calls))
          c.events).foldl ClassTree.absorb .blank)
        workspace := w
        log := Chain.overheard
          ((Chain.ofStages (PipelineCall.finalStages calls)).heardFor w c.events) } := by
  rw [run, finalParts_ofCalls hwork]
  dsimp only
  rw [runParts_stages]

/-- **A pipeline composes its links.** Let a pipeline be built by any calls, after which it has
stages or renames classes. Whatever the class and the workspace:

1. The class that comes out is rebuilt from the events of the class that goes in, passed through the
   links one after the other. The workspace stays as it is.
2. Renaming is the last link, wherever it was requested.
3. Other observers, if they leave the pipeline something to do, do not change the class.
4. What an observer hears is what the links before it make of the events. When an event reaches it
   then every later observer, and the sink, has heard what becomes of the events before and nothing
   of this one.
5. The same is true of any two stages, links included: two new observers in front of them, which
   nobody else notices, tell when events reach them.

**Proof sketch.** The pipeline leads through a chain of stages (`ofCalls_eq`). A link feeds what is
behind it with what it makes of the events (`Chain.heardFor_link`), and an observer only adds what
it hears itself (`Chain.heardFor_observer`); the rest is induction on the stages. -/
theorem run_composes [DecidableEq τ] {calls : List (PipelineCall τ)}
    (hwork : calls.filterMap PipelineCall.stage? ≠ [] ∨ PipelineCall.renames calls = true)
    (w : Workspace) (c : ClassTree) :
    let stages := PipelineCall.finalStages calls
    let heard := (Chain.ofStages stages).heardFor w c.events
    let made := (Transducer.passed (Stage.links stages) c.events).foldl ClassTree.absorb .blank
    ((ofCalls calls).run w c = .ok
      { tree := .ok made, workspace := w, log := Chain.overheard heard } ∧
      Chain.heardBy .sink heard = Transducer.passed (Stage.links stages) c.events) ∧
    (PipelineCall.renames calls = true → ∃ r, PipelineCall.lastRenaming? calls = some r ∧
      stages = calls.filterMap PipelineCall.stage? ++ [.link (.rename r)]) ∧
    (∀ calls' : List (PipelineCall τ),
      calls'.filter (!·.isObserver) = calls.filter (!·.isObserver) →
      (calls'.filterMap PipelineCall.stage? ≠ [] ∨ PipelineCall.renames calls' = true) →
      ∃ log, (ofCalls calls').run w c = .ok { tree := .ok made, workspace := w, log }) ∧
    ((Stage.tags stages).Nodup → Chain.InOrder stages c.events heard) ∧
    ∀ before between after tag tag', stages = before ++ (between ++ after) → tag ≠ tag' →
      tag ∉ Stage.tags stages → tag' ∉ Stage.tags stages →
      let watched := (Chain.ofStages
        (before ++ .observer tag :: (between ++ .observer tag' :: after))).heardFor w c.events
      (watched.filter (·.1 ≠ .listener tag)).filter (·.1 ≠ .listener tag') = heard ∧
        Chain.Follows (.listener tag) (.listener tag')
          (Transducer.passed (Stage.links between)) watched := by
  refine ⟨⟨run_ofCalls hwork w c, Chain.heardBy_sink w _ _⟩, fun hrenames => ?_,
    fun calls' hsame hwork' => ?_, fun hdistinct => Chain.inOrder_heardFor w hdistinct _, ?_⟩
  · obtain ⟨r, hlast⟩ := PipelineCall.lastRenaming?_of_renames hrenames
    refine ⟨r, hlast, ?_⟩
    rw [PipelineCall.finalStages, if_pos hrenames, hlast]
    rfl
  · have hlinks : Stage.links (PipelineCall.finalStages calls') =
        Stage.links (PipelineCall.finalStages calls) := by
      rw [← PipelineCall.links_finalStages_filter calls', hsame,
        PipelineCall.links_finalStages_filter]
    rw [run_ofCalls hwork', hlinks]
    exact ⟨_, rfl⟩
  · intro before between after tag tag' hstages hne htag htag'
    rw [hstages] at htag htag' ⊢
    exact Chain.watched_heardFor w hne htag htag' c.events

/-- Renaming is requested before a link is added that doubles events, between two observers. -/
theorem run_composes_of_early_request :
    let doubled : Transducer := { State := Unit, start := (), step := fun _ e => ((), [e, e]) }
    let calls : List (PipelineCall String) := [.useRenaming .identity, .requestRenaming,
      .add (.observer "before"), .add (.link doubled), .add (.observer "after")]
    let stages : List (Stage String) :=
      [.observer "before", .link doubled, .observer "after", .link (.rename .identity)]
    let c : ClassTree := { header := { version := 52, access := 33, name := "a/A" } }
    let heard := (Chain.ofStages stages).heardFor {} c.events
    (∃ made, (ofCalls calls).run {} c =
      .ok { tree := .ok made, workspace := {}, log := Chain.overheard heard }) ∧
      Chain.heardBy (.listener "before") heard = c.events ∧
      Chain.heardBy (.listener "after") heard = doubled.run c.events := by
  intro doubled calls stages c heard
  have hwork : calls.filterMap PipelineCall.stage? ≠ [] ∨ PipelineCall.renames calls = true :=
    .inr rfl
  obtain ⟨⟨hrun, -⟩, -, -, horder, -⟩ := run_composes hwork {} c
  have hhears := (horder (by decide)).observer
  exact ⟨⟨_, hrun⟩, hhears [] "before" _ rfl,
    hhears [.observer "before", .link doubled] "after" _ rfl⟩

end Pipeline

end Reclass
