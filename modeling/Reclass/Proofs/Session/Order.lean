import Reclass.Proofs.Map.Insertion
import Reclass.Proofs.Session.Batch
import Reclass.Proofs.Session.SideBySide

set_option relaxedAutoImplicit false
set_option autoImplicit false

/-!
# Batches in any order

The classes of a batch share the access requests and the hierarchy. If their names are distinct then
it still does not matter in which order they come, nor in which order they get at what they share
when they are on their way side by side.

## Main results

* `Reclass.Session.recordBatch_perm` — classes may be recorded in any order.
* `Reclass.Session.transformBatch_order_free` — neither the order of a batch nor a schedule counts.
-/

namespace Reclass

/-! ## Batches in another order -/

namespace Session

variable (s : Session) {classes permuted : List ClassTree}

/-- It does not matter in which order a batch of classes with names is recorded. -/
lemma recordBatch_perm (hperm : permuted.Perm classes) (hname : ∀ c ∈ classes, c.name ≠ "")
    (hdistinct : (classes.map ClassTree.name).Nodup) :
    s.recordBatch permuted = s.recordBatch classes := by
  have hname' : ∀ c ∈ permuted, c.name ≠ "" := fun c hc => hname c (hperm.mem_iff.1 hc)
  unfold recordBatch
  rw [Hierarchy.addClasses_eq _ hname', Hierarchy.addClasses_eq _ hname,
    foldl_insert_perm ClassTree.name (HierarchyNode.ofClass _) hperm hdistinct]

/-- Whatever the order of a batch, its classes find the session in the same state. -/
lemma prepared_perm (hperm : permuted.Perm classes) (hname : ∀ c ∈ classes, c.name ≠ "")
    (hdistinct : (classes.map ClassTree.name).Nodup) :
    s.prepared permuted = s.prepared classes := by
  rw [prepared, s.recordBatch_perm hperm hname hdistinct, prepared]

/-- Recording classes that have names does not end a batch, side by side either. -/
lemma transformBatchBeside_eq_transformBeside (hname : ∀ c ∈ classes, c.name ≠ "")
    (schedule : List Nat) : s.transformBatchBeside schedule classes =
      (s.prepared classes).transformBeside schedule classes := by
  unfold transformBatchBeside prepared
  split
  · unfold recordBatch
    rw [Hierarchy.addClasses_eq _ hname]
  · rfl

/-- What becomes of a batch of classes with distinct names. -/
lemma transformBatch_eq (hname : ∀ c ∈ classes, c.name ≠ "")
    (hdistinct : (classes.map ClassTree.name).Nodup) :
    s.transformBatch classes =
      ⟨.ok (classes.map fun c => .ok ((s.prepared classes).transformed c)),
        (s.prepared classes).afterTransforms (classes.map ClassTree.name)⟩ := by
  rw [s.transformBatch_eq_transformEach fun _ => hname, transformEach_eq hname hdistinct,
    foldl_afterTransform]

/-- **A batch of classes with distinct names does not depend on order.**

1. Every permutation of the batch gives its classes the same results, in its own order, and leaves
   the same session: the same access requests and closed classes, and the same hierarchy.
2. Side by side a class takes its record in its first turn, and no other turn changes anything.
3. If every class gets its turns then the reply is that of the batch one class after the other. If
   there is a reply at all then it is this one.

**Proof sketch.** Classes with distinct names are recorded in any order
(`foldl_insert_perm`), and transforming one of them takes its own record only
(`transformEach_eq`). Side by side they move as if they were alone (`Traffic.run_ofClasses`). -/
theorem transformBatch_order_free (hname : ∀ c ∈ classes, c.name ≠ "")
    (hdistinct : (classes.map ClassTree.name).Nodup) :
    (∀ permuted : List ClassTree, permuted.Perm classes → s.transformBatch permuted =
      ⟨.ok (permuted.map fun c => .ok ((s.prepared classes).transformed c)),
        (s.transformBatch classes).session⟩) ∧
    (∀ schedule i c, classes[i]? = some c →
      let traffic := (Traffic.ofClasses (Chain.ofParts (s.prepared classes).parts .sink)
        (s.prepared classes).workspace classes).run schedule
      (traffic.turn i).workspace = if i ∈ schedule then traffic.workspace
        else traffic.workspace.afterTakes s.settings.applyAccess [c.name]) ∧
    (∀ schedule, Traffic.Suffices schedule classes →
      s.transformBatchBeside schedule classes = some (s.transformBatch classes)) ∧
    ∀ schedule reply, s.transformBatchBeside schedule classes = some reply →
      reply = s.transformBatch classes := by
  refine ⟨fun permuted hperm => ?_, fun schedule i c hc => ?_, fun schedule hlong => ?_,
    fun schedule reply hreply => ?_⟩
  · have hname' : ∀ c ∈ permuted, c.name ≠ "" := fun c hc => hname c (hperm.mem_iff.1 hc)
    have hdistinct' := (hperm.map ClassTree.name).nodup_iff.2 hdistinct
    rw [s.transformBatch_eq hname' hdistinct', s.transformBatch_eq hname hdistinct,
      s.prepared_perm hperm hname hdistinct]
    refine congrArg (Reply.mk _) (afterTransforms_congr _ fun name => ?_)
    exact (hperm.map ClassTree.name).mem_iff
  · have htakes := (s.prepared classes).takesRecord_parts
    have hrun := Traffic.run_ofClasses htakes hname hdistinct (s.prepared classes).workspace
    have hturn := Traffic.turn_apart htakes hname hdistinct (s.prepared classes).workspace
    dsimp only
    rw [hrun, hturn, ← s.settings_prepared classes]
    exact Traffic.afterTakes_namesOf_append hdistinct hc _ schedule
  · rw [s.transformBatchBeside_eq_transformBeside hname,
      s.transformBatch_eq_transformEach fun _ => hname]
    exact (transformBeside_eq_some_iff _ hname hdistinct).2 ⟨.inr hlong, rfl⟩
  · rw [s.transformBatchBeside_eq_transformBeside hname] at hreply
    rw [s.transformBatch_eq_transformEach fun _ => hname]
    exact ((transformBeside_eq_some_iff _ hname hdistinct).1 hreply).2

/-- A class and its superclass, for which access was requested, in a session that collects the
hierarchy: the other way round, and side by side. -/
theorem transformBatch_order_free_of_subclass :
    let s : Session := {
      settings := { flattenHierarchy := true }
      workspace := { access := ({} : AccessLedger).set "a/A" (.pending (.ofClass {})) } }
    let a : ClassTree := { header := { version := 52, access := 33, name := "a/A" } }
    let b : ClassTree :=
      { header := { version := 52, access := 33, name := "a/B", superName := some "a/A" } }
    s.transformBatch [b, a] =
        ⟨.ok [.ok ((s.prepared [a, b]).transformed b), .ok ((s.prepared [a, b]).transformed a)],
          (s.transformBatch [a, b]).session⟩ ∧
      s.transformBatchBeside [1, 0, 0, 1] [a, b] = some (s.transformBatch [a, b]) := by
  intro s a b
  have hname : ∀ c ∈ [a, b], c.name ≠ "" := by decide
  have hdistinct : ([a, b].map ClassTree.name).Nodup := by decide
  obtain ⟨hperm, -, hbeside, -⟩ := s.transformBatch_order_free hname hdistinct
  have hturns : Traffic.Suffices [1, 0, 0, 1] [a, b] := by
    intro i c hc
    rcases i with _ | _ | i
    · obtain rfl : a = c := Option.some.inj hc
      decide
    · obtain rfl : b = c := Option.some.inj hc
      decide
    · exact absurd hc (by simp)
  exact ⟨hperm [b, a] (List.Perm.swap a b []), hbeside _ hturns⟩

end Session

end Reclass
