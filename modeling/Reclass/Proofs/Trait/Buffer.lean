import Mathlib.Data.List.Induction
import Mathlib.Data.List.DropRight
import Reclass.Proofs.Trait.Stability

set_option relaxedAutoImplicit false
set_option autoImplicit false

/-!
# Traits sorted late and at once

A buffer of traits sorts what it holds when it is read, in place, and only if something was added
since it was last sorted. Later traits are added behind traits that are sorted already. None of this
can be seen: whatever calls were made, a read gives what it would give if the traits added since the
buffer was last cleared had been put together now, in the order in which they were added.

## Main definitions

* `Reclass.TraitBuffer.Call`, `answers` — a run of calls on a buffer, and what they answer.
* `Reclass.TraitBuffer.added` — the traits added since the buffer was last cleared.
* `Reclass.TraitBuffer.Holds` — what a buffer holds, apart from how far it is sorted.

## Main results

* `Reclass.TraitBuffer.Holds.perform` — a call answers what it would if all were sorted at once, and
  the buffer holds what was added.
* `Reclass.TraitBuffer.sorted_late_as_at_once` — so does every call of a run.
-/

namespace Reclass.TraitBuffer

variable {α : Type}

/-! ## Calls -/

/-- A call on a buffer of traits. -/
inductive Call (α : Type) where
  | add (t : Trait α)
  | addAll (ts : List (Trait α))
  | clear
  | size
  | read

/-- What a call answers. -/
inductive Answer (α : Type) where
  | done
  | size (n : Nat)
  | traits (ts : Option (List (Trait α)))

/-- What a call answers, and the buffer after it. -/
def perform (b : TraitBuffer α) : Call α → Answer α × TraitBuffer α
  | .add t => (.done, b.add t)
  | .addAll ts => (.done, b.addAll ts)
  | .clear => (.done, b.clear)
  | .size => (.size b.size, b)
  | .read => (.traits b.read.1, b.read.2)

/-- What calls answer that are made one after the other. -/
def answers (b : TraitBuffer α) : List (Call α) → List (Answer α)
  | [] => []
  | c :: cs => (b.perform c).1 :: (b.perform c).2.answers cs

/-- The buffer after some calls. -/
def after (b : TraitBuffer α) (calls : List (Call α)) : TraitBuffer α :=
  calls.foldl (fun b c => (b.perform c).2) b

/-! ## What was added -/

/-- True of the call that takes all traits away. -/
def Call.isClear : Call α → Bool
  | .clear => true
  | _ => false

/-- The traits that a call adds. -/
def Call.adds : Call α → List (Trait α)
  | .add t => [t]
  | .addAll ts => ts
  | _ => []

/-- True of the calls that add traits or take them away, and not of those that only look. -/
def Call.isChange : Call α → Bool
  | .size | .read => false
  | _ => true

/-- The traits added since the buffer was last cleared, in the order in which they were added. -/
def added (calls : List (Call α)) : List (Trait α) :=
  (calls.rtakeWhile fun c => !c.isClear).flatMap Call.adds

/-- The last call adds its traits at the end, or takes all away. -/
lemma added_append_singleton (calls : List (Call α)) (c : Call α) :
    added (calls ++ [c]) = if c.isClear then [] else added calls ++ c.adds := by
  rw [added, List.rtakeWhile_concat]
  cases c.isClear with
  | true => rfl
  | false =>
    rw [if_pos (by rfl), if_neg Bool.false_ne_true, List.flatMap_append, List.flatMap_singleton]
    rfl

/-- A call that only looks adds nothing and takes nothing away. -/
lemma added_append_look (calls : List (Call α)) {c : Call α} (h : c.isChange = false) :
    added (calls ++ [c]) = added calls := by
  rw [added_append_singleton]
  cases c with
  | add | addAll | clear => exact absurd h.symm Bool.false_ne_true
  | size | read => exact List.append_nil _

/-- What was added is determined by the calls that do not only look. -/
lemma added_filter_isChange (calls : List (Call α)) :
    added (calls.filter Call.isChange) = added calls := by
  induction calls using List.reverseRecOn with
  | nil => rfl
  | append_singleton calls c ih =>
    rw [List.filter_append]
    cases hchange : c.isChange with
    | true =>
      rw [List.filter_cons_of_pos hchange, List.filter_nil, added_append_singleton,
        added_append_singleton, ih]
    | false =>
      rw [List.filter_cons_of_neg (by simp [hchange]), List.filter_nil, List.append_nil, ih,
        added_append_look calls hchange]

/-! ## Sorted at once -/

/-- What a call answers if the traits held are sorted at once when they are read. -/
def Call.answerAtOnce (ts : List (Trait α)) : Call α → Answer α
  | .size => .size ts.length
  | .read => .traits (SortedTraits.ofList ts).read
  | _ => .done

/-- The buffer holds these traits, in this order at every priority. If it says so then it is
sorted. -/
structure Holds (b : TraitBuffer α) (ts : List (Trait α)) : Prop where
  alike : Trait.AlikeInTies b.traits ts
  falling : b.isSorted = true → Trait.Falling b.traits

/-- Before any call the buffer is empty, and sorted. -/
lemma holds_empty : Holds {} (added ([] : List (Call α))) :=
  ⟨fun _ => rfl, fun _ => List.Pairwise.nil⟩

namespace Holds

variable {b : TraitBuffer α} {ts : List (Trait α)}

/-- Traits are added behind those that are there, sorted or not. -/
lemma addAll (h : b.Holds ts) (us : List (Trait α)) : (b.addAll us).Holds (ts ++ us) :=
  ⟨h.alike.append_right us, fun hsorted => absurd hsorted Bool.false_ne_true⟩

/-- What a read works on is sorted afterwards. -/
lemma sorted_eq (h : b.Holds ts) :
    (if b.isSorted then b.traits else Trait.sort b.traits) = Trait.sort ts := by
  rw [← h.alike.sort_eq]
  split
  · next hsorted => exact (Trait.sort_eq_iff.2 ⟨h.falling hsorted, fun _ => rfl⟩).symm
  · rfl

/-- A read gives the traits that are held, sorted. -/
lemma read_fst (h : b.Holds ts) : b.read.1 = (SortedTraits.ofList ts).read :=
  congrArg Trait.orNone h.sorted_eq

/-- A read leaves the traits that are held, sorted. -/
lemma read_snd (h : b.Holds ts) : b.read.2.Holds ts := by
  have hread : b.read.2 = ⟨Trait.sort ts, true⟩ :=
    congrArg (TraitBuffer.mk · true) h.sorted_eq
  rw [hread]
  exact ⟨Trait.alikeInTies_sort ts, fun _ => Trait.falling_sort ts⟩

/-- **A call answers as if all were sorted at once.** Afterwards the buffer holds what has been
added. -/
theorem perform {past : List (Call α)} (h : b.Holds (added past)) (c : Call α) :
    (b.perform c).1 = c.answerAtOnce (added past) ∧
      (b.perform c).2.Holds (added (past ++ [c])) := by
  cases c with
  | add t =>
    rw [added_append_singleton]
    exact ⟨rfl, h.addAll [t]⟩
  | addAll us =>
    rw [added_append_singleton]
    exact ⟨rfl, h.addAll us⟩
  | clear =>
    rw [added_append_singleton]
    exact ⟨rfl, holds_empty⟩
  | size =>
    rw [added_append_look past rfl]
    exact ⟨congrArg Answer.size h.alike.perm.length_eq, h⟩
  | read =>
    rw [added_append_look past rfl]
    exact ⟨congrArg Answer.traits h.read_fst, h.read_snd⟩

/-- The buffer holds what was added in a run. -/
lemma after {past : List (Call α)} (h : b.Holds (added past)) (calls : List (Call α)) :
    (b.after calls).Holds (added (past ++ calls)) := by
  induction calls generalizing b past with
  | nil => simpa [TraitBuffer.after] using h
  | cons c calls ih =>
    rw [List.append_cons]
    exact ih (h.perform c).2

/-- Every call of a run answers as if all were sorted at once. -/
lemma answers {past : List (Call α)} (h : b.Holds (added past)) (calls : List (Call α)) :
    b.answers calls = calls.mapIdx fun i c => c.answerAtOnce (added (past ++ calls.take i)) := by
  induction calls generalizing b past with
  | nil => rfl
  | cons c calls ih =>
    obtain ⟨hanswer, hholds⟩ := h.perform c
    rw [TraitBuffer.answers, List.mapIdx_cons, ih hholds, hanswer, List.take_zero, List.append_nil]
    simp only [List.take_succ_cons, List.append_assoc, List.singleton_append]

end Holds

/-! ## Runs -/

/-- What can be said of a run of calls on a buffer that is empty at first. -/
structure AsIfSortedAtOnce (calls : List (Call α)) : Prop where
  /-- Every call answers what it would if the traits added so far were put together now. -/
  answers_eq : answers {} calls =
    calls.mapIdx fun i c => c.answerAtOnce (added (calls.take i))
  /-- A read gives nothing exactly if nothing was added since the buffer was last cleared. -/
  read_none_iff : ∀ i : Nat, calls[i]? = some .read →
    ((answers {} calls)[i]? = some (.traits none) ↔ added (calls.take i) = [])
  /-- Else it gives a permutation of what was added, by falling priorities, and at every priority in
  the order of addition; and no other list is one like this. -/
  read_some_iff : ∀ (i : Nat) (ts : List (Trait α)), calls[i]? = some .read →
    ((answers {} calls)[i]? = some (.traits (some ts)) ↔
      ts ≠ [] ∧ ts.Perm (added (calls.take i)) ∧
        (ts.Pairwise fun a b => b.target.priority ≤ a.target.priority) ∧
        ∀ p, ts.filter (fun t => t.target.priority = p) =
          (added (calls.take i)).filter fun t => t.target.priority = p)
  /-- Calls that only look change no later answer. -/
  looks_unseen : ∀ others later : List (Call α),
    others.filter Call.isChange = calls.filter Call.isChange →
      (after {} others).answers later = (after {} calls).answers later

/-- **Sorting late is sorting at once.**

**Proof sketch.** By induction on the run the buffer holds what was added since it was last cleared,
in the order of addition at every priority (`Holds.perform`). Falling priorities and this order
determine what a read gives (`Trait.sort_eq_iff`), so that it does not matter how often the traits
were sorted before. -/
theorem sorted_late_as_at_once (calls : List (Call α)) : AsIfSortedAtOnce calls := by
  have hanswers : ∀ i : Nat, calls[i]? = some .read → (answers {} calls)[i]? =
      some (.traits (SortedTraits.ofList (added (calls.take i))).read) := by
    intro i hi
    rw [holds_empty.answers calls, List.getElem?_mapIdx, hi]
    rfl
  exact {
    answers_eq := holds_empty.answers calls
    read_none_iff := fun i hi => by
      rw [hanswers i hi, Option.some.injEq, Answer.traits.injEq]
      exact SortedTraits.read_ofList_eq_none_iff
    read_some_iff := fun i ts hi => by
      rw [hanswers i hi, Option.some.injEq, Answer.traits.injEq]
      exact SortedTraits.read_ofList_eq_some_iff
    looks_unseen := fun others later h => by
      have hadded : ∀ calls' : List (Call α),
          added (others ++ calls') = added (calls ++ calls') := by
        intro calls'
        rw [← added_filter_isChange, List.filter_append, h, ← List.filter_append,
          added_filter_isChange]
      rw [(holds_empty.after others).answers,
        (holds_empty.after calls).answers]
      simp only [List.nil_append, hadded] }

end Reclass.TraitBuffer
