import Mathlib.Data.List.Basic
import Mathlib.Tactic.Lemma
import Reclass.Trait.Order

set_option relaxedAutoImplicit false
set_option autoImplicit false

/-!
# The order of traits is stable

Sorted traits have falling priorities, and those of one priority stand in the order in which they
were given. Nothing else can be said of them: the two conditions determine the list. So whatever
respects the traits of every priority, as taking some out or adding others at the end does, may be
done before or after sorting.

## Main definitions

* `Reclass.Trait.Falling` — priorities do not rise.
* `Reclass.Trait.atPriority` — the traits of one priority, in their order.
* `Reclass.Trait.AlikeInTies` — two lists hold the same traits at every priority, in the same order.

## Main results

* `Reclass.Trait.atPriority_sort` — sorting keeps the order of traits of one priority.
* `Reclass.Trait.sort_eq_iff` — sorted traits are the only ones that fall and keep this order.
* `Reclass.Trait.sort_filter`, `sort_map` — sorting commutes with selections and with changes that
  leave the targets alone.
-/

namespace Reclass

namespace Trait

variable {α : Type} {ts us : List (Trait α)}

/-! ## Traits of one priority -/

/-- No trait has a higher priority than one before it. -/
def Falling (ts : List (Trait α)) : Prop :=
  ts.Pairwise fun a b => b.target.priority ≤ a.target.priority

/-- The traits of a priority, in their order. -/
def atPriority (p : Int32) (ts : List (Trait α)) : List (Trait α) :=
  ts.filter fun t => t.target.priority = p

/-- The two lists hold the same traits at every priority, in the same order. -/
def AlikeInTies (ts us : List (Trait α)) : Prop := ∀ p, atPriority p ts = atPriority p us

lemma mem_atPriority {p : Int32} {t : Trait α} :
    t ∈ atPriority p ts ↔ t ∈ ts ∧ t.target.priority = p := by
  simp [atPriority]

/-- Among traits of one priority each may stay in front of each. -/
lemma pairwise_atPriority (p : Int32) (ts : List (Trait α)) :
    (atPriority p ts).Pairwise fun a b => runsBefore a b = true := by
  refine List.pairwise_of_forall_mem_list fun a ha b hb => runsBefore_iff.2 ?_
  rw [(mem_atPriority.1 ha).2, (mem_atPriority.1 hb).2]
  exact Int32.le_refl p

/-- **Sorting keeps the order of the traits of one priority.**

**Proof sketch.** They are sorted already, so they are a part of the sorted list
(`List.sublist_mergeSort`). They are all of its traits of that priority, because sorting adds
none. -/
theorem atPriority_sort (p : Int32) (ts : List (Trait α)) :
    atPriority p (sort ts) = atPriority p ts := by
  have hpart : (atPriority p ts).Sublist (sort ts) :=
    List.sublist_mergeSort runsBefore_trans runsBefore_total (pairwise_atPriority p ts)
      List.filter_sublist
  have hties : (atPriority p ts).Sublist (atPriority p (sort ts)) := by
    have hfilter := hpart.filter fun t => decide (t.target.priority = p)
    simpa only [atPriority, List.filter_filter, Bool.and_self] using hfilter
  exact (hties.eq_of_length ((sort_perm ts).filter _).length_eq.symm).symm

/-! ## What determines the order -/

/-- Two lists that are alike in ties both hold a trait, or neither does. -/
lemma AlikeInTies.mem (h : AlikeInTies ts us) {t : Trait α} (ht : t ∈ ts) : t ∈ us := by
  have hmem := mem_atPriority.2 ⟨ht, rfl⟩
  rw [h] at hmem
  exact (mem_atPriority.1 hmem).1

lemma AlikeInTies.symm (h : AlikeInTies ts us) : AlikeInTies us ts := fun p => (h p).symm

/-- Falling priorities and the order at every priority determine the list. -/
lemma AlikeInTies.eq_of_falling (h : AlikeInTies ts us) (hts : Falling ts) (hus : Falling us) :
    ts = us := by
  induction ts generalizing us with
  | nil =>
    cases us with
    | nil => rfl
    | cons u us => exact absurd (h.symm.mem List.mem_cons_self) List.not_mem_nil
  | cons t ts ih =>
    cases us with
    | nil => exact absurd (h.mem List.mem_cons_self) List.not_mem_nil
    | cons u us =>
      obtain ⟨hfirst, hrest⟩ := List.pairwise_cons.1 hts
      obtain ⟨hfirst', hrest'⟩ := List.pairwise_cons.1 hus
      -- Each of the two first traits occurs in the other list, so neither is above the other.
      have hle : u.target.priority ≤ t.target.priority := by
        rcases List.mem_cons.1 (h.symm.mem List.mem_cons_self) with rfl | hu
        · exact Int32.le_refl _
        · exact hfirst u hu
      have hge : t.target.priority ≤ u.target.priority := by
        rcases List.mem_cons.1 (h.mem List.mem_cons_self) with rfl | ht
        · exact Int32.le_refl _
        · exact hfirst' t ht
      have hpriority : u.target.priority = t.target.priority := Int32.le_antisymm hle hge
      have hties : ∀ p, atPriority p (t :: ts) = atPriority p (u :: us) := h
      have hat := hties t.target.priority
      rw [atPriority, atPriority, List.filter_cons_of_pos (by simp),
        List.filter_cons_of_pos (by simpa using hpriority)] at hat
      obtain ⟨rfl, -⟩ := List.cons.inj hat
      refine congrArg (t :: ·) (ih (fun p => ?_) hrest hrest')
      have htail := hties p
      simp only [atPriority, List.filter_cons] at htail ⊢
      split at htail
      · exact (List.cons.inj htail).2
      · exact htail

/-- Sorted traits have falling priorities. -/
lemma falling_sort (ts : List (Trait α)) : Falling (sort ts) := pairwise_sort ts

/-- Sorting leaves ties alone. -/
lemma alikeInTies_sort (ts : List (Trait α)) : AlikeInTies (sort ts) ts :=
  fun p => atPriority_sort p ts

/-- **Sorted traits are the only ones that have falling priorities and keep the order of ties.** -/
theorem sort_eq_iff : sort ts = us ↔ Falling us ∧ AlikeInTies us ts := by
  constructor
  · rintro rfl
    exact ⟨falling_sort ts, alikeInTies_sort ts⟩
  · rintro ⟨hfalling, hties⟩
    have hboth : AlikeInTies (sort ts) us := fun p => (atPriority_sort p ts).trans (hties p).symm
    exact hboth.eq_of_falling (falling_sort ts) hfalling

/-- Lists that are alike in ties are sorted alike. -/
lemma AlikeInTies.sort_eq (h : AlikeInTies ts us) : sort ts = sort us :=
  sort_eq_iff.2 ⟨falling_sort us, fun p => (atPriority_sort p us).trans (h p).symm⟩

/-- Lists that are alike in ties are permutations of each other. -/
lemma AlikeInTies.perm (h : AlikeInTies ts us) : ts.Perm us := by
  have hsorted := sort_perm us
  rw [← h.sort_eq] at hsorted
  exact (sort_perm ts).symm.trans hsorted

/-! ## What respects ties -/

/-- Traits may be added at the end. -/
lemma AlikeInTies.append_right (h : AlikeInTies ts us) (others : List (Trait α)) :
    AlikeInTies (ts ++ others) (us ++ others) := by
  intro p
  have hties := h p
  unfold atPriority at hties ⊢
  rw [List.filter_append, List.filter_append, hties]

/-- Traits may be selected. -/
lemma AlikeInTies.filter (h : AlikeInTies ts us) (q : Trait α → Bool) :
    AlikeInTies (ts.filter q) (us.filter q) := by
  intro p
  have hties := congrArg (List.filter q) (h p)
  unfold atPriority at hties ⊢
  rwa [List.filter_comm, List.filter_comm (l := us)] at hties

/-- Traits may be changed if they keep their targets. -/
lemma AlikeInTies.map {g : Trait α → Trait α} (hg : ∀ t, (g t).target = t.target)
    (h : AlikeInTies ts us) : AlikeInTies (ts.map g) (us.map g) := by
  have hmap : ∀ (p : Int32) (l : List (Trait α)),
      atPriority p (l.map g) = (atPriority p l).map g := by
    intro p l
    simp only [atPriority, List.filter_map, Function.comp_def, hg]
  intro p
  rw [hmap, hmap, h]

/-- Traits of pairwise different priorities may be reordered. -/
lemma AlikeInTies.of_perm (hperm : ts.Perm us)
    (hdistinct : (us.map fun t => t.target.priority).Nodup) : AlikeInTies ts us := by
  have hpairs : us.Pairwise fun a b => a.target.priority ≠ b.target.priority :=
    List.pairwise_map.1 hdistinct
  have hpairs' : ts.Pairwise fun a b => a.target.priority ≠ b.target.priority :=
    hpairs.perm hperm.symm fun hne => hne.symm
  intro p
  refine List.Perm.eq_of_pairwise (fun a b ha hb hne _ => ?_) (hpairs'.filter _) (hpairs.filter _)
    (hperm.filter _)
  exact absurd ((mem_atPriority.1 ha).2.trans (mem_atPriority.1 hb).2.symm) hne

/-- **Traits may be selected before or after sorting.** -/
theorem sort_filter (q : Trait α → Bool) (ts : List (Trait α)) :
    sort (ts.filter q) = (sort ts).filter q :=
  sort_eq_iff.2 ⟨(falling_sort ts).filter q, (alikeInTies_sort ts).filter q⟩

/-- Traits may be changed before or after sorting if they keep their targets. -/
theorem sort_map {g : Trait α → Trait α} (hg : ∀ t, (g t).target = t.target)
    (ts : List (Trait α)) : sort (ts.map g) = (sort ts).map g := by
  refine sort_eq_iff.2 ⟨List.pairwise_map.2 ?_, (alikeInTies_sort ts).map hg⟩
  simp only [hg]
  exact falling_sort ts

end Trait

/-! ## Sorted when put together -/

namespace SortedTraits

variable {α : Type} {ts us : List (Trait α)}

/-- There are no traits to read exactly if none were put together. -/
lemma read_ofList_eq_none_iff : (ofList ts).read = none ↔ ts = [] := by
  have hempty : Trait.sort ts = [] ↔ ts = [] := by
    rw [← List.length_eq_zero_iff, (Trait.sort_perm ts).length_eq, List.length_eq_zero_iff]
  simp [read, ofList, Trait.orNone, hempty]

/-- What is read of traits that were put together: they fall and keep the order of ties. -/
lemma read_ofList_eq_some_iff : (ofList ts).read = some us ↔
    us ≠ [] ∧ us.Perm ts ∧ Trait.Falling us ∧ Trait.AlikeInTies us ts := by
  have hsort : (ofList ts).read = some us ↔ Trait.sort ts = us ∧ us ≠ [] := by
    simp only [read, ofList, Trait.orNone, Option.ite_none_left_eq_some, List.isEmpty_iff,
      Option.some.injEq]
    constructor
    · rintro ⟨hne, rfl⟩
      exact ⟨rfl, hne⟩
    · rintro ⟨rfl, hne⟩
      exact ⟨hne, rfl⟩
  rw [hsort, Trait.sort_eq_iff]
  constructor
  · rintro ⟨⟨hfalling, hties⟩, hne⟩
    exact ⟨hne, hties.perm, hfalling, hties⟩
  · rintro ⟨hne, -, hfalling, hties⟩
    exact ⟨⟨hfalling, hties⟩, hne⟩

end SortedTraits

end Reclass
