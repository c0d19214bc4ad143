set_option autoImplicit false

/-!
# Cutting text at a delimiter

Descriptors and signatures end their names at the first of a few delimiters. One function does
this for all of them.

## Main definitions

* `Reclass.Text.upTo?` — the part of a text before its first delimiter, and the rest from it.
* `Reclass.Text.afterLast` — the part of a text after its last delimiter.

## Main results

* `Reclass.Text.upTo?_eq_some_iff` — the only way in which a cut succeeds.
* `Reclass.Text.afterLast_eq_iff` — what follows the last delimiter.
* `Reclass.Text.afterLast_append_of_mem`, `afterLast_append_of_free` — in a text made of two parts.
-/

namespace Reclass.Text

/-- The characters before the first delimiter, and the rest beginning with that delimiter;
nothing when there is no delimiter. -/
def upTo? (stop : Char → Bool) : List Char → Option (List Char × List Char)
  | [] => none
  | c :: rest =>
    if stop c then some ([], c :: rest)
    else (upTo? stop rest).map fun (before, after) => (c :: before, after)

/-- A cut loses nothing, its first part is free of delimiters and its second starts with one. -/
theorem upTo?_eq_some_iff {stop : Char → Bool} {cs before after : List Char} :
    upTo? stop cs = some (before, after) ↔
      cs = before ++ after ∧ (∀ c ∈ before, stop c = false) ∧
        ∃ d rest, after = d :: rest ∧ stop d = true := by
  induction cs generalizing before after with
  | nil =>
    constructor
    · intro h
      simp [upTo?] at h
    · rintro ⟨h, -, d, rest, rfl, -⟩
      simp at h
  | cons c cs ih =>
    cases hc : stop c with
    | true =>
      simp only [upTo?, hc, if_true, Option.some.injEq, Prod.mk.injEq]
      constructor
      · rintro ⟨rfl, rfl⟩
        exact ⟨rfl, by simp, c, cs, rfl, hc⟩
      · rintro ⟨h, hb, d, rest, rfl, hd⟩
        cases before with
        | nil => exact ⟨rfl, h⟩
        | cons b bs =>
          have hbc : c = b := (List.cons.inj h).1
          have : stop c = false := hb c (hbc ▸ List.mem_cons_self)
          simp [hc] at this
    | false =>
      simp only [upTo?, hc, Bool.false_eq_true, if_false, Option.map_eq_some_iff]
      constructor
      · rintro ⟨⟨b, a⟩, h, heq⟩
        obtain ⟨rfl, rfl⟩ : c :: b = before ∧ a = after := by simpa using heq
        obtain ⟨rfl, hb, hd⟩ := ih.1 h
        refine ⟨rfl, ?_, hd⟩
        intro x hx
        rcases List.mem_cons.1 hx with rfl | hx
        · exact hc
        · exact hb x hx
      · rintro ⟨h, hb, d, rest, rfl, hd⟩
        cases before with
        | nil =>
          have : c = d := (List.cons.inj h).1
          simp [this, hd] at hc
        | cons b bs =>
          obtain ⟨rfl, hcs⟩ := List.cons.inj h
          exact ⟨(bs, d :: rest),
            ih.2 ⟨hcs, fun x hx => hb x (List.mem_cons_of_mem _ hx), d, rest, rfl, hd⟩, rfl⟩

/-- A cut fails exactly when no character is a delimiter. -/
theorem upTo?_eq_none_iff {stop : Char → Bool} {cs : List Char} :
    upTo? stop cs = none ↔ ∀ c ∈ cs, stop c = false := by
  induction cs with
  | nil => simp [upTo?]
  | cons c cs ih => cases hc : stop c <;> simp [upTo?, hc, ih]

/-- The characters after the last delimiter, or the whole text when there is none. -/
def afterLast (stop : Char → Bool) (cs : List Char) : List Char :=
  (cs.reverse.takeWhile fun c => !stop c).reverse

/-- What follows the last delimiter holds none. -/
theorem stop_eq_false_of_mem_afterLast {stop : Char → Bool} {cs : List Char} {c : Char}
    (h : c ∈ afterLast stop cs) : stop c = false := by
  have hall := List.all_takeWhile (p := fun c => !stop c) (l := cs.reverse)
  simpa using List.all_eq_true.1 hall c (List.mem_reverse.1 h)

/-- What follows the last delimiter ends the text. -/
theorem afterLast_suffix (stop : Char → Bool) (cs : List Char) : afterLast stop cs <:+ cs := by
  have h := List.takeWhile_prefix (p := fun c => !stop c) (l := cs.reverse)
  simpa [afterLast] using List.reverse_suffix.2 h

/-- What follows the last delimiter holds none, and what stands before it ends with one or is
empty. -/
theorem afterLast_eq_iff {stop : Char → Bool} {cs simple : List Char} :
    afterLast stop cs = simple ↔
      ∃ front, cs = front ++ simple ∧ (∀ c ∈ simple, stop c = false) ∧
        ∀ d ∈ front.getLast?, stop d = true := by
  constructor
  · rintro rfl
    refine ⟨(cs.reverse.dropWhile fun c => !stop c).reverse, ?_,
      fun c hc => stop_eq_false_of_mem_afterLast hc, fun d hd => ?_⟩
    · have hsplit := List.takeWhile_append_dropWhile (p := fun c => !stop c) (l := cs.reverse)
      have hreverse := congrArg List.reverse hsplit
      rw [List.reverse_append, List.reverse_reverse] at hreverse
      exact hreverse.symm
    · have hhead := List.head?_dropWhile_not (fun c => !stop c) cs.reverse
      rw [List.getLast?_reverse] at hd
      rw [Option.mem_def.1 hd] at hhead
      simpa using hhead
  · rintro ⟨front, rfl, hfree, hlast⟩
    have hall : ∀ c ∈ simple.reverse, (!stop c) = true := by
      intro c hc
      simp [hfree c (List.mem_reverse.1 hc)]
    rw [afterLast, List.reverse_append, List.takeWhile_append_of_pos hall]
    cases hfront : front.reverse with
    | nil => simp
    | cons d rest =>
      have hd : stop d = true := by
        refine hlast d ?_
        rw [← List.reverse_reverse front, List.getLast?_reverse, hfront]
        rfl
      simp [hd]

/-- A delimiter behind it hides what stands in front. -/
theorem afterLast_append_of_mem {stop : Char → Bool} {front cs : List Char}
    (hmem : ∃ c ∈ cs, stop c = true) : afterLast stop (front ++ cs) = afterLast stop cs := by
  obtain ⟨before, hsplit, hfree, hlast⟩ :=
    afterLast_eq_iff.1 (rfl : afterLast stop cs = afterLast stop cs)
  have hne : before ≠ [] := by
    rintro rfl
    obtain ⟨c, hc, hstop⟩ := hmem
    rw [List.nil_append] at hsplit
    rw [hfree c (hsplit ▸ hc)] at hstop
    exact Bool.false_ne_true hstop
  refine afterLast_eq_iff.2 ⟨front ++ before, ?_, hfree, fun d hd => hlast d ?_⟩
  · rw [List.append_assoc, ← hsplit]
  · rwa [List.getLast?_append, Option.or_of_isSome (by simpa using hne)] at hd

/-- Text without delimiters prolongs what follows the last one. -/
theorem afterLast_append_of_free {stop : Char → Bool} {front cs : List Char}
    (hfree : ∀ c ∈ cs, stop c = false) :
    afterLast stop (front ++ cs) = afterLast stop front ++ cs := by
  obtain ⟨before, hsplit, hfree', hlast⟩ :=
    afterLast_eq_iff.1 (rfl : afterLast stop front = afterLast stop front)
  refine afterLast_eq_iff.2 ⟨before, ?_, fun c hc => ?_, hlast⟩
  · rw [← List.append_assoc, ← hsplit]
  · rcases List.mem_append.1 hc with hc | hc
    · exact hfree' c hc
    · exact hfree c hc

end Reclass.Text
