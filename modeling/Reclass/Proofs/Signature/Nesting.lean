import Reclass.Proofs.Signature.Spelling

set_option relaxedAutoImplicit false
set_option autoImplicit false

/-!
# Nested segments and the name of the class

A signature writes a nested class segment by segment, and everywhere else it stands under its binary
name, which is the segments with `$` between them. A renaming that keeps nested classes nested gives
a nested class the new name of its outer class with one segment more, and one should expect this
segment in the signature. What is written there is found without looking at the outer class: the
segment as it was, if the class keeps its binary name, and else what follows the last `$` or `/`.
So the new segment is written if it is the old one where the name is kept, and has no `$` and no `/`
where it is not.

## Main definitions

* `Reclass.TypeSig.segments` — the segments of a class type.
* `Reclass.NestedAs` — a nested class stays nested, under a new segment.
* `Reclass.ShownAs` — the new segment is the one that a signature writes.

## Main results

* `Reclass.Signature.segments_spell_class_name` — the written segments spell the new name.
* `Reclass.Signature.segments_misspell_class_name` — a `$` in a segment breaks this.
-/

namespace Reclass

open Signature (Identifier endsSegment)

/-! ## Segments -/

/-- The nested segments behind the first one. -/
def ClassTail.segments : ClassTail → List String
  | .done => []
  | .segment name rest => name :: rest.segments
  | .arguments _ rest => rest.segments

/-- The segments of a class type. Other types have none. -/
def TypeSig.segments : TypeSig → List String
  | .object head tail => head :: tail.segments
  | _ => []

/-- The binary name that segments spell. -/
def binaryName (segments : List String) : String := "$".intercalate segments

/-- Every segment more stands behind a `$`. -/
lemma binaryName_append_singleton {segments : List String} (hne : segments ≠ []) (name : String) :
    binaryName (segments ++ [name]) = binaryName segments ++ "$" ++ name := by
  rw [binaryName, String.intercalate_append_of_ne_nil hne (List.cons_ne_nil _ _),
    String.intercalate_singleton, binaryName]

/-! ## New segments -/

/-- The new name of the class `name` nested in `outer` is the new name of `outer` with the segment
`new` behind it. -/
structure NestedAs (f : String → String) (outer name new : String) : Prop where
  identifier : Identifier endsSegment new
  image_eq : f (outer ++ "$" ++ name) = f outer ++ "$" ++ new

/-- A signature writes the segment `new` for the class `name` nested in `outer`. -/
def ShownAs (f : String → String) (outer name new : String) : Prop :=
  if f (outer ++ "$" ++ name) = outer ++ "$" ++ name then new = name
  else '$' ∉ new.toList ∧ '/' ∉ new.toList

instance (f : String → String) (outer name new : String) : Decidable (ShownAs f outer name new) :=
  inferInstanceAs (Decidable (if f (outer ++ "$" ++ name) = outer ++ "$" ++ name then new = name
    else '$' ∉ new.toList ∧ '/' ∉ new.toList))

variable {f : String → String}

/-- The segment that is written is the new one. -/
lemma NestedAs.nestedSegment_eq {outer name new : String} (hnested : NestedAs f outer name new)
    (hshown : ShownAs f outer name new) :
    nestedSegment (outer ++ "$" ++ name) (f (outer ++ "$" ++ name)) name = new := by
  unfold nestedSegment
  unfold ShownAs at hshown
  split
  · next hkept =>
    rw [if_pos hkept] at hshown
    exact hshown.symm
  · next hmoved =>
    rw [if_neg hmoved] at hshown
    have hlast : Text.afterLast (fun c => c == '$' || c == '/')
        (f (outer ++ "$" ++ name)).toList = new.toList := by
      refine Text.afterLast_eq_iff.2 ⟨(f outer).toList ++ ['$'], ?_, fun c hc => ?_, fun d hd => ?_⟩
      · rw [hnested.image_eq, String.toList_append, String.toList_append]
        rfl
      · have hdollar : c ≠ '$' := fun h => hshown.1 (h ▸ hc)
        have hslash : c ≠ '/' := fun h => hshown.2 (h ▸ hc)
        simp [hdollar, hslash]
      · obtain rfl : '$' = d := by simpa using hd
        rfl
    rw [hlast, String.ofList_toList]

/-- **Written segments spell the new name**, from any class on the way.

**Proof sketch.** Induction on the segments still to come. If the segments so far spell the new name
of the class so far, then the next one continues it (`NestedAs.nestedSegment_eq`). -/
lemma ClassTail.binaryName_segments_rename (tail : ClassTail) {before written : List String}
    (hbefore : before ≠ []) (hne : written ≠ [])
    (hwritten : binaryName written = f (binaryName before))
    (hnested : ∀ between name after, tail.segments = between ++ name :: after →
      ∃ new, NestedAs f (binaryName (before ++ between)) name new ∧
        ShownAs f (binaryName (before ++ between)) name new) :
    binaryName (written ++ (tail.rename f (binaryName before)).segments) =
      f (binaryName (before ++ tail.segments)) := by
  induction tail using ClassTail.segments.induct generalizing before written with
  | case1 => simpa [ClassTail.rename, ClassTail.segments] using hwritten
  | case2 name rest ih =>
    obtain ⟨new, hnew, hshown⟩ := hnested [] name rest.segments rfl
    rw [List.append_nil] at hnew hshown
    have hnext : binaryName (written ++ [new]) = f (binaryName (before ++ [name])) := by
      rw [binaryName_append_singleton hne, binaryName_append_singleton hbefore, hwritten,
        hnew.image_eq]
    have hrest := ih (List.append_ne_nil_of_right_ne_nil before (List.cons_ne_nil name []))
      (List.append_ne_nil_of_right_ne_nil written (List.cons_ne_nil new [])) hnext
      fun between later after heq => by
        have hlater := hnested (name :: between) later after
          (by rw [segments, heq, List.cons_append])
        rwa [List.append_assoc]
    rw [ClassTail.rename, hnew.nestedSegment_eq hshown, segments, segments,
      ← binaryName_append_singleton hbefore]
    rwa [List.append_assoc, List.append_assoc] at hrest
  | case3 args rest ih =>
    rw [ClassTail.rename, segments, segments]
    exact ih hbefore hne hwritten hnested

namespace Signature

/-- The text of a single type is read as this type. -/
lemma parse?_of_eq_render {cs : List Char} {t : TypeSig} (hwf : t.WellFormed)
    (htext : cs = t.render) : parse? cs = some ⟨none, .types t []⟩ := by
  refine parse?_eq_some_iff.2
    ⟨⟨fun _ hformals => (Option.some_ne_none _ hformals.symm).elim, ?_⟩, ?_⟩
  · intro u hu
    rwa [List.mem_singleton.1 hu]
  · simp [htext, render, renderFormals, SignatureBody.render]

/-- **The written segments of a class type spell the new name of the class.** Let a text be a class
type, and let `f` give every class on the way to it the new name of the class before with one
segment more. If this segment is the old one wherever the class keeps its name, and holds no `$` and
no `/` wherever it does not, then the segments of the renamed text spell the new name. -/
theorem segments_spell_class_name {text : String} {t : TypeSig}
    (hread : parse? text.toList = some ⟨none, .types t []⟩) (hclass : t.segments ≠ [])
    (hnested : ∀ i name, 0 < i → t.segments[i]? = some name → ∃ new,
      NestedAs f (binaryName (t.segments.take i)) name new ∧
        ShownAs f (binaryName (t.segments.take i)) name new) :
    renameText? f text = some (String.ofList (t.rename f).render) ∧
      binaryName (t.rename f).segments = f (binaryName t.segments) := by
  constructor
  · rw [renameText?, hread, Option.map_some]
    simp [rename, SignatureBody.rename, render, renderFormals, SignatureBody.render]
  · cases t with
    | object head tail =>
      have hsplit : ∀ between name after, tail.segments = between ++ name :: after →
          ∃ new, NestedAs f (binaryName ([head] ++ between)) name new ∧
            ShownAs f (binaryName ([head] ++ between)) name new := by
        intro between name after heq
        have hnext := hnested (between.length + 1) name (Nat.succ_pos _)
          (by simp [TypeSig.segments, heq])
        simpa [TypeSig.segments, heq] using hnext
      have hspell := tail.binaryName_segments_rename (List.cons_ne_nil head [])
        (List.cons_ne_nil (f head) []) rfl hsplit
      exact hspell
    | primitive | array | typeVar => exact absurd rfl hclass

/-- Two nested classes under new names, the outer one with a type argument. -/
theorem segments_spell_class_name_of_entry :
    let f := fun name =>
      if name = "a/A" then "n/M" else if name = "a/A$B" then "n/M$Entry"
      else if name = "a/A$B$C" then "n/M$Entry$C" else name
    let t := TypeSig.object "a/A" (.arguments (.type .exact (.typeVar "T") .nil)
      (.segment "B" (.segment "C" .done)))
    parse? "La/A<TT;>.B.C;".toList = some ⟨none, .types t []⟩ ∧ t.segments ≠ [] ∧
      (∀ i name, 0 < i → t.segments[i]? = some name → ∃ new,
        NestedAs f (binaryName (t.segments.take i)) name new ∧
          ShownAs f (binaryName (t.segments.take i)) name new) ∧
      renameText? f "La/A<TT;>.B.C;" = some "Ln/M<TT;>.Entry.C;" ∧
      binaryName (t.rename f).segments = "n/M$Entry$C" := by
  intro f t
  have hargument : Identifier (· == ';') "T" := by decide
  have hread : parse? "La/A<TT;>.B.C;".toList = some ⟨none, .types t []⟩ :=
    parse?_of_eq_render ⟨by decide, ⟨hargument, trivial⟩, by decide, by decide, trivial⟩ (by decide)
  have hclass : t.segments ≠ [] := List.cons_ne_nil _ _
  have hnested : ∀ i name, 0 < i → t.segments[i]? = some name → ∃ new,
      NestedAs f (binaryName (t.segments.take i)) name new ∧
        ShownAs f (binaryName (t.segments.take i)) name new := by
    intro i name hpos hname
    rcases i with _ | _ | _ | i
    · exact absurd hpos (Nat.lt_irrefl 0)
    · obtain rfl : "B" = name := Option.some.inj hname
      exact ⟨"Entry", ⟨by decide, by decide⟩, by decide⟩
    · obtain rfl : "C" = name := Option.some.inj hname
      exact ⟨"C", ⟨by decide, by decide⟩, by decide⟩
    · exact absurd hname.symm (Option.some_ne_none name)
  obtain ⟨htext, hname⟩ := segments_spell_class_name hread hclass hnested
  refine ⟨hread, hclass, hnested, htext.trans ?_, hname.trans ?_⟩
  · decide
  · decide

/-- Two renamings that keep a nested class nested, so that its new segment is determined, and a
signature that shows another one. In the first case the new segment has a `$`, and only what
follows it is written. In the second case the class keeps its name while its outer class gets a
longer one, and the old segment is written. -/
theorem segments_misspell_class_name :
    (let f := fun name =>
        if name = "a/A" then "n/A" else if name = "a/A$B$C" then "n/A$B$C" else name
      let t := TypeSig.object "a/A" (.segment "B$C" .done)
      parse? "La/A.B$C;".toList = some ⟨none, .types t []⟩ ∧
        (∀ i name, 0 < i → t.segments[i]? = some name →
          ∃ new, NestedAs f (binaryName (t.segments.take i)) name new) ∧
        renameText? f "La/A.B$C;" = some "Ln/A.C;" ∧
        binaryName (t.rename f).segments ≠ f (binaryName t.segments)) ∧
      (let f := fun name => if name = "a/A" then "a/A$X" else name
      let t := TypeSig.object "a/A" (.segment "X$B" .done)
      parse? "La/A.X$B;".toList = some ⟨none, .types t []⟩ ∧
        (∀ i name, 0 < i → t.segments[i]? = some name →
          ∃ new, NestedAs f (binaryName (t.segments.take i)) name new) ∧
        renameText? f "La/A.X$B;" = some "La/A$X.X$B;" ∧
        binaryName (t.rename f).segments ≠ f (binaryName t.segments)) := by
  constructor
  · intro f t
    refine ⟨parse?_of_eq_render ⟨by decide, by decide, trivial⟩ (by decide),
      fun i name hpos hname => ?_, by decide +kernel, by decide +kernel⟩
    rcases i with _ | _ | i
    · exact absurd hpos (Nat.lt_irrefl 0)
    · obtain rfl : "B$C" = name := Option.some.inj hname
      exact ⟨"B$C", by decide, by decide⟩
    · exact absurd hname.symm (Option.some_ne_none name)
  · intro f t
    refine ⟨parse?_of_eq_render ⟨by decide, by decide, trivial⟩ (by decide),
      fun i name hpos hname => ?_, by decide +kernel, by decide +kernel⟩
    rcases i with _ | _ | i
    · exact absurd hpos (Nat.lt_irrefl 0)
    · obtain rfl : "X$B" = name := Option.some.inj hname
      exact ⟨"B", by decide, by decide⟩
    · exact absurd hname.symm (Option.some_ne_none name)

end Signature

end Reclass
