import Mathlib.Data.List.Basic
import Mathlib.Tactic.Lemma
import Reclass.Renaming.ClassTree

set_option relaxedAutoImplicit false
set_option autoImplicit false

/-!
# Simple names of inner classes

An inner class that gets a new binary name also gets a new simple name, which is cut out of it: what
follows the last `$`, less the number of a local class, or the last segment if there is no `$`. The
result should be a name and no path. It is one whenever the `$` belongs to the last segment. A `$`
in a segment in front of the last one is taken for the mark of an inner class as well, and then the
rest of the path behind it becomes the simple name.

## Main definitions

* `Reclass.ClassName.Path` — a name made of segments between slashes.
* `Reclass.ClassName.Usable` — a simple name that an inner class can have.

## Main results

* `Reclass.ClassName.innerName_usable_iff` — when the simple name that is cut out can be used.
* `Reclass.Renaming.innerClass_usable_iff` — the same for the entry of an inner class.
* `Reclass.Renaming.innerClass_slashed` — a simple name with a slash in it.
-/

namespace Reclass

namespace ClassName

/-- A name is made of segments between slashes, none of them empty, and `last` is the last one. -/
structure Path (name : String) (front : List String) (last : String) : Prop where
  segment : ∀ s ∈ front ++ [last], s ≠ "" ∧ '/' ∉ s.toList
  name_eq : name = "/".intercalate (front ++ [last])

/-- A simple name that an inner class can have: it is not empty, it is no path, and it was declared
or ends the name of the class. -/
structure Usable (declared last simple : String) : Prop where
  ne_empty : simple ≠ ""
  no_slash : '/' ∉ simple.toList
  origin : simple = declared ∨ simple.toList <:+ last.toList

variable {name binary renamed declared last : String} {front : List String}

lemma Path.last_ne_empty (hpath : Path name front last) : last ≠ "" :=
  (hpath.segment last (List.mem_append_right _ List.mem_cons_self)).1

lemma Path.slash_notMem_last (hpath : Path name front last) : '/' ∉ last.toList :=
  (hpath.segment last (List.mem_append_right _ List.mem_cons_self)).2

/-- Whatever stands before the last segment ends with a slash. -/
lemma Path.exists_before (hpath : Path name front last) :
    ∃ before, name.toList = before ++ last.toList ∧ ∀ d ∈ before.getLast?, d = '/' := by
  rw [hpath.name_eq]
  by_cases hfront : front = []
  · subst hfront
    exact ⟨[], by simp, by simp⟩
  · rw [String.intercalate_append_of_ne_nil hfront (List.cons_ne_nil _ _),
      String.intercalate_singleton, String.toList_append, String.toList_append]
    refine ⟨_, rfl, fun d hd => ?_⟩
    have hslash : "/".toList = ['/'] := rfl
    rw [hslash, List.getLast?_concat] at hd
    exact (Option.some.inj hd).symm

/-- The last segment follows the last slash. -/
lemma Path.afterLast_slash (hpath : Path name front last) :
    Text.afterLast (· == '/') name.toList = last.toList := by
  obtain ⟨before, hsplit, hslash⟩ := hpath.exists_before
  refine Text.afterLast_eq_iff.2 ⟨before, hsplit, fun c hc => ?_, fun d hd => ?_⟩
  · rw [beq_eq_false_iff_ne]
    rintro rfl
    exact hpath.slash_notMem_last hc
  · rw [hslash d hd]
    rfl

/-- A `$` in the last segment is the last one of the name. -/
lemma Path.afterLast_dollar_suffix (hpath : Path name front last) (hdollar : '$' ∈ last.toList) :
    Text.afterLast (· == '$') name.toList <:+ last.toList := by
  obtain ⟨before, hsplit, -⟩ := hpath.exists_before
  rw [hsplit, Text.afterLast_append_of_mem ⟨'$', hdollar, rfl⟩]
  exact Text.afterLast_suffix _ _

/-- If the last `$` stands in front of the last segment then so does a slash behind it. -/
lemma Path.slash_mem_afterLast_dollar (hpath : Path name front last)
    (hname : '$' ∈ name.toList) (hdollar : '$' ∉ last.toList) :
    '/' ∈ Text.afterLast (· == '$') name.toList := by
  obtain ⟨before, hsplit, hslash⟩ := hpath.exists_before
  have hbefore : '$' ∈ before := by
    rw [hsplit] at hname
    exact (List.mem_append.1 hname).resolve_right hdollar
  have hlast := hslash _ (List.getLast?_eq_some_getLast (List.ne_nil_of_mem hbefore))
  have hconcat := List.dropLast_append_getLast (List.ne_nil_of_mem hbefore)
  rw [hlast] at hconcat
  have hfree : ∀ c ∈ '/' :: last.toList, (c == '$') = false := by
    intro c hc
    rw [beq_eq_false_iff_ne]
    rintro rfl
    rcases List.mem_cons.1 hc with hc | hc
    · exact absurd hc (by decide)
    · exact hdollar hc
  have hbehind : name.toList = before.dropLast ++ '/' :: last.toList := by
    rw [hsplit, ← hconcat]
    simp
  rw [hbehind, Text.afterLast_append_of_free hfree]
  exact List.mem_append_right _ List.mem_cons_self

/-- What is no digit is left when leading digits are dropped. -/
lemma mem_dropWhile_isDigit {c : Char} {cs : List Char} (hc : c ∈ cs) (hdigit : c.isDigit = false) :
    c ∈ cs.dropWhile Char.isDigit := by
  rw [← List.takeWhile_append_dropWhile (p := Char.isDigit) (l := cs)] at hc
  rcases List.mem_append.1 hc with hc | hc
  · have hall := List.all_eq_true.1 List.all_takeWhile c hc
    rw [hdigit] at hall
    exact absurd hall Bool.false_ne_true
  · exact hc

/-- The declared name can be kept. -/
lemma usable_declared (hne : declared ≠ "") (hfree : '/' ∉ declared.toList) :
    Usable declared last declared := ⟨hne, hfree, .inl rfl⟩

/-- What ends the last segment can be the simple name, unless it is empty. -/
lemma Path.usable_ofList (hpath : Path name front last) {simple : List Char}
    (hne : simple ≠ []) (hsuffix : simple <:+ last.toList) :
    Usable declared last (String.ofList simple) where
  ne_empty := by simpa using hne
  no_slash hslash := by
    rw [String.toList_ofList] at hslash
    exact hpath.slash_notMem_last (hsuffix.subset hslash)
  origin := .inr (by rwa [String.toList_ofList])

/-- **When the simple name of an inner class can be used.** Let the new binary name be a path. The
simple name that belongs to it is neither empty nor a path, and was declared or ends the last
segment, if and only if the class keeps its binary name, or there is no `$` in the new one, or there
is one in its last segment.

**Proof sketch.** A `$` in the last segment is the last one, so that what follows it ends this
segment. Otherwise the slash in front of the last segment follows the last `$`, and it is not
dropped with leading digits. -/
theorem innerName_usable_iff (hpath : Path renamed front last) (hne : declared ≠ "")
    (hfree : '/' ∉ declared.toList) :
    Usable declared last (innerName binary renamed declared) ↔
      binary = renamed ∨ '$' ∉ renamed.toList ∨ '$' ∈ last.toList := by
  unfold innerName
  by_cases hkept : binary = renamed
  · rw [if_pos hkept]
    exact iff_of_true (usable_declared hne hfree) (.inl hkept)
  rw [if_neg hkept]
  by_cases hnested : '$' ∈ renamed.toList
  · rw [if_pos (List.contains_iff_mem.2 hnested)]
    by_cases hdollar : '$' ∈ last.toList
    · refine iff_of_true ?_ (.inr (.inr hdollar))
      have hsuffix := (List.dropWhile_suffix Char.isDigit).trans
        (hpath.afterLast_dollar_suffix hdollar)
      split
      · exact usable_declared hne hfree
      · next hsimple => exact hpath.usable_ofList hsimple hsuffix
    · refine iff_of_false (fun husable => ?_) (by simp [hkept, hnested, hdollar])
      have hslash := mem_dropWhile_isDigit (hpath.slash_mem_afterLast_dollar hnested hdollar) rfl
      split at husable
      · next hnil =>
        rw [hnil] at hslash
        exact List.not_mem_nil hslash
      · exact husable.no_slash (by rwa [String.toList_ofList])
  · rw [if_neg fun h => hnested (List.contains_iff_mem.1 h), hpath.afterLast_slash]
    refine iff_of_true (hpath.usable_ofList ?_ List.suffix_rfl) (.inr (.inl hnested))
    exact fun hnil => hpath.last_ne_empty (String.toList_eq_nil_iff.1 hnil)

end ClassName

namespace Renaming

/-- **When a renamed inner class has a simple name that can be used.** An entry whose declared
simple name is neither empty nor a path gets a new one, which can be used if and only if the class
keeps its binary name, or there is no `$` in the new one, or there is one in its last segment. -/
theorem innerClass_usable_iff (r : Renaming) {i : InnerClass} {declared last : String}
    {front : List String} (hdeclared : i.innerName = some declared) (hne : declared ≠ "")
    (hfree : '/' ∉ declared.toList) (hpath : ClassName.Path (r.innerClass i).name front last) :
    ∃ simple, (r.innerClass i).innerName = some simple ∧
      (ClassName.Usable declared last simple ↔
        i.name = (r.innerClass i).name ∨ '$' ∉ (r.innerClass i).name.toList ∨
          '$' ∈ last.toList) := by
  refine ⟨ClassName.innerName i.name (r.innerClass i).name declared, ?_, ?_⟩
  · rw [innerClass, hdeclared, Option.map_some]
  · exact ClassName.innerName_usable_iff hpath hne hfree

/-- A local class in a package with a `$` in its name. -/
theorem innerClass_usable_of_local :
    let r : Renaming := .ofTable ((∅ : RenameTable).insert "a/b$1c" ⟨"n$x/Outer$1Local", ∅, ∅⟩)
    let i : InnerClass :=
      { name := "a/b$1c", outerName := none, innerName := some "c", access := 0 }
    "c" ≠ "" ∧ '/' ∉ "c".toList ∧
      ClassName.Path (r.innerClass i).name ["n$x"] "Outer$1Local" ∧
      (r.innerClass i).innerName = some "Local" ∧
      ClassName.Usable "c" "Outer$1Local" "Local" := by
  intro r i
  have hname : (r.innerClass i).name = "n$x/Outer$1Local" := by decide
  have hinner : (r.innerClass i).innerName = some "Local" := by decide
  have hpath : ClassName.Path (r.innerClass i).name ["n$x"] "Outer$1Local" :=
    ⟨by decide, by rw [hname]; decide⟩
  obtain ⟨simple, hsimple, husable⟩ :=
    innerClass_usable_iff r (rfl : i.innerName = some "c") (by decide) (by decide) hpath
  obtain rfl : simple = "Local" := Option.some.inj (hsimple.symm.trans hinner)
  exact ⟨by decide, by decide, hpath, hinner, husable.2 (.inr (.inr (by decide)))⟩

/-- An inner class moves into a package with a `$` in its name and is nested no longer. Its simple
name is the path behind the `$`. -/
theorem innerClass_slashed :
    let r : Renaming := .ofTable ((∅ : RenameTable).insert "a/b$c" ⟨"n$x/Alone", ∅, ∅⟩)
    let i : InnerClass := { name := "a/b$c", outerName := none, innerName := some "c", access := 0 }
    "c" ≠ "" ∧ '/' ∉ "c".toList ∧ ClassName.Path (r.innerClass i).name ["n$x"] "Alone" ∧
      (r.innerClass i).innerName = some "x/Alone" ∧ ¬ClassName.Usable "c" "Alone" "x/Alone" := by
  intro r i
  have hname : (r.innerClass i).name = "n$x/Alone" := by decide
  refine ⟨by decide, by decide, ⟨by decide, by rw [hname]; decide⟩, by decide, fun husable => ?_⟩
  exact husable.no_slash (by decide)

end Renaming

end Reclass
