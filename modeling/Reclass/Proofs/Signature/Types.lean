import Mathlib.Data.List.Basic
import Mathlib.Tactic.Lemma
import Reclass.Proofs.Descriptor.Grammar
import Reclass.Signature

set_option relaxedAutoImplicit false
set_option autoImplicit false

/-!
# The grammar of types in signatures

The types, class tails and type arguments of a signature are read by four functions that call each
other. What they read is well-formed and is what stood there; conversely the text of whatever is
well-formed is read, whatever follows it. Twice the length of the text bounds the depth of the
recursion: every step takes a character, except for the one from a list of arguments to its first
argument.

## Main definitions

* `Reclass.TypeSig.WellFormed`, `Reclass.ClassTail.WellFormed`, `Reclass.TypeArgs.WellFormed` — the
  types that have a text.

## Main results

* `Reclass.Signature.sound` — what is read stood there.
* `Reclass.TypeSig.parseType?_render` — what was written is read.
-/

namespace Reclass

/-! ## Identifiers -/

namespace Signature

/-- A name that is not empty and holds no delimiter. -/
structure Identifier (stop : Char → Bool) (name : String) : Prop where
  ne_empty : name ≠ ""
  free : ∀ c ∈ name.toList, stop c = false

instance (stop : Char → Bool) (name : String) : Decidable (Identifier stop name) :=
  decidable_of_iff (name ≠ "" ∧ (name.toList.all fun c => !stop c) = true)
    ⟨fun h => ⟨h.1, by simpa using h.2⟩, fun h => ⟨h.ne_empty, by simpa using h.free⟩⟩

/-- Reading a name takes it up to a delimiter. -/
lemma identifier?_eq_some_iff {stop : Char → Bool} {cs rest : List Char} {name : String} :
    identifier? stop cs = some (name, rest) ↔
      Identifier stop name ∧ cs = name.toList ++ rest ∧
        ∃ d after, rest = d :: after ∧ stop d = true := by
  unfold identifier?
  constructor
  · intro h
    split at h
    · next c chars rest' hcut =>
      obtain ⟨rfl, rfl⟩ := Prod.mk.inj (Option.some.inj h)
      obtain ⟨rfl, hfree, hrest⟩ := Text.upTo?_eq_some_iff.1 hcut
      rw [String.toList_ofList]
      exact ⟨⟨by simp, by rwa [String.toList_ofList]⟩, rfl, hrest⟩
    · exact absurd h (by simp)
  · rintro ⟨⟨hne, hfree⟩, rfl, hrest⟩
    have hcut := Text.upTo?_eq_some_iff.2 ⟨(rfl : name.toList ++ rest = _), hfree, hrest⟩
    obtain ⟨c, chars, hname⟩ :=
      List.exists_cons_of_ne_nil fun h => hne (String.toList_eq_nil_iff.1 h)
    rw [hcut, hname]
    simp only [← hname, String.ofList_toList]

end Signature

open Signature (Identifier endsSegment parseType? parseTail? parseArgs? parseArg? identifier?)

/-! ## Well-formed types -/

mutual

/-- The names of type variables and of classes are not empty and hold no delimiters. -/
def TypeSig.WellFormed : TypeSig → Prop
  | .primitive _ => True
  | .array t => t.WellFormed
  | .typeVar name => Identifier (· == ';') name
  | .object head tail => Identifier endsSegment head ∧ tail.WellFormed

/-- The segments of a nested class are not empty and hold no delimiters. -/
def ClassTail.WellFormed : ClassTail → Prop
  | .done => True
  | .segment name rest => Identifier endsSegment name ∧ rest.WellFormed
  | .arguments args rest => args.WellFormed ∧ rest.WellFormed

/-- All type arguments are well-formed. -/
def TypeArgs.WellFormed : TypeArgs → Prop
  | .nil => True
  | .any rest => rest.WellFormed
  | .type _ t rest => t.WellFormed ∧ rest.WellFormed

end

/-- True of the types that a colon must be followed by if they bound a type parameter. -/
def TypeSig.isReference : TypeSig → Bool
  | .primitive _ => false
  | _ => true

/-- The first character of a type says whether it is primitive, and it is no punctuation. -/
lemma TypeSig.exists_render_eq_cons (t : TypeSig) : ∃ c rest, t.render = c :: rest ∧
    (c = 'L' ∨ c = '[' ∨ c = 'T' ↔ t.isReference = true) ∧
      c ∉ ['<', '>', '*', '+', '-', '(', ')', '^', ':'] := by
  cases t with
  | primitive p => exact ⟨p.letter, [], by rw [render], by cases p <;> decide⟩
  | array t => exact ⟨'[', t.render, by rw [render], by simp [isReference], by decide⟩
  | typeVar name => exact ⟨'T', name.toList ++ [';'], by rw [render]; rfl, by simp [isReference],
      by decide⟩
  | object head tail =>
    exact ⟨'L', head.toList ++ tail.render, by rw [render]; rfl, by simp [isReference],
      by decide⟩

/-- The text of a type is not empty. -/
lemma TypeSig.length_render_pos (t : TypeSig) : 0 < t.render.length := by
  obtain ⟨c, rest, hc, -⟩ := t.exists_render_eq_cons
  rw [hc, List.length_cons]
  omega

/-- The text of type arguments ends with a bracket. -/
lemma TypeArgs.length_render_pos (a : TypeArgs) : 0 < a.render.length := by
  cases a with
  | nil => simp [render]
  | any rest => simp [render]
  | type w t rest =>
    have hpos := t.length_render_pos
    rw [render, List.length_append, List.length_append]
    omega

/-- What follows a class name starts with a delimiter. -/
lemma ClassTail.exists_render_eq_cons (t : ClassTail) :
    ∃ d after, t.render = d :: after ∧ endsSegment d = true := by
  cases t with
  | done => exact ⟨';', [], by rw [render], rfl⟩
  | segment name rest => exact ⟨'.', name.toList ++ rest.render, by rw [render]; rfl, rfl⟩
  | arguments args rest => exact ⟨'<', args.render ++ rest.render, by rw [render]; rfl, rfl⟩

/-! ## Soundness -/

namespace Signature

/-- With this bound, whatever is read is well-formed and stood there. -/
structure Sound (n : Nat) : Prop where
  type : ∀ cs t rest, parseType? n cs = some (t, rest) → t.WellFormed ∧ cs = t.render ++ rest
  tail : ∀ cs t rest, parseTail? n cs = some (t, rest) → t.WellFormed ∧ cs = t.render ++ rest
  args : ∀ cs a rest, parseArgs? n cs = some (a, rest) → a.WellFormed ∧ cs = a.render ++ rest
  arg : ∀ w cs a rest, parseArg? n w cs = some (a, rest) →
    a.WellFormed ∧ w.mark ++ cs = a.render ++ rest

namespace Sound

variable {n : Nat} (h : Sound n)

include h

/-- One step more reads a type. -/
lemma type_succ (cs : List Char) (t : TypeSig) (rest : List Char)
    (ht : parseType? (n + 1) cs = some (t, rest)) : t.WellFormed ∧ cs = t.render ++ rest := by
  cases cs with
  | nil => exact absurd ht (by simp [parseType?])
  | cons c cs =>
    rw [parseType?] at ht
    split at ht
    · next p hp =>
      obtain ⟨rfl, rfl⟩ := Prod.mk.inj (Option.some.inj ht)
      rw [Primitive.ofLetter?_eq_some_iff.1 hp]
      exact ⟨trivial, by simp [TypeSig.render]⟩
    · split at ht
      · next hc =>
        split at ht
        · next element after helement =>
          obtain ⟨rfl, rfl⟩ := Prod.mk.inj (Option.some.inj ht)
          obtain ⟨hwf, rfl⟩ := h.type _ _ _ helement
          exact ⟨hwf, by simp [TypeSig.render, hc]⟩
        · exact absurd ht (by simp)
      · split at ht
        · next hc =>
          split at ht
          · next name after hname =>
            obtain ⟨rfl, rfl⟩ := Prod.mk.inj (Option.some.inj ht)
            obtain ⟨hid, rfl, d, after', rfl, hd⟩ := identifier?_eq_some_iff.1 hname
            obtain rfl : d = ';' := by simpa using hd
            exact ⟨hid, by simp [TypeSig.render, hc]⟩
          · exact absurd ht (by simp)
        · split at ht
          · next hc =>
            split at ht
            · next head after hhead =>
              split at ht
              · next tail after' htail =>
                obtain ⟨rfl, rfl⟩ := Prod.mk.inj (Option.some.inj ht)
                obtain ⟨hid, rfl, -⟩ := identifier?_eq_some_iff.1 hhead
                obtain ⟨hwf, rfl⟩ := h.tail _ _ _ htail
                exact ⟨⟨hid, hwf⟩, by simp [TypeSig.render, hc]⟩
              · exact absurd ht (by simp)
            · exact absurd ht (by simp)
          · exact absurd ht (by simp)

/-- One step more reads what follows a class name. -/
lemma tail_succ (cs : List Char) (t : ClassTail) (rest : List Char)
    (ht : parseTail? (n + 1) cs = some (t, rest)) : t.WellFormed ∧ cs = t.render ++ rest := by
  unfold parseTail? at ht
  split at ht
  · obtain ⟨rfl, rfl⟩ := Prod.mk.inj (Option.some.inj ht)
    exact ⟨trivial, by simp [ClassTail.render]⟩
  · split at ht
    · next name after hname =>
      split at ht
      · next tail after' htail =>
        obtain ⟨rfl, rfl⟩ := Prod.mk.inj (Option.some.inj ht)
        obtain ⟨hid, rfl, -⟩ := identifier?_eq_some_iff.1 hname
        obtain ⟨hwf, rfl⟩ := h.tail _ _ _ htail
        exact ⟨⟨hid, hwf⟩, by simp [ClassTail.render]⟩
      · exact absurd ht (by simp)
    · exact absurd ht (by simp)
  · split at ht
    · next args after hargs =>
      split at ht
      · next tail after' htail =>
        obtain ⟨rfl, rfl⟩ := Prod.mk.inj (Option.some.inj ht)
        obtain ⟨hwf, rfl⟩ := h.args _ _ _ hargs
        obtain ⟨hwf', rfl⟩ := h.tail _ _ _ htail
        exact ⟨⟨hwf, hwf'⟩, by simp [ClassTail.render]⟩
      · exact absurd ht (by simp)
    · exact absurd ht (by simp)
  · exact absurd ht (by simp)

/-- One step more reads type arguments. -/
lemma args_succ (cs : List Char) (a : TypeArgs) (rest : List Char)
    (ha : parseArgs? (n + 1) cs = some (a, rest)) : a.WellFormed ∧ cs = a.render ++ rest := by
  unfold parseArgs? at ha
  split at ha
  · obtain ⟨rfl, rfl⟩ := Prod.mk.inj (Option.some.inj ha)
    exact ⟨trivial, by simp [TypeArgs.render]⟩
  · split at ha
    · next args after hargs =>
      obtain ⟨rfl, rfl⟩ := Prod.mk.inj (Option.some.inj ha)
      obtain ⟨hwf, rfl⟩ := h.args _ _ _ hargs
      exact ⟨hwf, by simp [TypeArgs.render]⟩
    · exact absurd ha (by simp)
  · exact h.arg .upper _ _ _ ha
  · exact h.arg .lower _ _ _ ha
  · exact h.arg .exact _ _ _ ha

/-- One step more reads one type argument. -/
lemma arg_succ (w : Wildcard) (cs : List Char) (a : TypeArgs) (rest : List Char)
    (ha : parseArg? (n + 1) w cs = some (a, rest)) :
    a.WellFormed ∧ w.mark ++ cs = a.render ++ rest := by
  rw [parseArg?] at ha
  split at ha
  · next t after ht =>
    split at ha
    · next args after' hargs =>
      obtain ⟨rfl, rfl⟩ := Prod.mk.inj (Option.some.inj ha)
      obtain ⟨hwf, rfl⟩ := h.type _ _ _ ht
      obtain ⟨hwf', rfl⟩ := h.args _ _ _ hargs
      exact ⟨⟨hwf, hwf'⟩, by simp [TypeArgs.render]⟩
    · exact absurd ha (by simp)
  · exact absurd ha (by simp)

end Sound

/-- **What is read is well-formed and stood there.**

**Proof sketch.** Induction on the bound; with one step more each of the four functions calls the
others with the bound before. -/
theorem sound (n : Nat) : Sound n := by
  induction n with
  | zero =>
    exact {
      type := fun cs t rest h => absurd h (by simp [parseType?])
      tail := fun cs t rest h => absurd h (by simp [parseTail?])
      args := fun cs a rest h => absurd h (by simp [parseArgs?])
      arg := fun w cs a rest h => absurd h (by simp [parseArg?]) }
  | succ n ih => exact ⟨ih.type_succ, ih.tail_succ, ih.args_succ, ih.arg_succ⟩

end Signature

/-! ## Completeness -/

/-- The mark of a type argument is told from its type. -/
lemma Signature.parseArgs?_mark (n : Nat) (w : Wildcard) (t : TypeSig) (rest : List Char) :
    parseArgs? (n + 1) (w.mark ++ (t.render ++ rest)) = parseArg? n w (t.render ++ rest) := by
  obtain ⟨c, tail, hc, -, hfree⟩ := t.exists_render_eq_cons
  simp only [List.mem_cons, List.not_mem_nil, or_false, not_or] at hfree
  cases w with
  | upper => rfl
  | lower => rfl
  | exact =>
    rw [hc, Wildcard.mark, List.nil_append, List.cons_append]
    unfold parseArgs?
    split <;> simp_all

mutual

/-- **The text of a well-formed type is read**, whatever follows it.

**Proof sketch.** Induction on the type, along with class tails and type arguments. An identifier
is read up to the delimiter behind it; every part is shorter than the whole by enough for the bound
to suffice. -/
theorem TypeSig.parseType?_render (t : TypeSig) (hwf : t.WellFormed) (n : Nat)
    (hn : 2 * t.render.length ≤ n) (rest : List Char) :
    parseType? n (t.render ++ rest) = some (t, rest) := by
  obtain ⟨c, cs, hc, -⟩ := t.exists_render_eq_cons
  obtain ⟨n, rfl⟩ : ∃ k, n = k + 1 := ⟨n - 1, by rw [hc, List.length_cons] at hn; omega⟩
  match t with
  | .primitive p => simp [TypeSig.render, parseType?]
  | .array t =>
    have ht := t.parseType?_render hwf n (by simp [TypeSig.render] at hn; omega) rest
    simp [TypeSig.render, parseType?, Primitive.ofLetter?, ht]
  | .typeVar name =>
    have hname : identifier? (· == ';') (name.toList ++ ';' :: rest) = some (name, ';' :: rest) :=
      Signature.identifier?_eq_some_iff.2 ⟨hwf, rfl, ';', rest, rfl, rfl⟩
    simp [TypeSig.render, parseType?, Primitive.ofLetter?, hname]
  | .object head tail =>
    obtain ⟨d, after, hd, hend⟩ := tail.exists_render_eq_cons
    have hhead : identifier? endsSegment (head.toList ++ (tail.render ++ rest)) =
        some (head, tail.render ++ rest) :=
      Signature.identifier?_eq_some_iff.2 ⟨hwf.1, rfl, d, after ++ rest, by rw [hd]; rfl, hend⟩
    have htail := tail.parseTail?_render hwf.2 n (by simp [TypeSig.render] at hn; omega) rest
    simp [TypeSig.render, parseType?, Primitive.ofLetter?, hhead, htail]

/-- The text after a class name is read. -/
theorem ClassTail.parseTail?_render (t : ClassTail) (hwf : t.WellFormed) (n : Nat)
    (hn : 2 * t.render.length ≤ n) (rest : List Char) :
    parseTail? n (t.render ++ rest) = some (t, rest) := by
  obtain ⟨c, cs, hc, -⟩ := t.exists_render_eq_cons
  obtain ⟨n, rfl⟩ : ∃ k, n = k + 1 := ⟨n - 1, by rw [hc, List.length_cons] at hn; omega⟩
  match t with
  | .done => simp [ClassTail.render, parseTail?]
  | .segment name tail =>
    obtain ⟨d, after, hd, hend⟩ := tail.exists_render_eq_cons
    have hname : identifier? endsSegment (name.toList ++ (tail.render ++ rest)) =
        some (name, tail.render ++ rest) :=
      Signature.identifier?_eq_some_iff.2 ⟨hwf.1, rfl, d, after ++ rest, by rw [hd]; rfl, hend⟩
    have htail := tail.parseTail?_render hwf.2 n (by simp [ClassTail.render] at hn; omega) rest
    simp [ClassTail.render, parseTail?, hname, htail]
  | .arguments args tail =>
    have hargs := args.parseArgs?_render hwf.1 n (by simp [ClassTail.render] at hn; omega)
      (tail.render ++ rest)
    have htail := tail.parseTail?_render hwf.2 n (by simp [ClassTail.render] at hn; omega) rest
    simp [ClassTail.render, parseTail?, hargs, htail]

/-- The text of type arguments is read. -/
theorem TypeArgs.parseArgs?_render (a : TypeArgs) (hwf : a.WellFormed) (n : Nat)
    (hn : 2 * a.render.length ≤ n) (rest : List Char) :
    parseArgs? n (a.render ++ rest) = some (a, rest) := by
  match a with
  | .nil =>
    obtain ⟨n, rfl⟩ : ∃ k, n = k + 1 := ⟨n - 1, by simp [TypeArgs.render] at hn; omega⟩
    simp [TypeArgs.render, parseArgs?]
  | .any args =>
    obtain ⟨n, rfl⟩ : ∃ k, n = k + 1 := ⟨n - 1, by simp [TypeArgs.render] at hn; omega⟩
    have hargs := args.parseArgs?_render hwf n (by simp [TypeArgs.render] at hn; omega) rest
    simp [TypeArgs.render, parseArgs?, hargs]
  | .type w t args =>
    have hpos := t.length_render_pos
    have hpos' := args.length_render_pos
    obtain ⟨n, rfl⟩ : ∃ k, n = k + 2 := ⟨n - 2, by simp [TypeArgs.render] at hn; omega⟩
    have ht := t.parseType?_render hwf.1 n (by simp [TypeArgs.render] at hn; omega)
      (args.render ++ rest)
    have hargs := args.parseArgs?_render hwf.2 n (by simp [TypeArgs.render] at hn; omega) rest
    rw [TypeArgs.render, List.append_assoc, List.append_assoc, Signature.parseArgs?_mark]
    simp [parseArg?, ht, hargs]

end

/-! ## Replacing class names -/

mutual

/-- The names of the classes in a type, nested classes by their binary names. -/
def TypeSig.classNames : TypeSig → List String
  | .primitive _ => []
  | .array t => t.classNames
  | .typeVar _ => []
  | .object head tail => head :: tail.classNames head

/-- The names of the classes after the first segment; `binary` is the binary name so far. -/
def ClassTail.classNames (binary : String) : ClassTail → List String
  | .done => []
  | .segment name rest =>
    (binary ++ "$" ++ name) :: rest.classNames (binary ++ "$" ++ name)
  | .arguments args rest => args.classNames ++ rest.classNames binary

/-- The names of the classes in type arguments. -/
def TypeArgs.classNames : TypeArgs → List String
  | .nil => []
  | .any rest => rest.classNames
  | .type _ t rest => t.classNames ++ rest.classNames

end

/-- A plain name is an identifier. -/
lemma ClassName.Plain.identifier {name : String} (h : Plain name) :
    Identifier endsSegment name := by
  refine ⟨h.ne_empty, fun c hc => ?_⟩
  cases hend : endsSegment c with
  | false => rfl
  | true =>
    have hstop : c = '<' ∨ c = '.' ∨ c = ';' := by simpa [endsSegment, or_assoc] using hend
    rcases hstop with rfl | rfl | rfl <;> exact absurd hc (h.notMem _ (by decide))

section Rename

variable {f g : String → String}

mutual

/-- Replacing class names by plain ones keeps a type without nested classes well-formed. -/
lemma TypeSig.WellFormed.rename (hf : ∀ name, f name = name ∨ ClassName.Plain (f name)) :
    ∀ t : TypeSig, t.WellFormed → '.' ∉ t.render → (t.rename f).WellFormed
  | .primitive _, _, _ => trivial
  | .array t, hwf, hdot => TypeSig.WellFormed.rename hf t hwf
      (by simpa [TypeSig.render] using hdot)
  | .typeVar _, hwf, _ => hwf
  | .object head tail, hwf, hdot => by
    have htail := ClassTail.WellFormed.rename hf tail hwf.2
      (fun hmem => hdot (by simp [TypeSig.render, hmem])) head
    refine ⟨?_, htail⟩
    rcases hf head with heq | hplain
    · rw [heq]
      exact hwf.1
    · exact hplain.identifier

/-- Replacing class names by plain ones keeps what follows a class name well-formed. -/
lemma ClassTail.WellFormed.rename (hf : ∀ name, f name = name ∨ ClassName.Plain (f name)) :
    ∀ t : ClassTail, t.WellFormed → '.' ∉ t.render →
      ∀ binary, (t.rename f binary).WellFormed
  | .done, _, _, _ => trivial
  | .segment _ _, _, hdot, _ => absurd (by simp [ClassTail.render]) hdot
  | .arguments args rest, hwf, hdot, binary =>
    ⟨TypeArgs.WellFormed.rename hf args hwf.1 fun hmem => hdot (by simp [ClassTail.render, hmem]),
      ClassTail.WellFormed.rename hf rest hwf.2
        (fun hmem => hdot (by simp [ClassTail.render, hmem])) binary⟩

/-- Replacing class names by plain ones keeps type arguments well-formed. -/
lemma TypeArgs.WellFormed.rename (hf : ∀ name, f name = name ∨ ClassName.Plain (f name)) :
    ∀ a : TypeArgs, a.WellFormed → '.' ∉ a.render → (a.rename f).WellFormed
  | .nil, _, _ => trivial
  | .any rest, hwf, hdot => TypeArgs.WellFormed.rename hf rest hwf
      (by simpa [TypeArgs.render] using hdot)
  | .type _ t rest, hwf, hdot =>
    ⟨TypeSig.WellFormed.rename hf t hwf.1 fun hmem => hdot (by simp [TypeArgs.render, hmem]),
      TypeArgs.WellFormed.rename hf rest hwf.2
        fun hmem => hdot (by simp [TypeArgs.render, hmem])⟩

end

mutual

/-- Two replacements that cancel on the class names give a type without nested classes back. -/
lemma TypeSig.rename_rename : ∀ t : TypeSig, '.' ∉ t.render →
    (∀ name ∈ t.classNames, g (f name) = name) → (t.rename f).rename g = t
  | .primitive _, _, _ => by simp only [TypeSig.rename]
  | .array t, hdot, h => by
    have ht := t.rename_rename (by simpa [TypeSig.render] using hdot) h
    simp only [TypeSig.rename, ht]
  | .typeVar _, _, _ => by simp only [TypeSig.rename]
  | .object head tail, hdot, h => by
    obtain ⟨hhead, htail⟩ := List.forall_mem_cons.1 h
    have hrest := tail.rename_rename (fun hmem => hdot (by simp [TypeSig.render, hmem])) head
      (f head) htail
    simp only [TypeSig.rename, hhead, hrest]

/-- Without nested segments the binary name before a class tail plays no role. -/
lemma ClassTail.rename_rename : ∀ t : ClassTail, '.' ∉ t.render → ∀ binary binary' : String,
    (∀ name ∈ t.classNames binary, g (f name) = name) →
      (t.rename f binary).rename g binary' = t
  | .done, _, _, _, _ => by simp only [ClassTail.rename]
  | .segment _ _, hdot, _, _, _ => absurd (by simp [ClassTail.render]) hdot
  | .arguments args rest, hdot, binary, binary', h => by
    obtain ⟨hargs, hrest⟩ := List.forall_mem_append.1 h
    have hargs' := args.rename_rename (fun hmem => hdot (by simp [ClassTail.render, hmem])) hargs
    have hrest' := rest.rename_rename (fun hmem => hdot (by simp [ClassTail.render, hmem])) binary
      binary' hrest
    simp only [ClassTail.rename, hargs', hrest']

/-- Two replacements that cancel on the class names give type arguments back. -/
lemma TypeArgs.rename_rename : ∀ a : TypeArgs, '.' ∉ a.render →
    (∀ name ∈ a.classNames, g (f name) = name) → (a.rename f).rename g = a
  | .nil, _, _ => by simp only [TypeArgs.rename]
  | .any rest, hdot, h => by
    have hrest := rest.rename_rename (by simpa [TypeArgs.render] using hdot) h
    simp only [TypeArgs.rename, hrest]
  | .type _ t rest, hdot, h => by
    obtain ⟨ht, hrest⟩ := List.forall_mem_append.1 h
    have ht' := t.rename_rename (fun hmem => hdot (by simp [TypeArgs.render, hmem])) ht
    have hrest' := rest.rename_rename (fun hmem => hdot (by simp [TypeArgs.render, hmem])) hrest
    simp only [TypeArgs.rename, ht', hrest']

end

/-- Replacing class names changes no primitive type into another one and no other into it. -/
@[simp] lemma TypeSig.isReference_rename (t : TypeSig) :
    (t.rename f).isReference = t.isReference := by
  cases t <;> rfl

end Rename

end Reclass
