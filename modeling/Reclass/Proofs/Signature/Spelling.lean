import Reclass.Proofs.Descriptor.Spelling

set_option relaxedAutoImplicit false
set_option autoImplicit false

/-!
# How signatures are written

The grammar of signatures as rules, one per form of a type, each of which says how a tree of this
form is written. Names of classes are written through a function on class names. With the identity
the rules give the texts that are signatures. With a renaming they give what a signature becomes:
the first segment of a class is replaced by its image; a nested segment stays if the class keeps its
binary name, and else becomes what follows the last `$` or `/` of the image.

A bound of a type parameter is read greedily. Behind its colon stands a type exactly when the next
character opens one, so that these rules also speak of what follows.

## Main definitions

* `Reclass.TypeSig.Spelled`, `Reclass.ClassTail.Spelled`, `Reclass.TypeArgs.Spelled` — the rules for
  types.
* `Reclass.Signature.Spelled` — the rules for whole signatures.

## Main results

* `Reclass.Signature.spelled_iff` — the trees that are written, and how.
* `Reclass.Signature.renameText?_eq_some_iff` — what is renamed, and into what.
-/

namespace Reclass

open Signature (Identifier endsSegment)

/-! ## The grammar -/

/-- How a nested segment is written: as it is, if the class keeps its binary name, and else as what
follows the last `$` or `/` of the new one. -/
inductive SegmentSpelled (f : String → String) (binary segment : String) : List Char → Prop
  | kept (hkept : f binary = binary) : SegmentSpelled f binary segment segment.toList
  | moved {front simple : List Char} (hmoved : f binary ≠ binary)
      (hsplit : (f binary).toList = front ++ simple) (hfree : '$' ∉ simple ∧ '/' ∉ simple)
      (hfront : ∀ d ∈ front.getLast?, d = '$' ∨ d = '/') : SegmentSpelled f binary segment simple

mutual

/-- How a type is written. -/
inductive TypeSig.Spelled (f : String → String) : TypeSig → List Char → Prop
  | primitive (p : Primitive) : TypeSig.Spelled f (.primitive p) [p.letter]
  | array {t : TypeSig} {cs : List Char} (ht : TypeSig.Spelled f t cs) :
      TypeSig.Spelled f (.array t) ('[' :: cs)
  | typeVar {name : String} (hname : Identifier (· == ';') name) :
      TypeSig.Spelled f (.typeVar name) ('T' :: name.toList ++ [';'])
  | object {head : String} {tail : ClassTail} {cs : List Char}
      (hhead : Identifier endsSegment head) (htail : ClassTail.Spelled f head tail cs) :
      TypeSig.Spelled f (.object head tail) ('L' :: (f head).toList ++ cs)

/-- How nested segments and type arguments are written; `binary` is the binary name so far. -/
inductive ClassTail.Spelled (f : String → String) : String → ClassTail → List Char → Prop
  | done {binary : String} : ClassTail.Spelled f binary .done [';']
  | segment {binary name : String} {rest : ClassTail} {written cs : List Char}
      (hname : Identifier endsSegment name)
      (hwritten : SegmentSpelled f (binary ++ "$" ++ name) name written)
      (hrest : ClassTail.Spelled f (binary ++ "$" ++ name) rest cs) :
      ClassTail.Spelled f binary (.segment name rest) ('.' :: written ++ cs)
  | arguments {binary : String} {args : TypeArgs} {rest : ClassTail} {cs cs' : List Char}
      (hargs : TypeArgs.Spelled f args cs) (hrest : ClassTail.Spelled f binary rest cs') :
      ClassTail.Spelled f binary (.arguments args rest) ('<' :: cs ++ cs')

/-- How type arguments are written, with the closing bracket. -/
inductive TypeArgs.Spelled (f : String → String) : TypeArgs → List Char → Prop
  | nil : TypeArgs.Spelled f .nil ['>']
  | any {rest : TypeArgs} {cs : List Char} (hrest : TypeArgs.Spelled f rest cs) :
      TypeArgs.Spelled f (.any rest) ('*' :: cs)
  | type {t : TypeSig} {rest : TypeArgs} {cs cs' : List Char} (w : Wildcard)
      (ht : TypeSig.Spelled f t cs) (hrest : TypeArgs.Spelled f rest cs') :
      TypeArgs.Spelled f (.type w t rest) (w.mark ++ cs ++ cs')

end

/-- How the bounds of a type parameter are written, up to what follows them. Behind a colon stands a
type whenever the next character opens one, and nothing otherwise. -/
inductive BoundsSpelled (f : String → String) :
    List (Option TypeSig) → List Char → List Char → Prop
  | nil {rest : List Char} : BoundsSpelled f [] rest rest
  | type {t : TypeSig} {bounds : List (Option TypeSig)} {c : Char} {cs after rest : List Char}
      (hopens : Signature.opensBound c) (ht : t.Spelled f (c :: cs))
      (hbounds : BoundsSpelled f bounds after rest) :
      BoundsSpelled f (some t :: bounds) (':' :: c :: cs ++ after) rest
  | empty {bounds : List (Option TypeSig)} {after rest : List Char}
      (hopens : ∀ c ∈ after.head?, ¬Signature.opensBound c)
      (hbounds : BoundsSpelled f bounds after rest) :
      BoundsSpelled f (none :: bounds) (':' :: after) rest

/-- How type parameters are written behind the opening bracket, up to what follows the closing
one. -/
inductive FormalsSpelled (f : String → String) :
    List FormalParam → List Char → List Char → Prop
  | nil {rest : List Char} : FormalsSpelled f [] ('>' :: rest) rest
  | cons {name : String} {bounds : List (Option TypeSig)} {ps : List FormalParam}
      {cs after rest : List Char} (hname : Identifier (· == ':') name)
      (hhead : name.toList.head? ≠ some '>') (hne : bounds ≠ [])
      (hbounds : BoundsSpelled f bounds cs after) (hps : FormalsSpelled f ps after rest) :
      FormalsSpelled f (⟨name, bounds⟩ :: ps) (name.toList ++ cs) rest

/-- How the part behind the type parameters is written: a method's parameters, result and
exceptions, or one type or more. -/
inductive SignatureBody.Spelled (f : String → String) : SignatureBody → List Char → Prop
  | types {first : TypeSig} {rest : List TypeSig} {texts : List (List Char)}
      (htypes : List.Forall₂ (TypeSig.Spelled f) (first :: rest) texts) :
      SignatureBody.Spelled f (.types first rest) texts.flatten
  | method {params throws : List TypeSig} {result : TypeSig} {texts texts' : List (List Char)}
      {cs : List Char} (hparams : List.Forall₂ (TypeSig.Spelled f) params texts)
      (hresult : result.Spelled f cs) (hthrows : List.Forall₂ (TypeSig.Spelled f) throws texts') :
      SignatureBody.Spelled f (.method params result throws)
        ('(' :: texts.flatten ++ ')' :: cs ++ texts'.flatMap ('^' :: ·))

/-- How a signature is written. -/
inductive Signature.Spelled (f : String → String) : Signature → List Char → Prop
  | plain {body : SignatureBody} {cs : List Char} (hbody : body.Spelled f cs) :
      Signature.Spelled f ⟨none, body⟩ cs
  | generic {ps : List FormalParam} {body : SignatureBody} {cs after : List Char}
      (hps : FormalsSpelled f ps cs after) (hbody : body.Spelled f after) :
      Signature.Spelled f ⟨some ps, body⟩ ('<' :: cs)

/-! ## What is written -/

section

variable {f : String → String} {cs rest : List Char}

/-- A segment is written in one way. -/
lemma segmentSpelled_iff {binary segment : String} :
    SegmentSpelled f binary segment cs ↔ cs = (nestedSegment binary (f binary) segment).toList := by
  have hstop : ∀ c : Char, (c == '$' || c == '/') = true ↔ c = '$' ∨ c = '/' := by simp
  unfold nestedSegment
  constructor
  · rintro (hkept | ⟨hmoved, hsplit, hfree, hfront⟩)
    · rw [if_pos hkept]
    · rw [if_neg hmoved, String.toList_ofList, eq_comm, Text.afterLast_eq_iff]
      refine ⟨_, hsplit, fun c hc => ?_, fun d hd => (hstop d).2 (hfront d hd)⟩
      rw [Bool.eq_false_iff, ne_eq, hstop]
      rintro (rfl | rfl)
      · exact hfree.1 hc
      · exact hfree.2 hc
  · rintro rfl
    by_cases hkept : f binary = binary
    · rw [if_pos hkept]
      exact .kept hkept
    · rw [if_neg hkept, String.toList_ofList]
      obtain ⟨front, hsplit, hfree, hfront⟩ := Text.afterLast_eq_iff.1
        (rfl : Text.afterLast (fun c => c == '$' || c == '/') (f binary).toList = _)
      refine .moved hkept hsplit ⟨fun hc => ?_, fun hc => ?_⟩ fun d hd => (hstop d).1 (hfront d hd)
      · exact absurd (hfree _ hc) (by decide)
      · exact absurd (hfree _ hc) (by decide)

mutual

/-- A type is written if it is well-formed, and then in one way. -/
lemma TypeSig.spelled_iff (cs : List Char) : ∀ t : TypeSig,
    t.Spelled f cs ↔ t.WellFormed ∧ cs = (t.rename f).render
  | .primitive p => by
    constructor
    · intro h
      cases h with
      | primitive => exact ⟨trivial, rfl⟩
    · rintro ⟨-, rfl⟩
      exact .primitive p
  | .array t => by
    constructor
    · intro h
      cases h with
      | array ht =>
        obtain ⟨hwf, rfl⟩ := (TypeSig.spelled_iff _ t).1 ht
        exact ⟨hwf, rfl⟩
    · rintro ⟨hwf, rfl⟩
      exact .array ((TypeSig.spelled_iff _ t).2 ⟨hwf, rfl⟩)
  | .typeVar name => by
    constructor
    · intro h
      cases h with
      | typeVar hname => exact ⟨hname, rfl⟩
    · rintro ⟨hname, rfl⟩
      exact .typeVar hname
  | .object head tail => by
    constructor
    · intro h
      cases h with
      | object hhead htail =>
        obtain ⟨hwf, rfl⟩ := (ClassTail.spelled_iff _ head tail).1 htail
        exact ⟨⟨hhead, hwf⟩, rfl⟩
    · rintro ⟨⟨hhead, hwf⟩, rfl⟩
      exact .object hhead ((ClassTail.spelled_iff _ head tail).2 ⟨hwf, rfl⟩)

/-- What follows the first segment of a class is written if it is well-formed, and then in one
way. -/
lemma ClassTail.spelled_iff (cs : List Char) (binary : String) : ∀ t : ClassTail,
    t.Spelled f binary cs ↔ t.WellFormed ∧ cs = (t.rename f binary).render
  | .done => by
    constructor
    · intro h
      cases h with
      | done => exact ⟨trivial, rfl⟩
    · rintro ⟨-, rfl⟩
      exact .done
  | .segment name rest => by
    constructor
    · intro h
      cases h with
      | segment hname hwritten hrest =>
        obtain ⟨hwf, rfl⟩ := (ClassTail.spelled_iff _ _ rest).1 hrest
        obtain rfl := segmentSpelled_iff.1 hwritten
        exact ⟨⟨hname, hwf⟩, rfl⟩
    · rintro ⟨⟨hname, hwf⟩, rfl⟩
      exact .segment hname (segmentSpelled_iff.2 rfl)
        ((ClassTail.spelled_iff _ _ rest).2 ⟨hwf, rfl⟩)
  | .arguments args rest => by
    constructor
    · intro h
      cases h with
      | arguments hargs hrest =>
        obtain ⟨hwf, rfl⟩ := (TypeArgs.spelled_iff _ args).1 hargs
        obtain ⟨hwf', rfl⟩ := (ClassTail.spelled_iff _ _ rest).1 hrest
        exact ⟨⟨hwf, hwf'⟩, rfl⟩
    · rintro ⟨⟨hwf, hwf'⟩, rfl⟩
      exact .arguments ((TypeArgs.spelled_iff _ args).2 ⟨hwf, rfl⟩)
        ((ClassTail.spelled_iff _ _ rest).2 ⟨hwf', rfl⟩)

/-- Type arguments are written if they are well-formed, and then in one way. -/
lemma TypeArgs.spelled_iff (cs : List Char) : ∀ a : TypeArgs,
    a.Spelled f cs ↔ a.WellFormed ∧ cs = (a.rename f).render
  | .nil => by
    constructor
    · intro h
      cases h with
      | nil => exact ⟨trivial, rfl⟩
    · rintro ⟨-, rfl⟩
      exact .nil
  | .any rest => by
    constructor
    · intro h
      cases h with
      | any hrest =>
        obtain ⟨hwf, rfl⟩ := (TypeArgs.spelled_iff _ rest).1 hrest
        exact ⟨hwf, rfl⟩
    · rintro ⟨hwf, rfl⟩
      exact .any ((TypeArgs.spelled_iff _ rest).2 ⟨hwf, rfl⟩)
  | .type w t rest => by
    constructor
    · intro h
      cases h with
      | type w ht hrest =>
        obtain ⟨hwf, rfl⟩ := (TypeSig.spelled_iff _ t).1 ht
        obtain ⟨hwf', rfl⟩ := (TypeArgs.spelled_iff _ rest).1 hrest
        exact ⟨⟨hwf, hwf'⟩, rfl⟩
    · rintro ⟨⟨hwf, hwf'⟩, rfl⟩
      exact .type w ((TypeSig.spelled_iff _ t).2 ⟨hwf, rfl⟩)
        ((TypeArgs.spelled_iff _ rest).2 ⟨hwf', rfl⟩)

end

/-- Types are written one by one. -/
lemma forall₂_spelled_iff {ts : List TypeSig} {texts : List (List Char)} :
    List.Forall₂ (TypeSig.Spelled f) ts texts ↔
      (∀ t ∈ ts, t.WellFormed) ∧ texts = ts.map fun t => (t.rename f).render :=
  forall₂_iff_eq_map fun t cs => TypeSig.spelled_iff cs t

/-- A type opens a bound exactly if it is no primitive one, before and after it is renamed. -/
lemma TypeSig.Spelled.opensBound_iff {t : TypeSig} {c : Char} (ht : t.Spelled f (c :: cs)) :
    Signature.opensBound c ↔ t.isReference = true := by
  obtain ⟨-, hrender⟩ := (TypeSig.spelled_iff _ t).1 ht
  obtain ⟨d, more, hd, hopens, -⟩ := (t.rename f).exists_render_eq_cons
  rw [hd] at hrender
  obtain ⟨rfl, -⟩ := List.cons.inj hrender
  rw [Signature.opensBound, hopens, TypeSig.isReference_rename]

/-- Bounds are written if their types are well-formed and no primitive ones, and if no character
that opens a bound follows an empty last one. -/
lemma boundsSpelled_iff {bounds : List (Option TypeSig)} :
    BoundsSpelled f bounds cs rest ↔
      (∀ t, some t ∈ bounds → t.WellFormed ∧ t.isReference = true) ∧
        (bounds.getLast? = some none → ∀ c ∈ rest.head?, ¬Signature.opensBound c) ∧
        cs = (bounds.map (Option.map (TypeSig.rename f))).flatMap FormalParam.renderBound ++
          rest := by
  constructor
  · intro h
    induction h with
    | nil => exact ⟨by simp, by simp, rfl⟩
    | @type t bounds c cs after rest hopens ht hbounds ih =>
      obtain ⟨hall, hlast, rfl⟩ := ih
      obtain ⟨hwf, hrender⟩ := (TypeSig.spelled_iff _ t).1 ht
      refine ⟨fun u hu => ?_, fun hnone => ?_, ?_⟩
      · rcases List.mem_cons.1 hu with heq | hu
        · obtain rfl := Option.some.inj heq
          exact ⟨hwf, ht.opensBound_iff.1 hopens⟩
        · exact hall u hu
      · cases bounds with
        | nil => simp at hnone
        | cons b bounds => exact hlast (by rwa [List.getLast?_cons_cons] at hnone)
      · rw [List.map_cons, Option.map_some, List.flatMap_cons, FormalParam.renderBound, ← hrender]
        simp
    | @empty bounds after rest hopens hbounds ih =>
      obtain ⟨hall, hlast, rfl⟩ := ih
      refine ⟨fun u hu => hall u (by simpa using hu), fun hnone => ?_, rfl⟩
      cases bounds with
      | nil => exact hopens
      | cons b bounds => exact hlast (by rwa [List.getLast?_cons_cons] at hnone)
  · rintro ⟨hall, hlast, rfl⟩
    induction bounds with
    | nil => exact .nil
    | cons b bounds ih =>
      have hbounds := ih (fun t ht => hall t (List.mem_cons_of_mem _ ht))
        fun hnone => hlast (by rw [List.getLast?_cons, hnone, Option.getD_some])
      rw [List.map_cons, List.flatMap_cons, List.append_assoc]
      cases b with
      | some t =>
        obtain ⟨hwf, hreference⟩ := hall t List.mem_cons_self
        have ht : t.Spelled f (t.rename f).render := (TypeSig.spelled_iff _ t).2 ⟨hwf, rfl⟩
        obtain ⟨c, more, hc, -⟩ := (t.rename f).exists_render_eq_cons
        rw [Option.map_some, FormalParam.renderBound, hc]
        rw [hc] at ht
        exact .type (ht.opensBound_iff.2 hreference) ht hbounds
      | none =>
        refine .empty (fun c hc => ?_) hbounds
        cases bounds with
        | nil => exact hlast rfl c hc
        | cons b bounds =>
          -- another bound starts with its colon
          obtain rfl : c = ':' := by cases b <;> exact (Option.some.inj hc).symm
          simp [Signature.opensBound]

/-- What follows the bounds of a type parameter starts with the name of the next one or closes the
parameters. -/
lemma not_opensBound_formals_iff (f : String → String) (rest : List Char) {ps : List FormalParam}
    (hps : Signature.FormalsWellFormed ps) :
    (∀ c ∈ ((ps.map (FormalParam.rename f)).flatMap FormalParam.render ++ '>' :: rest).head?,
        ¬Signature.opensBound c) ↔
      ∀ q ∈ ps.head?, ∀ c ∈ q.name.toList.head?, ¬Signature.opensBound c := by
  cases ps with
  | nil => simp [Signature.opensBound]
  | cons q ps =>
    obtain ⟨d, chars, hchars⟩ := List.exists_cons_of_ne_nil
      fun hnil => hps.1.name.ne_empty (String.toList_eq_nil_iff.1 hnil)
    simp [FormalParam.render, FormalParam.rename, hchars]

/-- Type parameters are written if they are well-formed. -/
lemma formalsSpelled_iff {ps : List FormalParam} :
    FormalsSpelled f ps cs rest ↔ Signature.FormalsWellFormed ps ∧
      cs = (ps.map (FormalParam.rename f)).flatMap FormalParam.render ++ '>' :: rest := by
  constructor
  · intro h
    induction h with
    | nil => exact ⟨trivial, rfl⟩
    | @cons name bounds ps cs after rest hname hhead hne hbounds hps ih =>
      obtain ⟨hwf, rfl⟩ := ih
      obtain ⟨hall, hlast, rfl⟩ := boundsSpelled_iff.1 hbounds
      refine ⟨⟨⟨hname, hhead, hne, hall⟩, hwf, fun hnone => ?_⟩, ?_⟩
      · exact (not_opensBound_formals_iff f _ hwf).1 (hlast hnone)
      · simp [FormalParam.render, FormalParam.rename]
  · rintro ⟨hwf, rfl⟩
    induction ps with
    | nil => exact .nil
    | cons p ps ih =>
      obtain ⟨hp, hwf, hgap⟩ := hwf
      have hbounds : BoundsSpelled f p.bounds _ _ := boundsSpelled_iff.2
        ⟨hp.bounds, fun hnone => (not_opensBound_formals_iff f rest hwf).2 (hgap hnone), rfl⟩
      have hformals := FormalsSpelled.cons hp.name hp.name_head hp.bounds_ne_nil hbounds (ih hwf)
      rw [List.map_cons, List.flatMap_cons, FormalParam.render, List.append_assoc,
        List.append_assoc]
      exact hformals

/-- A body is written if its types are well-formed. -/
lemma SignatureBody.spelled_iff (b : SignatureBody) :
    b.Spelled f cs ↔ b.WellFormed ∧ cs = (b.rename f).render := by
  cases b with
  | types first rest =>
    have hrender : ((first :: rest).map fun t => (t.rename f).render).flatten =
        ((SignatureBody.types first rest).rename f).render := by
      simp [render, rename, List.flatMap_def, Function.comp_def]
    constructor
    · intro h
      cases h with
      | types htypes =>
        obtain ⟨hwf, rfl⟩ := forall₂_spelled_iff.1 htypes
        exact ⟨hwf, hrender⟩
    · rintro ⟨hwf, rfl⟩
      rw [← hrender]
      exact .types (forall₂_spelled_iff.2 ⟨hwf, rfl⟩)
  | method params result throws =>
    have hrender : '(' :: (params.map fun t => (t.rename f).render).flatten ++
        ')' :: (result.rename f).render ++
          (throws.map fun t => (t.rename f).render).flatMap ('^' :: ·) =
        ((SignatureBody.method params result throws).rename f).render := by
      simp [render, rename, List.flatMap_def, Function.comp_def]
    constructor
    · intro h
      cases h with
      | method hparams hresult hthrows =>
        obtain ⟨hwf, rfl⟩ := forall₂_spelled_iff.1 hparams
        obtain ⟨hwf', rfl⟩ := (TypeSig.spelled_iff _ result).1 hresult
        obtain ⟨hwf'', rfl⟩ := forall₂_spelled_iff.1 hthrows
        exact ⟨List.forall_mem_append.2 ⟨hwf, List.forall_mem_cons.2 ⟨hwf', hwf''⟩⟩, hrender⟩
    · rintro ⟨hwf, rfl⟩
      obtain ⟨hparams, hlast⟩ := List.forall_mem_append.1 hwf
      obtain ⟨hresult, hthrows⟩ := List.forall_mem_cons.1 hlast
      rw [← hrender]
      exact .method (forall₂_spelled_iff.2 ⟨hparams, rfl⟩)
        ((TypeSig.spelled_iff _ result).2 ⟨hresult, rfl⟩) (forall₂_spelled_iff.2 ⟨hthrows, rfl⟩)

namespace Signature

/-- **A signature is written if it is well-formed, and then in one way.** -/
theorem spelled_iff (s : Signature) : s.Spelled f cs ↔ s.WellFormed ∧ cs = (s.rename f).render := by
  obtain ⟨formals, body⟩ := s
  cases formals with
  | none =>
    constructor
    · intro h
      cases h with
      | plain hbody =>
        obtain ⟨hwf, rfl⟩ := body.spelled_iff.1 hbody
        exact ⟨⟨fun ps hps => absurd hps (by simp), hwf⟩, rfl⟩
    · rintro ⟨hwf, rfl⟩
      exact .plain (body.spelled_iff.2 ⟨hwf.body, rfl⟩)
  | some ps =>
    have hrender : (rename f ⟨some ps, body⟩).render =
        '<' :: ((ps.map (FormalParam.rename f)).flatMap FormalParam.render ++
          '>' :: (body.rename f).render) := by
      simp [render, renderFormals, rename]
    constructor
    · intro h
      cases h with
      | generic hps hbody =>
        obtain ⟨hwf, rfl⟩ := formalsSpelled_iff.1 hps
        obtain ⟨hwf', rfl⟩ := body.spelled_iff.1 hbody
        exact ⟨⟨fun ps' hps' => Option.some.inj hps' ▸ hwf, hwf'⟩, hrender.symm⟩
    · rintro ⟨hwf, rfl⟩
      rw [hrender]
      exact .generic (formalsSpelled_iff.2 ⟨hwf.formals ps rfl, rfl⟩)
        (body.spelled_iff.2 ⟨hwf.body, rfl⟩)

/-- A text is read as the tree that is written like this. -/
lemma parse?_eq_some_iff_spelled {s : Signature} : parse? cs = some s ↔ s.Spelled id cs := by
  rw [parse?_eq_some_iff, spelled_iff, rename_id]

/-- **What is renamed, and into what.** A text is renamed exactly if the grammar gives it, as a
whole. It is the text of one tree alone, and becomes the text of the same tree with new class
names. -/
theorem renameText?_eq_some_iff (f : String → String) (text out : String) :
    renameText? f text = some out ↔
      ∃ s : Signature, s.Spelled id text.toList ∧ s.Spelled f out.toList ∧
        ∀ s' : Signature, s'.Spelled id text.toList → s' = s := by
  rw [renameText?, Option.map_eq_some_iff]
  constructor
  · rintro ⟨s, hs, rfl⟩
    have hwf := (parse?_eq_some_iff.1 hs).1
    refine ⟨s, parse?_eq_some_iff_spelled.1 hs, ?_, fun s' hs' => ?_⟩
    · exact s.spelled_iff.2 ⟨hwf, String.toList_ofList⟩
    · rw [← parse?_eq_some_iff_spelled, hs] at hs'
      exact (Option.some.inj hs').symm
  · rintro ⟨s, hs, hout, -⟩
    refine ⟨s, parse?_eq_some_iff_spelled.2 hs, ?_⟩
    rw [← (s.spelled_iff.1 hout).2, String.ofList_toList]

end Signature

end

end Reclass
