import Reclass.Proofs.Signature.Types

set_option relaxedAutoImplicit false
set_option autoImplicit false

/-!
# The grammar of signatures

A text is read as a signature exactly if it is the text of a well-formed one. Apart from the names
there is one restriction: a bound of a type parameter that is left empty must not be followed by a
character that could start a bound, since reading is greedy there.

## Main definitions

* `Reclass.Signature.WellFormed` — the signatures that have a text.
* `Reclass.Signature.classNames` — the names of the classes inside.

## Main results

* `Reclass.Signature.parse?_eq_some_iff` — reading is the inverse of writing.
* `Reclass.Signature.parse?_render_rename` — a renamed signature is read again.
-/

namespace Reclass

/-! ## Well-formed signatures -/

/-- True of the characters with which a bound of a type parameter starts. -/
def Signature.opensBound (c : Char) : Prop := c = 'L' ∨ c = '[' ∨ c = 'T'

/-- A type parameter has a name that ends at the first colon and does not look like the end of the
parameters, and it has bounds, which are no primitive types. -/
structure FormalParam.WellFormed (p : FormalParam) : Prop where
  name : Signature.Identifier (· == ':') p.name
  name_head : p.name.toList.head? ≠ some '>'
  bounds_ne_nil : p.bounds ≠ []
  bounds : ∀ t, some t ∈ p.bounds → t.WellFormed ∧ t.isReference = true

/-- Type parameters are well-formed one by one. If the last bound of one is empty then the name of
the next one does not start like a bound. -/
def Signature.FormalsWellFormed : List FormalParam → Prop
  | [] => True
  | p :: ps => p.WellFormed ∧ FormalsWellFormed ps ∧
      (p.bounds.getLast? = some none →
        ∀ q ∈ ps.head?, ∀ c ∈ q.name.toList.head?, ¬opensBound c)

/-- The types that a body is made of. -/
def SignatureBody.parts : SignatureBody → List TypeSig
  | types first rest => first :: rest
  | method params result throws => params ++ result :: throws

/-- All types of a body are well-formed. -/
def SignatureBody.WellFormed (b : SignatureBody) : Prop := ∀ t ∈ b.parts, t.WellFormed

/-- The type parameters and the body are well-formed. -/
structure Signature.WellFormed (s : Signature) : Prop where
  formals : ∀ ps, s.formals = some ps → FormalsWellFormed ps
  body : s.body.WellFormed

namespace Signature

variable {n : Nat} {cs rest : List Char}

/-! ## Lists of types -/

/-- Types that are read one after the other stood there, up to where reading stops. -/
lemma parseTypes?_sound {stop : List Char → Bool} {ts : List TypeSig}
    (h : parseTypes? stop n cs = some (ts, rest)) :
    (∀ t ∈ ts, t.WellFormed) ∧ cs = ts.flatMap TypeSig.render ++ rest ∧ stop rest = true := by
  induction n generalizing cs ts with
  | zero =>
    rw [parseTypes?] at h
    split at h
    · next hstop =>
      obtain ⟨rfl, rfl⟩ := Prod.mk.inj (Option.some.inj h)
      exact ⟨by simp, rfl, hstop⟩
    · exact absurd h (by simp)
  | succ n ih =>
    rw [parseTypes?] at h
    split at h
    · next hstop =>
      obtain ⟨rfl, rfl⟩ := Prod.mk.inj (Option.some.inj h)
      exact ⟨by simp, rfl, hstop⟩
    · split at h
      · next t after ht =>
        split at h
        · next ts' after' hts =>
          obtain ⟨rfl, rfl⟩ := Prod.mk.inj (Option.some.inj h)
          obtain ⟨hwf, rfl⟩ := (sound _).type _ _ _ ht
          obtain ⟨hwfs, rfl, hstop⟩ := ih hts
          refine ⟨fun u hu => ?_, by simp, hstop⟩
          rcases List.mem_cons.1 hu with rfl | hu
          · exact hwf
          · exact hwfs u hu
        · exact absurd h (by simp)
      · exact absurd h (by simp)

/-- The texts of types are read one after the other. -/
lemma parseTypes?_render {stop : List Char → Bool}
    (hgo : ∀ (t : TypeSig) (more : List Char), stop (t.render ++ more) = false)
    (hstop : stop rest = true) (ts : List TypeSig) (hwf : ∀ t ∈ ts, t.WellFormed)
    (hn : 2 * (ts.flatMap TypeSig.render).length ≤ n) :
    parseTypes? stop n (ts.flatMap TypeSig.render ++ rest) = some (ts, rest) := by
  induction ts generalizing n with
  | nil => cases n <;> simp [parseTypes?, hstop]
  | cons t ts ih =>
    have hpos := t.length_render_pos
    rw [List.flatMap_cons, List.length_append] at hn
    obtain ⟨n, rfl⟩ : ∃ k, n = k + 1 := ⟨n - 1, by omega⟩
    have ht := t.parseType?_render (hwf t List.mem_cons_self) (n + 1) (by omega)
      (ts.flatMap TypeSig.render ++ rest)
    have hts := ih (fun u hu => hwf u (List.mem_cons_of_mem _ hu)) (n := n) (by omega)
    simp [parseTypes?, hgo, ht, hts]

/-- The text of a type is not empty. -/
lemma isEmpty_render (t : TypeSig) (more : List Char) : (t.render ++ more).isEmpty = false := by
  obtain ⟨c, cs, hc, -⟩ := t.exists_render_eq_cons
  rw [hc]
  rfl

/-- The text of a type does not start like the end of a parameter list. -/
lemma head?_render (t : TypeSig) (more : List Char) :
    ((t.render ++ more).head? == some ')') = false := by
  obtain ⟨c, cs, hc, -, hfree⟩ := t.exists_render_eq_cons
  have hne : c ≠ ')' := by
    rintro rfl
    exact hfree (by decide)
  rw [hc, List.cons_append, List.head?_cons]
  simpa using hne

/-- The text of a body does not start like type parameters. -/
lemma render_ne_cons (b : SignatureBody) (rest : List Char) : b.render ≠ '<' :: rest := by
  intro h
  cases b with
  | types first others =>
    obtain ⟨c, cs, hc, -, hfree⟩ := first.exists_render_eq_cons
    rw [SignatureBody.render, hc, List.cons_append] at h
    obtain ⟨rfl, -⟩ := List.cons.inj h
    exact hfree (by decide)
  | method params result throws =>
    rw [SignatureBody.render, List.cons_append] at h
    exact absurd (List.cons.inj h).1 (by decide)

/-- Exceptions that are read stood there. -/
lemma parseThrows?_sound {ts : List TypeSig} (h : parseThrows? n cs = some (ts, rest)) :
    (∀ t ∈ ts, t.WellFormed) ∧ cs = ts.flatMap (fun t => '^' :: t.render) ++ rest := by
  fun_induction parseThrows? n cs generalizing ts rest with
  | case1 bound cs t after ht ts' after' hts ih =>
    obtain ⟨rfl, rfl⟩ := Prod.mk.inj (Option.some.inj h)
    obtain ⟨hwf, rfl⟩ := (sound _).type _ _ _ ht
    obtain ⟨hwfs, rfl⟩ := ih hts
    refine ⟨fun u hu => ?_, by simp⟩
    rcases List.mem_cons.1 hu with rfl | hu
    · exact hwf
    · exact hwfs u hu
  | case2 | case3 | case4 => exact absurd h (by simp)
  | case5 =>
    obtain ⟨rfl, rfl⟩ := Prod.mk.inj (Option.some.inj h)
    exact ⟨by simp, rfl⟩

/-- The texts of exceptions are read up to the end. -/
lemma parseThrows?_render (ts : List TypeSig) (hwf : ∀ t ∈ ts, t.WellFormed)
    (hn : 2 * (ts.flatMap fun t => '^' :: t.render).length ≤ n) :
    parseThrows? n (ts.flatMap fun t => '^' :: t.render) = some (ts, []) := by
  induction ts generalizing n with
  | nil => cases n <;> simp [parseThrows?]
  | cons t ts ih =>
    rw [List.flatMap_cons, List.length_append, List.length_cons] at hn
    obtain ⟨n, rfl⟩ : ∃ k, n = k + 1 := ⟨n - 1, by omega⟩
    have ht := t.parseType?_render (hwf t List.mem_cons_self) (n + 1) (by omega)
      (ts.flatMap fun t => '^' :: t.render)
    have hts := ih (fun u hu => hwf u (List.mem_cons_of_mem _ hu)) (n := n) (by omega)
    simp [parseThrows?, ht, hts]

/-! ## Type parameters -/

/-- Bounds that are read stood there, and reading went as far as possible. -/
lemma parseBounds?_sound {bs : List (Option TypeSig)} (h : parseBounds? n cs = some (bs, rest)) :
    cs = bs.flatMap FormalParam.renderBound ++ rest ∧
      (∀ t, some t ∈ bs → t.WellFormed ∧ t.isReference = true) ∧
      (bs.getLast? = some none → ∀ c ∈ rest.head?, ¬opensBound c) ∧ rest.head? ≠ some ':' := by
  fun_induction parseBounds? n cs generalizing bs rest with
  | case3 bound c cs hc t after ht bs' after' hbs ih =>
    obtain ⟨rfl, rfl⟩ := Prod.mk.inj (Option.some.inj h)
    obtain ⟨hwf, hcs⟩ := (sound _).type _ _ _ ht
    obtain ⟨rfl, hall, hlast, hcolon⟩ := ih hbs
    have hreference : t.isReference = true := by
      obtain ⟨d, tail, hd, hiff, -⟩ := t.exists_render_eq_cons
      rw [hd] at hcs
      exact hiff.1 ((List.cons.inj hcs).1 ▸ hc)
    refine ⟨?_, fun u hu => ?_, fun hnone => hlast ?_, hcolon⟩
    · rw [hcs]
      simp [FormalParam.renderBound]
    · rcases List.mem_cons.1 hu with heq | hu
      · obtain rfl := Option.some.inj heq
        exact ⟨hwf, hreference⟩
      · exact hall u hu
    · cases bs' with
      | nil => simp at hnone
      | cons b bs => rwa [List.getLast?_cons_cons] at hnone
  | case6 bound c cs hc bs' after hbs ih =>
    obtain ⟨rfl, rfl⟩ := Prod.mk.inj (Option.some.inj h)
    obtain ⟨hcs, hall, hlast, hcolon⟩ := ih hbs
    refine ⟨by rw [hcs]; rfl, fun u hu => ?_, fun hnone => ?_, hcolon⟩
    · exact hall u (by simpa using hu)
    · cases bs' with
      | nil =>
        rw [← show c :: cs = after from hcs]
        intro d hd
        obtain rfl : c = d := by simpa using hd
        exact hc
      | cons b bs => exact hlast (by rwa [List.getLast?_cons_cons] at hnone)
  | case1 | case2 | case4 | case5 | case7 => exact absurd h (by simp)
  | case8 bound cs hsingle hzero hsucc =>
    obtain ⟨rfl, rfl⟩ := Prod.mk.inj (Option.some.inj h)
    refine ⟨rfl, by simp, by simp, fun hhead => ?_⟩
    cases cs with
    | nil => simp at hhead
    | cons c cs =>
      obtain rfl : c = ':' := by simpa using hhead
      cases cs with
      | nil => exact hsingle rfl
      | cons d cs =>
        cases bound with
        | zero => exact hzero d cs rfl rfl
        | succ bound => exact hsucc bound d cs rfl rfl

/-- The texts of bounds are read if what follows them starts neither with a colon nor, behind an
empty bound, like a bound. -/
lemma parseBounds?_render {d : Char} {after : List Char} (hd : d ≠ ':')
    (bs : List (Option TypeSig))
    (hbs : ∀ t, some t ∈ bs → t.WellFormed ∧ t.isReference = true)
    (hlast : bs.getLast? = some none → ¬opensBound d)
    (hn : 2 * (bs.flatMap FormalParam.renderBound).length ≤ n) :
    parseBounds? n (bs.flatMap FormalParam.renderBound ++ d :: after) = some (bs, d :: after) := by
  induction bs generalizing n with
  | nil =>
    rw [List.flatMap_nil, List.nil_append]
    unfold parseBounds?
    split <;> simp_all
  | cons b bs ih =>
    have hall : ∀ t, some t ∈ bs → t.WellFormed ∧ t.isReference = true :=
      fun t ht => hbs t (List.mem_cons_of_mem _ ht)
    have hlast' : bs.getLast? = some none → ¬opensBound d := by
      intro hnone
      refine hlast ?_
      cases bs with
      | nil => simp at hnone
      | cons b' bs => rwa [List.getLast?_cons_cons]
    rw [List.flatMap_cons, List.length_append] at hn
    cases b with
    | some t =>
      obtain ⟨hwf, hreference⟩ := hbs t List.mem_cons_self
      obtain ⟨c, more, hc, hiff, -⟩ := t.exists_render_eq_cons
      have hopens := hiff.2 hreference
      rw [FormalParam.renderBound, List.length_cons] at hn
      obtain ⟨n, rfl⟩ : ∃ k, n = k + 1 := ⟨n - 1, by omega⟩
      have ht := t.parseType?_render hwf (n + 1) (by omega)
        (bs.flatMap FormalParam.renderBound ++ d :: after)
      have hrest := ih hall hlast' (n := n) (by omega)
      rw [hc, List.cons_append] at ht
      rw [List.flatMap_cons, FormalParam.renderBound, hc]
      simp only [List.cons_append, List.append_assoc, parseBounds?, hopens, if_true, ht, hrest]
    | none =>
      rw [FormalParam.renderBound, List.length_singleton] at hn
      obtain ⟨n, rfl⟩ : ∃ k, n = k + 1 := ⟨n - 1, by omega⟩
      have hrest := ih hall hlast' (n := n) (by omega)
      -- the next character belongs to another bound or to what follows
      obtain ⟨c, more, hc, hopens⟩ : ∃ c more,
          bs.flatMap FormalParam.renderBound ++ d :: after = c :: more ∧ ¬opensBound c := by
        cases bs with
        | nil => exact ⟨d, after, rfl, hlast rfl⟩
        | cons b bs =>
          cases b with
          | none => exact ⟨':', _, rfl, by simp [opensBound]⟩
          | some t => exact ⟨':', _, rfl, by simp [opensBound]⟩
      rw [opensBound] at hopens
      rw [List.flatMap_cons, FormalParam.renderBound, List.append_assoc, List.singleton_append]
      rw [hc] at hrest ⊢
      simp only [parseBounds?, hopens, if_false, hrest]

/-- Type parameters that are read stood there, with the closing bracket behind them. -/
lemma parseFormals?_sound {ps : List FormalParam} (h : parseFormals? n cs = some (ps, rest)) :
    FormalsWellFormed ps ∧ cs = ps.flatMap FormalParam.render ++ '>' :: rest := by
  fun_induction parseFormals? n cs generalizing ps rest with
  | case1 =>
    obtain ⟨rfl, rfl⟩ := Prod.mk.inj (Option.some.inj h)
    exact ⟨trivial, rfl⟩
  | case3 bound cs hopen name after hname bounds after' hbounds ps' after'' hps ih =>
    obtain ⟨rfl, rfl⟩ := Prod.mk.inj (Option.some.inj h)
    obtain ⟨hid, hcs, d, more, hd, hcolon⟩ := identifier?_eq_some_iff.1 hname
    obtain ⟨hafter, hall, hlast, hend⟩ := parseBounds?_sound hbounds
    obtain ⟨hwfs, hafter'⟩ := ih hps
    obtain rfl : d = ':' := by simpa using hcolon
    refine ⟨⟨⟨hid, fun hhead => ?_, fun hnil => ?_, hall⟩, hwfs, fun hnone => ?_⟩, ?_⟩
    · obtain ⟨c, chars, hchars⟩ := List.exists_cons_of_ne_nil
        fun hnil => hid.ne_empty (String.toList_eq_nil_iff.1 hnil)
      rw [hchars] at hhead hcs
      obtain rfl : c = '>' := by simpa using hhead
      exact hopen _ hcs
    · rw [show bounds = [] from hnil, List.flatMap_nil, List.nil_append] at hafter
      rw [← hafter, hd] at hend
      exact hend rfl
    · intro q hq c hc
      refine hlast hnone c ?_
      cases ps' with
      | nil => simp at hq
      | cons q' ps =>
        obtain rfl : q' = q := by simpa using hq
        rw [hafter', List.flatMap_cons, FormalParam.render]
        cases hchars : q'.name.toList with
        | nil => simp [hchars] at hc
        | cons x xs =>
          rw [hchars] at hc
          exact hc
    · rw [hcs, hafter, hafter']
      simp [FormalParam.render]
  | case2 | case4 | case5 | case6 => exact absurd h (by simp)

/-- The texts of type parameters are read up to the closing bracket. -/
lemma parseFormals?_render (ps : List FormalParam) (hps : FormalsWellFormed ps)
    (hn : 2 * (ps.flatMap FormalParam.render).length ≤ n) (rest : List Char) :
    parseFormals? n (ps.flatMap FormalParam.render ++ '>' :: rest) = some (ps, rest) := by
  induction ps generalizing n with
  | nil =>
    rw [List.flatMap_nil, List.nil_append]
    unfold parseFormals?
    rfl
  | cons p ps ih =>
    obtain ⟨hp, hwfs, hgap⟩ := hps
    obtain ⟨c, chars, hchars⟩ := List.exists_cons_of_ne_nil
      fun hnil => hp.name.ne_empty (String.toList_eq_nil_iff.1 hnil)
    have hc : c ≠ '>' := by
      have hhead := hp.name_head
      rw [hchars] at hhead
      simpa using hhead
    obtain ⟨b, bs, hbounds⟩ := List.exists_cons_of_ne_nil hp.bounds_ne_nil
    have hopenBound : ∃ more, p.bounds.flatMap FormalParam.renderBound = ':' :: more := by
      rw [hbounds, List.flatMap_cons]
      cases b <;> exact ⟨_, rfl⟩
    obtain ⟨more, hmore⟩ := hopenBound
    -- behind the bounds stands the name of the next parameter or the closing bracket
    obtain ⟨d, after, hd, hdcolon, hlast⟩ : ∃ d after,
        ps.flatMap FormalParam.render ++ '>' :: rest = d :: after ∧ d ≠ ':' ∧
          (p.bounds.getLast? = some none → ¬opensBound d) := by
      cases ps with
      | nil => exact ⟨'>', rest, rfl, by decide, fun _ => by simp [opensBound]⟩
      | cons q ps =>
        obtain ⟨d, tail, hd⟩ := List.exists_cons_of_ne_nil
          fun hnil => hwfs.1.name.ne_empty (String.toList_eq_nil_iff.1 hnil)
        refine ⟨d, _, by rw [List.flatMap_cons, FormalParam.render, hd]; rfl, ?_, fun hnone => ?_⟩
        · have hfree := hwfs.1.name.free d (by rw [hd]; exact List.mem_cons_self)
          simpa using hfree
        · exact hgap hnone q rfl d (by rw [hd]; rfl)
    rw [List.flatMap_cons, List.length_append, FormalParam.render, List.length_append, hchars,
      List.length_cons] at hn
    obtain ⟨n, rfl⟩ : ∃ k, n = k + 1 := ⟨n - 1, by omega⟩
    have hname : identifier? (· == ':') (p.name.toList ++
        (p.bounds.flatMap FormalParam.renderBound ++
          (ps.flatMap FormalParam.render ++ '>' :: rest))) = some (p.name, _) :=
      identifier?_eq_some_iff.2 ⟨hp.name, rfl, ':', _, by rw [hmore]; rfl, rfl⟩
    have hbs : parseBounds? (n + 1) (p.bounds.flatMap FormalParam.renderBound ++ d :: after) = _ :=
      parseBounds?_render hdcolon p.bounds hp.bounds hlast (by omega)
    have hrest := ih hwfs (n := n) (by omega)
    rw [← hd] at hbs
    rw [List.flatMap_cons, FormalParam.render, List.append_assoc, List.append_assoc]
    rw [parseFormals?, hname]
    · simp only [hbs, hrest]
    · intro cs heq
      rw [hchars] at heq
      exact hc (List.cons.inj heq).1

/-! ## Whole signatures -/

/-- A body that is read is well-formed and is the whole text. -/
lemma parseBody?_sound {b : SignatureBody} (h : parseBody? n cs = some b) :
    b.WellFormed ∧ cs = b.render := by
  unfold parseBody? at h
  split at h
  · split at h
    · next params after hparams =>
      split at h
      · next result after' hresult =>
        split at h
        · next throws hthrows =>
          obtain rfl := Option.some.inj h
          obtain ⟨hwf, rfl, hstop⟩ := parseTypes?_sound hparams
          obtain ⟨hwf', htail⟩ := (sound _).type _ _ _ hresult
          obtain ⟨hwf'', rfl⟩ := parseThrows?_sound hthrows
          cases after with
          | nil => simp at hstop
          | cons c after =>
            obtain rfl : c = ')' := by simpa using hstop
            rw [List.tail_cons] at htail
            refine ⟨List.forall_mem_append.2 ⟨hwf, List.forall_mem_cons.2 ⟨hwf', hwf''⟩⟩, ?_⟩
            rw [htail]
            simp [SignatureBody.render]
        · exact absurd h (by simp)
      · exact absurd h (by simp)
    · exact absurd h (by simp)
  · split at h
    · next first after hfirst =>
      split at h
      · next types after' htypes =>
        obtain rfl := Option.some.inj h
        obtain ⟨hwf, rfl⟩ := (sound _).type _ _ _ hfirst
        obtain ⟨hwf', rfl, hstop⟩ := parseTypes?_sound htypes
        rw [List.isEmpty_iff.1 hstop, List.append_nil]
        exact ⟨List.forall_mem_cons.2 ⟨hwf, hwf'⟩, rfl⟩
      · exact absurd h (by simp)
    · exact absurd h (by simp)

/-- The text of a well-formed body is read. -/
lemma parseBody?_render (b : SignatureBody) (hwf : b.WellFormed) (hn : 2 * b.render.length ≤ n) :
    parseBody? n b.render = some b := by
  cases b with
  | types first rest =>
    obtain ⟨hwf, hwf'⟩ := List.forall_mem_cons.1 hwf
    obtain ⟨c, more, hc, -, hfree⟩ := first.exists_render_eq_cons
    rw [SignatureBody.render, List.length_append] at hn
    have hfirst := first.parseType?_render hwf n (by omega) (rest.flatMap TypeSig.render)
    have hrest : parseTypes? List.isEmpty n (rest.flatMap TypeSig.render ++ []) = _ :=
      parseTypes?_render isEmpty_render rfl rest hwf' (by omega)
    rw [List.append_nil] at hrest
    rw [SignatureBody.render]
    unfold parseBody?
    split
    · next after heq =>
      rw [hc, List.cons_append] at heq
      obtain ⟨rfl, -⟩ := List.cons.inj heq
      exact absurd (by decide) hfree
    · simp only [hfirst, hrest]
  | method params result throws =>
    obtain ⟨hparams, hlast⟩ := List.forall_mem_append.1 hwf
    obtain ⟨hresult, hthrows⟩ := List.forall_mem_cons.1 hlast
    have hlen : (params.flatMap TypeSig.render).length + result.render.length +
        (throws.flatMap fun t => '^' :: t.render).length + 2 =
        (SignatureBody.method params result throws).render.length := by
      simp [SignatureBody.render]
      omega
    have hps : parseTypes? (fun rest => rest.head? == some ')') n (params.flatMap TypeSig.render ++
        ')' :: (result.render ++ throws.flatMap fun t => '^' :: t.render)) = _ :=
      parseTypes?_render head?_render rfl params hparams (by omega)
    have hr := result.parseType?_render hresult n (by omega)
      (throws.flatMap fun t => '^' :: t.render)
    have hts := parseThrows?_render (n := n) throws hthrows (by omega)
    simp only [SignatureBody.render, List.cons_append, List.append_assoc, parseBody?, hps,
      List.tail_cons, hr, hts]

/-- **Reading a signature is the inverse of writing it.** -/
theorem parse?_eq_some_iff {s : Signature} : parse? cs = some s ↔ s.WellFormed ∧ cs = s.render := by
  constructor
  · intro h
    unfold parse? at h
    dsimp only at h
    split at h
    · next inside =>
      split at h
      · next formals after hformals =>
        obtain ⟨body, hbody, rfl⟩ := Option.map_eq_some_iff.1 h
        obtain ⟨hwf, rfl⟩ := parseFormals?_sound hformals
        obtain ⟨hwf', rfl⟩ := parseBody?_sound hbody
        refine ⟨⟨fun ps hps => ?_, hwf'⟩, by simp [render, renderFormals]⟩
        exact Option.some.inj hps ▸ hwf
      · exact absurd h (by simp)
    · obtain ⟨body, hbody, rfl⟩ := Option.map_eq_some_iff.1 h
      obtain ⟨hwf, rfl⟩ := parseBody?_sound hbody
      exact ⟨⟨fun ps hps => absurd hps (by simp), hwf⟩, rfl⟩
  · rintro ⟨hwf, rfl⟩
    obtain ⟨formals, body⟩ := s
    cases formals with
    | none =>
      have hbody : parseBody? (3 * body.render.length + 3) body.render = some body :=
        parseBody?_render body hwf.body (by omega)
      change parse? body.render = _
      unfold parse?
      dsimp only
      split
      · next inside heq => exact absurd heq (render_ne_cons body inside)
      · rw [hbody]
        rfl
    | some ps =>
      have hformals := parseFormals?_render (n := 3 * (render ⟨some ps, body⟩).length + 3) ps
        (hwf.formals ps rfl) (by simp [render, renderFormals]; omega) body.render
      have hbody := parseBody?_render (n := 3 * (render ⟨some ps, body⟩).length + 3) body hwf.body
        (by simp [render, renderFormals]; omega)
      have hrender : render ⟨some ps, body⟩ =
          '<' :: (ps.flatMap FormalParam.render ++ '>' :: body.render) := by
        simp [render, renderFormals]
      rw [hrender] at hformals hbody ⊢
      simp only [parse?, hformals, hbody, Option.map_some]

end Signature

/-! ## Replacing class names -/

/-- The names of the classes in the bounds of a type parameter. -/
def FormalParam.classNames (p : FormalParam) : List String :=
  p.bounds.flatMap fun b => b.elim [] TypeSig.classNames

/-- The names of the classes in a body. -/
def SignatureBody.classNames (b : SignatureBody) : List String :=
  b.parts.flatMap TypeSig.classNames

/-- The names of the classes in a signature, nested classes by their binary names. -/
def Signature.classNames (s : Signature) : List String :=
  (s.formals.getD []).flatMap FormalParam.classNames ++ s.body.classNames

section Rename

variable {f g : String → String}

namespace FormalParam

variable {p : FormalParam}

/-- A dot in a bound is a dot in the type parameter. -/
lemma dot_mem_render {t : TypeSig} (ht : some t ∈ p.bounds) (hdot : '.' ∈ t.render) :
    '.' ∈ p.render := by
  refine List.mem_append_right _ (List.mem_flatMap.2 ⟨some t, ht, ?_⟩)
  exact List.mem_cons_of_mem _ hdot

/-- Replacing class names by plain ones keeps a type parameter well-formed. -/
lemma WellFormed.rename (h : p.WellFormed) (hdot : '.' ∉ p.render)
    (hf : ∀ name, f name = name ∨ ClassName.Plain (f name)) : (p.rename f).WellFormed := by
  refine ⟨h.name, h.name_head, ?_, fun t ht => ?_⟩
  · simpa [FormalParam.rename] using h.bounds_ne_nil
  · obtain ⟨b, hb, hbt⟩ := List.mem_map.1 ht
    obtain ⟨u, rfl, rfl⟩ := Option.map_eq_some_iff.1 hbt
    obtain ⟨hwf, hreference⟩ := h.bounds u hb
    refine ⟨TypeSig.WellFormed.rename hf u hwf fun hmem => hdot (dot_mem_render hb hmem), ?_⟩
    rw [TypeSig.isReference_rename, hreference]

/-- Two replacements that cancel on the class names give a type parameter back. -/
lemma rename_rename (hdot : '.' ∉ p.render) (h : ∀ name ∈ p.classNames, g (f name) = name) :
    (p.rename f).rename g = p := by
  obtain ⟨name, bounds⟩ := p
  have hbounds : (bounds.map (Option.map (TypeSig.rename f))).map (Option.map (TypeSig.rename g)) =
      bounds := by
    refine map_map_cancel fun b hb => ?_
    cases b with
    | none => rfl
    | some t =>
      have ht := t.rename_rename (f := f) (g := g) (fun hmem => hdot (dot_mem_render hb hmem))
        fun name hname => h name (List.mem_flatMap.2 ⟨some t, hb, hname⟩)
      rw [Option.map_some, Option.map_some, ht]
  rw [rename, rename, hbounds]

end FormalParam

namespace SignatureBody

variable {b : SignatureBody}

/-- A dot in a part is a dot in the body. -/
lemma dot_mem_render {t : TypeSig} (ht : t ∈ b.parts) (hdot : '.' ∈ t.render) :
    '.' ∈ b.render := by
  cases b with
  | types first rest =>
    rcases List.mem_cons.1 ht with rfl | ht
    · exact List.mem_append_left _ hdot
    · exact List.mem_append_right _ (List.mem_flatMap.2 ⟨t, ht, hdot⟩)
  | method params result throws =>
    simp only [render, List.mem_append, List.mem_cons]
    rcases List.mem_append.1 ht with ht | ht
    · exact .inl (.inl (.inr (List.mem_flatMap.2 ⟨t, ht, hdot⟩)))
    · rcases List.mem_cons.1 ht with rfl | ht
      · exact .inl (.inr (.inr hdot))
      · exact .inr (List.mem_flatMap.2 ⟨t, ht, List.mem_cons_of_mem _ hdot⟩)

/-- The parts of a body are renamed one by one. -/
lemma parts_rename (f : String → String) (b : SignatureBody) :
    (b.rename f).parts = b.parts.map (TypeSig.rename f) := by
  cases b with
  | types first rest => rfl
  | method params result throws => simp [parts, rename]

/-- A body comes back if its parts do. -/
lemma rename_rename (h : ∀ t ∈ b.parts, (t.rename f).rename g = t) :
    (b.rename f).rename g = b := by
  cases b with
  | types first rest =>
    obtain ⟨hfirst, hrest⟩ := List.forall_mem_cons.1 h
    simp only [rename, hfirst, map_map_cancel hrest]
  | method params result throws =>
    obtain ⟨hparams, hlast⟩ := List.forall_mem_append.1 h
    obtain ⟨hresult, hthrows⟩ := List.forall_mem_cons.1 hlast
    simp only [rename, hresult, map_map_cancel hparams, map_map_cancel hthrows]

end SignatureBody

namespace Signature

/-- Replacing class names by plain ones keeps type parameters well-formed. -/
lemma FormalsWellFormed.rename (hf : ∀ name, f name = name ∨ ClassName.Plain (f name)) :
    ∀ ps : List FormalParam, FormalsWellFormed ps → (∀ p ∈ ps, '.' ∉ p.render) →
      FormalsWellFormed (ps.map (FormalParam.rename f))
  | [], _, _ => trivial
  | p :: ps, ⟨hp, hps, hgap⟩, hdot => by
    obtain ⟨hdot, hdots⟩ := List.forall_mem_cons.1 hdot
    refine ⟨hp.rename hdot hf, FormalsWellFormed.rename hf ps hps hdots, fun hnone => ?_⟩
    have hlast : p.bounds.getLast? = some none := by
      simpa [FormalParam.rename] using hnone
    intro q hq
    rw [List.head?_map] at hq
    obtain ⟨q', hq', rfl⟩ := Option.map_eq_some_iff.1 hq
    exact hgap hlast q' hq'

variable {s : Signature}

/-- A dot in a type parameter is a dot in the signature. -/
lemma dot_mem_render_of_formals {ps : List FormalParam} (hps : s.formals = some ps)
    {p : FormalParam} (hp : p ∈ ps) (hdot : '.' ∈ p.render) : '.' ∈ s.render := by
  have hflat := List.mem_flatMap.2 ⟨p, hp, hdot⟩
  simp only [render, hps, renderFormals, List.mem_append, List.mem_cons]
  exact .inl (.inl (.inr hflat))

/-- Replacing class names by plain ones keeps a signature without nested classes well-formed. -/
lemma WellFormed.rename (h : s.WellFormed) (hdot : '.' ∉ s.render)
    (hf : ∀ name, f name = name ∨ ClassName.Plain (f name)) : (s.rename f).WellFormed := by
  refine ⟨fun ps hps => ?_, fun t ht => ?_⟩
  · obtain ⟨ps, hs, rfl⟩ := Option.map_eq_some_iff.1 hps
    exact FormalsWellFormed.rename hf ps (h.formals ps hs) fun p hp hmem =>
      hdot (dot_mem_render_of_formals hs hp hmem)
  · rw [show (s.rename f).body = s.body.rename f from rfl, SignatureBody.parts_rename] at ht
    obtain ⟨u, hu, rfl⟩ := List.mem_map.1 ht
    refine TypeSig.WellFormed.rename hf u (h.body u hu) fun hmem => hdot ?_
    exact List.mem_append_right _ (SignatureBody.dot_mem_render hu hmem)

/-- **A signature without nested classes is read again** after its class names have been
replaced. -/
theorem parse?_render_rename {cs : List Char} (h : parse? cs = some s) (hdot : '.' ∉ cs)
    (hf : ∀ name, f name = name ∨ ClassName.Plain (f name)) :
    parse? (s.rename f).render = some (s.rename f) := by
  obtain ⟨hwf, rfl⟩ := parse?_eq_some_iff.1 h
  exact parse?_eq_some_iff.2 ⟨hwf.rename hdot hf, rfl⟩

/-- Two replacements that cancel on the class names give a signature without nested classes
back. -/
lemma rename_rename (hdot : '.' ∉ s.render) (h : ∀ name ∈ s.classNames, g (f name) = name) :
    (s.rename f).rename g = s := by
  obtain ⟨formals, body⟩ := s
  obtain ⟨hformals, hbody⟩ := List.forall_mem_append.1 h
  have hbody' : (body.rename f).rename g = body :=
    SignatureBody.rename_rename fun t ht => t.rename_rename
      (fun hmem => hdot (List.mem_append_right _ (SignatureBody.dot_mem_render ht hmem)))
      fun name hname => hbody name (List.mem_flatMap.2 ⟨t, ht, hname⟩)
  cases formals with
  | none => simp only [rename, hbody', Option.map_none]
  | some ps =>
    have hps : (ps.map (FormalParam.rename f)).map (FormalParam.rename g) = ps :=
      map_map_cancel fun p hp => FormalParam.rename_rename
        (fun hmem => hdot (dot_mem_render_of_formals rfl hp hmem))
        fun name hname => hformals name (List.mem_flatMap.2 ⟨p, hp, hname⟩)
    simp only [rename, hbody', Option.map_some, hps]

end Signature

end Rename

end Reclass
