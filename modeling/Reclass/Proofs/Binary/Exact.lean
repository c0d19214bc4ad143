import Mathlib.Algebra.Group.Nat.Defs
import Mathlib.Tactic.Lemma
import Reclass.Binary.Format

set_option relaxedAutoImplicit false
set_option autoImplicit false

/-!
# Exact formats

A format is exact if its two directions belong to each other: what is written is read back whatever
follows it, and nothing can be read but what is written. Then no value has two forms, and no form is
the beginning of another one. Formats that are built from exact ones are exact again.

Lengths are written in eight bytes. So the first direction is about values whose form is shorter
than 2⁶⁴ bytes, as is every sequence of bytes in the memory of a machine with 64-bit addresses. The
second direction needs no such bound.

## Main definitions

* `Reclass.Binary.Format.Faithful` — the two directions undo each other.
* `Reclass.Binary.Format.Exact` — moreover every value takes at least one byte.
* `Reclass.Binary.Variant.Enumerates` — a list of variants that tells values apart.

## Main results

* `Reclass.Binary.Format.Faithful.read_eq_none` — what is cut off cannot be read.
* `Reclass.Binary.Format.Exact.list`, `exact_choice` — lists and choices of exact formats.
* `Reclass.Binary.exact_text` — text is written exactly.
-/

namespace Reclass.Binary

/-! ## Numbers -/

/-- A number that was read fits its width, and its bytes are those that are written for it. -/
lemma eq_littleEndian_append {width n : Nat} {bytes rest : List UInt8}
    (h : readLittleEndian width bytes = some (n, rest)) :
    bytes = littleEndian width n ++ rest ∧ n < 256 ^ width := by
  induction width generalizing bytes n with
  | zero =>
    obtain ⟨rfl, rfl⟩ := Prod.mk.inj (Option.some.inj h)
    exact ⟨rfl, by decide⟩
  | succ width ih =>
    cases bytes with
    | nil => simp [readLittleEndian] at h
    | cons b bytes =>
      rw [readLittleEndian] at h
      split at h
      · next m after hm =>
        obtain ⟨rfl, rfl⟩ := Prod.mk.inj (Option.some.inj h)
        obtain ⟨rfl, hlt⟩ := ih hm
        have hb : b.toNat < 256 := b.toNat_lt
        have hlow : (b.toNat + 256 * m) % 256 = b.toNat := by omega
        have hhigh : (b.toNat + 256 * m) / 256 = m := by omega
        refine ⟨?_, by rw [Nat.pow_succ]; omega⟩
        rw [littleEndian, hlow, hhigh, UInt8.ofNat_toNat, List.cons_append]
      · simp at h

/-- A length that fits is read back. -/
lemma length_read_write {n : Nat} (h : n < 2 ^ 64) (rest : List UInt8) :
    length.read (length.write n ++ rest) = some (n, rest) := by
  have hread := readLittleEndian_append 8 n rest
  rwa [Nat.mod_eq_of_lt (show n < Nat.pow 256 8 from h)] at hread

/-- A length that was read fits. -/
lemma eq_length_write {n : Nat} {bytes rest : List UInt8}
    (h : length.read bytes = some (n, rest)) : bytes = length.write n ++ rest ∧ n < 2 ^ 64 :=
  eq_littleEndian_append h

/-! ## Both directions -/

namespace Format

variable {α β : Type} {f : Format α} {g : Format β}

/-- What is written is read back whatever follows it, as long as its length can be written, and
nothing is read but what is written. -/
structure Faithful (f : Format α) : Prop where
  read_write : ∀ (a : α) (rest : List UInt8), (f.write a).length < 2 ^ 64 →
    f.read (f.write a ++ rest) = some (a, rest)
  eq_write : ∀ (bytes : List UInt8) (a : α) (rest : List UInt8),
    f.read bytes = some (a, rest) → bytes = f.write a ++ rest

/-- Both directions belong to each other, and every value takes some room. -/
structure Exact (f : Format α) : Prop extends Faithful f where
  length_pos : ∀ a, 0 < (f.write a).length

/-- What is cut off cannot be read.

**Proof sketch.** If a value could be read from it then the form of that value would begin the whole
as well, so that the whole would be read as this value with something behind it. But nothing is
left behind the whole. -/
theorem Faithful.read_eq_none (hf : f.Faithful) {a : α} {cut : List UInt8}
    (hsize : (f.write a).length < 2 ^ 64) (hcut : cut <+: f.write a) (hne : cut ≠ f.write a) :
    f.read cut = none := by
  obtain ⟨missing, hmissing⟩ := hcut
  cases hread : f.read cut with
  | none => rfl
  | some found =>
    obtain ⟨b, rest⟩ := found
    have hwhole : f.write a = f.write b ++ (rest ++ missing) := by
      rw [← hmissing, hf.eq_write cut b rest hread, List.append_assoc]
    have hsize' : (f.write b).length < 2 ^ 64 := by
      rw [hwhole, List.length_append] at hsize
      omega
    have hboth := hf.read_write b (rest ++ missing) hsize'
    have hself := hf.read_write a [] hsize
    rw [← hwhole] at hboth
    rw [List.append_nil, hboth] at hself
    have hrest : rest ++ missing = [] := congrArg Prod.snd (Option.some.inj hself)
    obtain ⟨-, rfl⟩ := List.append_eq_nil_iff.1 hrest
    exact absurd (by rw [← hmissing, List.append_nil]) hne

/-! ## Other values in the same form -/

/-- Values can be written as others if they are told from those that stand for none. -/
lemma Faithful.refine (hf : f.Faithful) {encode : β → α} {decode? : α → Option β}
    (hdecode : ∀ b, decode? (encode b) = some b)
    (hencode : ∀ a b, decode? a = some b → encode b = a) :
    (f.refine encode decode?).Faithful where
  read_write b rest hsize := by
    have hread := hf.read_write (encode b) rest hsize
    simp only [Format.refine, hread, hdecode, Option.map_some]
  eq_write bytes b rest h := by
    simp only [Format.refine] at h ⊢
    split at h
    · next a after ha =>
      obtain ⟨b', hb', heq⟩ := Option.map_eq_some_iff.1 h
      obtain ⟨rfl, rfl⟩ := Prod.mk.inj heq
      rw [hencode a b' hb']
      exact hf.eq_write bytes a after ha
    · simp at h

/-- Values can be written as others if they are told from those that stand for none. -/
lemma Exact.refine (hf : f.Exact) {encode : β → α} {decode? : α → Option β}
    (hdecode : ∀ b, decode? (encode b) = some b)
    (hencode : ∀ a b, decode? a = some b → encode b = a) : (f.refine encode decode?).Exact :=
  ⟨hf.toFaithful.refine hdecode hencode, fun b => hf.length_pos (encode b)⟩

/-- Values can be written as others if the two correspond. -/
lemma Exact.iso (hf : f.Exact) {encode : β → α} {decode : α → β}
    (hdecode : ∀ b, decode (encode b) = b) (hencode : ∀ a, encode (decode a) = a) :
    (f.iso encode decode).Exact := by
  refine hf.refine (fun b => congrArg some (hdecode b)) fun a b h => ?_
  rw [← Option.some.inj h, hencode]

/-- Values can be written as numbers that fit the width if the two correspond. -/
lemma exact_word {width : Nat} (hwidth : 0 < width) {encode : α → Nat} {decode : Nat → α}
    (hfits : ∀ a, encode a < 256 ^ width) (hdecode : ∀ a, decode (encode a) = a)
    (hencode : ∀ n < 256 ^ width, encode (decode n) = n) :
    ((word width).iso encode decode).Exact where
  read_write a rest _ := by
    have hread := readLittleEndian_append width (encode a) rest
    rw [Nat.pow_eq, Nat.mod_eq_of_lt (hfits a)] at hread
    simp only [Format.iso, Format.refine, word, hread, hdecode, Option.map_some]
  eq_write bytes a rest h := by
    simp only [Format.iso, Format.refine, word] at h ⊢
    split at h
    · next n after hn =>
      obtain ⟨rfl, rfl⟩ := Prod.mk.inj (Option.some.inj h)
      obtain ⟨rfl, hlt⟩ := eq_littleEndian_append hn
      rw [hencode n hlt]
    · simp at h
  length_pos a := by
    have hlength : (((word width).iso encode decode).write a).length = width :=
      length_littleEndian width (encode a)
    rwa [hlength]

end Format

/-! ## Basic formats -/

open Format

lemma exact_u8 : u8.Exact :=
  exact_word (by decide) UInt8.toNat_lt (fun _ => UInt8.ofNat_toNat)
    fun _ h => UInt8.toNat_ofNat_of_lt' h

lemma exact_u16 : u16.Exact :=
  exact_word (by decide) UInt16.toNat_lt (fun _ => UInt16.ofNat_toNat)
    fun _ h => UInt16.toNat_ofNat_of_lt' h

lemma exact_u32 : u32.Exact :=
  exact_word (by decide) UInt32.toNat_lt (fun _ => UInt32.ofNat_toNat)
    fun _ h => UInt32.toNat_ofNat_of_lt' h

lemma exact_u64 : u64.Exact :=
  exact_word (by decide) UInt64.toNat_lt (fun _ => UInt64.ofNat_toNat)
    fun _ h => UInt64.toNat_ofNat_of_lt' h

lemma exact_i16 : i16.Exact :=
  exact_u16.iso Int16.toInt16_toUInt16 UInt16.toUInt16_toInt16

lemma exact_i32 : i32.Exact :=
  exact_u32.iso Int32.toInt32_toUInt32 UInt32.toUInt32_toInt32

lemma exact_i64 : i64.Exact :=
  exact_u64.iso Int64.toInt64_toUInt64 UInt64.toUInt64_toInt64

/-- Of the bytes only 0 and 1 stand for truth values. -/
lemma exact_bool : bool.Exact := by
  refine exact_u8.refine (fun b => by cases b <;> rfl) fun n b h => ?_
  split at h
  · next h0 =>
    obtain rfl := Option.some.inj h
    exact h0.symm
  · split at h
    · next h1 =>
      obtain rfl := Option.some.inj h
      exact h1.symm
    · simp at h

/-! ## Sequences -/

namespace Format

variable {α β : Type} {f : Format α} {g : Format β}

/-- Two values in a row are read back one after the other. -/
lemma Exact.pair (hf : f.Exact) (hg : g.Exact) : (f.pair g).Exact where
  read_write p rest hsize := by
    simp only [Format.pair, List.length_append] at hsize
    have hfirst := hf.read_write p.1 (g.write p.2 ++ rest) (by omega)
    have hsecond := hg.read_write p.2 rest (by omega)
    simp only [Format.pair, List.append_assoc, hfirst, hsecond]
  eq_write bytes p rest h := by
    simp only [Format.pair] at h ⊢
    split at h
    · next a between ha =>
      split at h
      · next b after hb =>
        obtain ⟨rfl, rfl⟩ := Prod.mk.inj (Option.some.inj h)
        rw [hf.eq_write bytes a between ha, hg.eq_write between b after hb, List.append_assoc]
      · simp at h
    · simp at h
  length_pos p := by
    have hpos := hf.length_pos p.1
    simp only [Format.pair, List.length_append]
    omega

/-- Values that take some room are no more than the bytes they take. -/
lemma Exact.length_le (hf : f.Exact) (as : List α) : as.length ≤ (as.flatMap f.write).length := by
  induction as with
  | nil => exact Nat.le_refl 0
  | cons a as ih =>
    have hpos := hf.length_pos a
    simp only [List.flatMap_cons, List.length_append, List.length_cons]
    omega

/-- Values in a row are read back if it is known how many they are. -/
lemma Exact.readMany_append (hf : f.Exact) {as : List α}
    (hsize : (as.flatMap f.write).length < 2 ^ 64) (rest : List UInt8) :
    f.readMany as.length (as.flatMap f.write ++ rest) = some (as, rest) := by
  induction as with
  | nil => rfl
  | cons a as ih =>
    simp only [List.flatMap_cons, List.length_append] at hsize
    have hfirst := hf.read_write a (as.flatMap f.write ++ rest) (by omega)
    have hothers := ih (by omega)
    simp only [List.flatMap_cons, List.length_cons, List.append_assoc, readMany, hfirst, hothers]

/-- Values that were read in a row are as many as they should be, and their bytes are those that are
written for them. -/
lemma Exact.eq_flatMap_append (hf : f.Exact) {count : Nat} {bytes rest : List UInt8} {as : List α}
    (h : f.readMany count bytes = some (as, rest)) :
    as.length = count ∧ bytes = as.flatMap f.write ++ rest := by
  induction count generalizing bytes as with
  | zero =>
    obtain ⟨rfl, rfl⟩ := Prod.mk.inj (Option.some.inj h)
    exact ⟨rfl, rfl⟩
  | succ count ih =>
    rw [readMany] at h
    split at h
    · next a between ha =>
      split at h
      · next others after hothers =>
        obtain ⟨rfl, rfl⟩ := Prod.mk.inj (Option.some.inj h)
        obtain ⟨rfl, rfl⟩ := ih hothers
        refine ⟨rfl, ?_⟩
        rw [hf.eq_write bytes a _ ha, List.flatMap_cons, List.append_assoc]
      · simp at h
    · simp at h

/-- **Lists of exactly written values are exactly written.** -/
theorem Exact.list (hf : f.Exact) : f.list.Exact where
  read_write as rest hsize := by
    simp only [Format.list, List.length_append] at hsize
    have hcount : as.length < 2 ^ 64 := by
      have hle := hf.length_le as
      omega
    have hlength := length_read_write hcount (as.flatMap f.write ++ rest)
    have hshort : (as.flatMap f.write).length < 2 ^ 64 := by omega
    have hmembers := hf.readMany_append hshort rest
    simp only [Format.list, List.append_assoc, hlength, hmembers]
  eq_write bytes as rest h := by
    simp only [Format.list] at h ⊢
    split at h
    · next count between hcount =>
      obtain ⟨rfl, rfl⟩ := hf.eq_flatMap_append h
      rw [(eq_length_write hcount).1, List.append_assoc]
    · simp at h
  length_pos as := by
    have hlength : (length.write as.length).length = 8 := length_littleEndian 8 as.length
    simp only [Format.list, List.length_append, hlength]
    omega

/-- Optional values are told apart by their first byte. -/
lemma Exact.optional (hf : f.Exact) : f.optional.Exact where
  read_write o rest hsize := by
    cases o with
    | none =>
      have hmark := exact_bool.read_write false rest (by decide)
      simp only [Format.optional, hmark]
    | some a =>
      simp only [Format.optional, List.length_append] at hsize
      have hmark := exact_bool.read_write true (f.write a ++ rest) (by decide)
      have hvalue := hf.read_write a rest (by omega)
      simp only [Format.optional, List.append_assoc, hmark, hvalue]
  eq_write bytes o rest h := by
    simp only [Format.optional] at h
    split at h
    · next after hmark =>
      obtain ⟨rfl, rfl⟩ := Prod.mk.inj (Option.some.inj h)
      exact exact_bool.eq_write bytes false after hmark
    · next between hmark =>
      split at h
      · next a after ha =>
        obtain ⟨rfl, rfl⟩ := Prod.mk.inj (Option.some.inj h)
        rw [exact_bool.eq_write bytes true between hmark, hf.eq_write between a after ha,
          ← List.append_assoc]
        rfl
      · simp at h
    · simp at h
  length_pos o := by
    have hmark := exact_bool.length_pos o.isSome
    cases o with
    | none => exact hmark
    | some a =>
      simp only [Format.optional, List.length_append]
      exact Nat.add_pos_left hmark _

end Format

/-- Bytes behind their number are read back. -/
lemma exact_blob : blob.Exact where
  read_write bytes rest hsize := by
    simp only [blob, List.length_append] at hsize
    have hlength := length_read_write (n := bytes.length) (by omega) (bytes ++ rest)
    have hroom : bytes.length ≤ (bytes ++ rest).length := by
      rw [List.length_append]
      omega
    simp only [blob, List.append_assoc, hlength, hroom, if_true, List.take_left, List.drop_left]
  eq_write all bytes rest h := by
    simp only [blob] at h ⊢
    split at h
    · next count between hcount =>
      split at h
      · next hroom =>
        obtain ⟨rfl, rfl⟩ := Prod.mk.inj (Option.some.inj h)
        rw [List.length_take_of_le hroom, List.append_assoc, List.take_append_drop]
        exact (eq_length_write hcount).1
      · simp at h
    · simp at h
  length_pos bytes := by
    have hlength : (length.write bytes.length).length = 8 := length_littleEndian 8 bytes.length
    simp only [blob, List.length_append, hlength]
    omega

/-- **Text is exactly written**: no other bytes than those of a text are accepted for it. -/
theorem exact_text : text.Exact := by
  refine exact_blob.refine (fun s => ?_) fun bytes s h => ?_
  · rw [Array.toArray_toList]
    exact dif_pos s.isValidUTF8
  · unfold String.fromUTF8? at h
    split at h
    · obtain rfl := Option.some.inj h
      rfl
    · simp at h

/-! ## Variants -/

namespace Variant

variable {α : Type} {number : α → Nat} {v : Variant α} {vs : List (Variant α)} {tag : Nat}

/-- The variant of the values with this number: it takes them apart exactly, and no others. -/
structure Numbered (number : α → Nat) (tag : Nat) (v : Variant α) : Prop where
  faithful : v.format.Faithful
  make : ∀ p, v.payload? (v.make p) = some p ∧ number (v.make p) = tag
  split : ∀ a, (∃ p, v.payload? a = some p ∧ a = v.make p) ∨ number a ≠ tag ∧ v.payload? a = none

/-- The variants of the values with the numbers from `tag` on, in order. -/
inductive Enumerates (number : α → Nat) : Nat → List (Variant α) → Prop
  | nil {tag : Nat} : Enumerates number tag []
  | cons {tag : Nat} {v : Variant α} {vs : List (Variant α)} (hfirst : v.Numbered number tag)
      (hothers : Enumerates number (tag + 1) vs) : Enumerates number tag (v :: vs)

/-- Values with the number of a variant are made by it. -/
lemma Numbered.exists_make (h : v.Numbered number tag) {a : α} (ha : number a = tag) :
    ∃ p, a = v.make p := by
  obtain ⟨p, -, hp⟩ := (h.split a).resolve_right fun hother => hother.1 ha
  exact ⟨p, hp⟩

/-- Values with another number are not taken by a variant. -/
lemma Numbered.payload?_eq_none (h : v.Numbered number tag) {a : α} (ha : number a ≠ tag) :
    v.payload? a = none := by
  rcases h.split a with ⟨p, -, rfl⟩ | hother
  · exact absurd (h.make p).2 ha
  · exact hother.2

/-- The variant of a value that carries nothing has the number of this value. -/
lemma Numbered.constant [DecidableEq α] {a : α} (ha : number a = tag)
    (h : ∀ b, b = a ∨ number b ≠ number a) : (Variant.constant a).Numbered number tag where
  faithful := ⟨fun _ _ _ => rfl, fun _ _ _ h => congrArg Prod.snd (Option.some.inj h)⟩
  make _ := ⟨if_pos rfl, ha⟩
  split b := (h b).imp (fun heq => ⟨(), if_pos heq, heq⟩) fun hne =>
    ⟨ha ▸ hne, if_neg fun heq : b = a => hne (congrArg number heq)⟩

/-- A variant in its place has its number. -/
lemma Enumerates.numbered (h : Enumerates number tag vs) {i : Nat} (hv : vs[i]? = some v) :
    v.Numbered number (tag + i) := by
  induction h generalizing i with
  | nil => simp at hv
  | @cons tag w ws hfirst hothers ih =>
    cases i with
    | zero =>
      obtain rfl : w = v := by simpa using hv
      exact hfirst
    | succ i =>
      have hnumbered := ih (i := i) (by simpa using hv)
      rwa [Nat.add_right_comm] at hnumbered

/-- A value is written behind the number of its variant: no variant before that takes it. -/
lemma Enumerates.write_make (h : Enumerates number tag vs) {i : Nat} (hv : vs[i]? = some v)
    (p : v.Payload) :
    write tag vs (v.make p) = u32.write (UInt32.ofNat (tag + i)) ++ v.format.write p := by
  obtain ⟨hpayload, hnumber⟩ := (h.numbered hv).make p
  induction h generalizing i with
  | nil => simp at hv
  | @cons tag w ws hfirst hothers ih =>
    cases i with
    | zero =>
      obtain rfl : w = v := by simpa using hv
      simp only [write, hpayload, Nat.add_zero]
    | succ i =>
      have hother := hfirst.payload?_eq_none (a := v.make p) (by omega)
      simp only [write, hother]
      rw [ih (i := i) (by simpa using hv) (by omega), Nat.add_right_comm, Nat.add_assoc]

end Variant

/-- **Values of several variants are exactly written** if every value has its variant, and the
numbers of the variants fit. -/
theorem exact_choice {α : Type} {number : α → Nat} {variants : List (Variant α)}
    (h : Variant.Enumerates number 0 variants) (hsize : variants.length ≤ 2 ^ 32)
    (hall : ∀ a, number a < variants.length) : (Format.choice variants).Exact := by
  have hwrite : ∀ (a : α), ∃ (v : Variant α) (p : v.Payload),
      variants[number a]? = some v ∧ v.make p = a := by
    intro a
    have hv := List.getElem?_eq_getElem (hall a)
    obtain ⟨p, hp⟩ := (h.numbered hv).exists_make (Nat.zero_add _).symm
    exact ⟨_, p, hv, hp.symm⟩
  have htag : ∀ i, i < variants.length → (UInt32.ofNat (0 + i)).toNat = i := by
    intro i hi
    rw [Nat.zero_add]
    exact UInt32.toNat_ofNat_of_lt' (Nat.lt_of_lt_of_le hi hsize)
  constructor
  · constructor
    · intro a rest hfits
      obtain ⟨v, p, hv, rfl⟩ := hwrite a
      have hform := h.write_make hv p
      simp only [Format.choice, hform, List.length_append] at hfits ⊢
      have hnumber := exact_u32.read_write (UInt32.ofNat (0 + number (v.make p)))
        (v.format.write p ++ rest) (by omega)
      have hvalue := (h.numbered hv).faithful.read_write p rest (by omega)
      simp only [List.append_assoc, hnumber, htag _ (hall _), hv, hvalue]
    · intro bytes a rest hread
      simp only [Format.choice] at hread ⊢
      split at hread
      · next tag between htag' =>
        split at hread
        · next v hv =>
          split at hread
          · next p after hp =>
            obtain ⟨rfl, rfl⟩ := Prod.mk.inj (Option.some.inj hread)
            rw [h.write_make hv p, Nat.zero_add, UInt32.ofNat_toNat,
              exact_u32.eq_write bytes tag between htag',
              (h.numbered hv).faithful.eq_write between p _ hp, List.append_assoc]
          · simp at hread
        · simp at hread
      · simp at hread
  · intro a
    obtain ⟨v, p, hv, rfl⟩ := hwrite a
    have hpos := exact_u32.length_pos (UInt32.ofNat (0 + number (v.make p)))
    simp only [Format.choice, h.write_make hv p, List.length_append]
    omega

end Reclass.Binary
