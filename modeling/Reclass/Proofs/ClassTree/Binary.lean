import Reclass.Codec
import Reclass.Proofs.Binary.Exact

set_option relaxedAutoImplicit false
set_option autoImplicit false

/-!
# Class trees are exactly written

The format of every part of a class is exact, and so is that of a class. A structure corresponds to
the row of its parts. The variants of a choice are numbered in the order in which the constructors
are declared, so that every value has one variant.

## Main results

* `Reclass.Header.exact_format`, `Reclass.Instruction.exact_format`,
  `Reclass.MethodDecl.exact_format` — the parts of a class.
* `Reclass.ClassTree.exact_format` — a whole class.
* `Reclass.Codec.binary_exact` — the built-in codec.
-/

namespace Reclass

open Binary

/-! ## Constants -/

lemma MemberRef.exact_format : MemberRef.format.Exact :=
  (exact_text.pair (exact_text.pair exact_text)).iso (fun _ => rfl) fun _ => rfl

lemma Handle.exact_format : Handle.format.Exact :=
  (exact_u8.pair (MemberRef.exact_format.pair exact_bool)).iso (fun _ => rfl) fun _ => rfl

/-- The variants of a constant are numbered as it is declared. -/
lemma Constant.enumerates_variants : Variant.Enumerates Constant.ctorIdx 0 variants := by
  refine .cons ⟨exact_i32.toFaithful, ?_, ?_⟩ <| .cons ⟨exact_i64.toFaithful, ?_, ?_⟩ <|
    .cons ⟨exact_u32.toFaithful, ?_, ?_⟩ <| .cons ⟨exact_u64.toFaithful, ?_, ?_⟩ <|
    .cons ⟨exact_text.toFaithful, ?_, ?_⟩ <| .cons ⟨exact_text.toFaithful, ?_, ?_⟩ <|
    .cons ⟨Handle.exact_format.toFaithful, ?_, ?_⟩ .nil
  all_goals first
    | exact fun _ => ⟨rfl, rfl⟩
    | intro c
      cases c <;> first | exact .inl ⟨_, rfl, rfl⟩ | exact .inr ⟨of_decide_eq_true rfl, rfl⟩

lemma Constant.exact_format : Constant.format.Exact :=
  exact_choice enumerates_variants (by decide) fun c => by
    cases c <;> exact of_decide_eq_true rfl

/-! ## Class-level data -/

lemma AnnotationUse.exact_format : AnnotationUse.format.Exact :=
  (exact_text.pair exact_bool).iso (fun _ => rfl) fun _ => rfl

lemma EnclosingMethod.exact_format : EnclosingMethod.format.Exact :=
  (exact_text.pair (exact_text.optional.pair exact_text.optional)).iso (fun _ => rfl) fun _ => rfl

lemma InnerClass.exact_format : InnerClass.format.Exact :=
  (exact_text.pair (exact_text.optional.pair (exact_text.optional.pair exact_u32))).iso
    (fun _ => rfl) fun _ => rfl

lemma RecordComponent.exact_format : RecordComponent.format.Exact :=
  (exact_text.pair (exact_text.pair (exact_text.optional.pair
    AnnotationUse.exact_format.list))).iso (fun _ => rfl) fun _ => rfl

lemma Header.exact_format : Header.format.Exact :=
  (exact_u32.pair (exact_u32.pair (exact_text.pair (exact_text.optional.pair
    (exact_text.optional.pair (exact_text.list.pair (exact_text.optional.pair
      (EnclosingMethod.exact_format.optional.pair (exact_text.optional.pair
        (exact_text.list.pair (exact_text.list.pair (InnerClass.exact_format.list.pair
          (AnnotationUse.exact_format.list.pair
            RecordComponent.exact_format.list))))))))))))).iso (fun _ => rfl) fun _ => rfl

/-! ## Members -/

lemma FieldDecl.exact_format : FieldDecl.format.Exact :=
  (exact_u32.pair (exact_text.pair (exact_text.pair (exact_text.optional.pair
    (Constant.exact_format.optional.pair AnnotationUse.exact_format.list))))).iso
    (fun _ => rfl) fun _ => rfl

lemma Label.exact_format : Label.format.Exact := exact_u32.iso (fun _ => rfl) fun _ => rfl

lemma ExceptionHandler.exact_format : ExceptionHandler.format.Exact :=
  (Label.exact_format.pair (Label.exact_format.pair (Label.exact_format.pair
    exact_text.optional))).iso (fun _ => rfl) fun _ => rfl

lemma LocalVariable.exact_format : LocalVariable.format.Exact :=
  (exact_text.pair (exact_text.pair (exact_text.optional.pair (Label.exact_format.pair
    (Label.exact_format.pair exact_u16))))).iso (fun _ => rfl) fun _ => rfl

/-- The kinds of frames are numbered as they are declared. -/
lemma FrameForm.exact_format : FrameForm.format.Exact := by
  have hvariants : Variant.Enumerates FrameForm.ctorIdx 0
      ([full, append, chop, same, same1].map .constant) := by
    refine .cons (.constant rfl ?_) <| .cons (.constant rfl ?_) <| .cons (.constant rfl ?_) <|
      .cons (.constant rfl ?_) <| .cons (.constant rfl ?_) .nil
    all_goals
      intro k
      cases k <;> decide
  exact exact_choice hvariants (by decide) fun k => by cases k <;> exact of_decide_eq_true rfl

/-- The variants of a verification type are numbered as it is declared. -/
lemma FrameSlot.enumerates_variants : Variant.Enumerates FrameSlot.ctorIdx 0 variants := by
  refine .cons (.constant rfl ?_) <| .cons (.constant rfl ?_) <| .cons (.constant rfl ?_) <|
    .cons (.constant rfl ?_) <| .cons (.constant rfl ?_) <| .cons (.constant rfl ?_) <|
    .cons (.constant rfl ?_) <| .cons ⟨exact_text.toFaithful, ?_, ?_⟩ <|
    .cons ⟨Label.exact_format.toFaithful, ?_, ?_⟩ .nil
  all_goals first
    | exact fun _ => ⟨rfl, rfl⟩
    | intro slot
      cases slot <;> first | exact .inl rfl | exact .inr (of_decide_eq_true rfl)
    | intro slot
      cases slot <;> first | exact .inl ⟨_, rfl, rfl⟩ | exact .inr ⟨of_decide_eq_true rfl, rfl⟩

lemma FrameSlot.exact_format : FrameSlot.format.Exact :=
  exact_choice enumerates_variants (by decide) fun slot => by
    cases slot <;> exact of_decide_eq_true rfl

/-- The variants of an instruction are numbered as it is declared. -/
lemma Instruction.enumerates_variants : Variant.Enumerates Instruction.ctorIdx 0 variants := by
  refine .cons ⟨exact_u8.toFaithful, ?_, ?_⟩ <|
    .cons ⟨(exact_u8.pair exact_i32).toFaithful, ?_, ?_⟩ <|
    .cons ⟨(exact_u8.pair exact_u16).toFaithful, ?_, ?_⟩ <|
    .cons ⟨(exact_u8.pair exact_text).toFaithful, ?_, ?_⟩ <|
    .cons ⟨(exact_u8.pair MemberRef.exact_format).toFaithful, ?_, ?_⟩ <|
    .cons ⟨(exact_u8.pair (MemberRef.exact_format.pair exact_bool)).toFaithful, ?_, ?_⟩ <|
    .cons ⟨(exact_text.pair (exact_text.pair
      (Handle.exact_format.pair Constant.exact_format.list))).toFaithful, ?_, ?_⟩ <|
    .cons ⟨(exact_u8.pair Label.exact_format).toFaithful, ?_, ?_⟩ <|
    .cons ⟨Label.exact_format.toFaithful, ?_, ?_⟩ <|
    .cons ⟨Constant.exact_format.toFaithful, ?_, ?_⟩ <|
    .cons ⟨(exact_u16.pair exact_i16).toFaithful, ?_, ?_⟩ <|
    .cons ⟨(exact_i32.pair (exact_i32.pair
      (Label.exact_format.pair Label.exact_format.list))).toFaithful, ?_, ?_⟩ <|
    .cons ⟨(Label.exact_format.pair
      (exact_i32.list.pair Label.exact_format.list)).toFaithful, ?_, ?_⟩ <|
    .cons ⟨(exact_text.pair exact_u8).toFaithful, ?_, ?_⟩ <|
    .cons ⟨(FrameForm.exact_format.pair
      (FrameSlot.exact_format.list.pair FrameSlot.exact_format.list)).toFaithful, ?_, ?_⟩ <|
    .cons ⟨(exact_u16.pair Label.exact_format).toFaithful, ?_, ?_⟩ .nil
  all_goals first
    | exact fun _ => ⟨rfl, rfl⟩
    | intro i
      cases i <;> first | exact .inl ⟨_, rfl, rfl⟩ | exact .inr ⟨of_decide_eq_true rfl, rfl⟩

lemma Instruction.exact_format : Instruction.format.Exact :=
  exact_choice enumerates_variants (by decide) fun i => by
    cases i <;> exact of_decide_eq_true rfl

lemma MethodDecl.exact_format : MethodDecl.format.Exact :=
  (exact_u32.pair (exact_text.pair (exact_text.pair (exact_text.optional.pair
    (exact_text.list.pair (AnnotationUse.exact_format.list.pair
      (AnnotationUse.exact_format.list.list.pair (Instruction.exact_format.list.pair
        (ExceptionHandler.exact_format.list.pair (LocalVariable.exact_format.list.pair
          (exact_u16.pair exact_u16))))))))))).iso (fun _ => rfl) fun _ => rfl

/-! ## Classes -/

/-- **Class trees are exactly written.** -/
theorem ClassTree.exact_format : ClassTree.format.Exact :=
  (Header.exact_format.pair (FieldDecl.exact_format.list.pair MethodDecl.exact_format.list)).iso
    (fun _ => rfl) fun _ => rfl

namespace Codec

variable {bytes : List UInt8} {c : ClassTree}

/-- The built-in codec reads what the format of class trees reads. -/
lemma read_binary_eq_ok_iff :
    binary.read bytes = .ok c ↔ ∃ rest, ClassTree.format.read bytes = some (c, rest) := by
  simp only [binary, ClassTree.ofBytes?]
  cases ClassTree.format.read bytes with
  | none => simp
  | some found => simp [Prod.ext_iff]

/-- The built-in codec reads nothing else. -/
lemma read_binary_of_none (h : ClassTree.format.read bytes = none) :
    binary.read bytes = .error ["Failed to deserialize class tree"] := by
  simp only [binary, ClassTree.ofBytes?, h, Option.map_none]

/-- What was written is read back, whatever follows. -/
lemma read_binary_append (hsize : c.toBytes.length < 2 ^ 64) (rest : List UInt8) :
    binary.read (c.toBytes ++ rest) = .ok c := by
  rw [ClassTree.toBytes] at hsize ⊢
  exact read_binary_eq_ok_iff.2 ⟨rest, ClassTree.exact_format.read_write c rest hsize⟩

/-- **The built-in codec is exact in both directions.** A class is written, and as long as its form
is shorter than 2⁶⁴ bytes it is read back from this form whatever follows, and from nothing that is
cut off. Conversely, whatever bytes a class is read from begin with the form of this class.

**Proof sketch.** The first direction is `read_write` of the format, the last one `eq_write`. That
nothing can be read if something is missing follows from both (`Faithful.read_eq_none`). -/
theorem binary_exact :
    (∀ c : ClassTree, binary.write c = .ok c.toBytes ∧ (c.toBytes.length < 2 ^ 64 →
      (∀ rest, binary.read (c.toBytes ++ rest) = .ok c) ∧
      ∀ cut, cut <+: c.toBytes → cut ≠ c.toBytes →
        binary.read cut = .error ["Failed to deserialize class tree"])) ∧
    ∀ (bytes : List UInt8) (c : ClassTree), binary.read bytes = .ok c → c.toBytes <+: bytes := by
  have hexact := ClassTree.exact_format.toFaithful
  refine ⟨fun c => ⟨rfl, ?_⟩, fun bytes c h => ?_⟩
  · intro hsize
    refine ⟨read_binary_append hsize, fun cut hcut hne => ?_⟩
    rw [ClassTree.toBytes] at hsize hcut hne
    exact read_binary_of_none (hexact.read_eq_none hsize hcut hne)
  · obtain ⟨rest, hrest⟩ := read_binary_eq_ok_iff.1 h
    rw [hexact.eq_write bytes c rest hrest, ClassTree.toBytes]
    exact List.prefix_append _ _

/-- A method that loads a number which is none and calls dynamically is read back from its form with
something behind it, and not from the form without its last byte. -/
theorem binary_exact_of_dynamic_call :
    let bootstrap : Handle := ⟨6, ⟨"a/B", "link", "()V"⟩, true⟩
    let run : MethodDecl :=
      { access := 9, name := "run", descriptor := "()V", exceptions := ["a/E"]
        instructions := [.load (.double 0x7ff8000000000001), .frame .same1 [] [.object "[La/B;"],
          .dynamic "call" "(D)V" bootstrap [.float 0x7fc00001, .string "\u00e9"]] }
    let c : ClassTree :=
      { header := { version := 52, access := 33, name := "a/B", superName := some "a/A" }
        methods := [run] }
    c.toBytes.length < 2 ^ 64 ∧ binary.read (c.toBytes ++ [7, 7]) = .ok c ∧
      binary.read c.toBytes.dropLast = .error ["Failed to deserialize class tree"] := by
  intro bootstrap run c
  have hsize : c.toBytes.length < 2 ^ 64 := by decide +kernel
  obtain ⟨hread, hcut⟩ := (binary_exact.1 c).2 hsize
  refine ⟨hsize, hread [7, 7], hcut _ (List.dropLast_prefix _) fun heq => ?_⟩
  have hlength := congrArg List.length heq
  rw [List.length_dropLast] at hlength
  have hpos : 0 < c.toBytes.length := ClassTree.exact_format.length_pos c
  omega

end Codec

end Reclass
