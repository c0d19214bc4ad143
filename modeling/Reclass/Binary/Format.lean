set_option autoImplicit false

/-!
# Binary formats

A binary format says how values of a type are written as bytes and read back. Numbers are little
endian and of fixed width. Lengths are 64-bit, marks of presence one byte, tags of variants 32-bit.
Reading takes what it needs from the front and returns the rest, or fails.

Formats of structures are built from those of their parts, so that both directions always agree on
order and width.

## Main definitions

* `Reclass.Binary.Format` — a writer with its reader.
* `Reclass.Binary.u8`, `u16`, `u32`, `u64`, `i16`, `i32`, `i64`, `bool`, `text` — basic formats.
* `Reclass.Binary.Format.pair`, `list`, `optional`, `iso`, `choice` — formats built from others.

## Main results

* `Reclass.Binary.readLittleEndian_append` — a number that fits its width is read back.
-/

namespace Reclass.Binary

/-- A way to write values as bytes, and to read one value from the front of some bytes. -/
structure Format (α : Type) where
  write : α → List UInt8
  read : List UInt8 → Option (α × List UInt8)

/-! ## Numbers -/

/-- The given number of low bytes of a number, the lowest first. -/
def littleEndian : Nat → Nat → List UInt8
  | 0, _ => []
  | width + 1, n => UInt8.ofNat (n % 256) :: littleEndian width (n / 256)

/-- The number that the given count of bytes stands for, the lowest first, and the other bytes. -/
def readLittleEndian : Nat → List UInt8 → Option (Nat × List UInt8)
  | 0, bytes => some (0, bytes)
  | _ + 1, [] => none
  | width + 1, b :: bytes =>
    match readLittleEndian width bytes with
    | some (n, rest) => some (b.toNat + 256 * n, rest)
    | none => none

@[simp] theorem length_littleEndian (width n : Nat) : (littleEndian width n).length = width := by
  induction width generalizing n with
  | zero => rfl
  | succ width ih => simp [littleEndian, ih]

/-- Reading returns as much of a number as the width can hold, and what follows it. -/
theorem readLittleEndian_append (width n : Nat) (rest : List UInt8) :
    readLittleEndian width (littleEndian width n ++ rest) = some (n % Nat.pow 256 width, rest) := by
  induction width generalizing n with
  | zero => simp [littleEndian, readLittleEndian, Nat.mod_one]
  | succ width ih =>
    have hb : (UInt8.ofNat (n % 256)).toNat = n % 256 := by simp
    simp only [littleEndian, List.cons_append, readLittleEndian, ih, hb, Option.some.injEq,
      Prod.mk.injEq, and_true]
    rw [Nat.pow_eq, Nat.pow_eq, Nat.pow_succ', Nat.mod_mul]

/-- Numbers of a fixed width in bytes. -/
def word (width : Nat) : Format Nat := ⟨littleEndian width, readLittleEndian width⟩

namespace Format

variable {α β : Type}

/-- The format of one type used for another; not every value of the first need be acceptable. -/
def refine (encode : α → β) (decode? : β → Option α) (f : Format β) : Format α where
  write a := f.write (encode a)
  read bytes :=
    match f.read bytes with
    | some (b, rest) => (decode? b).map (·, rest)
    | none => none

/-- The format of one type used for another with the same values. -/
def iso (encode : α → β) (decode : β → α) (f : Format β) : Format α :=
  f.refine encode fun b => some (decode b)

end Format

/-- A byte. -/
def u8 : Format UInt8 := (word 1).iso UInt8.toNat UInt8.ofNat

/-- An unsigned 16-bit number. -/
def u16 : Format UInt16 := (word 2).iso UInt16.toNat UInt16.ofNat

/-- An unsigned 32-bit number. -/
def u32 : Format UInt32 := (word 4).iso UInt32.toNat UInt32.ofNat

/-- An unsigned 64-bit number. -/
def u64 : Format UInt64 := (word 8).iso UInt64.toNat UInt64.ofNat

/-- A signed 16-bit number. -/
def i16 : Format Int16 := u16.iso Int16.toUInt16 UInt16.toInt16

/-- A signed 32-bit number. -/
def i32 : Format Int32 := u32.iso Int32.toUInt32 UInt32.toInt32

/-- A signed 64-bit number. -/
def i64 : Format Int64 := u64.iso Int64.toUInt64 UInt64.toInt64

/-- A truth value: one byte, which must be 0 or 1. -/
def bool : Format Bool :=
  u8.refine (fun b => if b then 1 else 0) fun n =>
    if n = 0 then some false else if n = 1 then some true else none

/-! ## Sequences -/

/-- A number of items, as written in front of them. -/
def length : Format Nat := word 8

namespace Format

variable {α β : Type}

/-- Two values, one behind the other. -/
def pair (f : Format α) (g : Format β) : Format (α × β) where
  write p := f.write p.1 ++ g.write p.2
  read bytes :=
    match f.read bytes with
    | some (a, rest) =>
      match g.read rest with
      | some (b, rest) => some ((a, b), rest)
      | none => none
    | none => none

/-- A given number of values, one behind the other. -/
def readMany (f : Format α) : Nat → List UInt8 → Option (List α × List UInt8)
  | 0, bytes => some ([], bytes)
  | count + 1, bytes =>
    match f.read bytes with
    | some (a, rest) =>
      match f.readMany count rest with
      | some (as, rest) => some (a :: as, rest)
      | none => none
    | none => none

/-- A list: its length, then its members. -/
def list (f : Format α) : Format (List α) where
  write as := length.write as.length ++ as.flatMap f.write
  read bytes :=
    match length.read bytes with
    | some (count, rest) => f.readMany count rest
    | none => none

/-- An optional value: a byte 0, or a byte 1 and the value. -/
def optional (f : Format α) : Format (Option α) where
  write
    | none => bool.write false
    | some a => bool.write true ++ f.write a
  read bytes :=
    match bool.read bytes with
    | some (false, rest) => some (none, rest)
    | some (true, rest) =>
      match f.read rest with
      | some (a, rest) => some (some a, rest)
      | none => none
    | none => none

end Format

/-- Bytes behind their number. -/
def blob : Format (List UInt8) where
  write bytes := length.write bytes.length ++ bytes
  read bytes :=
    match length.read bytes with
    | some (count, rest) =>
      if count ≤ rest.length then some (rest.take count, rest.drop count) else none
    | none => none

/-- Text: its UTF-8 bytes behind their number. Other bytes are refused. -/
def text : Format String :=
  blob.refine (fun s => s.toUTF8.data.toList) fun bytes => String.fromUTF8? ⟨bytes.toArray⟩

/-! ## Variants -/

/-- One variant of a type: what it carries, how that is written, and how to tell it. -/
structure Variant (α : Type) where
  Payload : Type
  format : Format Payload
  make : Payload → α
  payload? : α → Option Payload

namespace Variant

variable {α : Type}

/-- A variant that carries nothing. -/
def constant [DecidableEq α] (a : α) : Variant α where
  Payload := Unit
  format := ⟨fun _ => [], fun bytes => some ((), bytes)⟩
  make _ := a
  payload? b := if b = a then some () else none

/-- Writes a value with the number of its variant, counting from `tag`. -/
def write : Nat → List (Variant α) → α → List UInt8
  | _, [], _ => []
  | tag, v :: vs, a =>
    match v.payload? a with
    | some p => u32.write (UInt32.ofNat tag) ++ v.format.write p
    | none => write (tag + 1) vs a

end Variant

/-- A value of several variants: the number of its variant, then what that carries. -/
def Format.choice {α : Type} (variants : List (Variant α)) : Format α where
  write := Variant.write 0 variants
  read bytes :=
    match u32.read bytes with
    | some (tag, rest) =>
      match variants[tag.toNat]? with
      | some v =>
        match v.format.read rest with
        | some (p, rest) => some (v.make p, rest)
        | none => none
      | none => none
    | none => none

end Reclass.Binary
