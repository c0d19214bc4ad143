import Reclass.ClassTree.Binary
import Reclass.Trait.Basic

set_option autoImplicit false

/-!
# Codecs

A codec turns bytes into class trees and back. Both directions may fail. The built-in codec uses
the binary form of class trees.

## Main definitions

* `Reclass.Codec` — reading and writing classes.
* `Reclass.Codec.binary` — the built-in codec.
* `Codec.readClass`, `Codec.writeClass` — with the failures of a transformation.
* `Codec.applyTraits`, `Codec.applyTraitsToFile` — traits applied to a class in its written form.
-/

namespace Reclass

/-- A way to read and write classes. -/
structure Codec where
  read : List UInt8 → Except Cause ClassTree
  write : ClassTree → Except Cause (List UInt8)

namespace Codec

/-- The codec for the binary form of class trees. -/
def binary : Codec where
  read bytes :=
    match ClassTree.ofBytes? bytes with
    | some c => .ok c
    | none => .error ["Failed to deserialize class tree"]
  write c := .ok c.toBytes

/-- Reads the class of an object. -/
def readClass (k : Codec) (name : String) (bytes : List UInt8) : Except Failure ClassTree :=
  (k.read bytes).mapError (.read name)

/-- Writes the class of an object. -/
def writeClass (k : Codec) (name : String) (c : ClassTree) : Except Failure (List UInt8) :=
  (k.write c).mapError (.write name)

/-- Reads a class, applies traits to it and writes the result. -/
def applyTraits (k : Codec) (name : String) (r : Renaming)
    (traits : Option (List (Trait ClassTree))) (bytes : List UInt8) :
    Except Failure (List UInt8) := do
  let c ← k.readClass name bytes
  let c ← Trait.applyAll name r traits c
  k.writeClass name c

/-- The same for the class in the file at a path, of which the content is given if there is such a
file. -/
def applyTraitsToFile (k : Codec) (name path : String) (content : Option (List UInt8))
    (r : Renaming) (traits : Option (List (Trait ClassTree))) : Except Failure (List UInt8) :=
  match content with
  | none => .error (.file path)
  | some bytes => k.applyTraits name r traits bytes

end Codec

end Reclass
