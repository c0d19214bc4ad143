import Reclass.MapUpdate
import Reclass.Member

set_option autoImplicit false

/-!
# Access specifications

Access flags combine a visibility, a mark of finality and further modifiers in one word. A request
to change them keeps the three apart, so that several requests for the same thing can be merged:
the result is as open as the most open request, has every modifier that one of them asks for, and
is final only if all of them are.

## Main definitions

* `Reclass.Visibility`, `Reclass.AccessSpec` — what is requested for one class or member.
* `Reclass.AccessRecord` — what is requested for a class and its members.
* `AccessSpec.merge`, `AccessRecord.merge` — two requests in one.

## Main results

* `Reclass.AccessRecord.fields_merge`, `methods_merge` — records are merged member by member.
-/

namespace Reclass

/-! ## Flags -/

namespace AccessFlags

/-- Visible everywhere. -/
def publicBit : UInt32 := 0x1

/-- Visible in the class alone. -/
def privateBit : UInt32 := 0x2

/-- Visible in subclasses. -/
def protectedBit : UInt32 := 0x4

/-- Not to be changed or overridden. -/
def finalBit : UInt32 := 0x10

/-- True if a bit is set. -/
def has (flags bit : UInt32) : Bool := flags &&& bit != 0

/-- The flags without visibility and finality. -/
def modifiers (flags : UInt32) : UInt32 :=
  flags &&& ~~~(publicBit ||| privateBit ||| protectedBit ||| finalBit)

/-- True if the flags carry the private bit. -/
def isPrivate (flags : UInt32) : Bool := has flags privateBit

/-- True if the flags carry the final bit. -/
def isFinal (flags : UInt32) : Bool := has flags finalBit

end AccessFlags

/-! ## Visibility -/

/-- Who may use a class or member: everyone, subclasses and the package, the package (no flag is
set), or the class alone. -/
inductive Visibility where
  | unset | classOnly | subclasses | everyone
deriving DecidableEq, Repr

namespace Visibility

/-- The visibility that flags declare. The most open bit counts. -/
def ofFlags (flags : UInt32) : Visibility :=
  if AccessFlags.has flags AccessFlags.publicBit then everyone
  else if AccessFlags.has flags AccessFlags.protectedBit then subclasses
  else if AccessFlags.has flags AccessFlags.privateBit then classOnly
  else unset

/-- The flag of a visibility. -/
def flags : Visibility → UInt32
  | unset => 0
  | classOnly => AccessFlags.privateBit
  | subclasses => AccessFlags.protectedBit
  | everyone => AccessFlags.publicBit

/-- How open a visibility is. -/
def openness : Visibility → Nat
  | classOnly => 0
  | unset => 1
  | subclasses => 2
  | everyone => 3

/-- The more open of two visibilities. -/
def merge (a b : Visibility) : Visibility := if a.openness ≤ b.openness then b else a

theorem openness_merge (a b : Visibility) : (a.merge b).openness = max a.openness b.openness := by
  cases a <;> cases b <;> rfl

end Visibility

/-! ## Requests -/

/-- The access requested for one class or member. -/
structure AccessSpec where
  visibility : Visibility := .unset
  modifiers : UInt32 := 0
  isFinal : Bool := false
deriving DecidableEq, Repr

namespace AccessSpec

/-- The request that asks for exactly these flags. -/
def ofFlags (flags : UInt32) : AccessSpec where
  visibility := .ofFlags flags
  modifiers := AccessFlags.modifiers flags
  isFinal := AccessFlags.isFinal flags

/-- Asks for more modifiers. Visibility and finality among the flags are ignored. -/
def addModifiers (a : AccessSpec) (flags : UInt32) : AccessSpec :=
  { a with modifiers := a.modifiers ||| AccessFlags.modifiers flags }

/-- The flags that a request stands for. -/
def toFlags (a : AccessSpec) : UInt32 :=
  a.visibility.flags ||| a.modifiers ||| if a.isFinal then AccessFlags.finalBit else 0

/-- Two requests in one: the more open visibility, the modifiers of both, and final only if both
are. -/
def merge (a b : AccessSpec) : AccessSpec where
  visibility := a.visibility.merge b.visibility
  modifiers := a.modifiers ||| b.modifiers
  isFinal := a.isFinal && b.isFinal

/-- Two requests in one, where there may be none. -/
def merge? : Option AccessSpec → Option AccessSpec → Option AccessSpec
  | some a, some b => some (a.merge b)
  | some a, none => some a
  | none, b => b

end AccessSpec

/-! ## Records -/

/-- Requests for the members of a class. -/
abbrev MemberAccess := Std.ExtTreeMap Member AccessSpec

/-- Requests for members added to earlier ones. -/
def MemberAccess.merge (members added : MemberAccess) : MemberAccess :=
  updateWith (fun _ new old => match old with | some a => a.merge new | none => new) members added

theorem MemberAccess.getElem?_merge (members added : MemberAccess) (m : Member) :
    (members.merge added)[m]? = AccessSpec.merge? members[m]? added[m]? := by
  rw [MemberAccess.merge, getElem?_updateWith]
  cases added[m]? <;> cases members[m]? <;> rfl

/-- The requests for a class and its members. Nothing may be requested for the class itself.
Members are identified by the descriptors that the class declares. -/
structure AccessRecord where
  whole : Option AccessSpec := none
  fields : MemberAccess := ∅
  methods : MemberAccess := ∅
deriving DecidableEq

namespace AccessRecord

/-- The record of a request for a class. -/
def ofClass (a : AccessSpec) : AccessRecord := { whole := some a }

/-- The record of a request for a field. -/
def ofField (field : Member) (a : AccessSpec) : AccessRecord :=
  { fields := (∅ : MemberAccess).insert field a }

/-- The record of a request for a method. -/
def ofMethod (method : Member) (a : AccessSpec) : AccessRecord :=
  { methods := (∅ : MemberAccess).insert method a }

/-- True if nothing is requested. -/
def isEmpty (r : AccessRecord) : Bool := r.whole.isNone && r.fields.isEmpty && r.methods.isEmpty

/-- Two records in one. -/
def merge (r added : AccessRecord) : AccessRecord where
  whole := AccessSpec.merge? r.whole added.whole
  fields := r.fields.merge added.fields
  methods := r.methods.merge added.methods

/-- The request for a field is merged from those of both records. -/
theorem fields_merge (r added : AccessRecord) (m : Member) :
    (r.merge added).fields[m]? = AccessSpec.merge? r.fields[m]? added.fields[m]? :=
  MemberAccess.getElem?_merge ..

/-- The request for a method is merged from those of both records. -/
theorem methods_merge (r added : AccessRecord) (m : Member) :
    (r.merge added).methods[m]? = AccessSpec.merge? r.methods[m]? added.methods[m]? :=
  MemberAccess.getElem?_merge ..

end AccessRecord

end Reclass
