import OrderedTable.Datum.View
import OrderedTable.Fault
import OrderedTable.Json.Basic
import OrderedTable.Wire.Input

/-!
# The catalogue of kinds

Every kind that can be written out has an *index*. The built-in bases come first, in an order that is
part of the binary form; after them come the extensions that were registered, in the order of their
registration. A base takes two indices: an odd one for its owning kind and the next one for the
borrowing twin.

An `Extension` is everything a kind of one's own has to say about values. A `Catalogue` holds the
extensions and says which are registered; every operation that works under a kind takes one.

* `Catalogue.index?` and `Catalogue.kindAt?` go from kinds to indices and back.
* `Catalogue.isCompound` holds of the kinds from lists on, registered extensions among them, and of
  all that have no index.
* `Catalogue.orderKinds` orders kinds by index, twins as one.
-/

namespace OrderedTable

/-- A kind of one's own. Each operation has to answer for every value, also for one that the
extension does not accept. -/
structure Extension where
  name : String
  /-- Whether a value is one of this kind. -/
  accepts : Datum → Bool
  /-- The value that new entries may start from. -/
  initial : Datum
  /-- A copy of a value, if it can be copied. -/
  copy : Datum → Option Datum
  /-- Two values compared. -/
  order : Datum → Datum → Ordering
  /-- The hash of a value; without one, its binary form is digested. -/
  hash : Datum → Option UInt64
  /-- How much room a value takes. -/
  size : Datum → Nat
  /-- The text of a value. -/
  format : Datum → String
  /-- The binary form of a value. -/
  encode : Datum → Except WireFault Bytes
  /-- The value that input starts with, and how many bytes it took. -/
  decode : Input → Except WireFault (Datum × Nat)
  /-- A value emptied. -/
  cleared : Datum → Datum
  /-- A value as an XML element of the given name. -/
  toXml : Datum → String → String
  /-- A value as JSON. -/
  toJson : Datum → Json

/-- The extensions there are, by number, and the numbers of those registered. -/
structure Catalogue where
  extension : Nat → Extension
  registered : List Nat

namespace Catalogue

/-- The built-in bases in the order of their indices. -/
def builtin : List Base :=
  [.scalar .bool,
   .scalar (.int .i8), .scalar (.int .u8), .scalar (.int .i16), .scalar (.int .u16),
   .scalar (.int .i32), .scalar (.int .u32), .scalar (.int .i64), .scalar (.int .u64),
   .scalar (.int .i128), .scalar (.int .u128),
   .scalar (.float .f32), .scalar (.float .f64),
   .text false, .text true, .bytes, .list, .table]

variable (C : Catalogue)

/-- Every base with an index. -/
def bases : List Base := builtin ++ C.registered.map .extension

/-- The index of a base: its owning kind's. -/
def baseIndex? (b : Base) : Option Nat :=
  (C.bases.idxOf? b).map (2 * · + 1)

/-- The index of a kind, if it has one. -/
def index? (k : Kind) : Option Nat :=
  (C.baseIndex? k.base).map (· + if k.borrowing then 1 else 0)

/-- The kind with an index. No kind has index zero or a negative one. -/
def kindAt? (index : Int) : Option Kind :=
  if index < 1 then none
  else
    let place := (index - 1).toNat
    C.bases[place / 2]?.map (⟨·, place % 2 = 1⟩)

/-- The borrowing twin of a kind, where the catalogue has one; a twin is its own twin. -/
def twin? (k : Kind) : Option Kind :=
  if k.borrowing then some k
  else (C.baseIndex? k.base).map fun _ => k.twin

/-- Whether values of a kind may be nested structures. -/
def isCompound (k : Kind) : Bool :=
  match C.baseIndex? k.base, C.baseIndex? .list with
  | some i, some l => l ≤ i
  | _, _ => true

/-- The name of a base. -/
def baseName : Base → String
  | .scalar k => k.name
  | .text false => "string"
  | .text true => "string_ci"
  | .bytes => "bytes"
  | .list => "list"
  | .table => "hash_table"
  | .extension id => (C.extension id).name

/-- The name of a kind; twins have one name. -/
def name (k : Kind) : String := C.baseName k.base

/-- Kinds ordered by index, twins as one. A kind without index comes after those with one, and two
such kinds are ordered by name. -/
def orderKinds (a b : Kind) : Ordering :=
  match C.baseIndex? a.base, C.baseIndex? b.base with
  | some i, some j => compare i j
  | some _, none => .lt
  | none, some _ => .gt
  | none, none => compare (C.name a) (C.name b)

end Catalogue

end OrderedTable
