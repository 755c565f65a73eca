import OrderedTable.Kind.Scalar

/-!
# Kinds

A table does not know what its keys and values are: each is read under a *kind*, which says which
values it accepts and how they are compared, written and copied. A kind is a base and a flag. The
*owning* kind of a base copies its values deeply; its *borrowing* twin describes the same values and
lets a copy share their storage. Wherever kinds are compared or written out, twins count as one.

Bases are those built in and the *extensions*, known here by number only: what an extension does is
said in `OrderedTable.Catalogue`.
-/

namespace OrderedTable

/-- What a kind says about values, whether it owns or borrows them. -/
inductive Base where
  | scalar (k : ScalarKind)
  | text (caseBlind : Bool)
  | bytes
  | list
  | table
  | extension (id : Nat)
  deriving DecidableEq, Repr

/-- A base, with values either owned or borrowed. -/
structure Kind where
  base : Base
  borrowing : Bool
  deriving DecidableEq, Repr

namespace Kind

/-- The owning kind of a base. -/
def owning (b : Base) : Kind := ⟨b, false⟩

/-- The owning kind with the same base. -/
def owner (k : Kind) : Kind := owning k.base

/-- The borrowing twin of a kind; a twin is its own twin. -/
def twin (k : Kind) : Kind := ⟨k.base, true⟩

/-- The name of the XML Schema type with the same values, if there is one. -/
def schemaName? (k : Kind) : Option String :=
  match k.base with
  | .scalar s => some s.schemaName
  | .text _ => some "xs:string"
  | .bytes => some "xs:base64Binary"
  | .list | .table | .extension _ => none

/-- Whether values of a kind are kept apart from the entries that hold them. -/
def isIndirect (k : Kind) : Bool :=
  match k.base with
  | .scalar _ | .extension _ => false
  | .text _ | .bytes | .list | .table => true

/-- Truth values. -/
def bool : Kind := owning (.scalar .bool)
/-- Signed integers of 32 bits. -/
def i32 : Kind := owning (.scalar (.int .i32))
/-- Signed integers of 64 bits. -/
def i64 : Kind := owning (.scalar (.int .i64))
/-- Natural numbers of 64 bits. -/
def u64 : Kind := owning (.scalar (.int .u64))
/-- Floats of 64 bits. -/
def f64 : Kind := owning (.scalar (.float .f64))
/-- Text, compared byte by byte. -/
def text : Kind := owning (.text false)
/-- Text, compared without regard to the case of ASCII letters. -/
def textCaseBlind : Kind := owning (.text true)
/-- Byte strings. -/
def bytes : Kind := owning .bytes
/-- Lists of entries. -/
def list : Kind := owning .list
/-- Tables. -/
def table : Kind := owning .table

end Kind

end OrderedTable
