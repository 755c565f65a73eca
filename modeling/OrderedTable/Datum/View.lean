import OrderedTable.Datum.Basic
import OrderedTable.Text.Utf8

/-!
# Looking at data

How a datum is seen by those who expect a scalar, a text, bytes, a list or a table. Every view looks
through one layer of boxing (`Datum.peel`) and no more. Text and bytes are seen alike in all their
forms: as this library keeps them and plain.
-/

namespace OrderedTable.Datum

/-- The text as this library keeps it. -/
def ofText (text : String) : Datum := .text (.owned (Utf8.encode text))

/-- The bytes as this library keeps them. -/
def ofBytes (bytes : Bytes) : Datum := .bytes (.owned bytes)

/-- The datum without one layer of boxing. -/
def peel : Datum → Datum
  | boxed d => d
  | d => d

/-- The scalar that the datum is. -/
def scalar? (d : Datum) : Option Scalar :=
  match d.peel with
  | .scalar s => some s
  | _ => none

/-- The scalar that the datum is, if it is of the given kind. -/
def scalarOf? (k : ScalarKind) (d : Datum) : Option Scalar :=
  d.scalar?.filter (·.kind = k)

/-- The bytes of the text that the datum is. -/
def textBytes? (d : Datum) : Option Bytes :=
  match d.peel with
  | .text s => some s.bytes
  | .plainText _ t => some (Utf8.encode t)
  | _ => none

/-- The text that the datum is. -/
def text? (d : Datum) : Option String :=
  match d.peel with
  | .text s => some ((Utf8.decode? s.bytes).getD "")
  | .plainText _ t => some t
  | _ => none

/-- The bytes that the datum is. -/
def bytes? (d : Datum) : Option Bytes :=
  match d.peel with
  | .bytes s => some s.bytes
  | .plainBytes _ b => some b
  | _ => none

/-- The list that the datum is. -/
def list? (d : Datum) : Option (Listing Datum) :=
  match d.peel with
  | .list l => some l
  | _ => none

/-- The table that the datum is. -/
def table? (d : Datum) : Option (Table Datum) :=
  match d.peel with
  | .table t => some t
  | _ => none

/-- The text that the datum is or, being bytes, spells. -/
def spelling? (d : Datum) : Option String :=
  d.text?.or (d.bytes?.bind Utf8.decode?)

/-- The bytes that the datum is or, being text, is written in. -/
def contents? (d : Datum) : Option Bytes :=
  d.bytes?.or d.textBytes?

/-- What is seen as a list is that list, in a box or not. -/
theorem list?_eq_some_iff {d : Datum} {l : Listing Datum} :
    d.list? = some l ↔ d = .list l ∨ d = .boxed (.list l) := by
  cases d with
  | boxed d => cases d <;> simp [list?, peel]
  | _ => simp [list?, peel]

/-- What is seen as a table is that table, in a box or not. -/
theorem table?_eq_some_iff {d : Datum} {t : Table Datum} :
    d.table? = some t ↔ d = .table t ∨ d = .boxed (.table t) := by
  cases d with
  | boxed d => cases d <;> simp [table?, peel]
  | _ => simp [table?, peel]

end OrderedTable.Datum
