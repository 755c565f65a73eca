import OrderedTable.Bytes.Mixing
import OrderedTable.Wire.Encode

/-!
# The digest of a value

The digest of a key decides its bucket, so values that compare as equal must have one digest. Text is
digested byte by byte, with ASCII letters in upper case where case does not count. A list or table is
digested by what its comparison looks at: the kind of its keys, the number of its entries, and every
value with its kind. Keys are left out, and twins count as one. Any other value is digested in its
binary form, and one that has none as the empty string.
-/

namespace OrderedTable

/-- An ASCII letter in upper case, any other byte as it is. -/
def upperByte (b : UInt8) : UInt8 :=
  if 97 ≤ b.toNat ∧ b.toNat ≤ 122 then b - 32 else b

/-- The bytes of a text as they are compared: with or without regard to case. -/
def foldCase (caseBlind : Bool) (bs : Bytes) : Bytes :=
  if caseBlind then bs.map upperByte else bs

variable (C : Catalogue)

/-- How a kind enters the digest of a list or table: by index, or else by name. -/
def Kind.tag (k : Kind) : Bytes :=
  match C.baseIndex? k.base with
  | some index => Bytes.ofNat 2 index
  | none => Utf8.encode (C.name k)

/-- The hash that the kind itself defines for a value that is no list or table. -/
def Kind.hashLeaf? (k : Kind) (d : Datum) : Option UInt64 :=
  match k.base with
  | .text caseBlind => d.textBytes?.map fun bs => Bytes.digest (foldCase caseBlind bs)
  | .extension id => (C.extension id).hash d
  | .scalar _ | .bytes | .list | .table => none

/-- The digest of a value that is no list or table. -/
def Kind.digestLeaf (k : Kind) (d : Datum) : UInt64 :=
  match k.hashLeaf? C d with
  | some h => h
  | none => Bytes.digest ((k.encodeLeaf C d).toOption.getD [])

/-- The digest of a list or table whose values are digested already. -/
def digestBlock (keyKind : Kind) (entries : List (Entry UInt64)) : UInt64 :=
  Bytes.digest <|
    keyKind.tag C ++ Bytes.ofNat 8 entries.length ++
      entries.flatMap fun e => e.kind.tag C ++ Bytes.ofNat 8 e.value.toNat

/-- The reading that digests a value. -/
def digesting : Reading UInt64 where
  leaf := Kind.digestLeaf C
  list l := digestBlock C l.keyKind l.entries
  table t := digestBlock C t.keyKind t.entries

/-- The digest of a value. -/
def Kind.digest (k : Kind) (d : Datum) : UInt64 := k.read (digesting C) d

/-- The hash that the kind itself defines for a value. Where there is none, the digest is that of the
binary form. -/
def Kind.hash? (k : Kind) (d : Datum) : Option UInt64 :=
  match k.base with
  | .list => d.list?.map fun _ => k.digest C d
  | .table => d.table?.map fun _ => k.digest C d
  | _ => k.hashLeaf? C d

end OrderedTable
