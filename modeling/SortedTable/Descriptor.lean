import SortedTable.Component
import SortedTable.Decimal.Natural
import SortedTable.Path

/-!
# Descriptors

The identity of a table on disk. It is written into the name of each of the table's files,

    <directory>/<table>-[tmp-]<version>-<generation>-<component>.db

where `tmp` marks a table that is not published yet. The keyspace is not part of the name: it is the
name of the directory.
-/

namespace SortedTable

/-- The width of the length field in front of a row's body: four bytes in old tables, else eight. -/
inductive LengthWidth where
  | short
  | long
deriving DecidableEq, Inhabited, Repr

def LengthWidth.bytes : LengthWidth → Nat
  | short => 4
  | long => 8

structure Descriptor where
  directory : Path
  keyspace : String
  table : String
  generation : Nat
  version : String
  temporary : Bool
deriving DecidableEq, Inhabited, Repr

namespace Descriptor

def currentVersion : String := "e"

def longLengthVersion : String := "b"

def separator : Char := '-'

def temporaryMark : String := "tmp"

def current (directory : Path) (keyspace table : String) (generation : Nat) (temporary : Bool) :
    Descriptor :=
  ⟨directory, keyspace, table, generation, currentVersion, temporary⟩

/-- A table name that can be read back from a file name: neither empty nor cut by a separator. -/
def ValidTable (table : String) : Prop :=
  table.toList ≠ [] ∧ ∀ c ∈ table.toList, c ≠ separator ∧ c ≠ '/'

instance (table : String) : Decidable (ValidTable table) :=
  haveI : Decidable (∀ c ∈ table.toList, c ≠ separator ∧ c ≠ '/') := List.decidableBAll _ _
  inferInstanceAs (Decidable (_ ∧ _))

def asTemporary (d : Descriptor) (temporary : Bool) : Descriptor := { d with temporary }

def published (d : Descriptor) : Descriptor := d.asTemporary false

def isCurrent (d : Descriptor) : Bool := d.version = currentVersion

def lengthWidth (d : Descriptor) : LengthWidth :=
  if d.version.toList < longLengthVersion.toList then .short else .long

def baseName (d : Descriptor) : String :=
  let mark := if d.temporary then temporaryMark ++ "-" else ""
  d.table ++ "-" ++ mark ++ d.version ++ "-" ++ toString d.generation

def fileName (d : Descriptor) (c : Component) : String :=
  d.baseName ++ "-" ++ c.suffix

def pathOf (d : Descriptor) (c : Component) : Path :=
  d.directory.join (Path.ofString (d.fileName c))

def text (d : Descriptor) : String :=
  (d.directory.join (Path.ofString d.baseName)).text

/-- The last name of a directory as text, or nothing where it has none. -/
def keyspaceOf (directory : Path) : String :=
  (directory.fileName?.map Text.lossy).getD ""

/-- The fields of a file name: whether the table is temporary, its name, version, generation and the
component. -/
def fields? (name : String) : Option (Bool × String × String × String × String) :=
  match (name.toList.splitOn separator).map String.ofList with
  | [table, mark, version, generation, suffix] =>
      if mark = temporaryMark then some (true, table, version, generation, suffix) else none
  | [table, version, generation, suffix] => some (false, table, version, generation, suffix)
  | _ => none

def ValidVersion (version : String) : Prop :=
  version.toList ≠ [] ∧ version ≠ temporaryMark ∧ ∀ c ∈ version.toList, 'a' ≤ c ∧ c ≤ 'z'

instance (version : String) : Decidable (ValidVersion version) :=
  inferInstanceAs (Decidable
    (version.toList ≠ [] ∧ version ≠ temporaryMark ∧ ∀ c ∈ version.toList, 'a' ≤ c ∧ c ≤ 'z'))

def ofPath? (path : Path) : Option (Descriptor × Component) := do
  let name ← path.fileName? >>= Text.ofUtf8?
  let (temporary, table, version, generation, suffix) ← fields? name
  guard (table.toList ≠ [] ∧ ValidVersion version)
  let generation ← Decimal.natural? Decimal.limit64 generation
  let component ← Component.ofSuffix? suffix
  let directory := path.parent?.getD ⟨[]⟩
  return (⟨directory, keyspaceOf directory, table, generation, version, temporary⟩, component)

end Descriptor

end SortedTable
