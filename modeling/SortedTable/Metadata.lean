import SortedTable.Descriptor

/-!
# Metadata

The schema that a table is written for.
-/

namespace SortedTable

structure TableMetadata where
  keyspace : String
  name : String
  /-- A description for tools to show. -/
  comment : String
deriving DecidableEq, Inhabited, Repr

namespace TableMetadata

def new (keyspace name : String) : TableMetadata := ⟨keyspace, name, ""⟩

def ofDescriptor (d : Descriptor) : TableMetadata := new d.keyspace d.table

end TableMetadata

end SortedTable
