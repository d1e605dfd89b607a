import SortedTable.Bytes
import SortedTable.SortedMap

/-!
# Rows

The content of a row: named columns, each with the time it was written at, and marks of deletion. Of
two values for a column the newer wins.
-/

namespace SortedTable

structure Column where
  value : Bytes
  timestamp : Int64
deriving DecidableEq, Inhabited, Repr

structure Row where
  columns : SortedMap Bytes Column
  /-- When the row was deleted by the clock of the one who deleted it. -/
  localDeletion : Int32
  /-- Data up to this time is deleted. -/
  markedForDelete : Int64

namespace Row

def empty : Row := ⟨.empty, Int32.minValue, Int64.minValue⟩

instance : Inhabited Row := ⟨empty⟩

def get? (r : Row) (name : Bytes) : Option Column := r.columns.get? name

/-- Adds a column, or replaces one that is not newer. -/
def add (r : Row) (name value : Bytes) (timestamp : Int64) : Row :=
  match r.get? name with
  | some existing =>
      if timestamp < existing.timestamp then r
      else { r with columns := r.columns.insert name ⟨value, timestamp⟩ }
  | none => { r with columns := r.columns.insert name ⟨value, timestamp⟩ }

/-- Marks the row deleted; earlier marks that are later in time stay. -/
def delete (r : Row) (localDeletion : Int32) (markedForDelete : Int64) : Row :=
  { r with
    localDeletion := max r.localDeletion localDeletion
    markedForDelete := max r.markedForDelete markedForDelete }

def isDeleted (r : Row) : Bool := Int64.minValue < r.markedForDelete

def size (r : Row) : Nat := r.columns.size

def isEmpty (r : Row) : Bool := r.columns.isEmpty

protected def beq (r s : Row) : Bool :=
  r.columns.entries = s.columns.entries && r.localDeletion = s.localDeletion &&
    r.markedForDelete = s.markedForDelete

instance : BEq Row := ⟨Row.beq⟩

end Row

end SortedTable
