import SortedTable.IndexWriter
import SortedTable.Reader

/-!
# Publication

A table is written under temporary names and published by renaming its files. The data file is renamed
last: a table counts as published once its data file has its permanent name, and until then it can be
recovered.
-/

namespace SortedTable

/-- A table whose files are complete and not renamed yet. -/
structure ClosedTable where
  descriptor : Descriptor
  metadata : TableMetadata
  partitioner : Partitioner
  components : List Component
  index : ClosedIndex
  dataSegments : SegmentBuilder
  rowSizes : Histogram
  columnCounts : Histogram
deriving Inhabited

namespace Descriptor

/-- The order of renaming: the data comes last. -/
def renameOrder (components : List Component) : List Component :=
  components.filter (· ≠ .data) ++ components.filter (· = .data)

def renameComponent (d : Descriptor) (c : Component) : Action TableError Unit :=
  let source := d.pathOf c
  let target := d.published.pathOf c
  (Action.rename source target).mapError (.rename source target)

/-- Gives the components their permanent names, up to the first that cannot be renamed. -/
def publish (d : Descriptor) (components : List Component) : Action TableError Descriptor := do
  for c in renameOrder components do
    d.renameComponent c
  return d.published

end Descriptor

namespace ClosedTable

def publish (t : ClosedTable) (age : Nat) : Action TableError Reader := do
  let d ← t.descriptor.publish t.components
  let index ← (t.index.segments.complete (d.pathOf .primaryIndex)).op
  let data ← (t.dataSegments.complete (d.pathOf .data)).op
  return {
    descriptor := d
    components := t.components
    metadata := t.metadata
    partitioner := t.partitioner
    index, data
    summary := t.index.summary
    filter := t.index.filter
    maxDataAge := age
    rowSizes := t.rowSizes
    columnCounts := t.columnCounts }

end ClosedTable

def writeStatistics (d : Descriptor) (rowSizes columnCounts : Histogram) : Action TableError Unit :=
  (Action.writeFile (d.pathOf .statistics) (Reader.encodeStatistics rowSizes columnCounts)).op

end SortedTable
