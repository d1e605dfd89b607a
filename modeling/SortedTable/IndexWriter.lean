import SortedTable.Disk.Output
import SortedTable.Filter
import SortedTable.Record
import SortedTable.Segment
import SortedTable.Summary

/-!
# Writing the index

The index writer keeps everything that is made of a table's keys: the index file, the filter, the
summary and the boundaries of the index's segments.
-/

namespace SortedTable

structure IndexWriter where
  descriptor : Descriptor
  output : Output
  segments : SegmentBuilder
  summary : SummaryBuilder
  filter : FilterBuilder
deriving Inhabited

/-- What a closed index leaves for the table's reader. -/
structure ClosedIndex where
  segments : SegmentBuilder
  summary : Summary
  filter : Filter
deriving Inhabited

namespace IndexWriter

def create (d : Descriptor) (keyCount : Nat) (config : Config) : Action TableError IndexWriter := do
  let output ← (Output.create (d.pathOf .primaryIndex) config.indexBufferBytes).op
  return {
    descriptor := d
    output
    segments := .empty config.indexAccess config.maxSegmentSize
    summary := .empty config.indexInterval
    filter := .sized (max 1 keyCount) config.falsePositiveRate }

def add (w : IndexWriter) (key : DecoratedKey) (dataPosition : Nat) : Work IndexWriter := do
  let position := w.output.position
  let output ← w.output.writePieces (Record.indexPieces key.key dataPosition)
  return { w with
    output
    filter := w.filter.insert key.key
    summary := w.summary.add key position
    segments := w.segments.offer position }

def drop (w : IndexWriter) : Work Unit := do
  let _ ← w.output.flush

/-- Completes the index, then writes the filter. A filter on disk so means a complete index. -/
def close (w : IndexWriter) : Action TableError ClosedIndex := do
  let _ ← w.output.flush
  let filter := w.filter.build
  (Action.writeFile (w.descriptor.pathOf .filter) filter.encode).op
  return ⟨w.segments, w.summary.build, filter⟩

end IndexWriter

end SortedTable
