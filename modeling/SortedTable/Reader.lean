import SortedTable.Filter
import SortedTable.Histogram
import SortedTable.Metadata
import SortedTable.Scanner
import SortedTable.Segment
import SortedTable.Summary

/-!
# Readers

A reader is a handle to a finished table. It keeps the summary, the filter and the histograms in
memory, and reads keys and index records from the files. A reader either comes from the writer that
publishes the table or is opened from the files on disk.
-/

namespace SortedTable

structure Reader where
  descriptor : Descriptor
  components : List Component
  metadata : TableMetadata
  partitioner : Partitioner
  index : SegmentedFile
  data : SegmentedFile
  summary : Summary
  filter : Filter
  /-- The age of the newest data in the table, in milliseconds since the epoch. -/
  maxDataAge : Nat
  rowSizes : Histogram
  columnCounts : Histogram
deriving Inhabited

namespace Descriptor

def componentsOn (d : Descriptor) (disk : Disk) : List Component :=
  Component.all.filter fun c => disk.existsAt (d.pathOf c)

end Descriptor

namespace Reader

/-- Opens a component and reads it with a decoder. What cannot be decoded is corrupt. -/
def load {α : Type} (d : Descriptor) (c : Component)
    (decode : Bytes → Except DecodeError α) : Action TableError α := do
  let node ← (Action.find (d.pathOf c)).op
  let bytes ← ((Action.contents node).io).mapError (.corrupt c)
  match decode bytes with
  | .ok a => return a
  | .error e => throw (.corrupt c (.decode e))

def decodeStatistics (input : Bytes) : Except DecodeError (Histogram × Histogram) := do
  let (rowSizes, rest) ← Histogram.decode input
  let (columnCounts, _) ← Histogram.decode rest
  return (rowSizes, columnCounts)

def encodeStatistics (rowSizes columnCounts : Histogram) : Bytes :=
  rowSizes.encode ++ columnCounts.encode

def decodeRecords (input : Bytes) : Except DecodeError (List (Bytes × Nat)) :=
  match Record.readIndex input with
  | (entries, none) => .ok entries
  | (_, some e) => .error e

/-- What is built from one pass over an index: the summary and the boundaries for both files. -/
structure IndexPass where
  position : Nat
  summary : SummaryBuilder
  index : SegmentBuilder
  data : SegmentBuilder
deriving Inhabited

namespace IndexPass

def start (config : Config) : IndexPass :=
  ⟨0, .empty config.indexInterval, .empty config.indexAccess config.maxSegmentSize,
    .empty config.dataAccess config.maxSegmentSize⟩

def add (partitioner : Partitioner) (pass : IndexPass) (entry : Bytes × Nat) : IndexPass :=
  { position := pass.position + Record.indexSize entry.1
    summary := pass.summary.add (partitioner.decorate entry.1) pass.position
    index := pass.index.offer pass.position
    data := pass.data.offer entry.2 }

end IndexPass

/-- Opens a finished table from its files. Without statistics its histograms are empty; the other
components are required. The age is that of the data as far as it is known. -/
def openTable (d : Descriptor) (metadata : TableMetadata) (partitioner : Partitioner)
    (config : Config) (age : Nat) : Action TableError Reader := do
  let components := d.componentsOn (← get).disk
  for c in [Component.data, .primaryIndex, .filter] do
    unless c ∈ components do throw (.missingComponent c (d.pathOf c))
  let filter ← load d .filter fun input => (Filter.decode input).map (·.1)
  let (rowSizes, columnCounts) ←
    if .statistics ∈ components then load d .statistics decodeStatistics
    else pure (.rowSizes, .columnCounts)
  let records ← load d .primaryIndex decodeRecords
  let pass := records.foldl (IndexPass.add partitioner) (IndexPass.start config)
  let index ← (pass.index.complete (d.pathOf .primaryIndex)).op
  let data ← (pass.data.complete (d.pathOf .data)).op
  return {
    descriptor := d
    summary := pass.summary.build
    maxDataAge := age
    components, metadata, partitioner, index, data, filter, rowSizes, columnCounts }

def estimatedKeys (r : Reader) : Nat := r.summary.keyCount

/-- Whether the table may have the key; a key that it has is never denied. -/
def mayContain (r : Reader) (key : DecoratedKey) : Bool := r.filter.mayContain key.key

/-- Reads bytes whose first two give the number of those after them, and `extra` more. -/
def readCounted (file : SegmentedFile) (position extra : Nat) : Action IoError Bytes := do
  let length ← file.readAt position 2
  file.readAt position (2 + BigEndian.decode length + extra)

def indexEntryAt (r : Reader) (position : Nat) : Action TableError (Bytes × Nat) := do
  let record ← (readCounted r.index position 8).table
  match Record.decodeIndex record with
  | .ok (entry, _) => return entry
  | .error e => throw (.io (.decode e))

def keyAt (r : Reader) (position : Nat) : Action TableError Bytes := do
  let record ← (readCounted r.data position 0).table
  match Record.decodeShort record with
  | .ok (key, _) => return key
  | .error e => throw (.io (.decode e))

def scanTable (d : Descriptor) : Action TableError Scanner := do
  match ← (Action.find (d.pathOf .data)).op with
  | .directory => throw (.io (.disk .invalidArgument))
  | node => return Scanner.start d.lengthWidth (← (Action.contents node).op)

def scanner (r : Reader) : Action TableError Scanner := scanTable r.descriptor

def describe (r : Reader) : String :=
  let components := ", ".intercalate (r.components.map Component.label)
  s!"SSTableReader \x7b descriptor: {Text.quoted r.descriptor.text}, " ++
    s!"components: \x7b{components}\x7d, keys: {r.estimatedKeys}, " ++
    s!"summary_entries: {r.summary.size}, data_bytes: {r.data.length}, " ++
    s!"max_data_age: {r.maxDataAge} \x7d"

end Reader

end SortedTable
