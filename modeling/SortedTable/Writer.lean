import SortedTable.Publication
import SortedTable.Row.Encoding

/-!
# Writers

A writer streams rows in ascending order of key into a new table. Every way of appending makes the same
checks before it writes a byte, so a rejected row leaves no trace. A row whose encoder gives up has been
written in part by then, and stays in the file.
-/

namespace SortedTable

structure Writer where
  descriptor : Descriptor
  metadata : TableMetadata
  partitioner : Partitioner
  index : IndexWriter
  segments : SegmentBuilder
  data : Output
  lastKey : Option DecoratedKey
  rowSizes : Histogram
  columnCounts : Histogram
deriving Inhabited

namespace Writer

/-- Starts a table that about `keyCount` keys are expected for; the estimate sizes the filter. -/
def create (d : Descriptor) (keyCount : Nat) (metadata : TableMetadata) (partitioner : Partitioner)
    (config : Config) : Action TableError Writer := do
  match config.validate with
  | .ok () => pure ()
  | .error e => throw (.config e)
  unless Descriptor.ValidTable d.table do throw (.invalidTableName d.table)
  let index ← IndexWriter.create d keyCount config
  let data ← (Output.create (d.pathOf .data) config.dataBufferBytes).op
  return {
    descriptor := d
    segments := .empty config.dataAccess config.maxSegmentSize
    lastKey := none
    rowSizes := .rowSizes
    columnCounts := .columnCounts
    metadata, partitioner, index, data }

def createAt (path : Path) (keyCount : Nat) (partitioner : Partitioner) (config : Config) :
    Action TableError Writer := do
  match Descriptor.ofPath? path with
  | none => throw (.invalidFilename path)
  | some (d, _) => create d keyCount (.ofDescriptor d) partitioner config

def filePointer (w : Writer) : Nat := w.data.position

def rowsWritten (w : Writer) : Nat := w.rowSizes.count

def rejection? (w : Writer) (key : DecoratedKey) : Option TableError :=
  if key.key = [] then some .missingKey
  else if Record.maxShort < key.key.length then some (.keyTooLong key.key.length)
  else
    match w.lastKey with
    | some last => if key < last then some (.outOfOrder last key) else none
    | none => none

/-- Counts a row that has been written from `start` on, and indexes it. -/
def indexRow (w : Writer) (key : DecoratedKey) (start : Nat) (columnCount : Option Nat) :
    Work Writer := do
  let index ← w.index.add key start
  return { w with
    index
    lastKey := some key
    segments := w.segments.offer start
    rowSizes := w.rowSizes.add (w.data.position - start)
    columnCounts := columnCount.elim w.columnCounts w.columnCounts.add }

def writeKey (w : Writer) (key : DecoratedKey) : Work Output :=
  w.data.writePieces (Record.shortPieces key.key)

/-- Appends a row that comes with its length in front of the body. -/
def appendFramed (w : Writer) (key : DecoratedKey) (row : Encoding) :
    Work (Except TableError Unit × Writer) := do
  if let some e := w.rejection? key then return (.error e, w)
  let start := w.filePointer
  let data ← w.writeKey key
  let data ← data.writePieces row.pieces
  let w := { w with data }
  match row.outcome with
  | .error e => return (.error (.io (.encode e)), w)
  | .ok columnCount => return (.ok (), ← w.indexRow key start (some columnCount))

/-- Appends an encoded row. Its length is known only when it is written, so a placeholder stands for
it until then. -/
def append (w : Writer) (key : DecoratedKey) (row : Encoding) :
    Work (Except TableError Unit × Writer) := do
  if let some e := w.rejection? key then return (.error e, w)
  let start := w.filePointer
  let data ← w.writeKey key
  let sizePosition := data.position
  let data ← data.write (BigEndian.encodeInt Record.rowSizeBytes Record.rowSizePlaceholder)
  let data ← data.writePieces row.pieces
  match row.outcome with
  | .error e => return (.error (.io (.encode e)), { w with data })
  | .ok columnCount =>
      let finish := data.position
      let size := finish - (sizePosition + Record.rowSizeBytes)
      let data ← data.seek sizePosition
      let data ← data.write (BigEndian.encodeInt Record.rowSizeBytes size)
      let data ← data.seek finish
      return (.ok (), ← { w with data }.indexRow key start (some columnCount))

/-- Appends a body of known length, whose columns are not counted. -/
def appendValue (w : Writer) (key : DecoratedKey) (value : Bytes) :
    Work (Except TableError Unit × Writer) := do
  if let some e := w.rejection? key then return (.error e, w)
  if value = [] then return (.error .emptyValue, w)
  let start := w.filePointer
  let data ← w.writeKey key
  let data ← data.write (BigEndian.encodeInt Record.rowSizeBytes value.length)
  let data ← data.write value
  return (.ok (), ← { w with data }.indexRow key start none)

/-- Leaves the table as it is; what was in the buffers reaches the files. -/
def drop (w : Writer) : Work Unit := do
  w.index.drop
  let _ ← w.data.flush

/-- Completes the data, then the index and the filter, then the statistics. -/
def close (w : Writer) : Action TableError ClosedTable := do
  let _ ← w.data.flush
  let index ← w.index.close
  writeStatistics w.descriptor w.rowSizes w.columnCounts
  return {
    descriptor := w.descriptor
    metadata := w.metadata
    partitioner := w.partitioner
    components := Component.all
    index
    dataSegments := w.segments
    rowSizes := w.rowSizes
    columnCounts := w.columnCounts }

def finish (w : Writer) (age : Nat) : Action TableError Reader := do
  (← w.close).publish age

def describeBytes (bytes : Bytes) : String :=
  "[" ++ ", ".intercalate (bytes.map fun b => toString b.toNat) ++ "]"

def describeKey (k : DecoratedKey) : String :=
  s!"DecoratedKey \x7b token: Token({describeBytes k.token}), key: {describeBytes k.key} \x7d"

def describe (w : Writer) : String :=
  let last := match w.lastKey with
    | none => "None"
    | some k => s!"Some({describeKey k})"
  s!"SSTableWriter \x7b desc: {Text.quoted w.descriptor.text}, rows: {w.rowsWritten}, " ++
    s!"file_pointer: {w.filePointer}, last_written_key: {last} \x7d"

end Writer

end SortedTable
