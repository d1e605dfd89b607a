import SortedTable.Estimate
import SortedTable.Writer

/-!
# Recovery

A table whose publication was interrupted can be completed as long as its data file has its temporary
name. If the other files were all closed and agree with the data, they are only renamed; else they are
removed and rebuilt from the data, which is never changed.
-/

namespace SortedTable

/-- Makes the other components of a temporary table from its data file. -/
abbrev RecoveryProcessor := Descriptor → Action TableError Unit

namespace Recovery

/-- Estimates the number of rows in an open data file, and gives the place in it afterwards. A directory
can be opened as well, but its end cannot be found. -/
def estimateOpen (width : LengthWidth) : Node → Action TableError (Nat × Nat)
  | .directory => throw (.io (.disk .invalidArgument))
  | node => do
      let bytes ← (Action.contents node).op
      match estimateRows width ⟨bytes, 0⟩ with
      | (.ok estimated, cursor) => return (estimated, cursor.position)
      | (.error e, _) => throw (.io (.decode e))

def indexRow (partitioner : Partitioner) (state : IndexWriter × Histogram) (header : RowHeader) :
    Work (IndexWriter × Histogram) := do
  let index ← state.1.add (partitioner.decorate header.key) header.position
  return (index, state.2.add header.sizeOnDisk)

def indexRows (partitioner : Partitioner) (headers : List RowHeader)
    (state : IndexWriter × Histogram) : Work (IndexWriter × Histogram) :=
  headers.foldlM (indexRow partitioner) state

/-- Rebuilds the index, the filter and the statistics with one pass over the rows' keys and lengths. A
row that is cut off ends the pass. The columns of the rows are not counted. -/
def rebuild (partitioner : Partitioner) (config : Config) : RecoveryProcessor := fun d => do
  match config.validate with
  | .ok () => pure ()
  | .error e => throw (.config e)
  let node ← (Action.find (d.pathOf .data)).op
  let (estimated, _) ← estimateOpen d.lengthWidth node
  let bytes ← (Action.contents node).op
  let index ← IndexWriter.create d estimated config
  let (headers, failure) := (Scanner.start d.lengthWidth bytes).headers
  let (index, rowSizes) ← (indexRows partitioner headers (index, .rowSizes) : Work _)
  match failure with
  | none | some (.truncatedRow _) => pure ()
  | some e =>
      index.drop
      throw e
  let _ ← index.close
  writeStatistics d rowSizes .columnCounts

/-- Where the row of an index record ends, if the row is there and has the record's key. -/
def rowEnd? (width : LengthWidth) (data : Bytes) (entry : Bytes × Nat) : Option Nat := do
  let (key, size, _) ← Record.takeRowFront? width (data.drop entry.2)
  if key = entry.1 ∧ 0 ≤ size then some (entry.2 + Record.rowSize width key size.toNat) else none

/-- Whether an index read to its end is that of the data: its last record names a row that ends where
the data does. -/
def describesData (width : LengthWidth) (records : List (Bytes × Nat)) (data : Bytes) : Bool :=
  match records.getLast? with
  | none => data = []
  | some entry => entry.2 < data.length && rowEnd? width data entry = some data.length

def statisticsReadable (d : Descriptor) : Action TableError Bool := do
  match (← get).disk.read (d.pathOf .statistics) with
  | .ok bytes => return (Reader.decodeStatistics bytes).isOk
  | .error .notFound | .error .isADirectory => return false
  | .error e => throw (.io (.disk e))

/-- Whether the index, filter and statistics can be published as they are. The filter is made when the
data and the index are complete, so it vouches for both. -/
def auxiliaryIntact (d : Descriptor) : Action TableError Bool := do
  let disk := (← get).disk
  unless disk.existsAt (d.pathOf .primaryIndex) && disk.existsAt (d.pathOf .filter) do return false
  unless ← statisticsReadable d do return false
  match disk.read (d.pathOf .primaryIndex) with
  | .error .isADirectory => return false
  | .error e => throw (.io (.disk e))
  | .ok input =>
      match Record.readIndex input with
      | (_, some _) => return false
      | (records, none) =>
          match disk.read (d.pathOf .data) with
          | .error .isADirectory => return false
          | .error e => throw (.io (.disk e))
          | .ok data => return describesData d.lengthWidth records data

def removeIfThere (path : Path) : Action DiskError Unit := do
  tryCatch (Action.remove path) fun e => if e = .notFound then pure () else throw e

/-- Takes a table out of temporary status and opens it. If its data has the permanent name already there
is nothing to complete. -/
def recoverAndOpen (d : Descriptor) (processor : RecoveryProcessor) (metadata : TableMetadata)
    (partitioner : Partitioner) (config : Config) (age : Nat) : Action TableError Reader := do
  unless d.isCurrent do throw (.incompatibleVersion d.version)
  let disk := (← get).disk
  if !disk.existsAt (d.pathOf .data) && disk.existsAt (d.published.pathOf .data) then
    Reader.openTable d.published metadata partitioner config age
  else
    unless ← auxiliaryIntact d do
      for c in Component.auxiliary do
        (removeIfThere (d.pathOf c)).op
      processor d
    let published ← d.publish Component.all
    Reader.openTable published metadata partitioner config age

end Recovery

end SortedTable
