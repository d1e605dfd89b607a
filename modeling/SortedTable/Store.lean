import SortedTable.Recovery

/-!
# Stores

A store is the published tables of one name in one directory, and at most one table that is being
written. The directory's name is the keyspace. A new table gets a generation above all that are found
in the directory, those of unfinished tables included.
-/

namespace SortedTable

/-- What a store was about to do when something failed. -/
inductive StoreContext where
  | creating (dir : Path)
  | opening (d : Descriptor)
  | recovering (d : Descriptor)
  | decodingRow (position : Nat)
deriving DecidableEq, Repr

def StoreContext.message : StoreContext → String
  | creating dir => "creating " ++ dir.text
  | opening d => "opening " ++ d.text
  | recovering d => "recovering " ++ d.text
  | decodingRow position => s!"decoding row at offset {position}"

inductive StoreError where
  | config (e : ConfigError)
  | io (e : IoError)
  | table (e : TableError)
  | unknownGeneration (generation : Nat)
  | during (context : StoreContext) (e : StoreError)
deriving DecidableEq, Repr

namespace StoreError

/-- The messages of an error and of what is behind it, outermost first. -/
def messages : StoreError → List String
  | config e => [e.message]
  | io e => [e.message]
  | table e => e.messages
  | unknownGeneration generation => [s!"no published table with generation {generation}"]
  | during context e => context.message :: e.messages

def message (e : StoreError) : String := e.messages.headD ""

def fullMessage (e : StoreError) : String := ": ".intercalate e.messages

end StoreError

structure Store where
  dir : Path
  metadata : TableMetadata
  partitioner : Partitioner
  config : Config
  tables : SortedMap Nat Reader
  writer : Option Writer
  nextGeneration : Nat
deriving Inhabited

namespace Store

def expectedKeys : Nat := 10000

def valueColumn : Bytes := Bytes.ofString "value"

structure Found where
  descriptor : Descriptor
  component : Component
deriving DecidableEq, Repr

/-- By generation, then by component. -/
def Found.before (a b : Found) : Bool :=
  a.descriptor.generation < b.descriptor.generation ||
    (a.descriptor.generation = b.descriptor.generation && a.component.rank ≤ b.component.rank)

/-- The table's files among the names in the directory; other names are passed over. -/
def filesAmong (s : Store) (names : List Bytes) : List Found :=
  let found := names.filterMap fun name =>
    match Descriptor.ofPath? (s.dir.join ⟨name⟩) with
    | some (d, c) => if d.table = s.metadata.name then some ⟨d, c⟩ else none
    | none => none
  found.mergeSort Found.before

def listFiles (s : Store) : Action StoreError (List Found) := do
  let names ← (Action.look (·.list s.dir)).mapError fun e => .io (.disk e)
  return s.filesAmong names

/-- Takes note of a file: its generation is used up, and published data is a table to open. -/
def openFound (s : Store) (now : Nat) (f : Found) : Action StoreError Store := do
  let s := { s with nextGeneration := max s.nextGeneration (f.descriptor.generation + 1) }
  if f.component = .data ∧ !f.descriptor.temporary then
    let reader ← (Reader.openTable f.descriptor s.metadata s.partitioner s.config now).mapError
      fun e => .during (.opening f.descriptor) (.table e)
    return { s with tables := s.tables.insert f.descriptor.generation reader }
  else return s

/-- A store without tables, if the settings and the name allow one. -/
def start (dir : Path) (table : String) (partitioner : Partitioner) (config : Config) :
    Except StoreError Store := do
  match config.validate with
  | .ok () => pure ()
  | .error e => throw (.config e)
  unless Descriptor.ValidTable table do throw (.table (.invalidTableName table))
  return {
    metadata := .new (Descriptor.keyspaceOf dir) table
    tables := .empty
    writer := none
    nextGeneration := 1
    dir, partitioner, config }

/-- Opens every published table of the name, in a directory that is made if it is not there. Temporary
tables are left alone. -/
def openAll (dir : Path) (table : String) (partitioner : Partitioner) (config : Config) (now : Nat) :
    Action StoreError Store := do
  let s ← MonadExcept.ofExcept (start dir table partitioner config)
  (Action.makeDirectories dir).mapError fun e =>
    .during (.creating dir) (.io (.disk e))
  (← s.listFiles).foldlM (openFound · now) s

def table? (s : Store) (generation : Nat) : Option Reader := s.tables.get? generation

def pendingRows (s : Store) : Nat := s.writer.elim 0 Writer.rowsWritten

def nextDescriptor (s : Store) : Descriptor :=
  .current s.dir s.metadata.keyspace s.metadata.name s.nextGeneration true

/-- The writer at hand, or one for a new table; its generation is used up even if it fails. -/
def takeWriter (s : Store) : Work (Except StoreError Writer × Store) := do
  match s.writer with
  | some w => return (.ok w, s)
  | none =>
      let started ←
        (Writer.create s.nextDescriptor expectedKeys s.metadata s.partitioner s.config).run
      return (started.mapError .table, { s with nextGeneration := s.nextGeneration + 1 })

/-- Appends a value under a key. Keys come in ascending order in each table. -/
def append (s : Store) (key value : Bytes) (timestamp : Int64) :
    Work (Except StoreError Unit × Store) := do
  match ← s.takeWriter with
  | (.error e, s) => return (.error e, s)
  | (.ok w, s) =>
      let row := Row.empty.add valueColumn value timestamp
      let (result, w) ← w.append (s.partitioner.decorate key) row.encode
      return (result.mapError .table, { s with writer := some w })

def flush (s : Store) (now : Nat) : Work (Except StoreError (Option Reader) × Store) := do
  match s.writer with
  | none => return (.ok none, s)
  | some w =>
      let s := { s with writer := none }
      match ← (w.finish now).run with
      | .error e => return (.error (.table e), s)
      | .ok reader =>
          return (.ok (some reader),
            { s with tables := s.tables.insert reader.descriptor.generation reader })

/-- Gives up the table that is being written; its files stay for a recovery. -/
def abort (s : Store) : Work (Option Descriptor × Store) := do
  match s.writer with
  | none => return (none, s)
  | some w =>
      w.drop
      return (some w.descriptor, { s with writer := none })

/-- The temporary tables among the files, other than the one that is being written. -/
def unfinished (s : Store) (files : List Found) : List Descriptor :=
  let writing := s.writer.map fun w => w.descriptor.generation
  (files.filter fun f =>
    f.component = .data && f.descriptor.temporary && some f.descriptor.generation ≠ writing).map
      (·.descriptor)

/-- Recovers tables one by one, up to the first that fails. -/
def recoverAll (now : Nat) : List Descriptor → List Nat → Store →
    Work (Except StoreError (List Nat) × Store)
  | [], recovered, s => return (.ok recovered, s)
  | d :: rest, recovered, s => do
      let processor := Recovery.rebuild s.partitioner s.config
      match ← (Recovery.recoverAndOpen d processor s.metadata s.partitioner s.config now).run with
      | .error e => return (.error (.during (.recovering d) (.table e)), s)
      | .ok reader =>
          recoverAll now rest (recovered ++ [d.generation])
            { s with tables := s.tables.insert d.generation reader }

/-- Completes every temporary table in the directory, and gives their generations. -/
def recover (s : Store) (now : Nat) : Work (Except StoreError (List Nat) × Store) := do
  match ← s.listFiles.run with
  | .error e => return (.error e, s)
  | .ok files => recoverAll now (s.unfinished files) [] s

def valueOf (row : RowHeader × Bytes) : Except StoreError (Bytes × Bytes) :=
  match Row.decode row.2 with
  | .error e => .error (.during (.decodingRow row.1.position) (.io (.decode e)))
  | .ok (content, _) => .ok (row.1.key, (content.get? valueColumn).elim [] (·.value))

def scan (s : Store) (generation : Nat) : Action StoreError (List (Bytes × Bytes)) := do
  match s.table? generation with
  | none => throw (.unknownGeneration generation)
  | some reader =>
      let scanner ← reader.scanner.mapError .table
      let (rows, failure) := scanner.rows
      let values ← MonadExcept.ofExcept (rows.mapM valueOf)
      match failure with
      | some e => throw (.table e)
      | none => return values

/-- Closes the store as it is; a table that is being written stays unfinished. -/
def close (s : Store) : Work Unit := do
  let _ ← s.abort

def describe (s : Store) : String :=
  let tables := ", ".intercalate (s.tables.keys.map toString)
  let writing := match s.writer with
    | none => "None"
    | some w => s!"Some({Text.quoted w.descriptor.text})"
  s!"TableStore \x7b dir: {Text.quotedPath s.dir.bytes}, table: {Text.quoted s.metadata.name}, " ++
    s!"partitioner: {Text.quoted s.partitioner.name}, tables: [{tables}], writing: {writing}, " ++
    s!"pending_rows: {s.pendingRows}, next_generation: {s.nextGeneration} \x7d"

end Store

end SortedTable
