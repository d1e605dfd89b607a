import SortedTable.Store
import SortedTable.Text.Uppercase

/-!
# The shell

A line-by-line conversation with a store. Commands are in upper or lower case:

    APPEND key value     append a row to the table being written
    FLUSH                publish the table being written
    ABORT                give up the table being written
    RECOVER              complete every temporary table
    TABLES               list the published tables
    SCAN generation      print every row of a table
    STATS [generation]   print the estimates of a table, or the state of the store
    EXIT, QUIT           publish the table being written and end
-/

namespace SortedTable

inductive ShellError where
  /-- The name, in lower case, of a partitioner that there is none of. -/
  | unknownPartitioner (name : String)
  | settings (e : ConfigError)
  | store (e : StoreError)
  | unreadableLine
deriving DecidableEq, Repr

namespace ShellError

def unknownPartitionerMessage (name : String) : String :=
  s!"unknown partitioner {Text.quoted name} (expected bytes or hash)"

def messages : ShellError → List String
  | unknownPartitioner name => [unknownPartitionerMessage name]
  | settings e => ["reading SSTABLE_* settings", e.message]
  | store e => e.messages
  | unreadableLine => ["stream did not contain valid UTF-8"]

/-- A text behind a mark, with its further lines under the first. -/
def marked (mark text : String) : String :=
  mark ++ ("\n" ++ String.ofList (List.replicate mark.length ' ')).intercalate (text.splitOn "\n")

/-- The causes of an error, each indented; several are numbered. -/
def causeLines : List String → List String
  | [cause] => [marked "    " cause]
  | causes => causes.mapIdx fun i cause => marked s!"    {i}: " cause

def report (e : ShellError) : String :=
  match e.messages with
  | [] => ""
  | message :: [] => s!"Error: {message}\n"
  | message :: causes =>
      s!"Error: {message}\n\nCaused by:\n" ++ "\n".intercalate (causeLines causes) ++ "\n"

end ShellError

structure Transcript where
  output : String
  failure : Option ShellError

namespace Shell

def lines (ls : List String) : String := String.join (ls.map (· ++ "\n"))

def banner (dir table : String) (tables recovered : Nat) : String :=
  lines [
    s!"sstable-shell started (dir={dir}, table={table}, tables={tables}, recovered={recovered})",
    "Commands: APPEND key value | FLUSH | ABORT | RECOVER",
    "          TABLES | SCAN generation | STATS [generation] | EXIT"]

def prompt : String := "> "

def tableLine (r : Reader) : String :=
  s!"{r.descriptor.text} keys={r.estimatedKeys} data={r.data.length}B " ++
    s!"index={r.index.length}B summary={r.summary.size}"

def histogramLine (label : String) (h : Histogram) : String :=
  s!"{label}count={h.count} min={h.min} max={h.max} mean={h.mean}"

def statsLines (r : Reader) : List String :=
  [tableLine r, histogramLine "row size: " r.rowSizes, histogramLine "columns:  " r.columnCounts,
    s!"max data age: {r.maxDataAge}"]

def generation? (word : Option String) : Option Nat :=
  word.bind (Decimal.natural? Decimal.limit64)

/-- What follows a command: what it prints, the store, and whether the conversation goes on. -/
structure Reply where
  output : List String
  store : Store
  goesOn : Bool

def say (s : Store) (output : List String) : Reply := ⟨output, s, true⟩

def append (s : Store) (now : Nat) : List String → Work Reply
  | key :: value@(_ :: _) => do
      let value := " ".intercalate value
      let (result, s) ←
        s.append (Bytes.ofString key) (Bytes.ofString value) (Int64.ofNat now)
      match result with
      | .ok () => return say s ["OK"]
      | .error e => return say s ["ERR append failed: " ++ e.message]
  | _ => return say s ["ERR usage: APPEND key value"]

def flush (s : Store) (now : Nat) : Work Reply := do
  match ← s.flush (now / 1000) with
  | (.ok (some reader), s) => return say s [tableLine reader]
  | (.ok none, s) => return say s ["(nothing to flush)"]
  | (.error e, s) => return say s ["ERR flush failed: " ++ e.fullMessage]

def abort (s : Store) : Work Reply := do
  match ← s.abort with
  | (some d, s) => return say s ["aborted " ++ d.text]
  | (none, s) => return say s ["(nothing to abort)"]

def recover (s : Store) (now : Nat) : Work Reply := do
  match ← s.recover (now / 1000) with
  | (.ok generations, s) =>
      let list := ", ".intercalate (generations.map toString)
      return say s [s!"OK (recovered [{list}])"]
  | (.error e, s) => return say s ["ERR recover failed: " ++ e.fullMessage]

def tables (s : Store) : List String :=
  s.tables.values.map tableLine ++ [s!"({s.tables.size} tables)"]

def rowLine (row : Bytes × Bytes) : String :=
  Text.lossy row.1 ++ " -> " ++ Text.lossy row.2

def scan (s : Store) (word : Option String) : Work Reply := do
  match generation? word with
  | none => return say s ["ERR usage: SCAN generation"]
  | some generation =>
      match ← (s.scan generation).run with
      | .ok [] => return say s ["(empty)"]
      | .ok rows => return say s (rows.map rowLine ++ [s!"({rows.length} rows)"])
      | .error e => return say s ["ERR scan failed: " ++ e.fullMessage]

def stats (s : Store) (word : Option String) : List String :=
  match generation? word with
  | none => [s.describe]
  | some generation =>
      match s.table? generation with
      | some reader => statsLines reader
      | none => [s!"ERR no published table with generation {generation}"]

def leave (s : Store) (now : Nat) : Work Reply := do
  match ← s.flush (now / 1000) with
  | (.ok _, s) => return ⟨["bye"], s, false⟩
  | (.error e, s) => return ⟨["ERR flush failed: " ++ e.fullMessage, "bye"], s, false⟩

def obey (s : Store) (now : Nat) (line : String) : Work Reply :=
  match Text.words line with
  | [] => return say s []
  | word :: arguments =>
      match Text.upper word with
      | "APPEND" => append s now arguments
      | "FLUSH" => flush s now
      | "ABORT" => abort s
      | "RECOVER" => recover s now
      | "TABLES" => return say s (tables s)
      | "SCAN" => scan s arguments.head?
      | "STATS" => return say s (stats s arguments.head?)
      | "EXIT" | "QUIT" => leave s now
      | other => return say s ["unknown command: " ++ other]

def inputLines (input : Bytes) : List Bytes :=
  let pieces := input.splitOn 0x0a
  let ended := pieces.dropLast.map fun line =>
    if line.getLast? = some 0x0d then line.dropLast else line
  match pieces.getLast? with
  | none | some [] => ended
  | some unended => ended ++ [unended]

inductive Turn where
  | goOn (output : String) (s : Store)
  | stop (output : String) (failure : Option ShellError)

/-- Takes one line. A line that is not text ends the conversation, as some commands do. -/
def turn (now : Nat) (line : Bytes) (s : Store) : Work Turn := do
  match Text.ofUtf8? line with
  | none =>
      s.close
      return .stop "" (some .unreadableLine)
  | some line =>
      let reply ← obey s now line
      if reply.goesOn then return .goOn (lines reply.output ++ prompt) reply.store
      else
        reply.store.close
        return .stop (lines reply.output) none

def converse (now : Nat) : List Bytes → Store → String → Work Transcript
  | [], s, output => do
      s.close
      return ⟨output, none⟩
  | line :: rest, s, output => do
      match ← turn now line s with
      | .goOn more s => converse now rest s (output ++ more)
      | .stop more failure => return ⟨output ++ more, failure⟩

def variableNames : List String :=
  ["SSTABLE_DIR", "SSTABLE_TABLE", "SSTABLE_PARTITIONER"] ++ Config.variableNames

def directory (environment : String → Option String) : String :=
  (environment "SSTABLE_DIR").getD "data/ks"

/-- The store that the environment describes, with its unfinished tables recovered, and what the shell
says at its start. -/
def setUp (environment : String → Option String) (now : Nat) :
    Action ShellError (Store × String) := do
  let dir := directory environment
  let table := (environment "SSTABLE_TABLE").getD "users"
  let partitioner ←
    match Partitioner.byName ((environment "SSTABLE_PARTITIONER").getD "bytes") with
    | .ok partitioner => pure partitioner
    | .error name => throw (.unknownPartitioner name)
  let config ←
    match Config.ofLookup environment with
    | .ok config => pure config
    | .error e => throw (.settings e)
  let s ← (Store.openAll (.ofString dir) table partitioner config (now / 1000)).mapError .store
  match ← s.recover (now / 1000) with
  | (.ok generations, s) =>
      return (s, banner dir s.metadata.name s.tables.size generations.length ++ prompt)
  | (.error e, _) => throw (.store e)

/-- Runs a shell on its input; the time is in microseconds. -/
def run (environment : String → Option String) (input : Bytes) (now : Nat) : Work Transcript := do
  match ← (setUp environment now).run with
  | .error e => return ⟨"", some e⟩
  | .ok (s, start) => converse now (inputLines input) s start

end Shell

end SortedTable
