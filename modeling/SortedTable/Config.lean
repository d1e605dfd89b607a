import SortedTable.Decimal.Read
import SortedTable.Decimal.Shortest
import SortedTable.Text.Blank
import SortedTable.Text.Quoted

/-!
# Configuration

The settings of the write path: how densely the index is sampled, how large a filter is, how much is
buffered, and how finished files are read. Settings come from named variables, such as those of the
environment.
-/

namespace SortedTable

/-- How a finished file is read: through plain reads, or through mapped segments. -/
inductive AccessMode where
  | standard
  | mapped
deriving DecidableEq, Inhabited, Repr

/-- A setting that cannot be read or is out of its range, with the offending text. -/
structure ConfigError where
  key : String
  value : String
deriving DecidableEq, Repr

def ConfigError.message (e : ConfigError) : String :=
  "invalid " ++ e.key ++ ": " ++ Text.quoted e.value

namespace AccessMode

def name : AccessMode → String
  | standard => "standard"
  | mapped => "mmap"

def parse (s : String) : Except ConfigError AccessMode :=
  match String.ofList (s.toList.map Char.toLower) with
  | "standard" => .ok standard
  | "mmap" => .ok mapped
  | other => .error ⟨"disk access mode", other⟩

end AccessMode

structure Config where
  /-- A key is sampled into the summary once in so many keys. -/
  indexInterval : Nat
  /-- The rate of false positives that filters are sized for. -/
  falsePositiveRate : Float
  dataBufferBytes : Nat
  indexBufferBytes : Nat
  dataAccess : AccessMode
  indexAccess : AccessMode
  /-- The largest segment that is mapped as a unit. -/
  maxSegmentSize : Nat
deriving Inhabited

namespace Config

def default : Config where
  indexInterval := 128
  falsePositiveRate := 0.001
  dataBufferBytes := 1024 * 1024
  indexBufferBytes := 1024 * 1024
  dataAccess := .standard
  indexAccess := .standard
  maxSegmentSize := 0x7fffffff

def rateInRange (rate : Float) : Bool := 0 < rate && rate < 1

/-- The first setting that a writer cannot work with, in the order of the fields. -/
def validate (c : Config) : Except ConfigError Unit := do
  unless c.indexInterval ≠ 0 do throw ⟨"index_interval", "0"⟩
  unless rateInRange c.falsePositiveRate do
    throw ⟨"bloom_fpr", Decimal.ofFloat c.falsePositiveRate⟩
  unless c.dataBufferBytes ≠ 0 do throw ⟨"data_buffer_bytes", "0"⟩
  unless c.indexBufferBytes ≠ 0 do throw ⟨"index_buffer_bytes", "0"⟩
  unless c.maxSegmentSize ≠ 0 do throw ⟨"max_segment_size", "0"⟩

structure Valid (c : Config) : Prop where
  indexInterval : c.indexInterval ≠ 0
  falsePositiveRate : rateInRange c.falsePositiveRate
  dataBufferBytes : c.dataBufferBytes ≠ 0
  indexBufferBytes : c.indexBufferBytes ≠ 0
  maxSegmentSize : c.maxSegmentSize ≠ 0

/-- The value of a variable as `parse` reads it, or the default if the variable is not set. -/
def setting {α : Type} (lookup : String → Option String) (key : String)
    (parse : String → Option α) (default : α) : Except ConfigError α :=
  match lookup key with
  | none => .ok default
  | some raw =>
      match parse (Text.trim raw) with
      | some value => .ok value
      | none => .error ⟨key, raw⟩

def variableNames : List String := [
  "SSTABLE_INDEX_INTERVAL", "SSTABLE_BLOOM_FPR", "SSTABLE_DATA_BUFFER_KB", "SSTABLE_INDEX_BUFFER_KB",
  "SSTABLE_DISK_ACCESS_MODE", "SSTABLE_INDEX_ACCESS_MODE", "SSTABLE_MAX_SEGMENT_MB"]

/-- A size that is given in larger units. A size has 64 bits, and one that does not fit wraps around. -/
def inBytes (size unit : Nat) : Nat := size * unit % Decimal.limit64

/-- Reads every setting, in the order of the fields, then validates them together. -/
def ofLookup (lookup : String → Option String) : Except ConfigError Config := do
  let count := Decimal.natural? Decimal.limit64
  let mode (s : String) : Option AccessMode := (AccessMode.parse s).toOption
  let indexInterval ← setting lookup "SSTABLE_INDEX_INTERVAL" count default.indexInterval
  let falsePositiveRate ←
    setting lookup "SSTABLE_BLOOM_FPR" Decimal.real? default.falsePositiveRate
  let dataBuffer ←
    setting lookup "SSTABLE_DATA_BUFFER_KB" count (default.dataBufferBytes / 1024)
  let indexBuffer ←
    setting lookup "SSTABLE_INDEX_BUFFER_KB" count (default.indexBufferBytes / 1024)
  let dataAccess ← setting lookup "SSTABLE_DISK_ACCESS_MODE" mode default.dataAccess
  let indexAccess ← setting lookup "SSTABLE_INDEX_ACCESS_MODE" mode default.indexAccess
  let maxSegment ←
    setting lookup "SSTABLE_MAX_SEGMENT_MB" count (default.maxSegmentSize / (1024 * 1024))
  let config : Config :=
    { indexInterval, falsePositiveRate
      dataBufferBytes := inBytes dataBuffer 1024
      indexBufferBytes := inBytes indexBuffer 1024
      dataAccess, indexAccess
      maxSegmentSize := inBytes maxSegment (1024 * 1024) }
  config.validate
  return config

end Config

end SortedTable
