import SortedTable.Config
import SortedTable.Descriptor
import SortedTable.Key

/-!
# Errors

What can go wrong, by cause: in decoding bytes, in encoding a row, on the disk, and in the work on a
table. Each cause has one wording.
-/

namespace SortedTable

inductive DecodeError where
  | endOfInput
  | rowSize (size : Int)
  | dataOffset (offset : Int)
  | columnCount (count : Int)
  | valueLength (length : Int)
  | bucketCount (count : Nat)
  | hashCount (count : Int)
  | wordCount (count : Int)
deriving DecidableEq, Repr

def DecodeError.message : DecodeError → String
  | endOfInput => "failed to fill whole buffer"
  | rowSize size => s!"negative row size {size}"
  | dataOffset offset => s!"negative data offset {offset}"
  | columnCount count => s!"negative column count {count}"
  | valueLength length => s!"negative value length {length}"
  | bucketCount count => s!"invalid histogram bucket count {count}"
  | hashCount count => s!"bad hash count {count}"
  | wordCount count => s!"bad bitset size {count} words"

inductive EncodeError where
  | tooLong (count : Nat)
  | tooManyColumns
  | valueTooLarge
  /-- The row's own encoder gave up. -/
  | refused (reason : String)
deriving DecidableEq, Repr

def EncodeError.message : EncodeError → String
  | tooLong count => s!"{count} bytes do not fit a short length prefix"
  | tooManyColumns => "too many columns"
  | valueTooLarge => "column value too large"
  | refused reason => reason

inductive DiskError where
  | notFound
  | busy
  | alreadyExists
  | noDevice
  | notADirectory
  | isADirectory
  | invalidArgument
  | nameTooLong
  | notEmpty
  /-- A path with a zero byte in it names nothing. -/
  | zeroByte
  | lengthOutOfRange
deriving DecidableEq, Repr

def DiskError.message : DiskError → String
  | notFound => "No such file or directory (os error 2)"
  | busy => "Device or resource busy (os error 16)"
  | alreadyExists => "File exists (os error 17)"
  | noDevice => "No such device (os error 19)"
  | notADirectory => "Not a directory (os error 20)"
  | isADirectory => "Is a directory (os error 21)"
  | invalidArgument => "Invalid argument (os error 22)"
  | nameTooLong => "File name too long (os error 36)"
  | notEmpty => "Directory not empty (os error 39)"
  | zeroByte => "file name contained an unexpected NUL byte"
  | lengthOutOfRange => "number too large to fit in target type"

inductive IoError where
  | disk (e : DiskError)
  | decode (e : DecodeError)
  | encode (e : EncodeError)
  | pastEnd (count position : Nat) (path : Path)
deriving DecidableEq, Repr

def IoError.message : IoError → String
  | disk e => e.message
  | decode e => e.message
  | encode e => e.message
  | pastEnd count position path => s!"read of {count} bytes at {position} past end of {path.text}"

inductive TableError where
  | io (e : IoError)
  | outOfOrder (last current : DecoratedKey)
  | missingKey
  | keyTooLong (length : Nat)
  | emptyValue
  | rename (source target : Path) (e : DiskError)
  | incompatibleVersion (found : String)
  | invalidFilename (path : Path)
  | invalidTableName (name : String)
  | missingComponent (component : Component) (path : Path)
  | truncatedRow (position : Nat)
  | corrupt (component : Component) (reason : IoError)
  | config (e : ConfigError)
deriving DecidableEq, Repr

namespace TableError

def message : TableError → String
  | io e => "io error: " ++ e.message
  | outOfOrder last current =>
      s!"keys must be written in ascending order (last written {last.text}, " ++
        s!"current {current.text})"
  | missingKey => "keys must not be empty"
  | keyTooLong length => s!"key of {length} bytes exceeds the 65535 byte limit"
  | emptyValue => "raw row values must not be empty"
  | rename source target e =>
      s!"failed to rename {source.text} to {target.text}: {e.message}"
  | incompatibleVersion found =>
      s!"cannot recover sstable with version {found} " ++
        s!"(current version {Descriptor.currentVersion})"
  | invalidFilename path => s!"not an sstable component file name: {path.text}"
  | invalidTableName name =>
      "invalid table name " ++ Text.quoted name ++
        ": must be non-empty and contain no '-' or path separator"
  | missingComponent component path => s!"missing {component.name} component: {path.text}"
  | truncatedRow position =>
      s!"data file truncated inside the row starting at offset {position}"
  | corrupt component reason => s!"corrupt {component.name}: {reason.message}"
  | config e => e.message

/-- The message of the failure behind an error that only passes it on. -/
def cause? : TableError → Option String
  | io e => some e.message
  | rename _ _ e => some e.message
  | _ => none

/-- The message and those of the failures behind it, outermost first. -/
def messages (e : TableError) : List String := e.message :: e.cause?.toList

end TableError

end SortedTable
