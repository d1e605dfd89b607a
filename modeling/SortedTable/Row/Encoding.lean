import SortedTable.Record
import SortedTable.Row

/-!
# Encoding rows

A row is encoded piece by piece, and an encoder that gives up has written a part of it by then. The
encoded row is

    [local deletion: 4 bytes] [marked for delete: 8 bytes] [number of columns: 4 bytes]
    [name length: 2 bytes] [name] [timestamp: 8 bytes] [value length: 4 bytes] [value] ...
-/

namespace SortedTable

/-- What an encoder wrote, piece by piece, and the number of columns it reported or why it gave up. -/
structure Encoding where
  pieces : List Bytes
  outcome : Except EncodeError Nat

namespace Encoding

def written (e : Encoding) : Bytes := e.pieces.flatten

def complete (e : Encoding) : Except EncodeError (Bytes × Nat) :=
  e.outcome.map fun columnCount => (e.written, columnCount)

def framed (body : Bytes) (columnCount : Nat) : Encoding :=
  ⟨[BigEndian.encodeInt Record.rowSizeBytes body.length, body], .ok columnCount⟩

end Encoding

namespace Row

def maxInt32 : Nat := 0x7fffffff

/-- What is written of a column, and why it ends there if it is not all. -/
def encodeColumn (name : Bytes) (c : Column) : List Bytes × Option EncodeError :=
  if Record.maxShort < name.length then ([], some (.tooLong name.length))
  else
    let start := Record.shortPieces name ++ [BigEndian.encodeInt 8 c.timestamp.toInt]
    if maxInt32 < c.value.length then (start, some .valueTooLarge)
    else (start ++ [BigEndian.encodeInt 4 c.value.length, c.value], none)

def encodeColumns : List (Bytes × Column) → List Bytes × Option EncodeError
  | [] => ([], none)
  | (name, c) :: rest =>
      match encodeColumn name c with
      | (pieces, some e) => (pieces, some e)
      | (pieces, none) =>
          let (others, failure) := encodeColumns rest
          (pieces ++ others, failure)

def encode (r : Row) : Encoding :=
  let deletion :=
    [BigEndian.encodeInt 4 r.localDeletion.toInt, BigEndian.encodeInt 8 r.markedForDelete.toInt]
  if maxInt32 < r.size then ⟨deletion, .error .tooManyColumns⟩
  else
    let (columns, failure) := encodeColumns r.columns.entries
    ⟨deletion ++ BigEndian.encodeInt 4 r.size :: columns,
      match failure with
      | some e => .error e
      | none => .ok r.size⟩

def takeInt (width : Nat) (input : Bytes) : Except DecodeError (Int × Bytes) :=
  match BigEndian.takeInt? width input with
  | some result => .ok result
  | none => .error .endOfInput

def decodeColumn (input : Bytes) : Except DecodeError ((Bytes × Column) × Bytes) := do
  let (name, rest) ← Record.decodeShort input
  let (timestamp, rest) ← takeInt 8 rest
  let (length, rest) ← takeInt 4 rest
  if length < 0 then throw (.valueLength length)
  match rest.split? length.toNat with
  | none => throw .endOfInput
  | some (value, rest) => return ((name, ⟨value, Int64.ofInt timestamp⟩), rest)

/-- Reads columns in the order they come; of two with one name the later stays. -/
def decodeColumns : (count : Nat) → SortedMap Bytes Column → Bytes →
    Except DecodeError (SortedMap Bytes Column × Bytes)
  | 0, columns, input => .ok (columns, input)
  | count + 1, columns, input => do
      let ((name, c), rest) ← decodeColumn input
      decodeColumns count (columns.insert name c) rest

def decode (input : Bytes) : Except DecodeError (Row × Bytes) := do
  let (localDeletion, rest) ← takeInt 4 input
  let (markedForDelete, rest) ← takeInt 8 rest
  let (count, rest) ← takeInt 4 rest
  if count < 0 then throw (.columnCount count)
  let (columns, rest) ← decodeColumns count.toNat .empty rest
  return (⟨columns, Int32.ofInt localDeletion, Int64.ofInt markedForDelete⟩, rest)

end Row

end SortedTable
