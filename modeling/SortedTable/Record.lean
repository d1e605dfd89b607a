import SortedTable.Bytes.BigEndian
import SortedTable.Error

/-!
# Records

The framing that the data and the index file share. A key is written with its length in front, in two
bytes. In the data file a row is a key, the length of the body and the body; in the index file a
record is a key and the offset of its row. All numbers are big-endian, and records follow each other
without padding.
-/

namespace SortedTable

namespace Record

def maxShort : Nat := 0xffff

def rowSizeBytes : Nat := 8

/-- What stands for the length of a body that is not written yet. -/
def rowSizePlaceholder : Int := -1

def shortPieces (bytes : Bytes) : List Bytes := [BigEndian.encode 2 bytes.length, bytes]

def short (bytes : Bytes) : Bytes :=
  BigEndian.encode 2 bytes.length ++ bytes

@[simp]
theorem flatten_shortPieces (bytes : Bytes) : (shortPieces bytes).flatten = short bytes := by
  simp [shortPieces, short]

def encodeShort (bytes : Bytes) : Except EncodeError Bytes :=
  if bytes.length ≤ maxShort then .ok (short bytes) else .error (.tooLong bytes.length)

/-- Reads bytes with their length in front; `none` is an input that ends too early. -/
def takeShort? (input : Bytes) : Option (Bytes × Bytes) := do
  let (length, rest) ← BigEndian.take? 2 input
  rest.split? length

theorem length_le_of_takeShort? {input bytes rest : Bytes}
    (h : takeShort? input = some (bytes, rest)) : rest.length ≤ input.length := by
  simp only [takeShort?, Option.bind_eq_bind, Option.bind_eq_some_iff, Prod.exists] at h
  obtain ⟨length, middle, hlength, hsplit⟩ := h
  obtain ⟨digits, rfl, -, -⟩ := BigEndian.take?_eq_some_iff.mp hlength
  obtain ⟨rfl, -⟩ := Bytes.split?_eq_some_iff.mp hsplit
  simp
  omega

def decodeShort (input : Bytes) : Except DecodeError (Bytes × Bytes) :=
  match takeShort? input with
  | some result => .ok result
  | none => .error .endOfInput

def row (key body : Bytes) : Bytes :=
  short key ++ BigEndian.encodeInt rowSizeBytes body.length ++ body

def rowSize (width : LengthWidth) (key : Bytes) (bodyLength : Nat) : Nat :=
  2 + key.length + width.bytes + bodyLength

/-- The front of a row: its key and the length field behind it, as it is. -/
def takeRowFront? (width : LengthWidth) (input : Bytes) : Option (Bytes × Int × Bytes) := do
  let (key, rest) ← takeShort? input
  let (size, rest) ← BigEndian.takeInt? width.bytes rest
  return (key, size, rest)

theorem length_lt_of_takeRowFront? {width : LengthWidth} {input key rest : Bytes} {size : Int}
    (h : takeRowFront? width input = some (key, size, rest)) : rest.length < input.length := by
  simp only [takeRowFront?, Option.bind_eq_bind, Option.bind_eq_some_iff, Prod.exists,
    Option.pure_def, Option.some.injEq, Prod.mk.injEq] at h
  obtain ⟨_, middle, hkey, _, _, hsize, -, -, rfl⟩ := h
  obtain ⟨digits, rfl, hlen, -⟩ := BigEndian.takeInt?_eq_some_iff.mp hsize
  have hle := length_le_of_takeShort? hkey
  have hpos : 0 < width.bytes := by cases width <;> decide
  simp only [List.length_append] at hle
  omega

def indexPieces (key : Bytes) (offset : Nat) : List Bytes :=
  shortPieces key ++ [BigEndian.encodeInt 8 offset]

def index (key : Bytes) (offset : Nat) : Bytes :=
  short key ++ BigEndian.encodeInt 8 offset

@[simp]
theorem flatten_indexPieces (key : Bytes) (offset : Nat) :
    (indexPieces key offset).flatten = index key offset := by
  simp [indexPieces, index]

def indexSize (key : Bytes) : Nat := 2 + key.length + 8

def decodeIndex (input : Bytes) : Except DecodeError ((Bytes × Nat) × Bytes) := do
  let (key, rest) ← decodeShort input
  match BigEndian.takeInt? 8 rest with
  | none => throw .endOfInput
  | some (offset, rest) =>
      if offset < 0 then throw (.dataOffset offset) else return ((key, offset.toNat), rest)

theorem length_lt_of_decodeIndex {input rest : Bytes} {entry : Bytes × Nat}
    (h : decodeIndex input = .ok (entry, rest)) : rest.length < input.length := by
  simp only [decodeIndex, decodeShort] at h
  cases hshort : takeShort? input with
  | none => simp [hshort, bind, Except.bind] at h
  | some found =>
      obtain ⟨key, middle⟩ := found
      simp only [hshort, bind, Except.bind] at h
      cases hoffset : BigEndian.takeInt? 8 middle with
      | none => simp [hoffset, throw, throwThe, MonadExceptOf.throw] at h
      | some found =>
          obtain ⟨offset, tail⟩ := found
          simp only [hoffset] at h
          obtain ⟨digits, rfl, hlen, -⟩ := BigEndian.takeInt?_eq_some_iff.mp hoffset
          have hle : (digits ++ tail).length ≤ input.length := length_le_of_takeShort? hshort
          split at h
          · simp [throw, throwThe, MonadExceptOf.throw] at h
          · simp only [pure, Except.pure, Except.ok.injEq, Prod.mk.injEq] at h
            obtain ⟨-, rfl⟩ := h
            simp only [List.length_append] at hle
            omega

/-- Reads index records until the input ends, or to the first that cannot be read. -/
def readIndex (input : Bytes) : List (Bytes × Nat) × Option DecodeError :=
  if input = [] then ([], none)
  else
    match h : decodeIndex input with
    | .error e => ([], some e)
    | .ok (entry, rest) =>
        have := length_lt_of_decodeIndex h
        let (entries, failure) := readIndex rest
        (entry :: entries, failure)
termination_by input.length

end Record

end SortedTable
