import SortedTable.Bisection
import SortedTable.Disk.Action

/-!
# Segments

Finished files are read in segments. While a file is written, the start of every record is offered as
a place where a segment may begin, and segments are made as long as the maximum allows. A segment that
is not longer than that is mapped; a record that is longer has a segment of its own and is read
plainly. Without mapping the whole file is one segment.
-/

namespace SortedTable

structure SegmentBuilder where
  mode : AccessMode
  maxSize : Nat
  /-- The boundaries chosen so far, without the one at the start of the file. -/
  boundaries : List Nat
  currentStart : Nat
  currentSize : Nat
deriving DecidableEq, Inhabited, Repr

structure Segment where
  start : Nat
  length : Nat
  /-- The file that the segment is a map of. -/
  map : Option Nat
deriving DecidableEq, Inhabited, Repr

structure SegmentedFile where
  path : Path
  length : Nat
  mode : AccessMode
  segments : List Segment
deriving DecidableEq, Inhabited, Repr

namespace SegmentBuilder

def empty (mode : AccessMode) (maxSize : Nat) : SegmentBuilder := ⟨mode, max 1 maxSize, [], 0, 0⟩

/-- Ends the current segment at the last boundary that fits in it. -/
def close (b : SegmentBuilder) : SegmentBuilder :=
  if 0 < b.currentSize then
    let start := b.currentStart + b.currentSize
    { b with currentStart := start, boundaries := b.boundaries ++ [start] }
  else b

/-- Offers the start of a record; the starts come in ascending order. -/
def offer (b : SegmentBuilder) (boundary : Nat) : SegmentBuilder :=
  match b.mode with
  | .standard => b
  | .mapped =>
      if boundary - b.currentStart ≤ b.maxSize then
        { b with currentSize := boundary - b.currentStart }
      else
        let b := b.close
        let size := boundary - b.currentStart
        if b.maxSize < size then
          { b with
            currentStart := boundary, boundaries := b.boundaries ++ [boundary], currentSize := 0 }
        else { b with currentSize := size }

/-- Where the segments of a file of known length start: at its own start and at the boundaries inside
it, each once. The end of the file closes the last segment like a boundary. -/
def starts (b : SegmentBuilder) (length : Nat) : List Nat :=
  let inside := (b.offer length).boundaries.filter fun s => 0 < s ∧ s < length
  inside.foldl (fun starts s => if starts.getLast? = some s then starts else starts ++ [s]) [0]

def cut (length : Nat) : List Nat → List (Nat × Nat)
  | [] => []
  | [start] => [(start, length - start)]
  | start :: next :: rest => (start, next - start) :: cut length (next :: rest)

def isMapped (b : SegmentBuilder) (size : Nat) : Bool :=
  b.mode = .mapped && 0 < size && size ≤ b.maxSize

/-- The segments of a file; only a file can be mapped. -/
def segmentsOf (b : SegmentBuilder) (node : Node) (length : Nat) : Except DiskError (List Segment) :=
  (cut length (b.starts length)).mapM fun (start, size) =>
    if b.isMapped size then
      match node with
      | .file id => .ok ⟨start, size, some id⟩
      | .directory => .error .noDevice
    else .ok ⟨start, size, none⟩

def complete (b : SegmentBuilder) (path : Path) : Action DiskError SegmentedFile := do
  let node ← Action.find path
  Action.look fun d => do
    let length := d.length node
    return ⟨path, length, b.mode, ← b.segmentsOf node length⟩

end SegmentBuilder

namespace Segment

def isMapped (s : Segment) : Bool := s.map.isSome

def holds (s : Segment) (position : Nat) : Bool :=
  s.start ≤ position && position < s.start + s.length

end Segment

namespace SegmentedFile

def segmentFor (f : SegmentedFile) (position : Nat) : Option Segment :=
  match partitionPoint (fun s : Segment => s.start ≤ position) f.segments with
  | 0 => none
  | n + 1 => f.segments[n]?.filter (·.holds position)

def mapFor (f : SegmentedFile) (position count : Nat) : Option Nat :=
  match f.segmentFor position with
  | some s => if position + count ≤ s.start + s.length then s.map else none
  | none => none

/-- What a map shows of a file at a position: the bytes that are there now, and zeros behind the end of
the file if it became shorter. -/
def mapped (bytes : Bytes) (position count : Nat) : Bytes :=
  let found := (bytes.drop position).take count
  found ++ List.replicate (count - found.length) 0

/-- Whether the end of a range wraps around into a file of some length that it is behind. A position and a
number of bytes are added in 64 bits. -/
def wrapsInto (length position count : Nat) : Bool :=
  length < position + count && (position + count) % Decimal.limit64 ≤ length

/-- Reads bytes at a position: out of a map where one holds them all, else out of the file, which is
opened for it. A range whose end wraps around passes for one in the file. No buffer is long enough for
that unless the position is further out than files reach, so no segment holds the position, and it cannot
be gone to in the file. Where sums are checked, the program stops there instead. -/
def readAt (f : SegmentedFile) (position count : Nat) : Action IoError Bytes := do
  if wrapsInto f.length position count then
    let _ ← (Action.find f.path).io
    throw (.disk .invalidArgument)
  if f.length < position + count then throw (.pastEnd count position f.path)
  match f.mapFor position count with
  | some id => return mapped ((← get).disk.bytesOf id) position count
  | none =>
      let node ← (Action.find f.path).io
      if count = 0 then return []
      let bytes ← (Action.contents node).io
      match Bytes.split? count (bytes.drop position) with
      | some (found, _) => return found
      | none => throw (.decode .endOfInput)

end SegmentedFile

end SortedTable
