import SortedTable.Disk.Action

/-!
# Output

A file that is being written through a buffer. Bytes wait in the buffer until it is full or the place
of writing moves, so asking for the place costs nothing and the disk may lag behind.
-/

namespace SortedTable

structure Output where
  file : Nat
  capacity : Nat
  /-- Where the buffer's bytes belong. -/
  flushed : Nat
  pending : Contents
deriving Inhabited

namespace Output

def create (path : Path) (capacity : Nat) : Action DiskError Output :=
  return ⟨← Action.create path, capacity, 0, .empty⟩

def position (o : Output) : Nat := o.flushed + o.pending.length

def flush (o : Output) : Work Output := do
  if o.pending.length = 0 then return o
  Action.write o.file o.flushed o.pending.bytes
  return { o with flushed := o.position, pending := .empty }

def writeThrough (o : Output) (bytes : Bytes) : Work Output := do
  Action.write o.file o.flushed bytes
  return { o with flushed := o.flushed + bytes.length }

def room (o : Output) : Nat := o.capacity - o.pending.length

/-- Writes into the buffer, which is emptied first if the bytes do not fit; what is too long for the
whole buffer goes past it. -/
def write (o : Output) (bytes : Bytes) : Work Output := do
  if bytes = [] then return o
  if bytes.length < o.room then return { o with pending := o.pending.append bytes }
  let o ← if o.room < bytes.length then o.flush else pure o
  if o.capacity ≤ bytes.length then o.writeThrough bytes
  else return { o with pending := o.pending.append bytes }

def writePieces (o : Output) (pieces : List Bytes) : Work Output := pieces.foldlM write o

def seek (o : Output) (position : Nat) : Work Output := do
  let o ← o.flush
  return { o with flushed := position }

/-- The bytes of the file once the buffer is written. -/
def image (o : Output) (d : Disk) : Bytes := (d.bytesOf o.file).overlay o.pending.bytes o.flushed

end Output

end SortedTable
