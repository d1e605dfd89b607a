import SortedTable.Record

/-!
# Estimating the number of rows

The number of rows in a data file, from the average size of its first rows. At most a thousand rows
are sampled, and none that starts behind the first hundred million bytes.
-/

namespace SortedTable

structure Cursor where
  bytes : Bytes
  position : Nat
deriving DecidableEq, Inhabited, Repr

namespace Estimate

def maxSamples : Nat := 1000

def maxBytes : Nat := 100000000

/-- Rows sampled so far and where the next one starts. -/
structure Sample where
  rows : Nat
  position : Nat
deriving DecidableEq, Inhabited, Repr

/-- Why a sample ended before its time: the length that a row cannot have, and the offset behind it. -/
structure BadLength where
  length : Int
  position : Nat
deriving DecidableEq, Repr

/-- Samples up to `samples` more rows, of which `rest` holds those from `position` on. A row whose
front is cut off ends the sample. -/
def sample (width : LengthWidth) (limit : Nat) :
    (samples : Nat) → Sample → Bytes → Except BadLength Sample
  | 0, s, _ => .ok s
  | samples + 1, s, rest =>
      if limit ≤ s.position then .ok s
      else
        match Record.takeRowFront? width rest with
        | none => .ok s
        | some (key, size, rest) =>
            let behind := s.position + Record.rowSize width key 0
            if size < 0 then .error ⟨size, behind⟩
            else sample width limit samples ⟨s.rows + 1, behind + size.toNat⟩ (rest.drop size.toNat)

def ofSample (length : Nat) (s : Sample) : Nat :=
  if s.rows = 0 then 0 else length / max 1 (s.position / s.rows)

end Estimate

/-- Estimates the number of rows from the start of the bytes, wherever the cursor is, and leaves the
cursor there; only a row of negative length leaves it behind that length. -/
def estimateRows (width : LengthWidth) (c : Cursor) : Except DecodeError Nat × Cursor :=
  let length := c.bytes.length
  match Estimate.sample width (min Estimate.maxBytes length) Estimate.maxSamples ⟨0, 0⟩ c.bytes with
  | .ok s => (.ok (Estimate.ofSample length s), { c with position := 0 })
  | .error e => (.error (.rowSize e.length), { c with position := e.position })

end SortedTable
