import SortedTable.Bisection
import SortedTable.Bytes.BigEndian
import SortedTable.Error

/-!
# Histograms

Estimates of how large rows are and how many columns they have. Bucket `i` counts the values above
`offsets[i - 1]` up to `offsets[i]`; the first bucket counts those up to `offsets[0]`, and one more
bucket behind the last offset counts all that are larger. The stored form is

    [number of buckets: 4 bytes] [offset: 8 bytes] [count: 8 bytes] ...

with the offset below each bucket, and the first offset once more for the first bucket.
-/

namespace SortedTable

structure Histogram where
  offsets : List Nat
  buckets : List Nat
deriving DecidableEq, Inhabited, Repr

namespace Histogram

/-- The offset after `last`: a fifth more, and one more at least. -/
def nextOffset (last : UInt64) : UInt64 :=
  let grown := (last.toFloat * 1.2).round.toUInt64
  if grown = last then last + 1 else grown

def growing : (count : Nat) → (last : UInt64) → List Nat
  | 0, _ => []
  | count + 1, last => last.toNat :: growing count (nextOffset last)

def empty (offsets : List Nat) : Histogram :=
  ⟨offsets, List.replicate (offsets.length + 1) 0⟩

def sized (offsetCount : Nat) : Histogram := empty (growing (max 1 offsetCount) 1)

def rowSizes : Histogram := sized 150

def columnCounts : Histogram := sized 114

def bucketOf (h : Histogram) (value : Nat) : Nat :=
  bisect (fun offset => compare offset value) h.offsets

def add (h : Histogram) (value : Nat) : Histogram :=
  { h with buckets := h.buckets.modify (h.bucketOf value) (· + 1) }

def total : List Nat → Nat
  | [] => 0
  | n :: rest => n + total rest

def count (h : Histogram) : Nat := total h.buckets

/-- Whether some value is larger than the last offset. -/
def isOverflowed (h : Histogram) : Bool := h.buckets.getLast?.any (0 < ·)

def min (h : Histogram) : Nat :=
  match h.buckets.findIdx? (0 < ·) with
  | some (i + 1) => h.offsets.getD i 0
  | _ => 0

def largest : Nat := 0xffffffffffffffff

/-- The upper end of the last bucket that holds a value; the bucket behind the last offset has none
but the largest number there is. -/
def max (h : Histogram) : Nat :=
  match h.buckets.reverse.findIdx? (0 < ·) with
  | none => 0
  | some fromEnd => h.offsets.getD (h.buckets.length - 1 - fromEnd) largest

/-- The upper end that stands for a bucket in the mean: the last offset for the bucket behind it. -/
def upperEnd (h : Histogram) (i : Nat) : Nat := h.offsets.getD i (h.offsets.getLast?.getD 0)

/-- The mean of the values, each taken at the upper end of its bucket, rounded up. -/
def mean (h : Histogram) : Nat :=
  if h.count = 0 then 0
  else
    let sum := total (h.buckets.mapIdx fun i n => n * h.upperEnd i)
    (sum + h.count - 1) / h.count

def encode (h : Histogram) : Bytes :=
  BigEndian.encode 4 h.buckets.length ++
    (h.buckets.mapIdx fun i n =>
      BigEndian.encode 8 (h.offsets.getD (i - 1) 0) ++ BigEndian.encode 8 n).flatten

def maxBuckets : Nat := 10000

def pairsOf : (count : Nat) → Bytes → List (Nat × Nat)
  | 0, _ => []
  | count + 1, bytes =>
      (BigEndian.decode (bytes.take 8), BigEndian.decode ((bytes.drop 8).take 8)) ::
        pairsOf count (bytes.drop 16)

/-- Reads a histogram. Of the two offsets for the first bucket the second counts. -/
def decode (input : Bytes) : Except DecodeError (Histogram × Bytes) := do
  match BigEndian.takeInt? 4 input with
  | none => throw .endOfInput
  | some (count, rest) =>
      let count := count.toNat
      unless 2 ≤ count ∧ count ≤ maxBuckets do throw (.bucketCount count)
      match rest.split? (16 * count) with
      | none => throw .endOfInput
      | some (bytes, rest) =>
          let pairs := pairsOf count bytes
          return (⟨pairs.tail.map (·.1), pairs.map (·.2)⟩, rest)

end Histogram

end SortedTable
