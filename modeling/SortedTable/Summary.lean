import SortedTable.Bisection
import SortedTable.Key

/-!
# Summaries

A sparse sample of the index: the first key and every so many keys after it, with the places of their
records in the index file.
-/

namespace SortedTable

structure SummaryEntry where
  key : DecoratedKey
  indexPosition : Nat
deriving DecidableEq, Inhabited, Repr

structure SummaryBuilder where
  interval : Nat
  keysWritten : Nat
  /-- The entries so far, the latest first. -/
  sampled : List SummaryEntry
deriving DecidableEq, Inhabited, Repr

structure Summary where
  interval : Nat
  keyCount : Nat
  entries : List SummaryEntry
deriving DecidableEq, Inhabited, Repr

namespace SummaryBuilder

/-- Samples one key in `interval`, and every key where that is zero. -/
def empty (interval : Nat) : SummaryBuilder := ⟨max 1 interval, 0, []⟩

def add (b : SummaryBuilder) (key : DecoratedKey) (indexPosition : Nat) : SummaryBuilder :=
  { b with
    keysWritten := b.keysWritten + 1
    sampled :=
      if b.keysWritten % b.interval = 0 then ⟨key, indexPosition⟩ :: b.sampled else b.sampled }

def build (b : SummaryBuilder) : Summary := ⟨b.interval, b.keysWritten, b.sampled.reverse⟩

end SummaryBuilder

namespace Summary

def size (s : Summary) : Nat := s.entries.length

/-- The last entry whose key is not above the given one: where a search for the key starts. -/
def floor (s : Summary) (key : DecoratedKey) : Option SummaryEntry :=
  match partitionPoint (fun e => e.key ≤ key) s.entries with
  | 0 => none
  | n + 1 => s.entries[n]?

end Summary

end SortedTable
