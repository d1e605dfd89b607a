/-!
# The shape of a filter

How many bits and how many probes a filter spends on a key for a wanted rate of false positives.
-/

namespace SortedTable

structure FilterShape where
  bitsPerKey : Nat
  hashCount : Nat
deriving DecidableEq, Inhabited, Repr

namespace FilterShape

def ln2 : Float := 0.693147180559945309417232121458

def maxHashCount : Nat := 64

def clampHashCount (count : Nat) : Nat := max 1 (min maxHashCount count)

/-- The least whole number of bits that reaches the rate `p`, which is `-ln p / (ln 2)²`, and the
number of probes that uses them best, which is the bits times `ln 2`. Both are at least one. -/
def ofRate (rate : Float) : FilterShape :=
  let wanted := (-(rate.log) / (ln2 * ln2)).ceil
  let bits := if wanted ≥ 1 then wanted else 1
  ⟨bits.toUInt32.toNat, clampHashCount (bits * ln2).round.toUInt32.toNat⟩

end FilterShape

end SortedTable
