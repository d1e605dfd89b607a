import SortedTable.Bytes

/-!
# Probes

The bits that a filter looks at for a key. One hash of the key gives the first bit, a second one,
mixed from it and made odd, the distance to the next.
-/

namespace SortedTable.Probe

/-- The Fowler-Noll-Vo hash, 64 bits wide. -/
def hash (key : Bytes) : UInt64 :=
  key.foldl (fun h b => (h ^^^ b.toUInt64) * 0x100000001b3) 0xcbf29ce484222325

def mix (z : UInt64) : UInt64 :=
  let z := (z ^^^ (z >>> 30)) * 0xbf58476d1ce4e5b9
  let z := (z ^^^ (z >>> 27)) * 0x94d049bb133111eb
  z ^^^ (z >>> 31)

def bitsOf (key : Bytes) (hashCount bits : Nat) : List Nat :=
  let first := hash key
  let distance := mix first ||| 1
  (List.range hashCount).map fun i => (first + UInt64.ofNat i * distance).toNat % bits

end SortedTable.Probe
