import SortedTable.Proofs.Bisecting
import SortedTable.Proofs.Segmenting

namespace SortedTable

namespace Segment

end Segment

namespace SegmentedFile

variable {f : SegmentedFile} {s : Segment} {position : Nat}

theorem wrapsInto_of_lt {length count : Nat} (hfits : position + count < Decimal.limit64) :
    wrapsInto length position count = false := by
  rw [Bool.eq_false_iff, ne_eq, wrapsInto_iff, Nat.mod_eq_of_lt hfits]
  omega

/-- Numbers of 64 bits wrap around into the file if their sum is too large, but by no more than the file is long. -/
theorem wrapsInto_iff_of_lt {length count : Nat} (hposition : position < Decimal.limit64)
    (hcount : count < Decimal.limit64) (hlength : length < Decimal.limit64) :
    wrapsInto length position count = true ↔
      Decimal.limit64 ≤ position + count ∧ position + count ≤ Decimal.limit64 + length := by
  rcases Nat.lt_or_ge (position + count) Decimal.limit64 with hfits | hlarge
  · rw [wrapsInto_of_lt hfits]
    refine iff_of_false Bool.false_ne_true fun h => ?_
    exact absurd h.1 (Nat.not_le_of_lt hfits)
  · have hrest : (position + count) % Decimal.limit64 = position + count - Decimal.limit64 := by
      rw [Nat.mod_eq_sub_mod hlarge, Nat.mod_eq_of_lt (by omega)]
    rw [wrapsInto_iff, hrest]
    omega

end SegmentedFile

namespace SegmentBuilder

variable {mode : AccessMode} {m : Nat} {offers : List Nat} {v : Volume} {path : Path} {bytes : Bytes}

end SegmentBuilder

end SortedTable
