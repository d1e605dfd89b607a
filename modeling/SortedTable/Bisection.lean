/-!
# Bisection

The search by halving that summaries and histograms share. `bisect side xs` asks of an element
whether the place looked for is after it (`lt`), at it (`eq`) or before it (`gt`). On a list where the
answers change from `lt` to `eq` to `gt` it gives the number of elements before the place.
-/

namespace SortedTable

/-- Halves a range of `size` indices from `base` on until one is left. -/
def narrow (side : Nat → Ordering) (size base : Nat) : Nat :=
  if size ≤ 1 then base
  else
    let middle := base + size / 2
    narrow side (size - size / 2) (if side middle = .gt then base else middle)
termination_by size

def bisect {α : Type} (side : α → Ordering) (xs : List α) : Nat :=
  let at? (i : Nat) : Ordering := (xs[i]?.map side).getD .gt
  let found := narrow at? xs.length 0
  if at? found = .lt then found + 1 else found

/-- How many elements pass a test that only a first part of the list passes. -/
def partitionPoint {α : Type} (test : α → Bool) (xs : List α) : Nat :=
  bisect (fun x => if test x then .lt else .gt) xs

end SortedTable
