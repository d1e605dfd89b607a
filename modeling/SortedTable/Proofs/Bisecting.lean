import SortedTable.Bisection

namespace SortedTable

theorem narrow_lt (side : Nat → Ordering) (size base : Nat) :
    narrow side size base < base + max size 1 := by
  fun_induction narrow side size base with
  | case1 size base hsmall => omega
  | case2 size base hlarge middle ih =>
      have hmiddle : middle = base + size / 2 := rfl
      split at ih
      · rename_i hbefore
        simp only [hbefore, ↓reduceIte]
        omega
      · rename_i hafter
        simp only [hafter, ↓reduceIte]
        omega

/-- All that lies behind the place that is found, within the range, is past what is looked for; and the place itself
is not, unless the search has never left its start. -/
theorem narrow_spec {side : Nat → Ordering} (hside : ∀ i j, i ≤ j → side i = .gt → side j = .gt) (size base : Nat) :
    (side (narrow side size base) = .gt → narrow side size base = base) ∧
      ∀ i, narrow side size base < i → i < base + size → side i = .gt := by
  fun_induction narrow side size base with
  | case1 size base hsmall =>
      refine ⟨fun _ => rfl, fun i hi hend => ?_⟩
      omega
  | case2 size base hlarge middle ih =>
      have hmiddle : middle = base + size / 2 := rfl
      obtain ⟨hstart, hbehind⟩ := ih
      by_cases hpast : side middle = .gt
      · simp only [hpast, ↓reduceIte] at hstart hbehind ⊢
        refine ⟨hstart, fun i hi hend => ?_⟩
        -- The part that is cut off starts behind the middle, which is past what is looked for.
        by_cases hinside : i < base + (size - size / 2)
        · exact hbehind i hi hinside
        · exact hside middle i (by omega) hpast
      · simp only [hpast, ↓reduceDIte, ↓reduceIte] at hstart hbehind ⊢
        refine ⟨fun hgt => ?_, fun i hi hend => hbehind i hi (by omega)⟩
        rw [hstart hgt] at hgt
        exact absurd hgt hpast

section Places

variable {α : Type} {side : α → Ordering} {test : α → Bool} {xs : List α} {i j : Nat} {x : α}

/-- What the search is told at a place: behind the list, that all is past. -/
def sideAt (side : α → Ordering) (xs : List α) (i : Nat) : Ordering := (xs[i]?.map side).getD .gt

theorem sideAt_of_getElem? (hx : xs[i]? = some x) : sideAt side xs i = side x := by
  rw [sideAt, hx, Option.map_some, Option.getD_some]

theorem lt_length_of_sideAt (h : sideAt side xs i ≠ .gt) : i < xs.length := by
  refine Nat.lt_of_not_le fun hbehind => h ?_
  rw [sideAt, List.getElem?_eq_none hbehind, Option.map_none, Option.getD_none]

theorem bisect_eq (side : α → Ordering) (xs : List α) :
    bisect side xs =
      if sideAt side xs (narrow (sideAt side xs) xs.length 0) = .lt then narrow (sideAt side xs) xs.length 0 + 1
      else narrow (sideAt side xs) xs.length 0 := rfl

theorem bisect_le (side : α → Ordering) (xs : List α) : bisect side xs ≤ xs.length := by
  have hlt := narrow_lt (sideAt side xs) xs.length 0
  rw [bisect_eq]
  split
  · rename_i hbefore
    exact lt_length_of_sideAt (by rw [hbefore]; decide)
  · omega

theorem sideAt_eq_lt_of_lt (h : xs.Pairwise fun a b => side b ≠ .gt → side a = .lt) (hij : i < j)
    (hj : sideAt side xs j ≠ .gt) : sideAt side xs i = .lt := by
  have hjlt := lt_length_of_sideAt hj
  have hilt := Nat.lt_trans hij hjlt
  rw [sideAt_of_getElem? (List.getElem?_eq_getElem hjlt)] at hj
  rw [sideAt_of_getElem? (List.getElem?_eq_getElem hilt)]
  exact List.pairwise_iff_getElem.mp h i j hilt hjlt hij hj

theorem sideAt_eq_gt_of_le (h : xs.Pairwise fun a b => side b ≠ .gt → side a = .lt) (hij : i ≤ j)
    (hi : sideAt side xs i = .gt) : sideAt side xs j = .gt := by
  refine Decidable.byContradiction fun hj => ?_
  rcases Nat.eq_or_lt_of_le hij with rfl | hlt
  · exact hj hi
  · rw [sideAt_eq_lt_of_lt h hlt hj] at hi
    cases hi

/-- The elements before the place that is found are those that lie before the place looked for. -/
theorem lt_bisect_iff (h : xs.Pairwise fun a b => side b ≠ .gt → side a = .lt) (hx : xs[i]? = some x) :
    i < bisect side xs ↔ side x = .lt := by
  have hspec := narrow_spec (fun _ _ => sideAt_eq_gt_of_le h) xs.length 0
  have hlength : i < 0 + xs.length := by
    rw [Nat.zero_add]
    exact (List.getElem?_eq_some_iff.mp hx).1
  have hside : sideAt side xs i = side x := sideAt_of_getElem? hx
  rw [← hside, bisect_eq]
  generalize narrow (sideAt side xs) xs.length 0 = found at hspec ⊢
  obtain ⟨hstart, hbehind⟩ := hspec
  by_cases hlt : sideAt side xs found = .lt
  · rw [if_pos hlt, Nat.lt_succ_iff]
    constructor
    · intro hle
      rcases Nat.eq_or_lt_of_le hle with rfl | hbefore
      · exact hlt
      · exact sideAt_eq_lt_of_lt h hbefore (by rw [hlt]; decide)
    · intro hi
      refine Decidable.byContradiction fun hle => ?_
      rw [hbehind i (Nat.lt_of_not_le hle) hlength] at hi
      cases hi
  · rw [if_neg hlt]
    constructor
    · intro hbefore
      by_cases hgt : sideAt side xs found = .gt
      · -- The search has never left its start, so nothing lies before it.
        rw [hstart hgt] at hbefore
        exact absurd hbefore (Nat.not_lt_zero i)
      · exact sideAt_eq_lt_of_lt h hbefore hgt
    · intro hi
      refine Decidable.byContradiction fun hle => ?_
      rcases Nat.eq_or_lt_of_le (Nat.le_of_not_lt hle) with heq | hafter
      · exact hlt (heq ▸ hi)
      · rw [hbehind i hafter hlength] at hi
        cases hi

theorem partitionPoint_le (test : α → Bool) (xs : List α) : partitionPoint test xs ≤ xs.length := bisect_le _ xs

/-- The elements before the place that is found are those that pass the test. -/
theorem lt_partitionPoint_iff (h : xs.Pairwise fun a b => test b = true → test a = true) (hx : xs[i]? = some x) :
    i < partitionPoint test xs ↔ test x = true := by
  have hside : ∀ y, (if test y then Ordering.lt else .gt) = .lt ↔ test y = true := by
    intro y
    cases test y <;> decide
  have hpast : ∀ y, (if test y then Ordering.lt else .gt) ≠ .gt ↔ test y = true := by
    intro y
    cases test y <;> decide
  rw [partitionPoint, lt_bisect_iff _ hx, hside]
  exact h.imp fun hpass hb => (hside _).mpr (hpass ((hpast _).mp hb))

end Places

end SortedTable
