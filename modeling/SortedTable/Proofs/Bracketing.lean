import Mathlib.Algebra.Order.BigOperators.Group.List
import Mathlib.Algebra.Order.Floor.Div
import Mathlib.Data.List.GetD
import SortedTable.Proofs.Counting

/-!
# Estimates from histograms

A bucket counts the values above the offset below it and up to its own. So a histogram is decided by how many values
lie in each of these ranges, and what it tells of the values is right as far as the offsets go: no value is below the
least or above the largest that it tells, and the mean is not below the true one, rounded up. Main statements:
`bucketOf_eq_iff`, `buckets_ofValues`, `mean_ofValues`, `estimates_bracket`.
-/

namespace SortedTable.Histogram

/-- The values that bucket `i` is for: those above the offset below it and up to its own. The first bucket is not
bounded from below, and the bucket behind the last offset not from above. -/
def Takes (offsets : List Nat) (i value : Nat) : Prop :=
  (i = 0 ∨ offsets.getD (i - 1) 0 < value) ∧ (i = offsets.length ∨ value ≤ offsets.getD i 0)

instance (offsets : List Nat) (i value : Nat) : Decidable (Takes offsets i value) :=
  inferInstanceAs (Decidable (_ ∧ _))

/-- How many of the values bucket `i` is for. -/
def tally (offsets values : List Nat) (i : Nat) : Nat := values.countP fun value => Takes offsets i value

/-- The histogram over these offsets to which these values were added, one after the other. -/
def ofValues (offsets values : List Nat) : Histogram := (empty offsets).addAll values

variable {h : Histogram} {offsets values : List Nat} {i j value : Nat}

theorem lt_bucketOf_iff (hoffsets : h.offsets.Pairwise (· < ·)) (hi : i < h.offsets.length) :
    i < h.bucketOf value ↔ h.offsets.getD i 0 < value := by
  have hside : h.offsets.Pairwise fun a b => compare b value ≠ .gt → compare a value = .lt := by
    apply hoffsets.imp
    intro a b hab hb
    have hle : b ≤ value := Nat.compare_ne_gt.mp hb
    exact Nat.compare_eq_lt.mpr (Nat.lt_of_lt_of_le hab hle)
  rw [bucketOf, lt_bisect_iff hside (List.getElem?_eq_getElem hi), Nat.compare_eq_lt, List.getD_eq_getElem _ _ hi]

theorem bucketOf_eq_iff (hoffsets : h.offsets.Pairwise (· < ·)) (hi : i ≤ h.offsets.length) :
    h.bucketOf value = i ↔ Takes h.offsets i value := by
  have habove : i ≤ h.bucketOf value ↔ i = 0 ∨ h.offsets.getD (i - 1) 0 < value := by
    cases i with
    | zero => exact iff_of_true (Nat.zero_le _) (.inl rfl)
    | succ i =>
        rw [Nat.succ_le_iff, lt_bucketOf_iff hoffsets hi, Nat.add_sub_cancel, or_iff_right (Nat.succ_ne_zero i)]
  have hupTo : h.bucketOf value ≤ i ↔ i = h.offsets.length ∨ value ≤ h.offsets.getD i 0 := by
    rcases Nat.eq_or_lt_of_le hi with rfl | hlt
    · exact iff_of_true (bucketOf_le h value) (.inl rfl)
    · rw [← Nat.not_lt, lt_bucketOf_iff hoffsets hlt, Nat.not_lt, or_iff_right (Nat.ne_of_lt hlt)]
  rw [Takes, ← habove, ← hupTo]
  constructor
  · rintro rfl
    exact ⟨Nat.le_refl _, Nat.le_refl _⟩
  · exact fun hbounds => Nat.le_antisymm hbounds.2 hbounds.1

theorem lt_length_of_counted (hcounted : 0 < h.buckets.getD j 0) : j < h.buckets.length := by
  refine Nat.lt_of_not_le fun hbehind => ?_
  rw [List.getD_eq_default _ _ hbehind] at hcounted
  exact absurd hcounted (Nat.lt_irrefl 0)

@[simp]
theorem bucketOf_add (h : Histogram) (value : Nat) : (h.add value).bucketOf = h.bucketOf := rfl

theorem getElem?_buckets_add (h : Histogram) (value i : Nat) :
    (h.add value).buckets[i]? = h.buckets[i]?.map (· + if h.bucketOf value = i then 1 else 0) := by
  rw [add, List.getElem?_modify]
  congr 1
  split <;> rfl

theorem getElem?_buckets_addAll (h : Histogram) (values : List Nat) (i : Nat) :
    (h.addAll values).buckets[i]? = h.buckets[i]?.map (· + values.countP fun value => h.bucketOf value = i) := by
  induction values generalizing h with
  | nil => exact Option.map_id'.symm
  | cons value rest ih =>
      have hrest := ih (h.add value)
      rw [bucketOf_add, getElem?_buckets_add, Option.map_map] at hrest
      rw [List.countP_cons]
      refine hrest.trans (congrArg (Option.map · h.buckets[i]?) ?_)
      funext n
      simp only [Function.comp_apply, decide_eq_true_eq]
      omega

theorem shaped_ofValues (offsets values : List Nat) : (ofValues offsets values).Shaped :=
  shaped_addAll (shaped_empty offsets) values

@[simp]
theorem offsets_ofValues (offsets values : List Nat) : (ofValues offsets values).offsets = offsets :=
  offsets_addAll (empty offsets) values

theorem count_ofValues (offsets values : List Nat) : (ofValues offsets values).count = values.length := by
  rw [ofValues, count_addAll (shaped_empty offsets), count_empty, Nat.zero_add]

theorem bucketOf_ofValues (offsets values : List Nat) :
    (ofValues offsets values).bucketOf = (empty offsets).bucketOf := by
  funext value
  rw [bucketOf, bucketOf, offsets_ofValues, empty]

/-- Every value is counted in the bucket that is for it, and in no other. -/
theorem buckets_ofValues (hoffsets : offsets.Pairwise (· < ·)) (values : List Nat) :
    (ofValues offsets values).buckets = (List.range (offsets.length + 1)).map (tally offsets values) := by
  apply List.ext_getElem?
  intro i
  rw [ofValues, getElem?_buckets_addAll, List.getElem?_map, empty]
  by_cases hi : i < offsets.length + 1
  · have hcount : (values.countP fun value => (empty offsets).bucketOf value = i) = tally offsets values i := by
      apply List.countP_congr
      intro value _
      rw [decide_eq_true_iff, decide_eq_true_iff]
      exact bucketOf_eq_iff (h := empty offsets) hoffsets (Nat.le_of_lt_succ hi)
    rw [List.getElem?_replicate_of_lt hi, List.getElem?_range hi, Option.map_some, Option.map_some, Nat.zero_add,
      ← hcount]
    rfl
  · have hbehind := Nat.le_of_not_lt hi
    rw [List.getElem?_eq_none (by rwa [List.length_replicate]), List.getElem?_eq_none (by rwa [List.length_range])]
    rfl

theorem ext_buckets {g : Histogram} (hoffsets : g.offsets = h.offsets) (hbuckets : g.buckets = h.buckets) : g = h := by
  cases g
  cases h
  cases hoffsets
  cases hbuckets
  rfl

theorem ofValues_eq_of_perm (hoffsets : offsets.Pairwise (· < ·)) {others : List Nat} (hperm : others.Perm values) :
    ofValues offsets others = ofValues offsets values := by
  apply ext_buckets
  · rw [offsets_ofValues, offsets_ofValues]
  · rw [buckets_ofValues hoffsets, buckets_ofValues hoffsets]
    apply List.map_congr_left
    intro i _
    exact hperm.countP_eq _

theorem counted_of_mem (hvalue : value ∈ values) :
    0 < (ofValues offsets values).buckets.getD ((ofValues offsets values).bucketOf value) 0 := by
  have hpositive : 0 < values.countP fun other => (empty offsets).bucketOf other = (empty offsets).bucketOf value :=
    List.countP_pos_iff.mpr ⟨value, hvalue, decide_eq_true rfl⟩
  have hinside := bucketOf_lt (shaped_empty offsets) value
  rw [bucketOf_ofValues, ofValues, List.getD_eq_getElem?_getD, getElem?_buckets_addAll,
    List.getElem?_eq_getElem hinside, Option.map_some, Option.getD_some]
  omega

/-- The lower end of a bucket, and zero for the first. -/
def lowerEnd (h : Histogram) (i : Nat) : Nat := if i = 0 then 0 else h.offsets.getD (i - 1) 0

/-- The least value is told to be the lower end of a bucket that is not behind any that holds a value. -/
theorem exists_min_eq (hcounted : 0 < h.buckets.getD j 0) : ∃ i ≤ j, h.min = h.lowerEnd i := by
  rcases hfirst : h.buckets.findIdx? (0 < ·) with - | i
  · refine ⟨0, Nat.zero_le j, ?_⟩
    rw [min, hfirst]
    rfl
  · obtain ⟨hinside, hpositive, hbefore⟩ := List.findIdx?_eq_some_iff_getElem.mp hfirst
    refine ⟨i, ?_, ?_⟩
    · refine Nat.le_of_not_lt fun hlt => ?_
      rw [List.getD_eq_getElem _ _ (Nat.lt_trans hlt hinside)] at hcounted
      exact hbefore j hlt (decide_eq_true hcounted)
    · rw [min, hfirst]
      cases i with
      | zero => rfl
      | succ i => rfl

/-- The largest value is told to be the upper end of a bucket that holds a value and is not before any that does. -/
theorem exists_max_eq (hcounted : 0 < h.buckets.getD j 0) :
    ∃ i, j ≤ i ∧ 0 < h.buckets.getD i 0 ∧ h.max = h.offsets.getD i largest := by
  have hj := lt_length_of_counted hcounted
  rw [List.getD_eq_getElem _ _ hj] at hcounted
  have hmirrored : h.buckets.length - 1 - j < h.buckets.reverse.length := by
    rw [List.length_reverse]
    omega
  have hmirror : h.buckets.reverse[h.buckets.length - 1 - j] = h.buckets[j] := by
    have hback : h.buckets.length - 1 - (h.buckets.length - 1 - j) = j := by omega
    simp only [List.getElem_reverse, hback]
  rcases hlast : h.buckets.reverse.findIdx? (0 < ·) with - | fromEnd
  · have hnone := List.findIdx?_eq_none_iff.mp hlast _ (List.getElem_mem hmirrored)
    rw [hmirror] at hnone
    exact absurd hcounted (of_decide_eq_false hnone)
  · obtain ⟨hinside, hpositive, hbefore⟩ := List.findIdx?_eq_some_iff_getElem.mp hlast
    have hle : fromEnd ≤ h.buckets.length - 1 - j := by
      refine Nat.le_of_not_lt fun hbehind => ?_
      apply hbefore _ hbehind
      rw [hmirror]
      exact decide_eq_true hcounted
    rw [List.getElem_reverse] at hpositive
    refine ⟨h.buckets.length - 1 - fromEnd, by omega, ?_, ?_⟩
    · rw [List.getD_eq_getElem _ _ (by omega)]
      exact of_decide_eq_true hpositive
    · rw [max, hlast]

theorem min_le_of_counted (hoffsets : h.offsets.Pairwise (· < ·))
    (hcounted : 0 < h.buckets.getD (h.bucketOf value) 0) : h.min ≤ value := by
  obtain ⟨i, hi, hmin⟩ := exists_min_eq hcounted
  rw [hmin, lowerEnd]
  split
  · exact Nat.zero_le value
  · have hlength := bucketOf_le h value
    exact Nat.le_of_lt ((lt_bucketOf_iff hoffsets (by omega)).mp (by omega))

theorem le_max_of_counted (hoffsets : h.offsets.Pairwise (· < ·)) (hvalue : value ≤ largest)
    (hcounted : 0 < h.buckets.getD (h.bucketOf value) 0) : value ≤ h.max := by
  obtain ⟨i, hi, -, hmax⟩ := exists_max_eq hcounted
  rw [hmax]
  by_cases hlast : i < h.offsets.length
  · have hupTo := mt (lt_bucketOf_iff hoffsets hlast).mpr (Nat.not_lt.mpr hi)
    rw [List.getD_eq_getElem _ _ hlast] at hupTo ⊢
    exact Nat.le_of_not_lt hupTo
  · rw [List.getD_eq_default _ _ (Nat.le_of_not_lt hlast)]
    exact hvalue

theorem isOverflowed_iff (hs : h.Shaped) : h.isOverflowed = true ↔ 0 < h.buckets.getD h.offsets.length 0 := by
  have hlast : h.buckets.length - 1 = h.offsets.length := by
    rw [hs, Nat.add_sub_cancel]
  have hinside : h.offsets.length < h.buckets.length := by
    rw [hs]
    exact Nat.lt_succ_self _
  rw [isOverflowed, List.getLast?_eq_getElem?, hlast, List.getElem?_eq_getElem hinside, Option.any_some,
    decide_eq_true_iff, List.getD_eq_getElem _ _ hinside]

/-- The bucket behind the last offset is for the values that are larger than it. -/
theorem takes_length_iff : Takes offsets offsets.length value ↔ ∀ last ∈ offsets.getLast?, last < value := by
  rw [Takes, and_iff_left (.inl rfl)]
  rcases List.eq_nil_or_concat offsets with rfl | ⟨before, last, rfl⟩
  · exact iff_of_true (.inl rfl) (fun last hlast => nomatch hlast)
  · rw [List.concat_eq_append, List.getLast?_concat, List.length_append, List.length_singleton, Nat.add_sub_cancel,
      List.getD_eq_getElem?_getD, List.getElem?_concat_length, Option.getD_some, or_iff_right (Nat.succ_ne_zero _)]
    simp only [Option.mem_some_iff, forall_eq']

theorem isOverflowed_ofValues_iff (hoffsets : offsets.Pairwise (· < ·)) :
    (ofValues offsets values).isOverflowed = true ↔ ∃ value ∈ values, ∀ last ∈ offsets.getLast?, last < value := by
  have hlast : (List.range (offsets.length + 1))[offsets.length]? = some offsets.length :=
    List.getElem?_range (Nat.lt_succ_self _)
  rw [isOverflowed_iff (shaped_ofValues offsets values), offsets_ofValues, buckets_ofValues hoffsets,
    List.getD_eq_getElem?_getD, List.getElem?_map, hlast, Option.map_some, Option.getD_some, tally,
    List.countP_pos_iff]
  simp only [decide_eq_true_iff, takes_length_iff]

theorem total_eq_sum (counts : List Nat) : total counts = counts.sum := by
  induction counts with
  | nil => rfl
  | cons n rest ih => rw [total, ih, List.sum_cons]

/-- One more in a bucket adds the weight of this bucket to the weighted sum. -/
theorem sum_mapIdx_modify (weight : Nat → Nat) {counts : List Nat} (hi : i < counts.length) :
    ((counts.modify i (· + 1)).mapIdx fun j n => n * weight j).sum =
      (counts.mapIdx fun j n => n * weight j).sum + weight i := by
  induction counts generalizing i weight with
  | nil => exact absurd hi (Nat.not_lt_zero i)
  | cons n rest ih =>
      cases i with
      | zero =>
          rw [List.modify_zero_cons, List.mapIdx_cons, List.mapIdx_cons, List.sum_cons, List.sum_cons, Nat.add_one_mul]
          omega
      | succ i =>
          have hrest := ih (fun j => weight (j + 1)) (Nat.lt_of_succ_lt_succ hi)
          rw [List.modify_succ_cons, List.mapIdx_cons, List.mapIdx_cons, List.sum_cons, List.sum_cons, hrest]
          omega

theorem sum_mapIdx_addAll (hs : h.Shaped) (weight : Nat → Nat) (values : List Nat) :
    ((h.addAll values).buckets.mapIdx fun j n => n * weight j).sum =
      (h.buckets.mapIdx fun j n => n * weight j).sum + (values.map fun value => weight (h.bucketOf value)).sum := by
  induction values generalizing h with
  | nil => rfl
  | cons value rest ih =>
      have hfirst := sum_mapIdx_modify weight (bucketOf_lt hs value)
      calc ((h.addAll (value :: rest)).buckets.mapIdx fun j n => n * weight j).sum
          = ((h.add value).buckets.mapIdx fun j n => n * weight j).sum +
              (rest.map fun value => weight (h.bucketOf value)).sum := ih (shaped_add hs value)
        _ = (h.buckets.mapIdx fun j n => n * weight j).sum + weight (h.bucketOf value) +
              (rest.map fun value => weight (h.bucketOf value)).sum := by rw [add, hfirst]
        _ = (h.buckets.mapIdx fun j n => n * weight j).sum +
              ((value :: rest).map fun value => weight (h.bucketOf value)).sum := by
            rw [List.map_cons, List.sum_cons, Nat.add_assoc]

theorem sum_mapIdx_empty (offsets : List Nat) (weight : Nat → Nat) :
    ((empty offsets).buckets.mapIdx fun j n => n * weight j).sum = 0 := by
  apply List.sum_eq_zero
  intro product hproduct
  obtain ⟨j, hj, rfl⟩ := List.mem_mapIdx.mp hproduct
  simp only [empty, List.getElem_replicate, Nat.zero_mul]

/-- The mean takes each value at the upper end of its bucket. -/
theorem mean_ofValues (offsets values : List Nat) :
    (ofValues offsets values).mean =
      (values.map fun value => (ofValues offsets values).upperEnd ((ofValues offsets values).bucketOf value)).sum ⌈/⌉
        values.length := by
  have hsum := sum_mapIdx_addAll (shaped_empty offsets) (ofValues offsets values).upperEnd values
  rw [sum_mapIdx_empty, Nat.zero_add, ← ofValues] at hsum
  rw [mean, count_ofValues, bucketOf_ofValues]
  split
  · rename_i hnone
    rw [hnone, ceilDiv_zero]
  · rw [total_eq_sum, hsum, Nat.ceilDiv_eq_add_pred_div]

theorem upperEnd_eq (h : Histogram) (i : Nat) :
    h.upperEnd i = h.offsets.getD (Min.min i (h.offsets.length - 1)) 0 := by
  rw [upperEnd]
  by_cases hi : i < h.offsets.length
  · rw [Nat.min_eq_left (by omega), List.getD_eq_getElem _ _ hi, List.getD_eq_getElem _ _ hi]
  · rw [Nat.min_eq_right (by omega), List.getD_eq_default _ _ (Nat.le_of_not_lt hi), List.getLast?_eq_getElem?,
      List.getD_eq_getElem?_getD]

theorem upperEnd_mono (hoffsets : h.offsets.Pairwise (· < ·)) (hij : i ≤ j) : h.upperEnd i ≤ h.upperEnd j := by
  rw [upperEnd_eq, upperEnd_eq]
  generalize hleft : Min.min i (h.offsets.length - 1) = left
  generalize hright : Min.min j (h.offsets.length - 1) = right
  by_cases hinside : right < h.offsets.length
  · have hle : left ≤ right := by omega
    have hleftInside := Nat.lt_of_le_of_lt hle hinside
    rw [List.getD_eq_getElem _ _ hleftInside, List.getD_eq_getElem _ _ hinside]
    rcases Nat.eq_or_lt_of_le hle with rfl | hlt
    · exact Nat.le_refl _
    · exact Nat.le_of_lt (List.pairwise_iff_getElem.mp hoffsets left right hleftInside hinside hlt)
  · rw [List.getD_eq_default _ _ (by omega)]
    exact Nat.zero_le _

theorem le_upperEnd (hoffsets : h.offsets.Pairwise (· < ·)) (hinside : h.bucketOf value < h.offsets.length) :
    value ≤ h.upperEnd (h.bucketOf value) := by
  have hupTo := mt (lt_bucketOf_iff hoffsets hinside).mpr (Nat.lt_irrefl _)
  rw [upperEnd_eq, Nat.min_eq_left (by omega)]
  exact Nat.le_of_not_lt hupTo

theorem min_le_upperEnd (hoffsets : h.offsets.Pairwise (· < ·)) (hcounted : 0 < h.buckets.getD j 0)
    (hj : j ≤ h.offsets.length) : h.min ≤ h.upperEnd j := by
  obtain ⟨i, hi, hmin⟩ := exists_min_eq hcounted
  rw [hmin, lowerEnd]
  split
  · exact Nat.zero_le _
  · have hlower : h.offsets.getD (i - 1) 0 = h.upperEnd (i - 1) := by
      rw [upperEnd_eq, Nat.min_eq_left (by omega)]
    rw [hlower]
    exact upperEnd_mono hoffsets (by omega)

/-- Where no value is larger than the last offset, none is counted behind it. -/
theorem lt_of_counted (hs : h.Shaped) (hinside : h.isOverflowed = false) (hcounted : 0 < h.buckets.getD j 0) :
    j < h.offsets.length := by
  have hlt := lt_length_of_counted hcounted
  have hne : j ≠ h.offsets.length := by
    rintro rfl
    rw [(isOverflowed_iff hs).mpr hcounted] at hinside
    cases hinside
  rw [hs] at hlt
  omega

theorem upperEnd_le_max (hs : h.Shaped) (hoffsets : h.offsets.Pairwise (· < ·)) (hinside : h.isOverflowed = false)
    (hcounted : 0 < h.buckets.getD j 0) : h.upperEnd j ≤ h.max := by
  obtain ⟨i, hi, hlast, hmax⟩ := exists_max_eq hcounted
  have hlength := lt_of_counted hs hinside hlast
  calc h.upperEnd j ≤ h.upperEnd i := upperEnd_mono hoffsets hi
    _ = h.max := by rw [hmax, upperEnd, List.getD_eq_getElem _ _ hlength, List.getD_eq_getElem _ _ hlength]

theorem le_mean {bound : Nat} (hvalues : values ≠ [])
    (hends : ∀ value ∈ values, bound ≤ (ofValues offsets values).upperEnd ((ofValues offsets values).bucketOf value)) :
    bound ≤ (ofValues offsets values).mean := by
  have hpos : 0 < values.length := List.length_pos_iff.mpr hvalues
  have hsum := List.card_nsmul_le_sum _ bound (List.forall_mem_map.mpr hends)
  rw [List.length_map, smul_eq_mul] at hsum
  rw [mean_ofValues]
  apply Nat.le_of_mul_le_mul_left _ hpos
  exact hsum.trans (le_smul_ceilDiv hpos)

theorem mean_le {bound : Nat}
    (hends : ∀ value ∈ values, (ofValues offsets values).upperEnd ((ofValues offsets values).bucketOf value) ≤ bound) :
    (ofValues offsets values).mean ≤ bound := by
  rw [mean_ofValues]
  rcases Nat.eq_zero_or_pos values.length with hnone | hpos
  · rw [hnone, ceilDiv_zero]
    exact Nat.zero_le _
  · have hsum := List.sum_le_card_nsmul _ bound (List.forall_mem_map.mpr hends)
    rw [List.length_map, smul_eq_mul] at hsum
    exact (ceilDiv_le_iff_le_mul hpos).mpr hsum

theorem min_le_mean (hoffsets : offsets.Pairwise (· < ·)) (hvalues : values ≠ []) :
    (ofValues offsets values).min ≤ (ofValues offsets values).mean := by
  apply le_mean hvalues
  intro value hvalue
  exact min_le_upperEnd (by rwa [offsets_ofValues]) (counted_of_mem hvalue) (bucketOf_le _ value)

/-- The true mean, rounded up, is not above the estimated one if each value is counted below its upper end. -/
theorem ceilDiv_le_mean (hoffsets : offsets.Pairwise (· < ·))
    (hinside : (ofValues offsets values).isOverflowed = false) :
    values.sum ⌈/⌉ values.length ≤ (ofValues offsets values).mean := by
  rcases Nat.eq_zero_or_pos values.length with hnone | hpos
  · rw [hnone, ceilDiv_zero]
    exact Nat.zero_le _
  have hends : ∀ value ∈ values,
      value ≤ (ofValues offsets values).upperEnd ((ofValues offsets values).bucketOf value) := fun value hvalue =>
    le_upperEnd (by rwa [offsets_ofValues])
      (lt_of_counted (shaped_ofValues offsets values) hinside (counted_of_mem hvalue))
  have hsum := List.sum_le_sum hends
  rw [List.map_id'] at hsum
  rw [mean_ofValues, ceilDiv_le_iff_le_mul hpos]
  exact hsum.trans (le_smul_ceilDiv hpos)

theorem mean_le_max (hoffsets : offsets.Pairwise (· < ·)) (hinside : (ofValues offsets values).isOverflowed = false) :
    (ofValues offsets values).mean ≤ (ofValues offsets values).max := by
  apply mean_le
  intro value hvalue
  exact upperEnd_le_max (shaped_ofValues offsets values) (by rwa [offsets_ofValues]) hinside (counted_of_mem hvalue)

/-- **Estimates.** Over offsets in ascending order each bucket counts the values that it is for, and together they count
all values. No value is below the least or above the largest that is told, and a value is told to be larger than the
last offset exactly if one is. The mean is not below the least, and if no value is larger than the last offset it lies
between the true mean, rounded up, and the largest. The order of the values is not seen in the histogram. -/
theorem estimates_bracket {offsets values : List Nat} (hoffsets : offsets.Pairwise (· < ·))
    (hvalues : ∀ value ∈ values, value ≤ largest) :
    (ofValues offsets values).buckets = (List.range (offsets.length + 1)).map (tally offsets values) ∧
      (ofValues offsets values).count = values.length ∧
      (∀ value ∈ values, (ofValues offsets values).min ≤ value ∧ value ≤ (ofValues offsets values).max) ∧
      ((ofValues offsets values).isOverflowed = true ↔
        ∃ value ∈ values, ∀ last ∈ offsets.getLast?, last < value) ∧
      (values ≠ [] → (ofValues offsets values).min ≤ (ofValues offsets values).mean) ∧
      ((ofValues offsets values).isOverflowed = false →
        values.sum ⌈/⌉ values.length ≤ (ofValues offsets values).mean ∧
          (ofValues offsets values).mean ≤ (ofValues offsets values).max) ∧
      ∀ others : List Nat, others.Perm values → ofValues offsets others = ofValues offsets values := by
  have hsorted : (ofValues offsets values).offsets.Pairwise (· < ·) := by
    rwa [offsets_ofValues]
  refine ⟨buckets_ofValues hoffsets values, count_ofValues offsets values, fun value hvalue => ?_,
    isOverflowed_ofValues_iff hoffsets, min_le_mean hoffsets, fun hinside => ?_, fun others hperm => ?_⟩
  · exact ⟨min_le_of_counted hsorted (counted_of_mem hvalue),
      le_max_of_counted hsorted (hvalues value hvalue) (counted_of_mem hvalue)⟩
  · exact ⟨ceilDiv_le_mean hoffsets hinside, mean_le_max hoffsets hinside⟩
  · exact ofValues_eq_of_perm hoffsets hperm

/-- Three values over four offsets, one of them on an offset and two in one bucket. -/
theorem estimates_bracket_three :
    (ofValues [1, 8, 10, 12] [1, 9, 10]).buckets = [1, 0, 2, 0, 0] ∧
      (ofValues [1, 8, 10, 12] [1, 9, 10]).min ≤ 9 ∧ 9 ≤ (ofValues [1, 8, 10, 12] [1, 9, 10]).max ∧
      7 ≤ (ofValues [1, 8, 10, 12] [1, 9, 10]).mean ∧
      ofValues [1, 8, 10, 12] [10, 1, 9] = ofValues [1, 8, 10, 12] [1, 9, 10] := by
  obtain ⟨hbuckets, -, hvalues, hoverflowed, -, hmean, horder⟩ :=
    estimates_bracket (show [1, 8, 10, 12].Pairwise (· < ·) by decide)
      (show ∀ value ∈ [1, 9, 10], value ≤ largest by decide)
  have hinside : (ofValues [1, 8, 10, 12] [1, 9, 10]).isOverflowed = false := by
    rw [← Bool.not_eq_true, hoverflowed]
    decide
  obtain ⟨hleast, hlargest⟩ := hvalues 9 (by decide)
  exact ⟨hbuckets.trans (by decide), hleast, hlargest, (hmean hinside).1, horder _ (by decide)⟩

end SortedTable.Histogram
