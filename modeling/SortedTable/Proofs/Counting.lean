import SortedTable.Proofs.Bisecting
import SortedTable.Proofs.Codec.Histograms

namespace SortedTable

namespace Histogram

/-- A histogram with a bucket more than offsets. -/
def Shaped (h : Histogram) : Prop := h.buckets.length = h.offsets.length + 1

theorem bucketOf_le (h : Histogram) (value : Nat) : h.bucketOf value ≤ h.offsets.length := bisect_le _ _

theorem bucketOf_lt {h : Histogram} (hs : h.Shaped) (value : Nat) :
    h.bucketOf value < h.buckets.length := by
  rw [hs]
  exact Nat.lt_succ_of_le (bucketOf_le h value)

theorem shaped_empty (offsets : List Nat) : (empty offsets).Shaped := by
  simp [Shaped, empty]

theorem shaped_sized (count : Nat) : (sized count).Shaped := shaped_empty _

theorem shaped_add {h : Histogram} (hs : h.Shaped) (value : Nat) : (h.add value).Shaped := by
  unfold Shaped at hs ⊢
  rw [length_buckets_add, offsets_add, hs]

theorem total_modify (counts : List Nat) {i : Nat} (hi : i < counts.length) :
    total (counts.modify i (· + 1)) = total counts + 1 := by
  induction counts generalizing i with
  | nil => simp at hi
  | cons n rest ih =>
      cases i with
      | zero =>
          simp only [List.modify_zero_cons, total]
          omega
      | succ i =>
          have hrest := ih (by simpa using hi)
          simp only [List.modify_succ_cons, total]
          omega

theorem le_total {counts : List Nat} {n : Nat} (h : n ∈ counts) : n ≤ total counts := by
  induction counts with
  | nil => simp at h
  | cons m rest ih =>
      simp only [total]
      rcases List.mem_cons.mp h with rfl | hrest
      · omega
      · have := ih hrest
        omega

theorem total_replicate_zero (count : Nat) : total (List.replicate count 0) = 0 := by
  induction count with
  | zero => rfl
  | succ count ih => rw [List.replicate_succ, total, ih]

theorem count_empty (offsets : List Nat) : (empty offsets).count = 0 :=
  total_replicate_zero _

theorem count_sized (offsetCount : Nat) : (sized offsetCount).count = 0 := count_empty _

theorem count_add {h : Histogram} (hs : h.Shaped) (value : Nat) :
    (h.add value).count = h.count + 1 :=
  total_modify h.buckets (bucketOf_lt hs value)

def addAll (h : Histogram) (values : List Nat) : Histogram := values.foldl add h

theorem addAll_append (h : Histogram) (values more : List Nat) :
    h.addAll (values ++ more) = (h.addAll values).addAll more :=
  List.foldl_append

theorem shaped_addAll {h : Histogram} (hs : h.Shaped) (values : List Nat) :
    (h.addAll values).Shaped := by
  induction values generalizing h with
  | nil => exact hs
  | cons value rest ih => exact ih (shaped_add hs value)

@[simp]
theorem offsets_addAll (h : Histogram) (values : List Nat) :
    (h.addAll values).offsets = h.offsets := by
  induction values generalizing h with
  | nil => rfl
  | cons value rest ih => exact ih (h.add value)

theorem count_addAll {h : Histogram} (hs : h.Shaped) (values : List Nat) :
    (h.addAll values).count = h.count + values.length := by
  induction values generalizing h with
  | nil => rfl
  | cons value rest ih =>
      have hrest := ih (shaped_add hs value)
      rw [count_add hs] at hrest
      rw [List.length_cons]
      change ((h.add value).addAll rest).count = _
      omega

theorem storable_addAll {count : Nat} (hpos : 0 < count) (hcount : count < maxBuckets)
    {values : List Nat} (hvalues : values.length < BigEndian.range 8) :
    ((sized count).addAll values).Storable := by
  have hmax : Max.max 1 count = count := by omega
  have hoffsets : ((sized count).addAll values).offsets = growing count 1 := by
    rw [offsets_addAll, sized, hmax, empty]
  have hshaped : ((sized count).addAll values).Shaped := shaped_addAll (shaped_sized count) values
  have hlength : ((sized count).addAll values).offsets.length = count := by
    rw [hoffsets, length_growing]
  have htotal : ((sized count).addAll values).count = values.length := by
    rw [count_addAll (shaped_sized count), count_sized, Nat.zero_add]
  unfold Shaped at hshaped
  constructor
  · exact hshaped
  · omega
  · omega
  · rw [hoffsets]
    exact growing_lt count 1
  · intro n hn
    have hle : n ≤ ((sized count).addAll values).count := le_total hn
    omega

theorem storable_rowSizes {values : List Nat} (h : values.length < BigEndian.range 8) :
    (rowSizes.addAll values).Storable :=
  storable_addAll (by decide) (by decide) h

theorem storable_columnCounts {values : List Nat} (h : values.length < BigEndian.range 8) :
    (columnCounts.addAll values).Storable :=
  storable_addAll (by decide) (by decide) h

theorem count_rowSizes (values : List Nat) : (rowSizes.addAll values).count = values.length := by
  have hshaped : rowSizes.Shaped := shaped_sized 150
  have hempty : rowSizes.count = 0 := count_sized 150
  rw [count_addAll hshaped, hempty, Nat.zero_add]

end Histogram

end SortedTable
