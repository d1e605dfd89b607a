import Mathlib.Data.List.Induction
import SortedTable.Proofs.Appending
import SortedTable.Proofs.Bisecting

/-!
# Samples of an index

A summary holds every so many records of an index, each with its key and with the place of the record in the index
file. A search for a key starts at the last sampled record whose key is not above it. That is a safe start unless a
record that is sampled repeats the key of the record before it. Main statements: `samples_foldl`, `size_eq`,
`floor_eq_none_iff`, `covers_iff`.
-/

namespace SortedTable

/-- An index of these records: keys, each with the offset of its row in the data. -/
def recordBytes (records : List (DecoratedKey × Nat)) : Bytes :=
  records.flatMap fun e => Record.index e.1.key e.2

/-- Where a record of the index begins. -/
def indexPosition (records : List (DecoratedKey × Nat)) (i : Nat) : Nat := (recordBytes (records.take i)).length

section Records

variable {records : List (DecoratedKey × Nat)} {e : DecoratedKey × Nat} {i j : Nat}

theorem recordBytes_append (records more : List (DecoratedKey × Nat)) :
    recordBytes (records ++ more) = recordBytes records ++ recordBytes more := List.flatMap_append

theorem recordBytes_concat (records : List (DecoratedKey × Nat)) (e : DecoratedKey × Nat) :
    recordBytes (records ++ [e]) = recordBytes records ++ Record.index e.1.key e.2 := by
  rw [recordBytes_append]
  exact congrArg _ (List.flatMap_singleton _ _)

theorem indexPosition_length (records : List (DecoratedKey × Nat)) :
    indexPosition records records.length = (recordBytes records).length := by
  rw [indexPosition, List.take_length]

theorem indexPosition_concat (h : i ≤ records.length) : indexPosition (records ++ [e]) i = indexPosition records i := by
  rw [indexPosition, List.take_append_of_le_length h, indexPosition]

theorem indexPosition_succ (h : records[i]? = some e) :
    indexPosition records (i + 1) = indexPosition records i + Record.indexSize e.1.key := by
  obtain ⟨hi, rfl⟩ := List.getElem?_eq_some_iff.mp h
  rw [indexPosition, List.take_succ_eq_append_getElem hi, recordBytes_concat, List.length_append, Record.length_index,
    indexPosition]

theorem indexPosition_mono (h : i ≤ j) : indexPosition records i ≤ indexPosition records j := by
  rw [indexPosition, indexPosition, ← Nat.min_eq_left h, ← List.take_take]
  conv => rhs; rw [← List.take_append_drop i (records.take j), recordBytes_append, List.length_append]
  exact Nat.le_add_right _ _

theorem indexPosition_lt (h : i < j) (hi : records[i]? = some e) :
    indexPosition records i < indexPosition records j := by
  have hnext := indexPosition_succ hi
  have hle : indexPosition records (i + 1) ≤ indexPosition records j := indexPosition_mono h
  have hpos : 0 < Record.indexSize e.1.key := by
    unfold Record.indexSize
    omega
  rw [hnext] at hle
  omega

end Records

/-- A summary of the records of an index that holds every so many of them. -/
structure Summary.Samples (s : Summary) (interval : Nat) (records : List (DecoratedKey × Nat)) : Prop where
  interval_eq : s.interval = interval
  keyCount : s.keyCount = records.length
  entries : ∀ j, s.entries[j]? =
    records[j * interval]?.map fun e => ⟨e.1, indexPosition records (j * interval)⟩

namespace Summary.Samples

variable {s : Summary} {interval : Nat} {records : List (DecoratedKey × Nat)}

theorem length_le_iff (h : s.Samples interval records) (j : Nat) :
    s.entries.length ≤ j ↔ records.length ≤ j * interval := by
  rw [← List.getElem?_eq_none_iff, h.entries, Option.map_eq_none_iff, List.getElem?_eq_none_iff]

/-- There are as many entries as intervals have begun. -/
theorem size_eq (h : s.Samples interval records) (hpos : 0 < interval) :
    s.size = (records.length + interval - 1) / interval := by
  refine eq_of_forall_ge_iff fun j => ?_
  rw [size, h.length_le_iff, Nat.div_le_iff_le_mul_add_pred hpos, Nat.mul_comm]
  omega

theorem length_of_mul_eq (h : s.Samples interval records) (hpos : 0 < interval) {q : Nat}
    (hq : q * interval = records.length) : s.entries.length = q := by
  refine eq_of_forall_ge_iff fun j => ?_
  rw [h.length_le_iff, ← hq, Nat.mul_le_mul_right_iff hpos]

end Summary.Samples

namespace SummaryBuilder

theorem samples_empty (interval : Nat) : (empty interval).build.Samples (max 1 interval) [] :=
  ⟨rfl, rfl, fun _ => rfl⟩

theorem entries_add (b : SummaryBuilder) (key : DecoratedKey) (position : Nat) :
    (b.add key position).build.entries =
      if b.keysWritten % b.interval = 0 then b.build.entries ++ [⟨key, position⟩] else b.build.entries := by
  unfold build add
  split
  · exact List.reverse_cons
  · rfl

theorem samples_add {b : SummaryBuilder} {interval : Nat} {records : List (DecoratedKey × Nat)}
    (h : b.build.Samples interval records) (hpos : 0 < interval) (e : DecoratedKey × Nat) :
    (b.add e.1 (recordBytes records).length).build.Samples interval (records ++ [e]) := by
  have hinterval : b.interval = interval := h.interval_eq
  have hcount : b.keysWritten = records.length := h.keyCount
  refine ⟨hinterval, ?_, fun j => ?_⟩
  · rw [List.length_append, ← hcount]
    rfl
  rw [entries_add, hcount, hinterval]
  -- The new record comes behind what the entry samples, is what it samples, or there is no such entry yet.
  rcases Nat.lt_trichotomy (j * interval) records.length with hbefore | hat | hbehind
  · have hold : b.build.entries[j]? = (records ++ [e])[j * interval]?.map fun e' =>
        ⟨e'.1, indexPosition (records ++ [e]) (j * interval)⟩ := by
      rw [h.entries, List.getElem?_append_left hbefore, indexPosition_concat (Nat.le_of_lt hbefore)]
    have hj : j < b.build.entries.length := by
      apply Nat.lt_of_not_le
      rw [h.length_le_iff]
      exact Nat.not_le_of_lt hbefore
    split
    · rw [List.getElem?_append_left hj, hold]
    · exact hold
  · have hsampled : records.length % interval = 0 := by
      rw [← hat]
      exact Nat.mul_mod_left _ _
    have hlength := h.length_of_mul_eq hpos hat
    rw [if_pos hsampled, hat, List.getElem?_concat_length, Option.map_some, indexPosition_concat (Nat.le_refl _),
      indexPosition_length, ← hlength]
    exact List.getElem?_concat_length
  · have hnone : (records ++ [e])[j * interval]? = none := by
      rw [List.getElem?_eq_none_iff, List.length_append]
      exact hbehind
    have hle : b.build.entries.length ≤ j := (h.length_le_iff j).mpr (Nat.le_of_lt hbehind)
    rw [hnone, Option.map_none]
    split
    · rename_i hsampled
      obtain ⟨q, hq⟩ := Nat.dvd_of_mod_eq_zero hsampled
      rw [Nat.mul_comm] at hq
      have hlength := h.length_of_mul_eq hpos hq.symm
      have hlt : q < j := Nat.lt_of_mul_lt_mul_right (hq ▸ hbehind)
      rw [List.getElem?_eq_none_iff, List.length_append, hlength]
      exact hlt
    · exact List.getElem?_eq_none_iff.mpr hle

end SummaryBuilder

/-- The pass over the records of an index samples them. -/
theorem Reader.IndexPass.samples_foldl (records : List (DecoratedKey × Nat)) (config : Config) :
    (records.foldl addRow (.start config)).summary.build.Samples (max 1 config.indexInterval) records ∧
      (records.foldl addRow (.start config)).position = (recordBytes records).length := by
  induction records using List.reverseRecOn with
  | nil => exact ⟨SummaryBuilder.samples_empty _, rfl⟩
  | append_singleton records e ih =>
      obtain ⟨hsamples, hposition⟩ := ih
      rw [List.foldl_append, List.foldl_cons, List.foldl_nil, recordBytes_concat, List.length_append,
        Record.length_index, ← hposition]
      refine ⟨?_, rfl⟩
      have hadd := SummaryBuilder.samples_add hsamples (Nat.le_max_left 1 _) e
      rw [← hposition] at hadd
      exact hadd

namespace Summary

/-- Every record of the key is at the place where a search for the key starts, or behind it. -/
def Covers (s : Summary) (records : List (DecoratedKey × Nat)) (key : DecoratedKey) : Prop :=
  ∀ entry, s.floor key = some entry → ∀ i offset, records[i]? = some (key, offset) →
    entry.indexPosition ≤ indexPosition records i

/-- No record of the key that is sampled has another one of the key before it. -/
def SampledFirst (interval : Nat) (records : List (DecoratedKey × Nat)) (key : DecoratedKey) : Prop :=
  ∀ i j offset offset', records[i]? = some (key, offset) → records[j * interval]? = some (key, offset') →
    j * interval ≤ i

/-- A search ends before the first entry, or at the last one whose key is not above the given one. -/
theorem floor_cases {s : Summary} (hascending : s.entries.Pairwise fun a b => a.key ≤ b.key) (key : DecoratedKey) :
    (s.floor key = none ∧ ∀ e ∈ s.entries, key < e.key) ∨
      ∃ n entry, s.floor key = some entry ∧ s.entries[n]? = some entry ∧
        ∀ (j : Nat) (e : SummaryEntry), s.entries[j]? = some e → (j ≤ n ↔ e.key ≤ key) := by
  have hpass : s.entries.Pairwise fun a b => decide (b.key ≤ key) = true → decide (a.key ≤ key) = true := by
    refine hascending.imp fun {a b} hab hb => ?_
    rw [decide_eq_true_iff] at hb ⊢
    exact DecoratedKey.le_trans hab hb
  rcases hpoint : partitionPoint (fun e : SummaryEntry => decide (e.key ≤ key)) s.entries with - | n
  · refine Or.inl ⟨by rw [floor, hpoint], fun e he => ?_⟩
    obtain ⟨j, hj⟩ := List.getElem?_of_mem he
    have hiff := lt_partitionPoint_iff hpass hj
    rw [hpoint, decide_eq_true_iff] at hiff
    exact Decidable.not_not.mp fun hnot => Nat.not_lt_zero j (hiff.mpr hnot)
  · have hn : n < s.entries.length := by
      have hle := partitionPoint_le (fun e : SummaryEntry => decide (e.key ≤ key)) s.entries
      omega
    have hentry : s.entries[n]? = some s.entries[n] := List.getElem?_eq_getElem hn
    have hfloor : s.floor key = s.entries[n]? := by rw [floor, hpoint]
    refine Or.inr ⟨n, s.entries[n], hfloor.trans hentry, hentry, fun j e hj => ?_⟩
    have hiff := lt_partitionPoint_iff hpass hj
    rw [hpoint, decide_eq_true_iff, Nat.lt_succ_iff] at hiff
    exact hiff

namespace Samples

variable {s : Summary} {interval : Nat} {records : List (DecoratedKey × Nat)} {key : DecoratedKey}

theorem le_of_lt (hascending : records.Pairwise fun a b => a.1 ≤ b.1) {i j : Nat} {a b : DecoratedKey × Nat}
    (hi : records[i]? = some a) (hj : records[j]? = some b) (hij : i < j) : a.1 ≤ b.1 := by
  obtain ⟨hilt, rfl⟩ := List.getElem?_eq_some_iff.mp hi
  obtain ⟨hjlt, rfl⟩ := List.getElem?_eq_some_iff.mp hj
  exact List.pairwise_iff_getElem.mp hascending i j hilt hjlt hij

theorem entry_iff (h : s.Samples interval records) {j : Nat} {entry : SummaryEntry} :
    s.entries[j]? = some entry ↔ ∃ e, records[j * interval]? = some e ∧
      entry = ⟨e.1, indexPosition records (j * interval)⟩ := by
  rw [h.entries, Option.map_eq_some_iff]
  simp only [eq_comm]

theorem ascending (h : s.Samples interval records) (hpos : 0 < interval)
    (hascending : records.Pairwise fun a b => a.1 ≤ b.1) : s.entries.Pairwise fun a b => a.key ≤ b.key := by
  rw [List.pairwise_iff_getElem]
  intro i j hi hj hij
  obtain ⟨a, ha, hentry⟩ := h.entry_iff.mp (List.getElem?_eq_getElem hi)
  obtain ⟨b, hb, hentry'⟩ := h.entry_iff.mp (List.getElem?_eq_getElem hj)
  rw [hentry, hentry']
  exact le_of_lt hascending ha hb (Nat.mul_lt_mul_of_pos_right hij hpos)

/-- A search has nowhere to start if and only if the key is before all keys of the index. -/
theorem floor_eq_none_iff (h : s.Samples interval records) (hpos : 0 < interval)
    (hascending : records.Pairwise fun a b => a.1 ≤ b.1) :
    s.floor key = none ↔ ∀ e ∈ records, key < e.1 := by
  rcases floor_cases (h.ascending hpos hascending) key with ⟨hnone, habove⟩ | ⟨n, entry, hsome, hentry, hiff⟩
  · refine iff_of_true hnone fun e he => ?_
    obtain ⟨i, hi⟩ := List.getElem?_of_mem he
    have hzero : 0 < records.length := List.length_pos_of_mem he
    have hfirst : records[0 * interval]? = some records[0] := by
      rw [Nat.zero_mul]
      exact List.getElem?_eq_getElem hzero
    have hlt : key < records[0].1 :=
      habove ⟨records[0].1, _⟩ (List.mem_of_getElem? (h.entry_iff.mpr ⟨_, hfirst, rfl⟩))
    rcases Nat.eq_zero_or_pos i with rfl | hipos
    · rw [Nat.zero_mul, hi] at hfirst
      rwa [Option.some.inj hfirst]
    · rw [Nat.zero_mul] at hfirst
      refine Decidable.not_not.mp fun hle => ?_
      exact DecoratedKey.le_trans (le_of_lt hascending hfirst hi hipos) hle hlt
  · obtain ⟨e, he, rfl⟩ := h.entry_iff.mp hentry
    refine iff_of_false (by simp [hsome]) fun habove => ?_
    exact (hiff n _ hentry).mp (Nat.le_refl n) (habove e (List.mem_of_getElem? he))

/-- The search starts early enough for all records of the key if and only if none that is sampled repeats the key. -/
theorem covers_iff (h : s.Samples interval records) (hpos : 0 < interval)
    (hascending : records.Pairwise fun a b => a.1 ≤ b.1) :
    s.Covers records key ↔ SampledFirst interval records key := by
  have hrefl : key ≤ key := DecoratedKey.le_refl key
  rcases floor_cases (h.ascending hpos hascending) key with ⟨hnone, habove⟩ | ⟨n, entry, hsome, hentry, hiff⟩
  · refine iff_of_true (fun entry hsome => ?_) fun i j offset offset' hi hj => ?_
    · rw [hnone] at hsome
      cases hsome
    · exact absurd (habove _ (List.mem_of_getElem? (h.entry_iff.mpr ⟨_, hj, rfl⟩))) hrefl
  · obtain ⟨e, he, rfl⟩ := h.entry_iff.mp hentry
    constructor
    · intro hcovers i j offset offset' hi hj
      have hjn : j ≤ n := (hiff j _ (h.entry_iff.mpr ⟨_, hj, rfl⟩)).mpr hrefl
      have hle : indexPosition records (n * interval) ≤ indexPosition records i := hcovers _ hsome i offset hi
      have hni : n * interval ≤ i := Nat.le_of_not_lt fun hlt => Nat.not_le_of_lt (indexPosition_lt hlt hi) hle
      exact Nat.le_trans (Nat.mul_le_mul_right interval hjn) hni
    · intro hfirst entry' hsome' i offset hi
      rw [hsome] at hsome'
      cases hsome'
      -- A record of the key before the start would make the record at the start one of the key that is not the first.
      refine indexPosition_mono (Nat.le_of_not_lt fun hlt => ?_)
      have hkey : e.1 ≤ key := (hiff n _ hentry).mp (Nat.le_refl n)
      have hsame : e.1 = key := DecoratedKey.eq_of_not_lt (le_of_lt hascending hi he hlt) hkey
      exact Nat.not_le_of_lt hlt (hfirst i n offset e.2 hi (by rw [he, ← hsame]))

end Samples

end Summary

end SortedTable
