import Mathlib.Data.Set.Function
import SortedTable.Proofs.Codec.Records
import SortedTable.Reader

namespace SortedTable.Record

variable {entries before after : List (Bytes × Nat)} {key : Bytes} {offset n : Nat}

/-- The records are written in pieces, which come to the same bytes. -/
theorem flatten_flatMap_indexPieces (entries : List (Bytes × Nat)) :
    (entries.flatMap fun e => indexPieces e.1 e.2).flatten = indexing entries := by
  induction entries with
  | nil => rfl
  | cons entry entries ih => rw [List.flatMap_cons, List.flatten_append, flatten_indexPieces, ih, indexing_cons]

/-- A record is read at its place, and behind it is the place of the next. -/
theorem decodeIndex_drop (h : Readable (key, offset)) (before after : List (Bytes × Nat)) :
    decodeIndex ((indexing (before ++ (key, offset) :: after)).drop (indexing before).length) =
      .ok ((key, offset),
        (indexing (before ++ (key, offset) :: after)).drop ((indexing before).length + (2 + key.length + 8))) := by
  have hsize : (index key offset).length = 2 + key.length + 8 := length_index key offset
  rw [indexing_append, indexing_cons, ← List.drop_drop, List.drop_left, ← hsize, List.drop_left]
  exact decodeIndex_index h.1 h.2 (indexing after)

theorem indexing_injOn : Set.InjOn indexing {entries | ∀ e ∈ entries, Readable e} := by
  intro entries h entries' h' hsame
  have hread := readIndex_indexing h
  rw [hsame, readIndex_indexing h'] at hread
  exact (Prod.mk.inj hread).1.symm

/-- The lists of records that can be written and the inputs that can be read to their end are one to one. -/
theorem indexing_bijOn :
    Set.BijOn indexing {entries | ∀ e ∈ entries, Readable e} {input | (readIndex input).2 = none} := by
  refine ⟨fun entries h => ?_, indexing_injOn, fun input hread => ?_⟩
  · exact congrArg Prod.snd (readIndex_indexing h)
  · obtain ⟨hreadable, hinput⟩ := readIndex_eq_iff.mp (Prod.ext rfl hread : readIndex input = (_, none))
    exact ⟨_, hreadable, hinput.symm⟩

/-- A pass over the records counts the bytes that they take up. -/
theorem position_foldl_add (partitioner : Partitioner) (pass : Reader.IndexPass) (entries : List (Bytes × Nat)) :
    (entries.foldl (Reader.IndexPass.add partitioner) pass).position = pass.position + (indexing entries).length := by
  induction entries generalizing pass with
  | nil => rfl
  | cons entry entries ih =>
      rw [List.foldl_cons, ih, length_indexing_cons, ← Nat.add_assoc]
      rfl

/-- The records of an index are read back as they were written, each at its place, and only what is made of records is
read to its end. An index that was cut, but not between two records, yields those before the cut and ends too early. -/
theorem index_form_exact (h : ∀ e ∈ entries, Readable e) :
    (entries.flatMap fun e => indexPieces e.1 e.2).flatten = indexing entries ∧
    readIndex (indexing entries) = (entries, none) ∧
    (∀ before key offset after, entries = before ++ (key, offset) :: after →
      decodeIndex ((indexing entries).drop (indexing before).length) =
        .ok ((key, offset), (indexing entries).drop ((indexing before).length + (2 + key.length + 8)))) ∧
    (∀ partitioner config, (entries.foldl (Reader.IndexPass.add partitioner) (.start config)).position =
      (indexing entries).length) ∧
    (∀ input, (readIndex input).2 = none →
      (∀ e ∈ (readIndex input).1, Readable e) ∧ input = indexing (readIndex input).1) ∧
    Set.BijOn indexing {entries | ∀ e ∈ entries, Readable e} {input | (readIndex input).2 = none} ∧
    (∀ n < (indexing entries).length, (∀ count, n ≠ (indexing (entries.take count)).length) →
      ∃ count < entries.length, (indexing (entries.take count)).length < n ∧
        n < (indexing (entries.take (count + 1))).length ∧
        readIndex ((indexing entries).take n) = (entries.take count, some .endOfInput)) := by
  refine ⟨flatten_flatMap_indexPieces entries, readIndex_indexing h, ?_, fun partitioner config => ?_,
    fun input hread => readIndex_eq_iff.mp (Prod.ext rfl hread), indexing_bijOn, fun n hn hinside => ?_⟩
  · rintro before key offset after rfl
    exact decodeIndex_drop (h _ (List.mem_append_right _ List.mem_cons_self)) before after
  · exact (position_foldl_add partitioner _ entries).trans (Nat.zero_add _)
  · obtain ⟨count, hcount, hle, hlt, hread⟩ := exists_readIndex_take h hn
    rw [if_neg (hinside count)] at hread
    exact ⟨count, hcount, Nat.lt_of_le_of_ne hle (hinside count).symm, hlt, hread⟩

/-- Two records, of which the first has no key and the second the largest offset. -/
def extremeEntries : List (Bytes × Nat) := [([], 0), ([0, 255], Disk.maxOffset - 1)]

theorem readable_extreme : ∀ e ∈ extremeEntries, Readable e := by
  intro e he
  simp only [extremeEntries, List.mem_cons, List.not_mem_nil, or_false] at he
  rcases he with rfl | rfl
  · exact ⟨by decide, by decide⟩
  · exact ⟨by decide, by decide⟩

/-- The second record is cut in its offset. -/
theorem index_form_exact_extreme :
    readIndex (indexing extremeEntries) = (extremeEntries, none) ∧
      decodeIndex ((indexing extremeEntries).drop 10) = .ok (([0, 255], Disk.maxOffset - 1), []) ∧
      readIndex ((indexing extremeEntries).take 21) = ([([], 0)], some .endOfInput) := by
  obtain ⟨-, hread, hstep, -, -, -, hcut⟩ := index_form_exact readable_extreme
  have hinside : ∀ count, 21 ≠ (indexing (extremeEntries.take count)).length
    | 0 => by decide
    | 1 => by decide
    | count + 2 => by
        rw [List.take_of_length_le (Nat.le_add_left 2 count)]
        decide
  obtain ⟨count, hcount, -, hlt, hends⟩ := hcut 21 (by decide) hinside
  have hone : count = 1 := by
    have hsome : count ≠ 0 := by
      rintro rfl
      exact absurd hlt (by decide)
    change count < 2 at hcount
    omega
  subst hone
  exact ⟨hread, hstep [([], 0)] [0, 255] (Disk.maxOffset - 1) [] rfl, hends⟩

end SortedTable.Record
