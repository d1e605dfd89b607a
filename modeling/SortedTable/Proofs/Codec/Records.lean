import SortedTable.Disk
import SortedTable.Proofs.Codec.Numbers
import SortedTable.Record

namespace SortedTable.Record

theorem length_short (bytes : Bytes) : (short bytes).length = 2 + bytes.length := by
  simp [short]

theorem short_append_ne_nil (bytes rest : Bytes) : short bytes ++ rest ≠ [] := by
  intro hnil
  have hlength := congrArg List.length hnil
  rw [List.length_append, length_short, List.length_nil] at hlength
  omega

theorem lt_range_of_le_maxShort {n : Nat} (h : n ≤ maxShort) : n < BigEndian.range 2 := by
  have hrange : BigEndian.range 2 = maxShort + 1 := rfl
  omega

theorem takeShort?_eq_some_iff {input bytes rest : Bytes} :
    takeShort? input = some (bytes, rest) ↔ input = short bytes ++ rest ∧ bytes.length ≤ maxShort := by
  simp only [takeShort?, Option.bind_eq_bind, Option.bind_eq_some_iff, Prod.exists,
    BigEndian.take?_eq_some_iff, Bytes.split?_eq_some_iff]
  constructor
  · rintro ⟨length, middle, ⟨digits, rfl, hdigits, rfl⟩, rfl, hlength⟩
    have hlt : BigEndian.decode digits < BigEndian.range 2 := hdigits ▸ BigEndian.decode_lt digits
    have hfield : BigEndian.encode 2 bytes.length = digits := by
      rw [hlength, ← hdigits, BigEndian.encode_decode]
    constructor
    · rw [short, hfield, List.append_assoc]
    · have hrange : BigEndian.range 2 = maxShort + 1 := rfl
      omega
  · rintro ⟨rfl, hlength⟩
    refine ⟨bytes.length, bytes ++ rest, ⟨BigEndian.encode 2 bytes.length, ?_, ?_, ?_⟩, rfl, rfl⟩
    · rw [short, List.append_assoc]
    · exact BigEndian.length_encode 2 _
    · exact (BigEndian.decode_encode_of_lt (lt_range_of_le_maxShort hlength)).symm

theorem takeShort?_short {bytes : Bytes} (h : bytes.length ≤ maxShort) (rest : Bytes) :
    takeShort? (short bytes ++ rest) = some (bytes, rest) :=
  takeShort?_eq_some_iff.mpr ⟨rfl, h⟩

theorem decodeShort_short {bytes : Bytes} (h : bytes.length ≤ maxShort) (rest : Bytes) :
    decodeShort (short bytes ++ rest) = .ok (bytes, rest) := by
  rw [decodeShort, takeShort?_short h]

theorem takeRowFront?_eq_some_iff {width : LengthWidth} {input key rest : Bytes} {size : Int} :
    takeRowFront? width input = some (key, size, rest) ↔
      input = short key ++ BigEndian.encodeInt width.bytes size ++ rest ∧ key.length ≤ maxShort ∧
        BigEndian.Fits width.bytes size := by
  simp only [takeRowFront?, Option.bind_eq_bind, Option.bind_eq_some_iff, Prod.exists,
    takeShort?_eq_some_iff, BigEndian.takeInt?_eq_some_iff_fits, Option.pure_def, Option.some.injEq,
    Prod.mk.injEq]
  constructor
  · rintro ⟨key', middle, ⟨rfl, hkey⟩, size', rest', ⟨hfits, rfl⟩, rfl, rfl, rfl⟩
    exact ⟨(List.append_assoc _ _ _).symm, hkey, hfits⟩
  · rintro ⟨rfl, hkey, hfits⟩
    exact ⟨key, _, ⟨List.append_assoc _ _ _, hkey⟩, size, rest, ⟨hfits, rfl⟩, rfl, rfl, rfl⟩

theorem takeRowFront?_append {width : LengthWidth} {input key rest : Bytes} {size : Int}
    (h : takeRowFront? width input = some (key, size, rest)) (more : Bytes) :
    takeRowFront? width (input ++ more) = some (key, size, rest ++ more) := by
  obtain ⟨rfl, hfront⟩ := takeRowFront?_eq_some_iff.mp h
  exact takeRowFront?_eq_some_iff.mpr ⟨List.append_assoc _ _ _, hfront⟩

theorem takeRowFront?_nil (width : LengthWidth) : takeRowFront? width [] = none := rfl

theorem takeRowFront?_front (width : LengthWidth) {key : Bytes} {size : Int} (hkey : key.length ≤ maxShort)
    (hsize : BigEndian.Fits width.bytes size) (rest : Bytes) :
    takeRowFront? width (short key ++ BigEndian.encodeInt width.bytes size ++ rest) =
      some (key, size, rest) :=
  takeRowFront?_eq_some_iff.mpr ⟨rfl, hkey, hsize⟩

theorem length_front (width : LengthWidth) (key : Bytes) (size : Int) :
    (short key ++ BigEndian.encodeInt width.bytes size).length = rowSize width key 0 := by
  rw [List.length_append, length_short, BigEndian.length_encodeInt]
  rfl

theorem takeRowFront?_eq_none_of_isPrefix {width : LengthWidth} {key input tail : Bytes}
    (hkey : key.length ≤ maxShort) (hbegins : input <+: short key ++ tail)
    (hcut : input.length < 2 + key.length + width.bytes) : takeRowFront? width input = none := by
  cases hread : takeRowFront? width input with
  | none => rfl
  | some front =>
      exfalso
      obtain ⟨key', size, rest⟩ := front
      obtain ⟨rfl, hkey', -⟩ := takeRowFront?_eq_some_iff.mp hread
      -- the two bytes in front decide how long the key is
      have hlengths : BigEndian.encode 2 key'.length = BigEndian.encode 2 key.length := by
        obtain ⟨others, hothers⟩ := hbegins
        simp only [short, List.append_assoc] at hothers
        exact (List.append_inj hothers (by simp)).1
      have hsame : key'.length = key.length := by
        rw [← BigEndian.decode_encode_of_lt (lt_range_of_le_maxShort hkey'), hlengths,
          BigEndian.decode_encode_of_lt (lt_range_of_le_maxShort hkey)]
      simp only [List.length_append, length_short, BigEndian.length_encodeInt] at hcut
      omega

theorem length_row (key body : Bytes) :
    (row key body).length = rowSize .long key body.length := by
  simp only [row, rowSize, List.length_append, length_short, BigEndian.length_encodeInt]
  rfl

theorem fits_of_lt_maxOffset {n : Nat} (h : n < Disk.maxOffset) : BigEndian.Fits 8 n := by
  apply BigEndian.fits_natCast
  have hrange : BigEndian.range 8 = Disk.maxOffset * 2 := rfl
  omega

theorem takeRowFront?_row {key body : Bytes} (hkey : key.length ≤ maxShort)
    (hbody : body.length < Disk.maxOffset) (rest : Bytes) :
    takeRowFront? .long (row key body ++ rest) = some (key, (body.length : Int), body ++ rest) := by
  rw [row, List.append_assoc]
  exact takeRowFront?_front .long hkey (fits_of_lt_maxOffset hbody) (body ++ rest)

/-- A record that can be written so that it is read back. -/
def Readable (entry : Bytes × Nat) : Prop := entry.1.length ≤ maxShort ∧ entry.2 < Disk.maxOffset

/-- The bytes of index records, one behind the other. -/
def indexing (entries : List (Bytes × Nat)) : Bytes := entries.flatMap fun e => index e.1 e.2

section Index

variable {input rest : Bytes} {entry : Bytes × Nat} {entries : List (Bytes × Nat)} {n : Nat}

theorem length_index (key : Bytes) (offset : Nat) : (index key offset).length = indexSize key := by
  simp [index, indexSize, length_short]

theorem indexing_cons (entry : Bytes × Nat) (entries : List (Bytes × Nat)) :
    indexing (entry :: entries) = index entry.1 entry.2 ++ indexing entries := List.flatMap_cons

theorem indexing_append (entries more : List (Bytes × Nat)) :
    indexing (entries ++ more) = indexing entries ++ indexing more := List.flatMap_append

theorem length_indexing_cons (entry : Bytes × Nat) (entries : List (Bytes × Nat)) :
    (indexing (entry :: entries)).length = indexSize entry.1 + (indexing entries).length := by
  rw [indexing_cons, List.length_append, length_index]

theorem take_indexing_of_le (hn : indexSize entry.1 ≤ n) :
    (indexing (entry :: entries)).take n =
      index entry.1 entry.2 ++ (indexing entries).take (n - indexSize entry.1) := by
  rw [← length_index entry.1 entry.2] at hn ⊢
  rw [indexing_cons, Bytes.take_append_of_length_le hn]

theorem take_indexing_of_lt (hn : n < indexSize entry.1) :
    (indexing (entry :: entries)).take n = (index entry.1 entry.2).take n := by
  rw [indexing_cons, List.take_append_of_le_length]
  rw [length_index]
  exact Nat.le_of_lt hn

/-- An index record is read like the front of a row, with an offset in the place of the length. -/
theorem decodeIndex_eq (input : Bytes) :
    decodeIndex input =
      match takeRowFront? .long input with
      | none => .error .endOfInput
      | some (key, offset, rest) =>
          if offset < 0 then .error (.dataOffset offset) else .ok ((key, offset.toNat), rest) := by
  unfold decodeIndex decodeShort takeRowFront?
  rcases takeShort? input with - | ⟨key, middle⟩
  · rfl
  simp only [bind, Except.bind, Option.bind, show LengthWidth.long.bytes = 8 from rfl]
  rcases BigEndian.takeInt? 8 middle with - | ⟨offset, rest⟩
  · rfl
  · rfl

theorem decodeIndex_eq_ok_iff :
    decodeIndex input = .ok (entry, rest) ↔ input = index entry.1 entry.2 ++ rest ∧ Readable entry := by
  rw [decodeIndex_eq]
  constructor
  · intro hread
    rcases hfront : takeRowFront? .long input with - | ⟨key, offset, rest'⟩
    · simp [hfront] at hread
    by_cases hnegative : offset < 0
    · simp [hfront, hnegative] at hread
    simp only [hfront, hnegative, if_false, Except.ok.injEq, Prod.mk.injEq] at hread
    obtain ⟨rfl, rfl⟩ := hread
    obtain ⟨rfl, hkey, -, hlt⟩ := takeRowFront?_eq_some_iff.mp hfront
    have hoffset := Int.toNat_of_nonneg (Int.not_lt.mp hnegative)
    have hrange : BigEndian.range LengthWidth.long.bytes = Disk.maxOffset * 2 := rfl
    refine ⟨?_, hkey, by dsimp only; omega⟩
    rw [index, hoffset]
    rfl
  · rintro ⟨rfl, hkey, hoffset⟩
    have hfront := takeRowFront?_front .long hkey (fits_of_lt_maxOffset hoffset) rest
    change takeRowFront? .long (index entry.1 entry.2 ++ rest) = _ at hfront
    have hnonneg : ¬ (entry.2 : Int) < 0 := Int.not_lt.mpr (Int.natCast_nonneg _)
    simp only [hfront, hnonneg, if_false, Int.toNat_natCast]

theorem decodeIndex_index {key : Bytes} {offset : Nat} (hkey : key.length ≤ maxShort)
    (hoffset : offset < Disk.maxOffset) (rest : Bytes) :
    decodeIndex (index key offset ++ rest) = .ok ((key, offset), rest) :=
  decodeIndex_eq_ok_iff.mpr ⟨rfl, hkey, hoffset⟩

theorem decodeIndex_take {key : Bytes} {offset : Nat} (hkey : key.length ≤ maxShort) (hcut : n < indexSize key) :
    decodeIndex ((index key offset).take n) = .error .endOfInput := by
  have hlength : ((index key offset).take n).length < 2 + key.length + LengthWidth.long.bytes := by
    rw [List.length_take]
    exact Nat.lt_of_le_of_lt (Nat.min_le_left _ _) hcut
  rw [decodeIndex_eq, takeRowFront?_eq_none_of_isPrefix hkey (List.take_prefix n (index key offset)) hlength]

theorem readIndex_nil : readIndex [] = ([], none) := by
  rw [readIndex, if_pos rfl]

theorem readIndex_eq_of_decodeIndex (h : decodeIndex input = .ok (entry, rest)) :
    readIndex input = (entry :: (readIndex rest).1, (readIndex rest).2) := by
  have hne : input ≠ [] := by
    intro hnil
    have hlt := length_lt_of_decodeIndex h
    simp [hnil] at hlt
  rw [readIndex, if_neg hne]
  split
  · simp_all
  · rename_i hread
    rw [h] at hread
    simp only [Except.ok.injEq, Prod.mk.injEq] at hread
    obtain ⟨rfl, rfl⟩ := hread
    rfl

theorem readIndex_eq_of_decodeIndex_error {e : DecodeError} (hne : input ≠ []) (h : decodeIndex input = .error e) :
    readIndex input = ([], some e) := by
  rw [readIndex, if_neg hne]
  split
  · simp_all
  · simp_all

/-- An input is read to its end just if it is made of records that can be written, and these are what is read. -/
theorem readIndex_eq_iff :
    readIndex input = (entries, none) ↔ (∀ e ∈ entries, Readable e) ∧ input = indexing entries := by
  induction entries generalizing input with
  | nil =>
      constructor
      · intro hread
        refine ⟨fun e he => absurd he List.not_mem_nil, Decidable.byContradiction fun hne => ?_⟩
        rcases hdecode : decodeIndex input with e | ⟨entry, rest⟩
        · simp [readIndex_eq_of_decodeIndex_error hne hdecode] at hread
        · simp [readIndex_eq_of_decodeIndex hdecode] at hread
      · rintro ⟨-, rfl⟩
        exact readIndex_nil
  | cons entry entries ih =>
      rw [List.forall_mem_cons]
      constructor
      · intro hread
        by_cases hnil : input = []
        · simp [hnil, readIndex_nil] at hread
        rcases hdecode : decodeIndex input with e | ⟨entry', rest⟩
        · simp [readIndex_eq_of_decodeIndex_error hnil hdecode] at hread
        rw [readIndex_eq_of_decodeIndex hdecode, Prod.mk.injEq, List.cons.injEq] at hread
        obtain ⟨⟨rfl, hentries⟩, hend⟩ := hread
        obtain ⟨hreadable, hrest⟩ := ih.mp (Prod.ext hentries hend)
        obtain ⟨hinput, hentry⟩ := decodeIndex_eq_ok_iff.mp hdecode
        exact ⟨⟨hentry, hreadable⟩, by rw [hinput, hrest, indexing_cons]⟩
      · rintro ⟨⟨hentry, hreadable⟩, rfl⟩
        rw [indexing_cons, readIndex_eq_of_decodeIndex (decodeIndex_index hentry.1 hentry.2 _),
          ih.mpr ⟨hreadable, rfl⟩]

theorem readIndex_indexing (h : ∀ e ∈ entries, Readable e) : readIndex (indexing entries) = (entries, none) :=
  readIndex_eq_iff.mpr ⟨h, rfl⟩

/-- Nothing is read of a record that was cut. -/
theorem readIndex_take_index {key : Bytes} {offset : Nat} (hkey : key.length ≤ maxShort) (hcut : n < indexSize key) :
    readIndex ((index key offset).take n) = ([], if n = 0 then none else some .endOfInput) := by
  by_cases hnone : n = 0
  · subst hnone
    exact readIndex_nil
  have hne : (index key offset).take n ≠ [] := by
    intro hempty
    have hzero := congrArg List.length hempty
    rw [List.length_take, length_index, List.length_nil] at hzero
    omega
  rw [readIndex_eq_of_decodeIndex_error hne (decodeIndex_take hkey hcut), if_neg hnone]

/-- Of an index that was cut the records before the cut are read, without an error only if it was cut between two. -/
theorem exists_readIndex_take (h : ∀ e ∈ entries, Readable e) (hn : n < (indexing entries).length) :
    ∃ count < entries.length, (indexing (entries.take count)).length ≤ n ∧
      n < (indexing (entries.take (count + 1))).length ∧
      readIndex ((indexing entries).take n) =
        (entries.take count, if n = (indexing (entries.take count)).length then none else some .endOfInput) := by
  induction entries generalizing n with
  | nil => exact absurd hn (Nat.not_lt_zero n)
  | cons entry rest ih =>
      obtain ⟨hentry, hrest⟩ := List.forall_mem_cons.mp h
      by_cases hwhole : indexSize entry.1 ≤ n
      · rw [length_indexing_cons] at hn
        obtain ⟨count, hcount, hle, hlt, hread⟩ := ih hrest (n := n - indexSize entry.1) (by omega)
        have hbetween : n - indexSize entry.1 = (indexing (rest.take count)).length ↔
            n = indexSize entry.1 + (indexing (rest.take count)).length := by
          omega
        refine ⟨count + 1, Nat.succ_lt_succ hcount, ?_, ?_, ?_⟩
        · rw [List.take_succ_cons, length_indexing_cons]
          omega
        · rw [List.take_succ_cons, length_indexing_cons]
          omega
        · rw [take_indexing_of_le hwhole, readIndex_eq_of_decodeIndex (decodeIndex_index hentry.1 hentry.2 _), hread,
            List.take_succ_cons, length_indexing_cons]
          simp only [hbetween]
      · have hcut := Nat.lt_of_not_le hwhole
        refine ⟨0, Nat.succ_pos _, Nat.zero_le _, ?_, ?_⟩
        · rw [List.take_succ_cons, length_indexing_cons]
          exact Nat.lt_of_lt_of_le hcut (Nat.le_add_right _ _)
        · rw [take_indexing_of_lt hcut]
          exact readIndex_take_index hentry.1 hcut

/-- An index that was cut is read to its end only if it was cut between two records. -/
theorem readIndex_take {records : List (Bytes × Nat)} (h : ∀ e ∈ entries, Readable e)
    (hread : readIndex ((indexing entries).take n) = (records, none)) :
    ∃ count, records = entries.take count ∧ (indexing entries).take n = indexing (entries.take count) := by
  have hbytes := (readIndex_eq_iff.mp hread).2
  by_cases hn : n < (indexing entries).length
  · obtain ⟨count, -, -, -, hcut⟩ := exists_readIndex_take h hn
    rw [hread, Prod.mk.injEq] at hcut
    exact ⟨count, hcut.1, hcut.1 ▸ hbytes⟩
  · rw [List.take_of_length_le (Nat.le_of_not_lt hn), readIndex_indexing h, Prod.mk.injEq] at hread
    refine ⟨entries.length, ?_, ?_⟩
    · rw [List.take_length, hread.1]
    · rw [List.take_length, List.take_of_length_le (Nat.le_of_not_lt hn)]

end Index

end SortedTable.Record
