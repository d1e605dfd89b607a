import SortedTable.Proofs.Codec.Records
import SortedTable.Row.Encoding

namespace SortedTable

/-- What comes in ascending order is put behind what is there. -/
theorem SortedMap.insertEntry_of_lt {β : Type} {entries : List (Bytes × β)} {k : Bytes}
    (h : ∀ e ∈ entries, e.1 < k) (v : β) : SortedMap.insertEntry k v entries = entries ++ [(k, v)] := by
  induction entries with
  | nil => rfl
  | cons e rest ih =>
      have hlt : e.1 < k := h e List.mem_cons_self
      have hne : e.1 ≠ k := fun heq => List.lt_irrefl k (heq ▸ hlt)
      rw [SortedMap.insertEntry, if_neg hne, if_neg (List.lt_asymm hlt),
        ih fun e' he' => h e' (List.mem_cons_of_mem _ he'), List.cons_append]

namespace Row

theorem takeInt_encodeInt {width : Nat} {i : Int} (h : BigEndian.Fits width i) (rest : Bytes) :
    takeInt width (BigEndian.encodeInt width i ++ rest) = .ok (i, rest) := by
  rw [takeInt, BigEndian.takeInt?_encodeInt h]

theorem fits_int32 (i : Int32) : BigEndian.Fits 4 i.toInt := by
  have hlow := Int32.le_toInt i
  have hhigh := Int32.toInt_lt i
  have hrange : BigEndian.range 4 = 4294967296 := rfl
  constructor <;> omega

theorem fits_int64 (i : Int64) : BigEndian.Fits 8 i.toInt := by
  have hlow := Int64.le_toInt i
  have hhigh := Int64.toInt_lt i
  have hrange : BigEndian.range 8 = 18446744073709551616 := rfl
  constructor <;> omega

theorem double_lt_range {n : Nat} (h : n ≤ maxInt32) : n * 2 < BigEndian.range 4 := by
  have hmax : maxInt32 = 2147483647 := rfl
  have hrange : BigEndian.range 4 = 4294967296 := rfl
  omega

theorem fits_of_le_maxInt32 {n : Nat} (h : n ≤ maxInt32) : BigEndian.Fits 4 n :=
  BigEndian.fits_natCast (double_lt_range h)

theorem decodeColumn_eq_ok {input name value afterName afterTime afterLength rest : Bytes} {timestamp length : Int}
    (hname : Record.decodeShort input = .ok (name, afterName))
    (htimestamp : takeInt 8 afterName = .ok (timestamp, afterTime))
    (hcount : takeInt 4 afterTime = .ok (length, afterLength)) (hlength : 0 ≤ length)
    (hvalue : afterLength.split? length.toNat = some (value, rest)) :
    decodeColumn input = .ok ((name, ⟨value, Int64.ofInt timestamp⟩), rest) := by
  simp only [decodeColumn, hname, htimestamp, hcount, bind, Except.bind, Int.not_lt.mpr hlength, if_false, hvalue]
  rfl

theorem decodeColumn_encodeColumn {name : Bytes} {c : Column} {pieces : List Bytes}
    (h : encodeColumn name c = (pieces, none)) (rest : Bytes) :
    decodeColumn (pieces.flatten ++ rest) = .ok ((name, c), rest) := by
  unfold encodeColumn at h
  by_cases hname : Record.maxShort < name.length
  · rw [if_pos hname] at h
    cases h
  rw [if_neg hname] at h
  by_cases hvalue : maxInt32 < c.value.length
  · simp [hvalue] at h
  simp only [hvalue, if_false, Prod.mk.injEq, and_true] at h
  have hpieces : pieces.flatten ++ rest = Record.short name ++ (BigEndian.encodeInt 8 c.timestamp.toInt ++
      (BigEndian.encodeInt 4 c.value.length ++ (c.value ++ rest))) := by
    simp [← h]
  have hcolumn := decodeColumn_eq_ok (Record.decodeShort_short (Nat.le_of_not_lt hname) _)
    (takeInt_encodeInt (fits_int64 c.timestamp) _)
    (takeInt_encodeInt (fits_of_le_maxInt32 (Nat.le_of_not_lt hvalue)) _) (Int.natCast_nonneg _)
    (Bytes.split?_append c.value rest)
  rw [hpieces, hcolumn, Int64.ofInt_toInt]

theorem decodeColumns_encodeColumns {entries : List (Bytes × Column)} {pieces : List Bytes}
    (h : encodeColumns entries = (pieces, none)) {before : List (Bytes × Column)}
    (hbefore : before.Pairwise fun a b => a.1 < b.1) (hall : (before ++ entries).Pairwise fun a b => a.1 < b.1)
    (rest : Bytes) :
    decodeColumns entries.length ⟨before, hbefore⟩ (pieces.flatten ++ rest) =
      .ok (⟨before ++ entries, hall⟩, rest) := by
  induction entries generalizing pieces before with
  | nil =>
      cases h
      have hsame : (⟨before, hbefore⟩ : SortedMap Bytes Column) = ⟨before ++ [], hall⟩ :=
        SortedMap.ext (List.append_nil before).symm
      rw [← hsame]
      rfl
  | cons e others ih =>
      obtain ⟨name, c⟩ := e
      rw [encodeColumns] at h
      rcases hfirst : encodeColumn name c with ⟨first, - | failure⟩
      · rcases hothers : encodeColumns others with ⟨more, - | failure⟩
        · simp only [hfirst, hothers, Prod.mk.injEq, and_true] at h
          have hlt : ∀ e ∈ before, e.1 < name :=
            fun e he => (List.pairwise_append.mp hall).2.2 e he _ List.mem_cons_self
          have hsplit : before ++ (name, c) :: others = before ++ [(name, c)] ++ others := by
            rw [List.append_assoc, List.singleton_append]
          have hnext : (before ++ [(name, c)]).Pairwise fun a b => a.1 < b.1 := by
            rw [hsplit] at hall
            exact (List.pairwise_append.mp hall).1
          have hinsert : (⟨before, hbefore⟩ : SortedMap Bytes Column).insert name c =
              ⟨before ++ [(name, c)], hnext⟩ := SortedMap.ext (SortedMap.insertEntry_of_lt hlt c)
          have hwhole : (⟨before ++ (name, c) :: others, hall⟩ : SortedMap Bytes Column) =
              ⟨before ++ [(name, c)] ++ others, hsplit ▸ hall⟩ := SortedMap.ext hsplit
          rw [← h, List.flatten_append, List.append_assoc, List.length_cons, decodeColumns,
            decodeColumn_encodeColumn hfirst]
          simp only [bind, Except.bind]
          rw [hinsert, hwhole]
          exact ih hothers hnext (hsplit ▸ hall)
        · simp [hfirst, hothers] at h
      · simp [hfirst] at h

theorem decode_eq_ok {input afterDeletion afterMark afterCount rest : Bytes} {deletion mark count : Int}
    {columns : SortedMap Bytes Column} (hdeletion : takeInt 4 input = .ok (deletion, afterDeletion))
    (hmark : takeInt 8 afterDeletion = .ok (mark, afterMark))
    (hcount : takeInt 4 afterMark = .ok (count, afterCount)) (hnonneg : 0 ≤ count)
    (hcolumns : decodeColumns count.toNat .empty afterCount = .ok (columns, rest)) :
    decode input = .ok (⟨columns, Int32.ofInt deletion, Int64.ofInt mark⟩, rest) := by
  simp only [decode, hdeletion, hmark, hcount, bind, Except.bind, Int.not_lt.mpr hnonneg, if_false, hcolumns]
  rfl

/-- A row is read back from its encoding, and what follows it is left over. -/
theorem decode_encode {r : Row} {columnCount : Nat} (h : r.encode.outcome = .ok columnCount) (rest : Bytes) :
    decode (r.encode.written ++ rest) = .ok (r, rest) := by
  unfold encode at h ⊢
  by_cases hsize : maxInt32 < r.size
  · rw [if_pos hsize] at h
    cases h
  rw [if_neg hsize] at h ⊢
  rcases hcolumns : encodeColumns r.columns.entries with ⟨pieces, - | failure⟩
  · have hwritten : ([BigEndian.encodeInt 4 r.localDeletion.toInt, BigEndian.encodeInt 8 r.markedForDelete.toInt] ++
        BigEndian.encodeInt 4 r.size :: pieces).flatten ++ rest =
          BigEndian.encodeInt 4 r.localDeletion.toInt ++ (BigEndian.encodeInt 8 r.markedForDelete.toInt ++
            (BigEndian.encodeInt 4 r.size ++ (pieces.flatten ++ rest))) := by
      simp
    have hall := decodeColumns_encodeColumns hcolumns .nil r.columns.ascending rest
    have hrow := decode_eq_ok (takeInt_encodeInt (fits_int32 r.localDeletion) _)
      (takeInt_encodeInt (fits_int64 r.markedForDelete) _)
      (takeInt_encodeInt (fits_of_le_maxInt32 (Nat.le_of_not_lt hsize)) _) (Int.natCast_nonneg _) hall
    dsimp only [Encoding.written]
    rw [hwritten, hrow, Int32.ofInt_toInt, Int64.ofInt_toInt]
    rfl
  · rw [hcolumns] at h
    cases h

end Row

end SortedTable
