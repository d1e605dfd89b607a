import SortedTable.Proofs.Codec.Columns
import SortedTable.Proofs.Disk.Trees

/-!
# What is read as a row

The bytes of a row list its columns. The reader takes them in any order, and of two with one name it keeps the later;
the writer lists them in ascending order of name. So each row has one listing that is written, and any other listing
is read all the same. Main statements: `decode_eq_ok_iff`, `codec_exact`.
-/

namespace SortedTable

open BigEndian

namespace Row

/-- The name and the value of a column fit their length fields. -/
structure Listable (e : Bytes × Column) : Prop where
  name : e.1.length ≤ Record.maxShort
  value : e.2.value.length ≤ maxInt32

/-- A row that fits its fields. -/
structure Encodable (r : Row) : Prop where
  size : r.size ≤ maxInt32
  columns : ∀ e ∈ r.columns.entries, Listable e

def columnBytes (e : Bytes × Column) : Bytes :=
  Record.short e.1 ++ (encodeInt 8 e.2.timestamp.toInt ++ (encodeInt 4 e.2.value.length ++ e.2.value))

/-- The bytes of a row that lists these columns, in this order. -/
def listing (localDeletion : Int32) (markedForDelete : Int64) (listed : List (Bytes × Column)) : Bytes :=
  encodeInt 4 localDeletion.toInt ++ (encodeInt 8 markedForDelete.toInt ++
    (encodeInt 4 listed.length ++ listed.flatMap columnBytes))

/-- The columns of a listing; of two with one name the later. -/
def gather (columns : SortedMap Bytes Column) (listed : List (Bytes × Column)) : SortedMap Bytes Column :=
  listed.foldl (fun columns e => columns.insert e.1 e.2) columns

variable {input rest : Bytes} {e e' : Bytes × Column} {listed : List (Bytes × Column)} {r : Row}

theorem encodeColumn_of_listable (h : Listable e) :
    ∃ pieces, encodeColumn e.1 e.2 = (pieces, none) ∧ pieces.flatten = columnBytes e := by
  rw [encodeColumn, if_neg (Nat.not_lt.mpr h.name)]
  dsimp only
  rw [if_neg (Nat.not_lt.mpr h.value)]
  refine ⟨_, rfl, ?_⟩
  simp only [List.flatten_append, Record.flatten_shortPieces, List.flatten_cons, List.flatten_nil, List.append_nil,
    List.append_assoc, columnBytes]

theorem listable_of_encodeColumn {pieces : List Bytes} (h : encodeColumn e.1 e.2 = (pieces, none)) : Listable e := by
  unfold encodeColumn at h
  by_cases hname : Record.maxShort < e.1.length
  · rw [if_pos hname] at h
    cases h
  by_cases hvalue : maxInt32 < e.2.value.length
  · simp [hname, hvalue] at h
  · exact ⟨Nat.le_of_not_lt hname, Nat.le_of_not_lt hvalue⟩

theorem encodeColumns_of_listable (h : ∀ e ∈ listed, Listable e) :
    ∃ pieces, encodeColumns listed = (pieces, none) ∧ pieces.flatten = listed.flatMap columnBytes := by
  induction listed with
  | nil => exact ⟨[], rfl, rfl⟩
  | cons e listed ih =>
      rw [List.forall_mem_cons] at h
      obtain ⟨first, hfirst, hbytes⟩ := encodeColumn_of_listable h.1
      obtain ⟨others, hothers, hmore⟩ := ih h.2
      refine ⟨first ++ others, ?_, ?_⟩
      · rw [encodeColumns, hfirst, hothers]
      · rw [List.flatten_append, hbytes, hmore, List.flatMap_cons]

theorem listable_of_encodeColumns {pieces : List Bytes} (h : encodeColumns listed = (pieces, none)) :
    ∀ e ∈ listed, Listable e := by
  induction listed generalizing pieces with
  | nil => exact fun _ he => absurd he List.not_mem_nil
  | cons e listed ih =>
      rw [encodeColumns] at h
      rcases hfirst : encodeColumn e.1 e.2 with ⟨first, - | failure⟩
      · rcases hothers : encodeColumns listed with ⟨others, - | failure⟩
        · exact List.forall_mem_cons.mpr ⟨listable_of_encodeColumn hfirst, ih hothers⟩
        · simp [hfirst, hothers] at h
      · simp [hfirst] at h

/-- Writing succeeds for the rows that fit their fields, and reports the number of their columns. -/
theorem outcome_eq_ok_iff {count : Nat} : r.encode.outcome = .ok count ↔ r.Encodable ∧ count = r.size := by
  unfold encode
  by_cases hsize : maxInt32 < r.size
  · rw [if_pos hsize]
    constructor
    · intro h
      cases h
    · exact fun h => absurd h.1.size (Nat.not_le_of_lt hsize)
  rw [if_neg hsize]
  rcases hcolumns : encodeColumns r.columns.entries with ⟨pieces, - | failure⟩
  · dsimp only
    rw [Except.ok.injEq]
    constructor
    · rintro rfl
      exact ⟨⟨Nat.le_of_not_lt hsize, listable_of_encodeColumns hcolumns⟩, rfl⟩
    · exact fun h => h.2.symm
  · constructor
    · intro h
      cases h
    · intro h
      obtain ⟨others, hothers, -⟩ := encodeColumns_of_listable h.1.columns
      rw [hcolumns] at hothers
      cases hothers

theorem written_encode (h : r.Encodable) :
    r.encode.written = listing r.localDeletion r.markedForDelete r.columns.entries := by
  obtain ⟨pieces, hpieces, hbytes⟩ := encodeColumns_of_listable h.columns
  rw [encode, if_neg (Nat.not_lt.mpr h.size), hpieces]
  dsimp only [Encoding.written]
  simp only [List.flatten_append, List.flatten_cons, List.flatten_nil, List.append_nil, List.append_assoc, hbytes,
    listing, size, SortedMap.size]

theorem takeInt_eq_ok_iff {width : Nat} {i : Int} :
    takeInt width input = .ok (i, rest) ↔ Fits width i ∧ input = encodeInt width i ++ rest := by
  constructor
  · intro h
    unfold takeInt at h
    split at h
    · rename_i htake
      cases h
      exact takeInt?_eq_some_iff_fits.mp htake
    · cases h
  · rintro ⟨hfits, rfl⟩
    exact takeInt_encodeInt hfits rest

theorem decodeShort_eq_ok_iff {bytes : Bytes} :
    Record.decodeShort input = .ok (bytes, rest) ↔
      input = Record.short bytes ++ rest ∧ bytes.length ≤ Record.maxShort := by
  rw [← Record.takeShort?_eq_some_iff, Record.decodeShort]
  cases Record.takeShort? input <;> simp

theorem toInt_ofInt64 {i : Int} (h : Fits 8 i) : (Int64.ofInt i).toInt = i := by
  have hrange : range 8 = 18446744073709551616 := rfl
  obtain ⟨hlow, hhigh⟩ := h
  apply Int64.toInt_ofInt_of_le <;> omega

theorem toInt_ofInt32 {i : Int} (h : Fits 4 i) : (Int32.ofInt i).toInt = i := by
  have hrange : range 4 = 4294967296 := rfl
  obtain ⟨hlow, hhigh⟩ := h
  apply Int32.toInt_ofInt_of_le <;> omega

theorem le_maxInt32_of_fits {n : Nat} (h : Fits 4 n) : n ≤ maxInt32 := by
  have hrange : range 4 = 4294967296 := rfl
  have hmax : maxInt32 = 2147483647 := rfl
  have hhigh := h.2
  omega

theorem decodeColumn_columnBytes (h : Listable e) (rest : Bytes) :
    decodeColumn (columnBytes e ++ rest) = .ok (e, rest) := by
  obtain ⟨pieces, hpieces, hbytes⟩ := encodeColumn_of_listable h
  rw [← hbytes]
  exact decodeColumn_encodeColumn hpieces rest

theorem decodeColumn_eq_ok_iff : decodeColumn input = .ok (e, rest) ↔ Listable e ∧ input = columnBytes e ++ rest := by
  constructor
  · intro h
    unfold decodeColumn at h
    obtain ⟨⟨name, afterName⟩, hname, h⟩ := Except.bind_eq_ok_iff.mp h
    obtain ⟨⟨timestamp, afterTime⟩, htime, h⟩ := Except.bind_eq_ok_iff.mp h
    obtain ⟨⟨length, afterLength⟩, hlength, h⟩ := Except.bind_eq_ok_iff.mp h
    dsimp only at h
    by_cases hnegative : length < 0
    · rw [if_pos hnegative] at h
      cases h
    rw [if_neg hnegative] at h
    rcases hsplit : afterLength.split? length.toNat with - | ⟨value, behind⟩
    · simp only [hsplit] at h
      cases h
    · simp only [hsplit] at h
      cases h
      obtain ⟨rfl, hnameLength⟩ := decodeShort_eq_ok_iff.mp hname
      obtain ⟨htimeFits, rfl⟩ := takeInt_eq_ok_iff.mp htime
      obtain ⟨hlengthFits, rfl⟩ := takeInt_eq_ok_iff.mp hlength
      obtain ⟨rfl, hvalue⟩ := Bytes.split?_eq_some_iff.mp hsplit
      have hsame : ((value.length : Nat) : Int) = length := by
        rw [hvalue]
        exact Int.toNat_of_nonneg (Int.not_lt.mp hnegative)
      refine ⟨⟨hnameLength, le_maxInt32_of_fits (hsame ▸ hlengthFits)⟩, ?_⟩
      simp only [columnBytes, toInt_ofInt64 htimeFits, hsame, List.append_assoc]
  · rintro ⟨hlistable, rfl⟩
    exact decodeColumn_columnBytes hlistable rest

theorem gather_cons (columns : SortedMap Bytes Column) (e : Bytes × Column) (listed : List (Bytes × Column)) :
    gather columns (e :: listed) = gather (columns.insert e.1 e.2) listed := rfl

theorem decodeColumns_eq_ok_iff {count : Nat} {columns gathered : SortedMap Bytes Column} :
    decodeColumns count columns input = .ok (gathered, rest) ↔
      ∃ listed, listed.length = count ∧ (∀ e ∈ listed, Listable e) ∧ input = listed.flatMap columnBytes ++ rest ∧
        gathered = gather columns listed := by
  induction count generalizing input columns with
  | zero =>
      rw [decodeColumns, Except.ok.injEq, Prod.mk.injEq]
      constructor
      · rintro ⟨rfl, rfl⟩
        exact ⟨[], rfl, fun _ he => absurd he List.not_mem_nil, rfl, rfl⟩
      · rintro ⟨listed, hlength, -, rfl, rfl⟩
        rw [List.eq_nil_of_length_eq_zero hlength]
        exact ⟨rfl, rfl⟩
  | succ count ih =>
      rw [decodeColumns, Except.bind_eq_ok_iff]
      constructor
      · rintro ⟨⟨e, behind⟩, hfirst, hothers⟩
        obtain ⟨hlistable, rfl⟩ := decodeColumn_eq_ok_iff.mp hfirst
        obtain ⟨listed, hlength, hall, rfl, rfl⟩ := ih.mp hothers
        refine ⟨e :: listed, ?_, List.forall_mem_cons.mpr ⟨hlistable, hall⟩, ?_, rfl⟩
        · rw [List.length_cons, hlength]
        · rw [List.flatMap_cons, List.append_assoc]
      · rintro ⟨listed, hlength, hall, rfl, rfl⟩
        obtain ⟨e, others, rfl⟩ := List.exists_cons_of_length_eq_add_one hlength
        rw [List.forall_mem_cons] at hall
        rw [List.flatMap_cons, List.append_assoc]
        refine ⟨_, decodeColumn_columnBytes hall.1 _, ?_⟩
        exact ih.mpr ⟨others, Nat.succ.inj hlength, hall.2, rfl, rfl⟩

theorem decode_listing (hle : listed.length ≤ maxInt32) (hall : ∀ e ∈ listed, Listable e)
    (hcolumns : r.columns = gather .empty listed) (rest : Bytes) :
    decode (listing r.localDeletion r.markedForDelete listed ++ rest) = .ok (r, rest) := by
  have hread : decodeColumns ((listed.length : Nat) : Int).toNat .empty (listed.flatMap columnBytes ++ rest) =
      .ok (r.columns, rest) := decodeColumns_eq_ok_iff.mpr ⟨listed, rfl, hall, rfl, hcolumns⟩
  have hrow := decode_eq_ok (takeInt_encodeInt (fits_int32 r.localDeletion) _)
    (takeInt_encodeInt (fits_int64 r.markedForDelete) _)
    (takeInt_encodeInt (fits_of_le_maxInt32 hle) _) (Int.natCast_nonneg _) hread
  simp only [listing, List.append_assoc]
  rw [hrow, Int32.ofInt_toInt, Int64.ofInt_toInt]

/-- What the reader accepts is a listing of columns that fit their fields. -/
theorem decode_eq_ok_iff :
    decode input = .ok (r, rest) ↔ ∃ listed : List (Bytes × Column),
      listed.length ≤ maxInt32 ∧ (∀ e ∈ listed, Listable e) ∧
        input = listing r.localDeletion r.markedForDelete listed ++ rest ∧ r.columns = gather .empty listed := by
  constructor
  · intro h
    unfold decode at h
    obtain ⟨⟨deletion, afterDeletion⟩, hdeletion, h⟩ := Except.bind_eq_ok_iff.mp h
    obtain ⟨⟨mark, afterMark⟩, hmark, h⟩ := Except.bind_eq_ok_iff.mp h
    obtain ⟨⟨count, afterCount⟩, hcount, h⟩ := Except.bind_eq_ok_iff.mp h
    dsimp only at h
    by_cases hnegative : count < 0
    · rw [if_pos hnegative] at h
      cases h
    rw [if_neg hnegative] at h
    obtain ⟨⟨columns, behind⟩, hcolumns, h⟩ := Except.bind_eq_ok_iff.mp h
    cases h
    obtain ⟨hdeletionFits, rfl⟩ := takeInt_eq_ok_iff.mp hdeletion
    obtain ⟨hmarkFits, rfl⟩ := takeInt_eq_ok_iff.mp hmark
    obtain ⟨hcountFits, rfl⟩ := takeInt_eq_ok_iff.mp hcount
    obtain ⟨listed, hlength, hall, rfl, rfl⟩ := decodeColumns_eq_ok_iff.mp hcolumns
    have hsame : ((listed.length : Nat) : Int) = count := by
      rw [hlength]
      exact Int.toNat_of_nonneg (Int.not_lt.mp hnegative)
    refine ⟨listed, le_maxInt32_of_fits (hsame ▸ hcountFits), hall, ?_, rfl⟩
    simp only [listing, toInt_ofInt32 hdeletionFits, toInt_ofInt64 hmarkFits, hsame, List.append_assoc]
  · rintro ⟨listed, hle, hall, rfl, hcolumns⟩
    exact decode_listing hle hall hcolumns rest

theorem columnBytes_append_inj {tail tail' : Bytes} (h : Listable e) (h' : Listable e')
    (hsame : columnBytes e ++ tail = columnBytes e' ++ tail') : e = e' ∧ tail = tail' := by
  have hread := decodeColumn_columnBytes h tail
  rw [hsame, decodeColumn_columnBytes h', Except.ok.injEq, Prod.mk.injEq] at hread
  exact ⟨hread.1.symm, hread.2.symm⟩

theorem flatMap_columnBytes_inj {listed' : List (Bytes × Column)} (h : ∀ e ∈ listed, Listable e)
    (h' : ∀ e ∈ listed', Listable e) (hlength : listed.length = listed'.length)
    (hsame : listed.flatMap columnBytes = listed'.flatMap columnBytes) : listed = listed' := by
  induction listed generalizing listed' with
  | nil => exact (List.eq_nil_of_length_eq_zero hlength.symm).symm
  | cons e listed ih =>
      obtain ⟨e', others, rfl⟩ := List.exists_cons_of_length_eq_add_one hlength.symm
      rw [List.forall_mem_cons] at h h'
      rw [List.flatMap_cons, List.flatMap_cons] at hsame
      obtain ⟨rfl, hothers⟩ := columnBytes_append_inj h.1 h'.1 hsame
      rw [ih h.2 h'.2 (Nat.succ.inj hlength) hothers]

/-- The columns can be read off their listing. -/
theorem listing_inj {localDeletion : Int32} {markedForDelete : Int64} {listed' : List (Bytes × Column)}
    (h : ∀ e ∈ listed, Listable e) (h' : ∀ e ∈ listed', Listable e) (hle : listed.length ≤ maxInt32)
    (hle' : listed'.length ≤ maxInt32)
    (hsame : listing localDeletion markedForDelete listed = listing localDeletion markedForDelete listed') :
    listed = listed' := by
  have hcounts := List.append_cancel_left (List.append_cancel_left hsame)
  obtain ⟨hcount, hcolumns⟩ := List.append_inj hcounts (by rw [length_encodeInt, length_encodeInt])
  have hlength : ((listed.length : Nat) : Int) = listed'.length := by
    rw [← decodeInt_encodeInt (fits_of_le_maxInt32 hle), hcount, decodeInt_encodeInt (fits_of_le_maxInt32 hle')]
  exact flatMap_columnBytes_inj h h' (Int.ofNat.inj hlength) hcolumns

theorem mem_gather {columns : SortedMap Bytes Column} (h : e ∈ (gather columns listed).entries) :
    e ∈ columns.entries ∨ e ∈ listed := by
  induction listed generalizing columns with
  | nil => exact .inl h
  | cons first listed ih =>
      rcases ih h with hcolumns | hlisted
      · rcases SortedMap.mem_insertEntry hcolumns with rfl | hcolumns
        · exact .inr List.mem_cons_self
        · exact .inl hcolumns
      · exact .inr (List.mem_cons_of_mem _ hlisted)

theorem length_insertEntry_le (k : Bytes) (c : Column) (entries : List (Bytes × Column)) :
    (SortedMap.insertEntry k c entries).length ≤ entries.length + 1 := by
  induction entries with
  | nil => exact Nat.le_refl 1
  | cons e entries ih =>
      rw [SortedMap.insertEntry]
      split
      · exact Nat.le_succ _
      · split
        · exact Nat.le_refl _
        · exact Nat.succ_le_succ ih

theorem size_gather_le (columns : SortedMap Bytes Column) (listed : List (Bytes × Column)) :
    (gather columns listed).size ≤ columns.size + listed.length := by
  induction listed generalizing columns with
  | nil => exact Nat.le_refl _
  | cons e listed ih =>
      calc (gather columns (e :: listed)).size
          ≤ (columns.insert e.1 e.2).size + listed.length := ih (columns.insert e.1 e.2)
        _ ≤ columns.size + 1 + listed.length :=
            Nat.add_le_add_right (length_insertEntry_le e.1 e.2 columns.entries) _
        _ = columns.size + (e :: listed).length := by
            rw [List.length_cons]
            omega

/-- Columns in ascending order are gathered as they are listed. -/
theorem entries_gather_of_ascending {columns : SortedMap Bytes Column}
    (h : (columns.entries ++ listed).Pairwise fun a b => a.1 < b.1) :
    (gather columns listed).entries = columns.entries ++ listed := by
  induction listed generalizing columns with
  | nil => exact (List.append_nil _).symm
  | cons e listed ih =>
      have hlt : ∀ e' ∈ columns.entries, e'.1 < e.1 :=
        fun e' he' => (List.pairwise_append.mp h).2.2 e' he' e List.mem_cons_self
      have hinsert : (columns.insert e.1 e.2).entries = columns.entries ++ [e] :=
        SortedMap.insertEntry_of_lt hlt e.2
      rw [gather_cons, ih (by rwa [hinsert, List.append_assoc]), hinsert, List.append_assoc]
      rfl

theorem encodable_of_gather (hle : listed.length ≤ maxInt32) (hall : ∀ e ∈ listed, Listable e)
    (hcolumns : r.columns = gather .empty listed) : r.Encodable := by
  constructor
  · rw [size, hcolumns]
    have hsize := size_gather_le .empty listed
    have hnone : (SortedMap.empty : SortedMap Bytes Column).size = 0 := rfl
    omega
  · intro e he
    rw [hcolumns] at he
    rcases mem_gather he with hnone | hlisted
    · exact absurd hnone List.not_mem_nil
    · exact hall e hlisted

/-- A row is written as it was read exactly if its columns were listed in strictly ascending order. -/
theorem written_eq_listing_iff (hle : listed.length ≤ maxInt32) (hall : ∀ e ∈ listed, Listable e)
    (hcolumns : r.columns = gather .empty listed) :
    r.encode.written = listing r.localDeletion r.markedForDelete listed ↔
      (listed.map fun e => e.1).Pairwise (· < ·) := by
  have hencodable := encodable_of_gather hle hall hcolumns
  rw [written_encode hencodable, List.pairwise_map]
  constructor
  · intro hsame
    -- The columns of a row can be read off its bytes, so these are the ones of the map, in its order.
    rw [← listing_inj hencodable.columns hall hencodable.size hle hsame]
    exact r.columns.ascending
  · intro hascending
    have hentries : (gather .empty listed).entries = SortedMap.empty.entries ++ listed :=
      entries_gather_of_ascending hascending
    rw [hcolumns, hentries]
    rfl

/-- **Writing and reading rows.** A row is written exactly if it fits its fields, and is read back with what follows it
left over. Whatever is read is a listing of columns; the row that is read is written and read back, and what is
written is the same bytes exactly if the names were listed in strictly ascending order. -/
theorem codec_exact :
    (∀ (r : Row) (count : Nat), r.encode.outcome = .ok count ↔ r.Encodable ∧ count = r.size) ∧
      (∀ r : Row, r.Encodable → ∀ rest, decode (r.encode.written ++ rest) = .ok (r, rest)) ∧
      ∀ (input : Bytes) (r : Row) (rest : Bytes), decode input = .ok (r, rest) →
        r.encode.outcome = .ok r.size ∧ decode r.encode.written = .ok (r, []) ∧
          ∃ listed : List (Bytes × Column), listed.length ≤ maxInt32 ∧ (∀ e ∈ listed, Listable e) ∧
            input = listing r.localDeletion r.markedForDelete listed ++ rest ∧ r.columns = gather .empty listed ∧
            (r.encode.written = listing r.localDeletion r.markedForDelete listed ↔
              (listed.map fun e => e.1).Pairwise (· < ·)) := by
  have hback : ∀ r : Row, r.Encodable → ∀ rest, decode (r.encode.written ++ rest) = .ok (r, rest) :=
    fun r h => decode_encode (outcome_eq_ok_iff.mpr ⟨h, rfl⟩)
  refine ⟨fun _ _ => outcome_eq_ok_iff, hback, fun input r rest hread => ?_⟩
  obtain ⟨listed, hle, hall, hinput, hcolumns⟩ := decode_eq_ok_iff.mp hread
  have hencodable := encodable_of_gather hle hall hcolumns
  have hagain := hback r hencodable []
  rw [List.append_nil] at hagain
  exact ⟨outcome_eq_ok_iff.mpr ⟨hencodable, rfl⟩, hagain, listed, hle, hall, hinput, hcolumns,
    written_eq_listing_iff hle hall hcolumns⟩

/-- Two columns that are listed in descending order, and one byte behind them. -/
theorem codec_exact_descending :
    ((Row.empty.add [97] [1] 5).add [98] [] 6).encode.outcome = .ok 2 ∧
      decode (((Row.empty.add [97] [1] 5).add [98] [] 6).encode.written ++ [7]) =
        .ok ((Row.empty.add [97] [1] 5).add [98] [] 6, [7]) ∧
      decode ((Row.empty.add [97] [1] 5).add [98] [] 6).encode.written =
        .ok ((Row.empty.add [97] [1] 5).add [98] [] 6, []) := by
  have hlistable : ∀ e ∈ ([([98], ⟨[], 6⟩), ([97], ⟨[1], 5⟩)] : List (Bytes × Column)), Listable e := by
    intro e he
    simp only [List.mem_cons, List.not_mem_nil, or_false] at he
    rcases he with rfl | rfl <;> exact ⟨by decide, by decide⟩
  have hcolumns : ((Row.empty.add [97] [1] 5).add [98] [] 6).columns =
      gather .empty [([98], ⟨[], 6⟩), ([97], ⟨[1], 5⟩)] := SortedMap.ext rfl
  have hencodable := encodable_of_gather (by decide) hlistable hcolumns
  obtain ⟨houtcome, hback, -⟩ := codec_exact.2.2 _ _ _ (decode_listing (by decide) hlistable hcolumns [7])
  exact ⟨houtcome, codec_exact.2.1 _ hencodable [7], hback⟩

end Row

end SortedTable
