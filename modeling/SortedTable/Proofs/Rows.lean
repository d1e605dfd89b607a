import SortedTable.Key
import SortedTable.Proofs.Framing

namespace SortedTable

/-- A row as it was appended. What the data and the index of a table hold is decided by its rows, in their order. -/
structure AppendedRow where
  key : DecoratedKey
  body : Bytes
  /-- The number of its columns, if they were counted. -/
  columnCount : Option Nat
deriving DecidableEq, Repr

namespace AppendedRow

def bytes (r : AppendedRow) : Bytes := Record.row r.key.key r.body

def size (r : AppendedRow) : Nat := Record.rowSize .long r.key.key r.body.length

@[simp]
theorem length_bytes (r : AppendedRow) : r.bytes.length = r.size := Record.length_row _ _

theorem size_pos (r : AppendedRow) : 0 < r.size := by
  unfold size Record.rowSize
  omega

theorem length_body_lt (r : AppendedRow) : r.body.length < r.size := by
  unfold size Record.rowSize
  omega

def dataBytes (rows : List AppendedRow) : Bytes := rows.flatMap bytes

def total : List AppendedRow → Nat
  | [] => 0
  | r :: rest => r.size + total rest

/-- The rows' keys with the offsets of the rows, the first of which is at `start`. -/
def placedFrom (start : Nat) : List AppendedRow → List (DecoratedKey × Nat)
  | [] => []
  | r :: rest => (r.key, start) :: placedFrom (start + r.size) rest

def entries (rows : List AppendedRow) : List (Bytes × Nat) :=
  (placedFrom 0 rows).map fun e => (e.1.key, e.2)

def indexBytes (rows : List AppendedRow) : Bytes :=
  (entries rows).flatMap fun e => Record.index e.1 e.2

theorem dataBytes_append (rows more : List AppendedRow) :
    dataBytes (rows ++ more) = dataBytes rows ++ dataBytes more := List.flatMap_append

theorem dataBytes_singleton (r : AppendedRow) : dataBytes [r] = r.bytes := List.flatMap_singleton _ _

theorem total_cons (r : AppendedRow) (rows : List AppendedRow) :
    total (r :: rows) = r.size + total rows := rfl

theorem total_append (rows more : List AppendedRow) :
    total (rows ++ more) = total rows + total more := by
  induction rows with
  | nil => exact (Nat.zero_add _).symm
  | cons r rest ih => rw [List.cons_append, total_cons, total_cons, ih, Nat.add_assoc]

theorem length_dataBytes (rows : List AppendedRow) : (dataBytes rows).length = total rows := by
  induction rows with
  | nil => rfl
  | cons r rest ih =>
      rw [total_cons, ← ih, dataBytes, List.flatMap_cons, List.length_append, length_bytes]
      rfl

theorem length_le_total (rows : List AppendedRow) : rows.length ≤ total rows := by
  induction rows with
  | nil => exact Nat.zero_le _
  | cons r rest ih =>
      have hpos := r.size_pos
      rw [List.length_cons, total_cons]
      omega

theorem placedFrom_append (start : Nat) (rows more : List AppendedRow) :
    placedFrom start (rows ++ more) = placedFrom start rows ++ placedFrom (start + total rows) more := by
  induction rows generalizing start with
  | nil => rfl
  | cons r rest ih =>
      rw [List.cons_append, placedFrom, placedFrom, ih, total_cons, Nat.add_assoc]
      rfl

theorem length_placedFrom (start : Nat) (rows : List AppendedRow) :
    (placedFrom start rows).length = rows.length := by
  induction rows generalizing start with
  | nil => rfl
  | cons r rest ih => rw [placedFrom, List.length_cons, List.length_cons, ih]

theorem getElem?_placedFrom (start : Nat) (rows : List AppendedRow) (i : Nat) :
    (placedFrom start rows)[i]? = rows[i]?.map fun r => (r.key, start + total (rows.take i)) := by
  induction rows generalizing start i with
  | nil => rfl
  | cons r rest ih =>
      cases i with
      | zero => rfl
      | succ i =>
          rw [placedFrom, List.getElem?_cons_succ, List.getElem?_cons_succ, ih, List.take_succ_cons,
            total_cons, Nat.add_assoc]

theorem length_entries (rows : List AppendedRow) : (entries rows).length = rows.length := by
  rw [entries, List.length_map, length_placedFrom]

theorem getElem?_entries (rows : List AppendedRow) (i : Nat) :
    (entries rows)[i]? = rows[i]?.map fun r => (r.key.key, total (rows.take i)) := by
  rw [entries, List.getElem?_map, getElem?_placedFrom, Option.map_map]
  congr 1
  funext r
  simp

theorem entries_append (rows : List AppendedRow) (r : AppendedRow) :
    entries (rows ++ [r]) = entries rows ++ [(r.key.key, total rows)] := by
  rw [entries, placedFrom_append, Nat.zero_add, List.map_append]
  rfl

theorem indexBytes_append (rows : List AppendedRow) (r : AppendedRow) :
    indexBytes (rows ++ [r]) = indexBytes rows ++ Record.index r.key.key (total rows) := by
  rw [indexBytes, entries_append, List.flatMap_append, List.flatMap_singleton]
  rfl

/-- A row that can be read back from a data file. -/
structure Fits (r : AppendedRow) : Prop where
  key : r.key.key.length ≤ Record.maxShort
  size : r.size < Disk.maxOffset

theorem Fits.body {r : AppendedRow} (h : r.Fits) : r.body.length < Disk.maxOffset :=
  Nat.lt_trans r.length_body_lt h.size

theorem fits_of_total_lt {rows : List AppendedRow}
    (hkeys : ∀ r ∈ rows, r.key.key.length ≤ Record.maxShort) (htotal : total rows < Disk.maxOffset) :
    ∀ r ∈ rows, r.Fits := by
  intro r hr
  obtain ⟨before, after, rfl⟩ := List.append_of_mem hr
  rw [total_append, total_cons] at htotal
  exact ⟨hkeys r hr, by omega⟩

theorem readable_entries {rows : List AppendedRow}
    (hkeys : ∀ r ∈ rows, r.key.key.length ≤ Record.maxShort) (htotal : total rows < Disk.maxOffset) :
    ∀ e ∈ entries rows, Record.Readable e := by
  intro e he
  obtain ⟨i, hi⟩ := List.getElem?_of_mem he
  rw [getElem?_entries, Option.map_eq_some_iff] at hi
  obtain ⟨r, hr, rfl⟩ := hi
  have hsplit : total rows = total (rows.take i) + total (rows.drop i) := by
    rw [← total_append, List.take_append_drop]
  exact ⟨hkeys r (List.mem_of_getElem? hr), by dsimp only; omega⟩

theorem readIndex_indexBytes {rows : List AppendedRow}
    (hkeys : ∀ r ∈ rows, r.key.key.length ≤ Record.maxShort) (htotal : total rows < Disk.maxOffset) :
    Record.readIndex (indexBytes rows) = (entries rows, none) :=
  Record.readIndex_indexing (readable_entries hkeys htotal)

/-- What a scanner reports of the rows, the first of which is at `start`. -/
def headersFrom (start : Nat) : List AppendedRow → List RowHeader
  | [] => []
  | r :: rest => ⟨r.key.key, start, r.body.length, r.size⟩ :: headersFrom (start + r.size) rest

def scannedFrom (start : Nat) (rows : List AppendedRow) : List (RowHeader × Bytes) :=
  (headersFrom start rows).zip (rows.map (·.body))

theorem length_headersFrom (start : Nat) (rows : List AppendedRow) :
    (headersFrom start rows).length = rows.length := by
  induction rows generalizing start with
  | nil => rfl
  | cons r rest ih => rw [headersFrom, List.length_cons, List.length_cons, ih]

theorem map_key_headersFrom (start : Nat) (rows : List AppendedRow) :
    (headersFrom start rows).map (·.key) = rows.map (·.key.key) := by
  induction rows generalizing start with
  | nil => rfl
  | cons r rest ih => rw [headersFrom, List.map_cons, List.map_cons, ih]

theorem map_sizeOnDisk_headersFrom (start : Nat) (rows : List AppendedRow) :
    (headersFrom start rows).map (·.sizeOnDisk) = rows.map size := by
  induction rows generalizing start with
  | nil => rfl
  | cons r rest ih => rw [headersFrom, List.map_cons, List.map_cons, ih]

/-- The index that the headers make is that of the rows. -/
theorem flatMap_index_headersFrom (start : Nat) (rows : List AppendedRow) :
    ((headersFrom start rows).flatMap fun header => Record.index header.key header.position) =
      ((placedFrom start rows).map fun e => (e.1.key, e.2)).flatMap fun e => Record.index e.1 e.2 := by
  induction rows generalizing start with
  | nil => rfl
  | cons r rest ih =>
      rw [headersFrom, placedFrom, List.map_cons, List.flatMap_cons, List.flatMap_cons, ih]

theorem map_key_scannedFrom (start : Nat) (rows : List AppendedRow) :
    (scannedFrom start rows).map (·.1.key) = rows.map (·.key.key) := by
  have hlength : (headersFrom start rows).length = (rows.map (·.body)).length := by
    rw [length_headersFrom, List.length_map]
  have hfst : (scannedFrom start rows).map (·.1) = headersFrom start rows :=
    List.map_fst_zip (Nat.le_of_eq hlength)
  rw [← map_key_headersFrom start rows, ← hfst, List.map_map]
  rfl

end AppendedRow

namespace Scanner

open AppendedRow

def after (position : Nat) (rest : Bytes) : Scanner :=
  ⟨.long, position + rest.length, position, rest⟩

theorem start_eq_after (input : Bytes) : start .long input = after 0 input := by
  rw [start, after, Nat.zero_add]

theorem framable_of_fits {r : AppendedRow} (h : r.Fits) : Record.Framable .long r.key.key r.body :=
  ⟨h.key, Record.fits_of_lt_maxOffset h.body⟩

theorem nextHeader_row {r : AppendedRow} (h : r.Fits) (position : Nat) (rest : Bytes) :
    (after position (r.bytes ++ rest)).nextHeader =
      (.ok (some ⟨r.key.key, position, r.body.length, r.size⟩), after (position + r.size) rest) :=
  nextHeader_framed (framable_of_fits h) position rest

theorem nextRow_row {r : AppendedRow} (h : r.Fits) (position : Nat) (rest : Bytes) :
    (after position (r.bytes ++ rest)).nextRow =
      (.ok (some (⟨r.key.key, position, r.body.length, r.size⟩, r.body)),
        after (position + r.size) rest) :=
  nextRow_framed (framable_of_fits h) position rest

/-- Whole rows are scanned one by one; what follows them decides how the scan ends. -/
theorem headers_dataBytes {rows : List AppendedRow} (h : ∀ r ∈ rows, r.Fits) (position : Nat)
    (tail : Bytes) :
    (after position (dataBytes rows ++ tail)).headers =
      (headersFrom position rows ++ (after (position + total rows) tail).headers.1,
        (after (position + total rows) tail).headers.2) := by
  induction rows generalizing position with
  | nil => rfl
  | cons r rest ih =>
      have hnext := nextHeader_row (h r List.mem_cons_self) position (dataBytes rest ++ tail)
      have hrest := ih (fun r' hr' => h r' (List.mem_cons_of_mem _ hr')) (position + r.size)
      rw [dataBytes, List.flatMap_cons, List.append_assoc]
      change (after position (r.bytes ++ (dataBytes rest ++ tail))).headers = _
      rw [headers_of_nextHeader hnext, hrest, total_cons, Nat.add_assoc]
      rfl

theorem rows_dataBytes {rows : List AppendedRow} (h : ∀ r ∈ rows, r.Fits) (position : Nat)
    (tail : Bytes) :
    (after position (dataBytes rows ++ tail)).rows =
      (scannedFrom position rows ++ (after (position + total rows) tail).rows.1,
        (after (position + total rows) tail).rows.2) := by
  induction rows generalizing position with
  | nil => rfl
  | cons r rest ih =>
      have hnext := nextRow_row (h r List.mem_cons_self) position (dataBytes rest ++ tail)
      have hrest := ih (fun r' hr' => h r' (List.mem_cons_of_mem _ hr')) (position + r.size)
      rw [dataBytes, List.flatMap_cons, List.append_assoc]
      change (after position (r.bytes ++ (dataBytes rest ++ tail))).rows = _
      rw [rows_of_nextRow hnext, hrest, total_cons, Nat.add_assoc]
      rfl

theorem headers_nil (position : Nat) : (after position []).headers = ([], none) :=
  headers_reading_nil .long position

theorem rows_nil (position : Nat) : (after position []).rows = ([], none) :=
  rows_reading_nil .long position

theorem headers_negative {tail key rest : Bytes} {size : Int}
    (hfront : Record.takeRowFront? .long tail = some (key, size, rest)) (hnegative : size < 0)
    (position : Nat) :
    (after position tail).headers = ([], some (.io (.decode (.rowSize size)))) := by
  have hpos := Record.length_lt_of_takeRowFront? hfront
  have hstart : position < position + tail.length := by omega
  exact headers_of_readHeader_error
    (readHeader_of_negative (s := after position tail) hstart hfront hnegative)

theorem rows_start {rows : List AppendedRow} (h : ∀ r ∈ rows, r.Fits) :
    (start .long (dataBytes rows)).rows = (scannedFrom 0 rows, none) := by
  have hall := rows_dataBytes h 0 []
  rw [List.append_nil, rows_nil, List.append_nil] at hall
  rw [start_eq_after, hall]

end Scanner

end SortedTable
