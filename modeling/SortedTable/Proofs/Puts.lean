import SortedTable.Proofs.Codec.Columns
import SortedTable.Proofs.Publishing
import SortedTable.Store

namespace SortedTable

open AppendedRow

/-- A value that is stored under a key. -/
structure Put where
  key : Bytes
  value : Bytes
  timestamp : Int64

namespace Put

def pair (put : Put) : Bytes × Bytes := (put.key, put.value)

def content (put : Put) : Row := Row.empty.add Store.valueColumn put.value put.timestamp

def call (p : Partitioner) (put : Put) : Writer.Call := .encoded (p.decorate put.key) put.content.encode

def row (p : Partitioner) (put : Put) : AppendedRow := (put.call p).row

variable {p : Partitioner} {put : Put}

theorem entries_content (put : Put) :
    put.content.columns.entries = [(Store.valueColumn, ⟨put.value, put.timestamp⟩)] := rfl

theorem get?_content (put : Put) : put.content.get? Store.valueColumn = some ⟨put.value, put.timestamp⟩ := by
  rw [Row.get?, SortedMap.get?, entries_content, SortedMap.lookup, if_pos rfl]

/-- The pieces of a row before its only value: the deletion times, the number of columns, the name and the time. -/
def front (put : Put) : List Bytes :=
  [BigEndian.encodeInt 4 put.content.localDeletion.toInt, BigEndian.encodeInt 8 put.content.markedForDelete.toInt,
    BigEndian.encodeInt 4 1] ++ Record.shortPieces Store.valueColumn ++ [BigEndian.encodeInt 8 put.timestamp.toInt]

theorem encode_content (put : Put) : put.content.encode = if Row.maxInt32 < put.value.length
    then ⟨put.front, .error .valueTooLarge⟩
    else ⟨put.front ++ [BigEndian.encodeInt 4 put.value.length, put.value], .ok 1⟩ := by
  have hname : ¬ Record.maxShort < Store.valueColumn.length := by decide
  have hsize : ¬ Row.maxInt32 < put.content.size := by
    change ¬ Row.maxInt32 < 1
    decide
  rw [Row.encode, if_neg hsize, entries_content]
  by_cases hlong : Row.maxInt32 < put.value.length
  · simp only [Row.encodeColumns, Row.encodeColumn, hname, if_false, hlong, if_true]
    rfl
  · simp only [Row.encodeColumns, Row.encodeColumn, hname, if_false, hlong]
    rfl

theorem outcome_content (h : put.value.length ≤ Row.maxInt32) : put.content.encode.outcome = .ok 1 := by
  rw [encode_content, if_neg (Nat.not_lt.mpr h)]

theorem length_le_of_outcome {n : Nat} (h : put.content.encode.outcome = .ok n) :
    put.value.length ≤ Row.maxInt32 := by
  refine Nat.le_of_not_lt fun hlong => ?_
  rw [encode_content, if_pos hlong] at h
  cases h

theorem length_front (put : Put) : put.front.flatten.length = 31 := by
  have hname : Store.valueColumn.length = 5 := by decide
  simp [front, Record.shortPieces, hname]

theorem length_written_content (h : put.value.length ≤ Row.maxInt32) :
    put.content.encode.written.length = 35 + put.value.length := by
  rw [encode_content, if_neg (Nat.not_lt.mpr h), Encoding.written, List.flatten_append, List.length_append,
    length_front]
  simp
  omega

@[simp]
theorem key_row (p : Partitioner) (put : Put) : (put.row p).key.key = put.key := p.key_decorate put.key

/-- A put that a table takes is a row that can be read back, however many there are. -/
theorem fits_row (hkey : put.key.length ≤ Record.maxShort) (h : put.value.length ≤ Row.maxInt32) :
    (put.row p).Fits := by
  have hbody : (put.row p).body.length = 35 + put.value.length := length_written_content h
  have hbounds : 2 + Record.maxShort + LengthWidth.long.bytes + (35 + Row.maxInt32) < Disk.maxOffset := by decide
  refine ⟨by rwa [key_row], ?_⟩
  rw [AppendedRow.size, Record.rowSize, key_row, hbody]
  omega

theorem valueOf_row (h : put.value.length ≤ Row.maxInt32) (header : RowHeader) (hkey : header.key = put.key) :
    Store.valueOf (header, (put.row p).body) = .ok put.pair := by
  have hdecode : Row.decode (put.row p).body = .ok (put.content, []) := by
    have hround := Row.decode_encode (outcome_content h) []
    rwa [List.append_nil] at hround
  rw [Store.valueOf]
  dsimp only
  rw [hdecode, hkey]
  dsimp only
  rw [get?_content]
  rfl

end Put

theorem mapM_valueOf_scannedFrom {p : Partitioner} {puts : List Put}
    (h : ∀ put ∈ puts, put.value.length ≤ Row.maxInt32) (start : Nat) :
    (scannedFrom start (puts.map (Put.row p))).mapM Store.valueOf = .ok (puts.map Put.pair) := by
  induction puts generalizing start with
  | nil => rfl
  | cons put rest ih =>
      have hrest := ih (fun put' h' => h put' (List.mem_cons_of_mem _ h')) (start + (put.row p).size)
      have hfirst := Put.valueOf_row (p := p) (h put List.mem_cons_self)
        ⟨(put.row p).key.key, start, (put.row p).body.length, (put.row p).size⟩ (Put.key_row p put)
      rw [List.map_cons, List.map_cons, scannedFrom, headersFrom, List.map_cons, List.zip_cons_cons,
        List.mapM_cons, hfirst]
      change (do
        let others ← (scannedFrom (start + (put.row p).size) (rest.map (Put.row p))).mapM Store.valueOf
        pure (put.pair :: others) : Except StoreError (List (Bytes × Bytes))) = _
      rw [hrest]
      rfl

/-- A scan decodes the rows that the scanner finds, and fails where the scanner does. -/
theorem Store.on_scan {s : Store} {generation : Nat} {r : Reader} {v : Volume} {scanner : Scanner}
    (htable : s.tables.get? generation = some r) (hscanner : r.scanner.on v = (.ok scanner, v)) :
    (s.scan generation).on v =
      (scanner.rows.1.mapM valueOf >>= fun values =>
        scanner.rows.2.elim (.ok values) fun e => .error (.table e), v) := by
  have hmapped : (r.scanner.mapError StoreError.table).on v = (.ok scanner, v) :=
    Action.on_mapError_eq_ok_iff.mpr hscanner
  rw [scan, table?, htable]
  dsimp only
  rw [Action.on_bind_ok hmapped]
  rcases scanner.rows with ⟨rows, failure⟩
  dsimp only
  rcases rows.mapM valueOf with e | values
  · rfl
  · cases failure <;> rfl

/-- A table of puts is scanned as their keys and values. -/
theorem Store.on_scan_of_puts {s : Store} {generation : Nat} {r : Reader} {v : Volume} {p : Partitioner}
    {puts : List Put} (htable : s.tables.get? generation = some r)
    (hscanner : r.scanner.on v = (.ok (Scanner.start .long (dataBytes (puts.map (Put.row p)))), v))
    (hfits : ∀ row ∈ puts.map (Put.row p), row.Fits) (hvalues : ∀ put ∈ puts, put.value.length ≤ Row.maxInt32) :
    (s.scan generation).on v = (.ok (puts.map Put.pair), v) := by
  rw [on_scan htable hscanner, Scanner.rows_start hfits]
  dsimp only
  rw [mapM_valueOf_scannedFrom hvalues]
  rfl

end SortedTable
