import SortedTable.Proofs.Codec.Records
import SortedTable.Scanner

namespace SortedTable

namespace Record

variable {width : LengthWidth} {key body : Bytes}

/-- A row with a length field of this width. -/
def framed (width : LengthWidth) (key body : Bytes) : Bytes :=
  short key ++ BigEndian.encodeInt width.bytes body.length ++ body

/-- The length fields hold the lengths. -/
structure Framable (width : LengthWidth) (key body : Bytes) : Prop where
  key : key.length ≤ maxShort
  body : BigEndian.Fits width.bytes body.length

theorem length_framed (width : LengthWidth) (key body : Bytes) :
    (framed width key body).length = rowSize width key body.length := by
  simp only [framed, rowSize, List.length_append, length_short, BigEndian.length_encodeInt]

theorem rowSize_pos (width : LengthWidth) (key : Bytes) (bodyLength : Nat) : 0 < rowSize width key bodyLength := by
  unfold rowSize
  omega

theorem rowSize_zero_add (width : LengthWidth) (key : Bytes) (bodyLength : Nat) :
    rowSize width key 0 + bodyLength = rowSize width key bodyLength := rfl

theorem takeRowFront?_framed (h : Framable width key body) (rest : Bytes) :
    takeRowFront? width (framed width key body ++ rest) = some (key, (body.length : Int), body ++ rest) := by
  rw [framed, List.append_assoc]
  exact takeRowFront?_front width h.key h.body (body ++ rest)

end Record

namespace Scanner

section Calls

variable {s t : Scanner} {key rest : Bytes} {size : Int} {e : TableError}

theorem readHeader_of_front (hstart : s.position < s.length)
    (hfront : Record.takeRowFront? s.width s.rest = some (key, size, rest)) (hsize : 0 ≤ size)
    (hinside : s.position + Record.rowSize s.width key size.toNat ≤ s.length) :
    s.readHeader =
      (.ok (some ⟨key, s.position, size.toNat, Record.rowSize s.width key size.toNat⟩),
        { s with position := s.position + Record.rowSize s.width key 0, rest }) := by
  rw [readHeader, if_neg (Nat.not_le_of_lt hstart), hfront]
  dsimp only
  rw [if_neg (Int.not_lt.mpr hsize), if_neg (Nat.not_lt_of_le hinside)]

theorem readHeader_of_cut (hstart : s.position < s.length) (hcut : Record.takeRowFront? s.width s.rest = none) :
    s.readHeader = (.error (.truncatedRow s.position), { s with rest := [] }) := by
  rw [readHeader, if_neg (Nat.not_le_of_lt hstart), hcut]

theorem readHeader_of_negative (hstart : s.position < s.length)
    (hfront : Record.takeRowFront? s.width s.rest = some (key, size, rest)) (hsize : size < 0) :
    s.readHeader = (.error (.io (.decode (.rowSize size))), { s with rest }) := by
  rw [readHeader, if_neg (Nat.not_le_of_lt hstart), hfront]
  dsimp only
  rw [if_pos hsize]

theorem readHeader_of_outside (hstart : s.position < s.length)
    (hfront : Record.takeRowFront? s.width s.rest = some (key, size, rest)) (hsize : 0 ≤ size)
    (houtside : s.length < s.position + Record.rowSize s.width key size.toNat) :
    s.readHeader = (.error (.truncatedRow s.position), { s with rest }) := by
  rw [readHeader, if_neg (Nat.not_le_of_lt hstart), hfront]
  dsimp only
  rw [if_neg (Int.not_lt.mpr hsize), if_pos houtside]

theorem headers_of_nextHeader {header : RowHeader} (h : s.nextHeader = (.ok (some header), t)) :
    s.headers = (header :: t.headers.1, t.headers.2) := by
  rw [headers]
  split
  · simp_all
  · simp_all
  · rename_i heq
    rw [h] at heq
    cases heq
    rfl

theorem rows_of_nextRow {row : RowHeader × Bytes} (h : s.nextRow = (.ok (some row), t)) :
    s.rows = (row :: t.rows.1, t.rows.2) := by
  rw [rows]
  split
  · simp_all
  · simp_all
  · rename_i heq
    rw [h] at heq
    cases heq
    rfl

theorem nextHeader_of_readHeader_error (h : s.readHeader = (.error e, t)) : s.nextHeader = (.error e, t) := by
  rw [nextHeader, h]

theorem headers_of_readHeader_error (h : s.readHeader = (.error e, t)) : s.headers = ([], some e) := by
  have hnext := nextHeader_of_readHeader_error h
  rw [headers]
  split
  · simp_all
  · simp_all
  · simp_all

theorem nextRow_of_readHeader_error (h : s.readHeader = (.error e, t)) : s.nextRow = (.error e, t) := by
  rw [nextRow, h]

theorem rows_of_nextRow_error (h : s.nextRow = (.error e, t)) : s.rows = ([], some e) := by
  rw [rows]
  split
  · simp_all
  · simp_all
  · simp_all

theorem rows_of_readHeader_error (h : s.readHeader = (.error e, t)) : s.rows = ([], some e) :=
  rows_of_nextRow_error (nextRow_of_readHeader_error h)

end Calls

/-- A scanner with so much before it and the rest behind it. -/
def reading (width : LengthWidth) (position : Nat) (rest : Bytes) : Scanner :=
  ⟨width, position + rest.length, position, rest⟩

section Reading

variable {width : LengthWidth} {key body : Bytes}

theorem start_eq_reading (width : LengthWidth) (input : Bytes) : start width input = reading width 0 input := by
  rw [start, reading, Nat.zero_add]

theorem position_lt_reading {rest : Bytes} (hne : rest ≠ []) (width : LengthWidth) (position : Nat) :
    (reading width position rest).position < (reading width position rest).length :=
  Nat.lt_add_of_pos_right (List.length_pos_iff.mpr hne)

theorem reading_framed (width : LengthWidth) (position : Nat) (key body rest : Bytes) :
    reading width (position + Record.rowSize width key body.length) rest =
      { reading width position (Record.framed width key body ++ rest) with
        position := position + Record.rowSize width key body.length, rest } := by
  rw [reading, reading, List.length_append, Record.length_framed, Nat.add_assoc]

theorem readHeader_framed (h : Record.Framable width key body) (position : Nat) (rest : Bytes) :
    (reading width position (Record.framed width key body ++ rest)).readHeader =
      (.ok (some ⟨key, position, body.length, Record.rowSize width key body.length⟩),
        { reading width position (Record.framed width key body ++ rest) with
          position := position + Record.rowSize width key 0, rest := body ++ rest }) := by
  have hsize : (Record.framed width key body ++ rest).length = Record.rowSize width key body.length + rest.length := by
    rw [List.length_append, Record.length_framed]
  have hpos := Record.rowSize_pos width key body.length
  have hstart : position < position + (Record.framed width key body ++ rest).length := by omega
  have hinside : position + Record.rowSize width key body.length ≤
      position + (Record.framed width key body ++ rest).length := by omega
  exact readHeader_of_front (s := reading width position (Record.framed width key body ++ rest)) hstart
    (Record.takeRowFront?_framed h rest) (Int.natCast_nonneg _) hinside

theorem nextHeader_framed (h : Record.Framable width key body) (position : Nat) (rest : Bytes) :
    (reading width position (Record.framed width key body ++ rest)).nextHeader =
      (.ok (some ⟨key, position, body.length, Record.rowSize width key body.length⟩),
        reading width (position + Record.rowSize width key body.length) rest) := by
  rw [nextHeader, readHeader_framed h]
  dsimp only
  rw [List.drop_left, reading_framed, Nat.add_assoc, Record.rowSize_zero_add]

theorem nextRow_framed (h : Record.Framable width key body) (position : Nat) (rest : Bytes) :
    (reading width position (Record.framed width key body ++ rest)).nextRow =
      (.ok (some (⟨key, position, body.length, Record.rowSize width key body.length⟩, body)),
        reading width (position + Record.rowSize width key body.length) rest) := by
  rw [nextRow, readHeader_framed h]
  dsimp only
  rw [Bytes.split?_append]
  dsimp only
  rw [reading_framed, Nat.add_assoc, Record.rowSize_zero_add]

/-- A row that is announced to be longer than what there is has been cut off, as one whose front is not whole. -/
theorem readHeader_of_unfinished {rest : Bytes} (hne : rest ≠ [])
    (h : ∀ key size tail, Record.takeRowFront? width rest = some (key, size, tail) → (tail.length : Int) < size)
    (position : Nat) :
    ∃ t, (reading width position rest).readHeader = (.error (.truncatedRow position), t) ∧ t.position = position := by
  have hstart := position_lt_reading hne width position
  rcases hfront : Record.takeRowFront? width rest with - | ⟨key, size, tail⟩
  · exact ⟨_, readHeader_of_cut hstart hfront, rfl⟩
  · have hsize := h key size tail hfront
    have hnonneg : 0 ≤ size := by omega
    obtain ⟨rfl, -⟩ := Record.takeRowFront?_eq_some_iff.mp hfront
    have houtside : position + (Record.short key ++ BigEndian.encodeInt width.bytes size ++ tail).length <
        position + Record.rowSize width key size.toNat := by
      rw [List.length_append, Record.length_front, ← Record.rowSize_zero_add width key size.toNat]
      omega
    exact ⟨_, readHeader_of_outside hstart hfront hnonneg houtside, rfl⟩

theorem readHeader_reading_nil (width : LengthWidth) (position : Nat) :
    (reading width position []).readHeader = (.ok none, reading width position []) := by
  rw [readHeader]
  exact if_pos (Nat.le_refl _)

theorem nextRow_reading_nil (width : LengthWidth) (position : Nat) :
    (reading width position []).nextRow = (.ok none, reading width position []) := by
  rw [nextRow, readHeader_reading_nil]

theorem nextHeader_reading_nil (width : LengthWidth) (position : Nat) :
    (reading width position []).nextHeader = (.ok none, reading width position []) := by
  rw [nextHeader, readHeader_reading_nil]

theorem headers_reading_nil (width : LengthWidth) (position : Nat) :
    (reading width position []).headers = ([], none) := by
  have hnext := nextHeader_reading_nil width position
  rw [headers]
  split
  · rfl
  · simp_all
  · simp_all

theorem rows_reading_nil (width : LengthWidth) (position : Nat) : (reading width position []).rows = ([], none) := by
  have hnext := nextRow_reading_nil width position
  rw [rows]
  split
  · rfl
  · simp_all
  · simp_all

end Reading

end Scanner

end SortedTable
