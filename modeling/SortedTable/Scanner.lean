import SortedTable.Record

/-!
# Scanning data files

A scanner reads the rows of a data file one after the other. Its position is the offset of the next
row; the input behind it may be further on after a call that failed, because what was read stays read.
-/

namespace SortedTable

structure RowHeader where
  key : Bytes
  position : Nat
  bodyLength : Nat
  sizeOnDisk : Nat
deriving DecidableEq, Inhabited, Repr

structure Scanner where
  width : LengthWidth
  length : Nat
  position : Nat
  rest : Bytes
deriving DecidableEq, Inhabited, Repr

namespace Scanner

def start (width : LengthWidth) (input : Bytes) : Scanner :=
  ⟨width, input.length, 0, input⟩

/-- Reads the front of the next row. A row that the input ends inside of is cut off. -/
def readHeader (s : Scanner) : Except TableError (Option RowHeader) × Scanner :=
  if s.length ≤ s.position then (.ok none, s)
  else
    match Record.takeRowFront? s.width s.rest with
    | none => (.error (.truncatedRow s.position), { s with rest := [] })
    | some (key, size, rest) =>
        if size < 0 then (.error (.io (.decode (.rowSize size))), { s with rest })
        else
          let sizeOnDisk := Record.rowSize s.width key size.toNat
          if s.length < s.position + sizeOnDisk then
            (.error (.truncatedRow s.position), { s with rest })
          else
            (.ok (some ⟨key, s.position, size.toNat, sizeOnDisk⟩),
              { s with position := s.position + Record.rowSize s.width key 0, rest })

/-- The next row's header; the body is skipped. -/
def nextHeader (s : Scanner) : Except TableError (Option RowHeader) × Scanner :=
  match s.readHeader with
  | (.ok (some header), s) =>
      (.ok (some header),
        { s with position := s.position + header.bodyLength, rest := s.rest.drop header.bodyLength })
  | (result, s) => (result, s)

def nextRow (s : Scanner) : Except TableError (Option (RowHeader × Bytes)) × Scanner :=
  match s.readHeader with
  | (.ok (some header), s) =>
      match s.rest.split? header.bodyLength with
      | none => (.error (.io (.decode .endOfInput)), { s with rest := [] })
      | some (body, rest) =>
          (.ok (some (header, body)), { s with position := s.position + header.bodyLength, rest })
  | (.ok none, s) => (.ok none, s)
  | (.error e, s) => (.error e, s)

/-- The next row as an item of an iteration, where a failed call is an item too. -/
def next (s : Scanner) : Option (Except TableError (RowHeader × Bytes)) × Scanner :=
  match s.nextRow with
  | (.ok none, s) => (none, s)
  | (.ok (some row), s) => (some (.ok row), s)
  | (.error e, s) => (some (.error e), s)

theorem length_rest_lt_of_readHeader {s t : Scanner} {header : RowHeader}
    (h : s.readHeader = (.ok (some header), t)) : t.rest.length < s.rest.length := by
  simp only [readHeader] at h
  split at h
  · simp at h
  · split at h
    · simp at h
    · rename_i hfront
      have hlt := Record.length_lt_of_takeRowFront? hfront
      split at h
      · simp at h
      · split at h
        · simp at h
        · simp only [Prod.mk.injEq, Except.ok.injEq, Option.some.injEq] at h
          obtain ⟨-, rfl⟩ := h
          exact hlt

theorem length_rest_lt_of_nextHeader {s t : Scanner} {header : RowHeader}
    (h : s.nextHeader = (.ok (some header), t)) : t.rest.length < s.rest.length := by
  simp only [nextHeader] at h
  split at h
  · rename_i hread
    have hlt := length_rest_lt_of_readHeader hread
    simp only [Prod.mk.injEq, Except.ok.injEq, Option.some.injEq] at h
    obtain ⟨-, rfl⟩ := h
    simp only [List.length_drop]
    omega
  · rename_i hnot _
    exact (hnot _ (Prod.mk.inj h).1).elim

theorem length_rest_lt_of_nextRow {s t : Scanner} {row : RowHeader × Bytes}
    (h : s.nextRow = (.ok (some row), t)) : t.rest.length < s.rest.length := by
  simp only [nextRow] at h
  split at h
  · rename_i hread
    have hlt := length_rest_lt_of_readHeader hread
    split at h
    · simp at h
    · rename_i hsplit
      obtain ⟨happend, -⟩ := Bytes.split?_eq_some_iff.mp hsplit
      have hlen := congrArg List.length happend
      simp only [Prod.mk.injEq, Except.ok.injEq, Option.some.injEq] at h
      obtain ⟨-, rfl⟩ := h
      simp only [List.length_append] at hlen
      dsimp only
      omega
  · simp at h
  · simp at h

/-- The headers up to the end of the input, or to the first call that fails. -/
def headers (s : Scanner) : List RowHeader × Option TableError :=
  match h : s.nextHeader with
  | (.ok none, _) => ([], none)
  | (.error e, _) => ([], some e)
  | (.ok (some header), t) =>
      have := length_rest_lt_of_nextHeader h
      let (others, failure) := t.headers
      (header :: others, failure)
termination_by s.rest.length

def rows (s : Scanner) : List (RowHeader × Bytes) × Option TableError :=
  match h : s.nextRow with
  | (.ok none, _) => ([], none)
  | (.error e, _) => ([], some e)
  | (.ok (some row), t) =>
      have := length_rest_lt_of_nextRow h
      let (others, failure) := t.rows
      (row :: others, failure)
termination_by s.rest.length

end Scanner

end SortedTable
