import SortedTable.Proofs.Rows

namespace SortedTable

/-- A row begins here, at most, and does not end. -/
def Unfinished (tail : Bytes) : Prop :=
  ∀ key size rest, Record.takeRowFront? .long tail = some (key, size, rest) → (rest.length : Int) < size

namespace Unfinished

variable {tail key rest : Bytes} {size : Int}

theorem of_cut (h : Record.takeRowFront? .long tail = none) : Unfinished tail := by
  intro key size rest hfront
  rw [h] at hfront
  simp at hfront

theorem nil : Unfinished [] := of_cut (Record.takeRowFront?_nil _)

theorem of_front (hfront : Record.takeRowFront? .long tail = some (key, size, rest))
    (hsize : (rest.length : Int) < size) : Unfinished tail := by
  intro key' size' rest' hfront'
  rw [hfront] at hfront'
  cases hfront'
  exact hsize

end Unfinished

namespace AppendedRow

variable {rows : List AppendedRow}

theorem dataBytes_cons (r : AppendedRow) (rows : List AppendedRow) :
    dataBytes (r :: rows) = r.bytes ++ dataBytes rows := List.flatMap_cons

theorem takeRowFront?_bytes {r : AppendedRow} (h : r.Fits) (rest : Bytes) :
    Record.takeRowFront? .long (r.bytes ++ rest) =
      some (r.key.key, (r.body.length : Int), r.body ++ rest) :=
  Record.takeRowFront?_row h.key h.body rest

/-- The front of a row is read from the part of it that is there as from the whole of it. -/
theorem eq_of_takeRowFront?_take {r : AppendedRow} (h : r.Fits) {n : Nat} {more key rest : Bytes} {size : Int}
    (hfront : Record.takeRowFront? .long ((r.bytes ++ more).take n) = some (key, size, rest)) :
    key = r.key.key ∧ size = r.body.length ∧ rest ++ (r.bytes ++ more).drop n = r.body ++ more := by
  have hwhole := Record.takeRowFront?_append hfront ((r.bytes ++ more).drop n)
  rw [List.take_append_drop, takeRowFront?_bytes h] at hwhole
  simp only [Option.some.injEq, Prod.mk.injEq] at hwhole
  obtain ⟨hkey, hsize, hrest⟩ := hwhole
  exact ⟨hkey.symm, hsize.symm, hrest.symm⟩

theorem unfinished_take {r : AppendedRow} (h : r.Fits) {n : Nat} (hn : n < r.size) :
    Unfinished (r.bytes.take n) := by
  intro key size rest hfront
  rw [← List.append_nil r.bytes] at hfront
  obtain ⟨-, rfl, hrest⟩ := eq_of_takeRowFront?_take h hfront
  rw [List.append_nil, List.append_nil] at hrest
  have hlength := congrArg List.length hrest
  rw [List.length_append, List.length_drop, length_bytes] at hlength
  omega

/-- The rows that lie wholly within the first bytes of a file. -/
def within (n : Nat) : List AppendedRow → List AppendedRow
  | [] => []
  | r :: rest => if r.size ≤ n then r :: within (n - r.size) rest else []

theorem within_cons_of_le {n : Nat} {r : AppendedRow} (h : r.size ≤ n) (rest : List AppendedRow) :
    within n (r :: rest) = r :: within (n - r.size) rest := if_pos h

theorem within_cons_of_lt {n : Nat} {r : AppendedRow} (h : n < r.size) (rest : List AppendedRow) :
    within n (r :: rest) = [] := if_neg (Nat.not_le_of_lt h)

/-- A row lies within a length if it ends there or before. -/
theorem getElem?_within (n : Nat) (rows : List AppendedRow) (i : Nat) :
    (within n rows)[i]? = if total (rows.take (i + 1)) ≤ n then rows[i]? else none := by
  induction rows generalizing n i with
  | nil => simp [within]
  | cons r rest ih =>
      rw [List.take_succ_cons, total_cons]
      by_cases hr : r.size ≤ n
      · rw [within_cons_of_le hr]
        cases i with
        | zero => simp [total, hr]
        | succ i =>
            have hiff : total (rest.take (i + 1)) ≤ n - r.size ↔ r.size + total (rest.take (i + 1)) ≤ n := by
              omega
            rw [List.getElem?_cons_succ, List.getElem?_cons_succ, ih]
            simp only [hiff]
      · have hlt := Nat.lt_of_not_le hr
        rw [within_cons_of_lt hlt, if_neg (by omega), List.getElem?_nil]

theorem within_isPrefix (n : Nat) (rows : List AppendedRow) : within n rows <+: rows := by
  induction rows generalizing n with
  | nil => exact List.prefix_refl _
  | cons r rest ih =>
      by_cases hr : r.size ≤ n
      · rw [within_cons_of_le hr, List.cons_prefix_cons]
        exact ⟨rfl, ih _⟩
      · rw [within_cons_of_lt (Nat.lt_of_not_le hr)]
        exact List.nil_prefix

theorem within_total_append (front rows : List AppendedRow) :
    within (total front) (front ++ rows) = front := by
  induction front with
  | nil =>
      cases rows with
      | nil => rfl
      | cons r rest => exact within_cons_of_lt r.size_pos rest
  | cons r rest ih =>
      rw [List.cons_append, total_cons, within_cons_of_le (Nat.le_add_right _ _), Nat.add_sub_cancel_left, ih]

theorem total_le_of_isPrefix {front : List AppendedRow} (h : front <+: rows) : total front ≤ total rows := by
  obtain ⟨rest, rfl⟩ := h
  rw [total_append]
  exact Nat.le_add_right _ _

/-- However a data file is cut, the rows within the cut are whole, and the rest is a row that does not end. -/
theorem take_dataBytes (h : ∀ r ∈ rows, r.Fits) (n : Nat) :
    ∃ tail, (dataBytes rows).take n = dataBytes (within n rows) ++ tail ∧ Unfinished tail := by
  induction rows generalizing n with
  | nil => exact ⟨[], List.take_nil, .nil⟩
  | cons r rest ih =>
      rw [dataBytes_cons]
      by_cases hr : r.size ≤ n
      · obtain ⟨tail, htake, htail⟩ := ih (fun r' hr' => h r' (List.mem_cons_of_mem _ hr')) (n - r.size)
        refine ⟨tail, ?_, htail⟩
        rw [within_cons_of_le hr, dataBytes_cons, List.append_assoc, ← htake, ← length_bytes,
          Bytes.take_append_of_length_le (by rwa [length_bytes])]
      · have hlt := Nat.lt_of_not_le hr
        refine ⟨r.bytes.take n, ?_, unfinished_take (h r List.mem_cons_self) hlt⟩
        rw [within_cons_of_lt hlt, List.take_append_of_le_length (by rw [length_bytes]; omega)]
        rfl

/-- The row of some key and body, under whatever token. -/
def plain (key body : Bytes) : AppendedRow := ⟨.byteOrdered key, body, none⟩

theorem bytes_plain_of_front {data key rest : Bytes} {size : Int}
    (hfront : Record.takeRowFront? .long data = some (key, size, rest)) (hsize : 0 ≤ size)
    (hrest : size ≤ rest.length) :
    data = (plain key (rest.take size.toNat)).bytes ++ rest.drop size.toNat := by
  obtain ⟨rfl, -⟩ := Record.takeRowFront?_eq_some_iff.mp hfront
  have hlength : ((rest.take size.toNat).length : Int) = size := by
    rw [List.length_take]
    omega
  rw [plain, bytes, Record.row, hlength, List.append_assoc _ (rest.take size.toNat), List.take_append_drop]
  rfl

/-- A row whose length is negative begins here. -/
def Negative (tail : Bytes) (size : Int) : Prop :=
  size < 0 ∧ ∃ key rest, Record.takeRowFront? .long tail = some (key, size, rest)

theorem exists_dataBytes {data : Bytes} (hlength : data.length < Disk.maxOffset) :
    ∃ rows tail, data = dataBytes rows ++ tail ∧ (∀ r ∈ rows, r.Fits) ∧
      (Unfinished tail ∨ ∃ size, Negative tail size) := by
  induction hn : data.length using Nat.strongRecOn generalizing data with
  | _ n ih =>
  rcases hfront : Record.takeRowFront? .long data with - | ⟨key, size, rest⟩
  · exact ⟨[], data, rfl, by simp, Or.inl (.of_cut hfront)⟩
  by_cases hnegative : size < 0
  · exact ⟨[], data, rfl, by simp, Or.inr ⟨size, hnegative, key, rest, hfront⟩⟩
  by_cases hrest : (rest.length : Int) < size
  · exact ⟨[], data, rfl, by simp, Or.inl (.of_front hfront hrest)⟩
  have hsplit := bytes_plain_of_front hfront (Int.not_lt.mp hnegative) (Int.not_lt.mp hrest)
  have hkey := (Record.takeRowFront?_eq_some_iff.mp hfront).2.1
  let r := plain key (rest.take size.toNat)
  have hsize : r.size + (rest.drop size.toNat).length = data.length := by
    have hlengths := congrArg List.length hsplit
    rw [List.length_append, length_bytes] at hlengths
    exact hlengths.symm
  have hpos := r.size_pos
  obtain ⟨rows, tail, hdrop, hfits, htail⟩ :=
    ih (rest.drop size.toNat).length (by omega) (by omega) rfl
  refine ⟨r :: rows, tail, ?_, ?_, htail⟩
  · rw [dataBytes_cons, List.append_assoc, ← hdrop]
    exact hsplit
  · intro r' hr'
    rcases List.mem_cons.mp hr' with rfl | hr'
    · exact ⟨hkey, by omega⟩
    · exact hfits r' hr'

end AppendedRow

namespace Scanner

open AppendedRow

theorem readHeader_unfinished {tail : Bytes} (hne : tail ≠ []) (h : Unfinished tail) (position : Nat) :
    ∃ t, (after position tail).readHeader = (.error (.truncatedRow position), t) := by
  obtain ⟨t, hread, -⟩ := readHeader_of_unfinished hne h position
  exact ⟨t, hread⟩

/-- How a scan ends that has come to an unfinished row at a position. -/
def failureAt (position : Nat) (tail : Bytes) : Option TableError :=
  if tail = [] then none else some (.truncatedRow position)

theorem headers_unfinished {tail : Bytes} (h : Unfinished tail) (position : Nat) :
    (after position tail).headers = ([], failureAt position tail) := by
  unfold failureAt
  by_cases hne : tail = []
  · rw [if_pos hne, hne, headers_nil]
  · obtain ⟨t, hread⟩ := readHeader_unfinished hne h position
    rw [if_neg hne, headers_of_readHeader_error hread]

theorem rows_unfinished {tail : Bytes} (h : Unfinished tail) (position : Nat) :
    (after position tail).rows = ([], failureAt position tail) := by
  unfold failureAt
  by_cases hne : tail = []
  · rw [if_pos hne, hne, rows_nil]
  · obtain ⟨t, hread⟩ := readHeader_unfinished hne h position
    rw [if_neg hne, rows_of_readHeader_error hread]

variable {rows : List AppendedRow} {tail : Bytes}

theorem headers_start_append (hfits : ∀ r ∈ rows, r.Fits) (h : Unfinished tail) :
    (start .long (dataBytes rows ++ tail)).headers = (headersFrom 0 rows, failureAt (total rows) tail) := by
  rw [start_eq_after, headers_dataBytes hfits, headers_unfinished h, List.append_nil, Nat.zero_add]

theorem rows_start_append (hfits : ∀ r ∈ rows, r.Fits) (h : Unfinished tail) :
    (start .long (dataBytes rows ++ tail)).rows = (scannedFrom 0 rows, failureAt (total rows) tail) := by
  rw [start_eq_after, rows_dataBytes hfits, rows_unfinished h, List.append_nil, Nat.zero_add]

end Scanner

end SortedTable
