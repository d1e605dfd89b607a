import Mathlib.Logic.Function.Iterate
import SortedTable.Descriptor
import SortedTable.Proofs.Framing

namespace SortedTable

namespace Record

variable {width : LengthWidth} {rest part key body tail : Bytes} {size : Int} {n : Nat}

/-- A row begins here and ends too early: in the length of its key, its key, its length field or its body. -/
inductive Cut (width : LengthWidth) : Bytes → Prop where
  | keyLength {part : Bytes} (hne : part ≠ []) (hpart : part.length < 2) : Cut width part
  | key {part : Bytes} {length : Nat} (hlength : length ≤ maxShort) (hpart : part.length < length) :
      Cut width (BigEndian.encode 2 length ++ part)
  | length {part key : Bytes} (hkey : key.length ≤ maxShort) (hpart : part.length < width.bytes) :
      Cut width (short key ++ part)
  | body {part key : Bytes} {length : Nat} (hkey : key.length ≤ maxShort) (hlength : BigEndian.Fits width.bytes length)
      (hpart : part.length < length) : Cut width (short key ++ BigEndian.encodeInt width.bytes length ++ part)

/-- A row begins here with a whole length field, which is negative. -/
structure Negative (width : LengthWidth) (size : Int) (rest : Bytes) : Prop where
  negative : size < 0
  fits : BigEndian.Fits width.bytes size
  front : ∃ key tail, key.length ≤ maxShort ∧ rest = short key ++ BigEndian.encodeInt width.bytes size ++ tail

theorem encode_length_inj {n' : Nat} (hn : n ≤ maxShort) (hn' : n' ≤ maxShort)
    (h : BigEndian.encode 2 n = BigEndian.encode 2 n') : n = n' := by
  rw [← BigEndian.decode_encode_of_lt (lt_range_of_le_maxShort hn), h,
    BigEndian.decode_encode_of_lt (lt_range_of_le_maxShort hn')]

theorem short_append_inj {key' tail' : Bytes} (hkey : key.length ≤ maxShort) (hkey' : key'.length ≤ maxShort)
    (h : short key ++ tail = short key' ++ tail') : key = key' ∧ tail = tail' := by
  have hread := takeShort?_short hkey tail
  rw [h, takeShort?_short hkey' tail'] at hread
  exact Prod.mk.inj (Option.some.inj hread.symm)

theorem Cut.ne_nil (h : Cut width rest) : rest ≠ [] := by
  have hlength : ∀ n part, BigEndian.encode 2 n ++ part ≠ [] := by
    intro n part hnil
    have hzero := congrArg List.length hnil
    rw [List.length_append, BigEndian.length_encode, List.length_nil] at hzero
    omega
  rcases h with ⟨hne, -⟩ | - | - | -
  · exact hne
  · exact hlength _ _
  · rw [short, List.append_assoc]
    exact hlength _ _
  · rw [short, List.append_assoc, List.append_assoc]
    exact hlength _ _

/-- A row that was cut has no whole front, or announces more than there is. -/
theorem Cut.lt_of_front (h : Cut width rest) (hfront : takeRowFront? width rest = some (key, size, tail)) :
    (tail.length : Int) < size := by
  obtain ⟨hrest, hkey, -⟩ := takeRowFront?_eq_some_iff.mp hfront
  rcases h with ⟨-, hpart⟩ | ⟨hlength, hpart⟩ | ⟨hkey', hpart⟩ | ⟨hkey', hlength, hpart⟩
  · rw [hrest, List.length_append, List.length_append, length_short] at hpart
    omega
  · rw [short, List.append_assoc, List.append_assoc] at hrest
    obtain ⟨hdigits, rfl⟩ := List.append_inj hrest (by rw [BigEndian.length_encode, BigEndian.length_encode])
    have hsame := encode_length_inj hlength hkey hdigits
    rw [List.length_append] at hpart
    omega
  · rw [List.append_assoc] at hrest
    obtain ⟨-, rfl⟩ := short_append_inj hkey' hkey hrest
    rw [List.length_append, BigEndian.length_encodeInt] at hpart
    omega
  · rw [takeRowFront?_front width hkey' hlength] at hfront
    cases hfront
    exact_mod_cast hpart

theorem Negative.exists_front (h : Negative width size rest) :
    ∃ key tail, takeRowFront? width rest = some (key, size, tail) := by
  obtain ⟨key, tail, hkey, rfl⟩ := h.front
  exact ⟨key, tail, takeRowFront?_front width hkey h.fits tail⟩

/-- A key begins here, or the beginning of one. -/
theorem exists_short (h : 2 ≤ rest.length) :
    (∃ length part, length ≤ maxShort ∧ part.length < length ∧ rest = BigEndian.encode 2 length ++ part) ∨
      ∃ key part, key.length ≤ maxShort ∧ rest = short key ++ part := by
  obtain ⟨length, part, hlength, rfl⟩ := BigEndian.exists_encode h
  have hle : length ≤ maxShort := Nat.le_of_lt_succ hlength
  by_cases hpart : part.length < length
  · exact .inl ⟨length, part, hle, hpart, rfl⟩
  · have hkey : (part.take length).length = length := List.length_take_of_le (Nat.le_of_not_lt hpart)
    refine .inr ⟨part.take length, part.drop length, hkey.symm ▸ hle, ?_⟩
    rw [short, hkey, List.append_assoc, List.take_append_drop]

/-- Whatever bytes there are, one of four things begins with them. -/
theorem classify (width : LengthWidth) (rest : Bytes) :
    rest = [] ∨ Cut width rest ∨ (∃ size, Negative width size rest) ∨
      ∃ key body tail, Framable width key body ∧ rest = framed width key body ++ tail := by
  by_cases hshort : rest.length < 2
  · by_cases hnil : rest = []
    · exact .inl hnil
    · exact .inr (.inl (.keyLength hnil hshort))
  rcases exists_short (Nat.le_of_not_lt hshort) with ⟨length, part, hlength, hpart, rfl⟩ | ⟨key, part, hkey, rfl⟩
  · exact .inr (.inl (.key hlength hpart))
  by_cases hfield : part.length < width.bytes
  · exact .inr (.inl (.length hkey hfield))
  obtain ⟨size, tail, hfits, rfl⟩ := BigEndian.exists_encodeInt (Nat.le_of_not_lt hfield)
  rw [← List.append_assoc]
  by_cases hnegative : size < 0
  · exact .inr (.inr (.inl ⟨size, hnegative, hfits, key, tail, hkey, rfl⟩))
  obtain ⟨length, rfl⟩ := Int.eq_ofNat_of_zero_le (Int.not_lt.mp hnegative)
  by_cases hbody : tail.length < length
  · exact .inr (.inl (.body hkey hfits hbody))
  · have hwhole : (tail.take length).length = length := List.length_take_of_le (Nat.le_of_not_lt hbody)
    refine .inr (.inr (.inr ⟨key, tail.take length, tail.drop length, ⟨hkey, by rw [hwhole]; exact hfits⟩, ?_⟩))
    rw [framed, hwhole, List.append_assoc _ (tail.take length), List.take_append_drop]

theorem cut_take (h : Framable width key body) (hsome : 0 < n) (hn : n < rowSize width key body.length) :
    Cut width ((framed width key body).take n) := by
  have hlength : ((framed width key body).take n).length = n :=
    List.length_take_of_le (by rw [length_framed]; exact Nat.le_of_lt hn)
  have hwhole : takeRowFront? width (framed width key body) = some (key, (body.length : Int), body) := by
    have hfront := takeRowFront?_framed h []
    rwa [List.append_nil, List.append_nil] at hfront
  -- The front of the part is the front of the row, which announces a whole body.
  have hfront : ∀ {key' size tail}, takeRowFront? width ((framed width key body).take n) = some (key', size, tail) →
      key' = key ∧ size = body.length := by
    intro key' size tail hread
    have hmore := takeRowFront?_append hread ((framed width key body).drop n)
    rw [List.take_append_drop, hwhole, Option.some.injEq, Prod.mk.injEq, Prod.mk.injEq] at hmore
    exact ⟨hmore.1.symm, hmore.2.1.symm⟩
  rcases classify width ((framed width key body).take n) with
    hnil | hcut | ⟨size, hnegative⟩ | ⟨key', body', tail, h', hrow⟩
  · rw [hnil, List.length_nil] at hlength
    omega
  · exact hcut
  · obtain ⟨key', tail, hread⟩ := hnegative.exists_front
    have hsize := (hfront hread).2
    have hlt := hnegative.negative
    omega
  · obtain ⟨rfl, hsame⟩ := hfront (hrow ▸ takeRowFront?_framed h' tail)
    have hsame : body'.length = body.length := by exact_mod_cast hsame
    rw [hrow, List.length_append, length_framed, hsame] at hlength
    omega

/-- The bytes of rows, each a key and a body, one behind the other. -/
def framing (width : LengthWidth) (rows : List (Bytes × Bytes)) : Bytes :=
  rows.flatMap fun row => framed width row.1 row.2

theorem framing_cons (width : LengthWidth) (row : Bytes × Bytes) (rows : List (Bytes × Bytes)) :
    framing width (row :: rows) = framed width row.1 row.2 ++ framing width rows := List.flatMap_cons

theorem length_framing_cons (width : LengthWidth) (row : Bytes × Bytes) (rows : List (Bytes × Bytes)) :
    (framing width (row :: rows)).length = rowSize width row.1 row.2.length + (framing width rows).length := by
  rw [framing_cons, List.length_append, length_framed]

theorem take_framing_of_le {valid : List (Bytes × Bytes)} (hn : rowSize width key body.length ≤ n) :
    (framing width ((key, body) :: valid)).take n =
      framed width key body ++ (framing width valid).take (n - rowSize width key body.length) := by
  rw [← length_framed width key body] at hn ⊢
  rw [framing_cons, Bytes.take_append_of_length_le hn]

theorem take_framing_of_lt {valid : List (Bytes × Bytes)} (hn : n < rowSize width key body.length) :
    (framing width ((key, body) :: valid)).take n = (framed width key body).take n := by
  rw [framing_cons, List.take_append_of_le_length]
  rw [length_framed]
  exact Nat.le_of_lt hn

end Record

namespace Scanner

variable {width : LengthWidth} {position : Nat} {input rest key body tail : Bytes}
  {failure failure' : Option TableError}

/-- The key and the body of a row that was scanned. -/
def contents (row : RowHeader × Bytes) : Bytes × Bytes := (row.1.key, row.2)

def sizes : List (RowHeader × Bytes) → Nat
  | [] => 0
  | row :: rest => row.1.sizeOnDisk + sizes rest

theorem sizes_cons (row : RowHeader × Bytes) (rows : List (RowHeader × Bytes)) :
    sizes (row :: rows) = row.1.sizeOnDisk + sizes rows := rfl

/-- What a scanner says at a place from which on there is no whole row. -/
inductive Ending (width : LengthWidth) (position : Nat) : Bytes → Option TableError → Prop where
  | whole : Ending width position [] none
  | cut {rest : Bytes} (h : Record.Cut width rest) : Ending width position rest (some (.truncatedRow position))
  | negative {rest : Bytes} {size : Int} (h : Record.Negative width size rest) :
      Ending width position rest (some (.io (.decode (.rowSize size))))

theorem Ending.of_take {n : Nat} (hrow : Record.Framable width key body)
    (hn : n < Record.rowSize width key body.length) (position : Nat) :
    Ending width position ((Record.framed width key body).take n)
      (if n = 0 then none else some (.truncatedRow position)) := by
  split
  · rename_i hzero
    rw [hzero]
    exact .whole
  · rename_i hsome
    exact .cut (Record.cut_take hrow (Nat.pos_of_ne_zero hsome) hn)

theorem Ending.readHeader (h : Ending width position rest failure) :
    ∃ t, (reading width position rest).readHeader = (failure.elim (.ok none) .error, t) ∧ t.position = position := by
  rcases h with - | hcut | hnegative
  · exact ⟨_, readHeader_reading_nil width position, rfl⟩
  · exact readHeader_of_unfinished hcut.ne_nil (fun _ _ _ hfront => hcut.lt_of_front hfront) position
  · obtain ⟨key, tail, hfront⟩ := hnegative.exists_front
    have hne : rest ≠ [] := by
      rintro rfl
      rw [Record.takeRowFront?_nil] at hfront
      cases hfront
    exact ⟨_, readHeader_of_negative (position_lt_reading hne width position) hfront hnegative.negative, rfl⟩

theorem Ending.nextRow (h : Ending width position rest failure) :
    ∃ t, (reading width position rest).nextRow = (failure.elim (.ok none) .error, t) ∧ t.position = position := by
  obtain ⟨t, hread, hposition⟩ := h.readHeader
  refine ⟨t, ?_, hposition⟩
  rw [Scanner.nextRow, hread]
  cases failure <;> rfl

theorem Ending.rows (h : Ending width position rest failure) : (reading width position rest).rows = ([], failure) := by
  obtain ⟨t, hnext, -⟩ := h.nextRow
  cases failure with
  | some e => exact rows_of_nextRow_error hnext
  | none =>
      cases h
      exact rows_reading_nil width position

theorem Ending.unique (h : Ending width position rest failure) (h' : Ending width position rest failure') :
    failure = failure' := (Prod.mk.inj (h.rows.symm.trans h'.rows)).2

theorem Ending.eq_none_iff (h : Ending width position rest failure) : failure = none ↔ rest = [] := by
  constructor
  · rintro rfl
    cases h
    rfl
  · rintro rfl
    exact h.unique .whole

theorem Ending.eq_truncatedRow_iff (h : Ending width position rest failure) (offset : Nat) :
    failure = some (.truncatedRow offset) ↔ offset = position ∧ Record.Cut width rest := by
  constructor
  · rintro rfl
    cases h with
    | cut hcut => exact ⟨rfl, hcut⟩
  · rintro ⟨rfl, hcut⟩
    exact h.unique (.cut hcut)

theorem Ending.eq_rowSize_iff (h : Ending width position rest failure) (size : Int) :
    failure = some (.io (.decode (.rowSize size))) ↔ Record.Negative width size rest := by
  constructor
  · rintro rfl
    cases h with
    | negative hnegative => exact hnegative
  · intro hnegative
    exact h.unique (.negative hnegative)

/-- A scan from some position on: the rows it yields, where it is after each call, and how it ends. -/
structure Parses (width : LengthWidth) (position : Nat) (input rest : Bytes) : Prop where
  bytes : input = Record.framing width ((reading width position input).rows.1.map contents) ++ rest
  framable : ∀ row ∈ (reading width position input).rows.1, Record.Framable width row.1.key row.2
  headers : ∀ (i : Nat) (row : RowHeader × Bytes), (reading width position input).rows.1[i]? = some row →
    row.1.position = position + sizes ((reading width position input).rows.1.take i) ∧
      row.1.bodyLength = row.2.length ∧ row.1.sizeOnDisk = (Record.framed width row.1.key row.2).length
  positions : ∀ n ≤ (reading width position input).rows.1.length + 1,
    ((fun s => s.nextRow.2)^[n] (reading width position input)).position =
      position + sizes ((reading width position input).rows.1.take n)
  ending : Ending width (position + sizes (reading width position input).rows.1) rest
    (reading width position input).rows.2

theorem Ending.parses (h : Ending width position rest failure) : Parses width position rest rest := by
  have hrows := h.rows
  refine ⟨?_, ?_, ?_, ?_, ?_⟩ <;> rw [hrows]
  · rfl
  · exact fun _ hrow => absurd hrow List.not_mem_nil
  · intro i row hrow
    cases hrow
  · intro n hn
    obtain ⟨t, hnext, hposition⟩ := h.nextRow
    rcases Nat.le_one_iff_eq_zero_or_eq_one.mp hn with rfl | rfl
    · rfl
    · change (reading width position rest).nextRow.2.position = _
      rw [hnext]
      exact hposition
  · exact h

theorem Parses.framed (hrow : Record.Framable width key body)
    (h : Parses width (position + Record.rowSize width key body.length) tail rest) :
    Parses width position (Record.framed width key body ++ tail) rest := by
  have hnext := nextRow_framed hrow position tail
  have hrows := rows_of_nextRow hnext
  refine ⟨?_, ?_, ?_, ?_, ?_⟩ <;> rw [hrows]
  · rw [List.map_cons, Record.framing_cons, List.append_assoc, ← h.bytes]
    rfl
  · intro row hmem
    rcases List.mem_cons.mp hmem with rfl | hmem
    · exact hrow
    · exact h.framable row hmem
  · intro i row hget
    cases i with
    | zero =>
        obtain rfl := Option.some.inj hget
        exact ⟨rfl, rfl, (Record.length_framed width key body).symm⟩
    | succ i =>
        obtain ⟨hposition, hlengths⟩ := h.headers i row hget
        rw [List.take_succ_cons, sizes_cons, ← Nat.add_assoc]
        exact ⟨hposition, hlengths⟩
  · intro n hn
    cases n with
    | zero => rfl
    | succ n =>
        have hposition := h.positions n (Nat.le_of_succ_le_succ hn)
        rw [Function.iterate_succ_apply, hnext, List.take_succ_cons, sizes_cons, ← Nat.add_assoc]
        exact hposition
  · rw [sizes_cons, ← Nat.add_assoc]
    exact h.ending

theorem exists_parses (width : LengthWidth) (position : Nat) (input : Bytes) :
    ∃ rest, Parses width position input rest := by
  induction hn : input.length using Nat.strongRecOn generalizing position input with
  | _ n ih =>
  rcases Record.classify width input with rfl | hcut | ⟨size, hnegative⟩ | ⟨key, body, tail, hrow, rfl⟩
  · exact ⟨_, Ending.whole.parses⟩
  · exact ⟨_, (Ending.cut hcut).parses⟩
  · exact ⟨_, (Ending.negative hnegative).parses⟩
  · have hlt : tail.length < n := by
      have hpos := Record.rowSize_pos width key body.length
      rw [List.length_append, Record.length_framed] at hn
      omega
    obtain ⟨rest, hrest⟩ := ih tail.length hlt _ tail rfl
    exact ⟨rest, hrest.framed hrow⟩

/-- A file of rows that was cut is scanned up to the row that the cut goes through. -/
theorem rows_take_framing {valid : List (Bytes × Bytes)} (h : ∀ row ∈ valid, Record.Framable width row.1 row.2)
    (position : Nat) {n : Nat} (hn : n ≤ (Record.framing width valid).length) :
    ∃ k ≤ valid.length, (Record.framing width (valid.take k)).length ≤ n ∧
      (k < valid.length → n < (Record.framing width (valid.take (k + 1))).length) ∧
      (reading width position ((Record.framing width valid).take n)).rows.1.map contents = valid.take k ∧
      (reading width position ((Record.framing width valid).take n)).rows.2 =
        if (Record.framing width (valid.take k)).length = n then none
        else some (.truncatedRow (position + (Record.framing width (valid.take k)).length)) := by
  induction valid generalizing position n with
  | nil =>
      obtain rfl : n = 0 := Nat.eq_zero_of_le_zero hn
      have hrows := rows_reading_nil width position
      exact ⟨0, Nat.le_refl 0, Nat.le_refl 0, fun hlt => absurd hlt (Nat.lt_irrefl 0),
        congrArg (·.1.map contents) hrows, congrArg (·.2) hrows⟩
  | cons row valid ih =>
      obtain ⟨key, body⟩ := row
      have hrow : Record.Framable width key body := h _ List.mem_cons_self
      rw [Record.length_framing_cons] at hn
      dsimp only at hn
      by_cases hwhole : Record.rowSize width key body.length ≤ n
      · obtain ⟨k, hk, hle, hlt, hcontents, hfailure⟩ := ih (fun row hmem => h row (List.mem_cons_of_mem _ hmem))
          (position + Record.rowSize width key body.length) (Nat.sub_le_iff_le_add'.mpr hn)
        have hrows := rows_of_nextRow (nextRow_framed hrow position
          ((Record.framing width valid).take (n - Record.rowSize width key body.length)))
        rw [Record.take_framing_of_le hwhole, hrows]
        refine ⟨k + 1, Nat.succ_le_succ hk, ?_, fun hlast => ?_, ?_, ?_⟩
        · rw [List.take_succ_cons, Record.length_framing_cons]
          dsimp only
          omega
        · have hnext := hlt (Nat.lt_of_succ_lt_succ hlast)
          rw [List.take_succ_cons, Record.length_framing_cons]
          dsimp only
          omega
        · rw [List.map_cons, hcontents]
          rfl
        · rw [hfailure, List.take_succ_cons, Record.length_framing_cons, Nat.add_assoc]
          refine if_congr ?_ rfl rfl
          dsimp only
          omega
      · have hlt := Nat.lt_of_not_le hwhole
        rw [Record.take_framing_of_lt hlt, (Ending.of_take hrow hlt position).rows]
        refine ⟨0, Nat.zero_le _, Nat.zero_le n, fun _ => ?_, rfl, if_congr eq_comm rfl rfl⟩
        rw [List.take_succ_cons, Record.length_framing_cons]
        exact Nat.lt_of_lt_of_le hlt (Nat.le_add_right _ _)

/-- **The rows of any input.** A scan by a descriptor's length fields yields rows that are the input up to where it
ends, and it ends without a failure, with a truncated row or with a negative length by what is left there. A file of
rows that was cut is scanned up to the row that the cut goes through. -/
theorem rows_start_grammar (d : Descriptor) (input : Bytes) :
    d.lengthWidth.bytes = (if d.version < "b" then 4 else 8) ∧
      (∃ rest,
        input = Record.framing d.lengthWidth ((start d.lengthWidth input).rows.1.map contents) ++ rest ∧
        (∀ row ∈ (start d.lengthWidth input).rows.1, Record.Framable d.lengthWidth row.1.key row.2) ∧
        (∀ (i : Nat) (row : RowHeader × Bytes), (start d.lengthWidth input).rows.1[i]? = some row →
          row.1.position = sizes ((start d.lengthWidth input).rows.1.take i) ∧
            row.1.bodyLength = row.2.length ∧
            row.1.sizeOnDisk = (Record.framed d.lengthWidth row.1.key row.2).length) ∧
        (∀ n ≤ (start d.lengthWidth input).rows.1.length + 1,
          ((fun s => s.nextRow.2)^[n] (start d.lengthWidth input)).position =
            sizes ((start d.lengthWidth input).rows.1.take n)) ∧
        ((start d.lengthWidth input).rows.2 = none ↔ rest = []) ∧
        (∀ offset, (start d.lengthWidth input).rows.2 = some (.truncatedRow offset) ↔
          offset = sizes (start d.lengthWidth input).rows.1 ∧ Record.Cut d.lengthWidth rest) ∧
        ∀ size, (start d.lengthWidth input).rows.2 = some (.io (.decode (.rowSize size))) ↔
          Record.Negative d.lengthWidth size rest) ∧
      ∀ (valid : List (Bytes × Bytes)) (n : Nat), (∀ row ∈ valid, Record.Framable d.lengthWidth row.1 row.2) →
        n ≤ (Record.framing d.lengthWidth valid).length → input = (Record.framing d.lengthWidth valid).take n →
        ∃ k ≤ valid.length, (Record.framing d.lengthWidth (valid.take k)).length ≤ n ∧
          (k < valid.length → n < (Record.framing d.lengthWidth (valid.take (k + 1))).length) ∧
          (start d.lengthWidth input).rows.1.map contents = valid.take k ∧
          (start d.lengthWidth input).rows.2 =
            if (Record.framing d.lengthWidth (valid.take k)).length = n then none
            else some (.truncatedRow (Record.framing d.lengthWidth (valid.take k)).length) := by
  have hbytes : d.lengthWidth.bytes = if d.version < "b" then 4 else 8 := by
    unfold Descriptor.lengthWidth
    change (if d.version < "b" then LengthWidth.short else .long).bytes = _
    split <;> rfl
  rw [start_eq_reading]
  obtain ⟨rest, hrest⟩ := exists_parses d.lengthWidth 0 input
  refine ⟨hbytes, ⟨rest, hrest.bytes, hrest.framable, ?_, ?_, hrest.ending.eq_none_iff, ?_,
    hrest.ending.eq_rowSize_iff⟩, ?_⟩
  · intro i row hrow
    have hheader := hrest.headers i row hrow
    rwa [Nat.zero_add] at hheader
  · intro n hn
    have hposition := hrest.positions n hn
    rwa [Nat.zero_add] at hposition
  · intro offset
    have htruncated := hrest.ending.eq_truncatedRow_iff offset
    rwa [Nat.zero_add] at htruncated
  · rintro valid n hvalid hn rfl
    obtain ⟨k, hk, hle, hlt, hcontents, hfailure⟩ := rows_take_framing hvalid 0 hn
    rw [Nat.zero_add] at hfailure
    exact ⟨k, hk, hle, hlt, hcontents, hfailure⟩

/-- Two rows with short length fields, cut in the second. -/
theorem rows_start_grammar_cut :
    ∃ k ≤ 2, (Record.framing .short ([([107], [1, 2]), ([108], [3])].take k)).length ≤ 11 ∧
      (k < 2 → 11 < (Record.framing .short ([([107], [1, 2]), ([108], [3])].take (k + 1))).length) ∧
      (start .short ((Record.framing .short [([107], [1, 2]), ([108], [3])]).take 11)).rows.1.map contents =
        [([107], [1, 2]), ([108], [3])].take k ∧
      (start .short ((Record.framing .short [([107], [1, 2]), ([108], [3])]).take 11)).rows.2 =
        if (Record.framing .short ([([107], [1, 2]), ([108], [3])].take k)).length = 11 then none
        else some (.truncatedRow (Record.framing .short ([([107], [1, 2]), ([108], [3])].take k)).length) := by
  have hvalid : ∀ row ∈ ([([107], [1, 2]), ([108], [3])] : List (Bytes × Bytes)),
      Record.Framable .short row.1 row.2 := by
    intro row hrow
    simp only [List.mem_cons, List.not_mem_nil, or_false] at hrow
    rcases hrow with rfl | rfl <;> exact ⟨by decide, by decide, by decide⟩
  exact (rows_start_grammar ⟨⟨[107]⟩, "ks", "users", 1, "a", false⟩ _).2.2 _ 11 hvalid (by decide) rfl

end Scanner

end SortedTable
