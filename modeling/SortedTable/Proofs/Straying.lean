import SortedTable.Proofs.Calling

/-!
# Headers after a failed call

A call that fails leaves the position of the scanner where it was, and what it has read stays read. The next header is
then read further on and reported at the old position, where there is no whole row. Main statement:
`headers_shown_iff`.
-/

namespace SortedTable.Scanner

/-- The row that a header tells of is there: it is what is read at its position, and the input holds all of it. -/
structure Shown (width : LengthWidth) (input : Bytes) (header : RowHeader) : Prop where
  front : ∃ rest, Record.takeRowFront? width (input.drop header.position) =
    some (header.key, (header.bodyLength : Int), rest)
  size : header.sizeOnDisk = Record.rowSize width header.key header.bodyLength
  inside : header.position + header.sizeOnDisk ≤ input.length

def header? (a : Answer × Nat) : Option RowHeader :=
  match a.1 with
  | .ok (some row) => some row.1
  | .ok none => none
  | .error _ => none

def Failed (a : Answer × Nat) : Prop := ∃ e, a.1 = .error e

variable {width : LengthWidth} {position : Nat} {before rest key body input : Bytes} {s t : Scanner}

theorem shown_framed (h : Record.Framable width key body) (before rest : Bytes) :
    Shown width (before ++ (Record.framed width key body ++ rest))
      ⟨key, before.length, body.length, Record.rowSize width key body.length⟩ := by
  refine ⟨⟨body ++ rest, ?_⟩, rfl, ?_⟩
  · rw [List.drop_left]
    exact Record.takeRowFront?_framed h rest
  · rw [List.length_append, List.length_append, Record.length_framed]
    exact Nat.add_le_add_left (Nat.le_add_right _ _) _

/-- A header that is shown at a place leaves a whole body behind its front there. -/
theorem Shown.length_le {header : RowHeader} (h : Shown width (before ++ rest) header)
    (hposition : header.position = before.length) :
    ∃ tail, Record.takeRowFront? width rest = some (header.key, (header.bodyLength : Int), tail) ∧
      header.bodyLength ≤ tail.length := by
  obtain ⟨tail, hfront⟩ := h.front
  rw [hposition, List.drop_left] at hfront
  obtain ⟨hrest, -⟩ := Record.takeRowFront?_eq_some_iff.mp hfront
  have hinside := h.inside
  rw [hposition, h.size, hrest, List.length_append, List.length_append, Record.length_front,
    ← Record.rowSize_zero_add width header.key header.bodyLength] at hinside
  exact ⟨tail, hfront, by omega⟩

theorem readHeader_cases (s : Scanner) :
    s.readHeader = (.ok none, s) ∨
      (∃ e t, s.readHeader = (.error e, t) ∧ t.position = s.position ∧ t.rest.length ≤ s.rest.length) ∨
      ∃ header t, s.readHeader = (.ok (some header), t) ∧ header.position = s.position := by
  by_cases hend : s.length ≤ s.position
  · exact .inl (by rw [readHeader, if_pos hend])
  have hstart := Nat.lt_of_not_le hend
  rcases hfront : Record.takeRowFront? s.width s.rest with - | ⟨key, size, rest⟩
  · exact .inr (.inl ⟨_, _, readHeader_of_cut hstart hfront, rfl, Nat.zero_le _⟩)
  have hrest := Nat.le_of_lt (Record.length_lt_of_takeRowFront? hfront)
  by_cases hnegative : size < 0
  · exact .inr (.inl ⟨_, _, readHeader_of_negative hstart hfront hnegative, rfl, hrest⟩)
  have hsize := Int.not_lt.mp hnegative
  by_cases houtside : s.length < s.position + Record.rowSize s.width key size.toNat
  · exact .inr (.inl ⟨_, _, readHeader_of_outside hstart hfront hsize houtside, rfl, hrest⟩)
  · exact .inr (.inr ⟨_, _, readHeader_of_front hstart hfront hsize (Nat.not_lt.mp houtside), rfl⟩)

theorem call_of_readHeader {header : RowHeader} (h : s.readHeader = (.ok (some header), t)) (c : Call) :
    (∃ e u, s.call c = (.error e, u) ∧ u.rest = []) ∨ ∃ body u, s.call c = (.ok (some (header, body)), u) := by
  have hrow : (∃ e u, s.call .row = (.error e, u) ∧ u.rest = []) ∨
      ∃ body u, s.call .row = (.ok (some (header, body)), u) := by
    rw [call, nextRow, h]
    dsimp only
    cases t.rest.split? header.bodyLength with
    | none => exact .inl ⟨_, _, rfl, rfl⟩
    | some parts => exact .inr ⟨some parts.1, _, rfl⟩
  cases c with
  | header =>
      refine .inr ⟨none, ?_⟩
      rw [call, nextHeader, h]
      exact ⟨_, rfl⟩
  | row => exact hrow
  | item =>
      rw [call_item]
      exact hrow

/-- A call gives nothing and changes nothing, or fails where it is or with nothing left to read, or gives a header at
its position. -/
theorem call_cases (s : Scanner) (c : Call) :
    s.call c = (.ok none, s) ∨
      (∃ e t, s.call c = (.error e, t) ∧ (s.rest = [] → t.rest = []) ∧ (t.rest = [] ∨ t.position = s.position)) ∨
      ∃ header body t, s.call c = (.ok (some (header, body)), t) ∧ header.position = s.position ∧ s.rest ≠ [] := by
  rcases readHeader_cases s with hread | ⟨e, t, hread, hposition, hlength⟩ | ⟨header, t, hread, hposition⟩
  · exact .inl (call_of_readHeader_none hread c)
  · refine .inr (.inl ⟨e, t, call_of_readHeader_error hread c, fun hnil => ?_, .inr hposition⟩)
    rw [hnil] at hlength
    exact List.eq_nil_of_length_eq_zero (Nat.eq_zero_of_le_zero hlength)
  · have hne : s.rest ≠ [] := by
      intro hnil
      have hlt := length_rest_lt_of_readHeader hread
      rw [hnil] at hlt
      exact Nat.not_lt_zero _ hlt
    rcases call_of_readHeader hread c with ⟨e, u, hcall, hrest⟩ | ⟨body, u, hcall⟩
    · exact .inr (.inl ⟨e, u, hcall, fun _ => hrest, .inl hrest⟩)
    · exact .inr (.inr ⟨header, body, u, hcall, hposition, hne⟩)

theorem header?_of_rest_nil (h : s.rest = []) (calls : List Call) : ∀ a ∈ s.answers calls, header? a = none := by
  induction calls generalizing s with
  | nil => exact fun _ ha => absurd ha List.not_mem_nil
  | cons c calls ih =>
      rw [answers, List.forall_mem_cons]
      rcases call_cases s c with hcall | ⟨e, t, hcall, hstays, -⟩ | ⟨header, body, t, hcall, -, hne⟩
      · rw [hcall]
        exact ⟨rfl, ih h⟩
      · rw [hcall]
        exact ⟨rfl, ih (hstays h)⟩
      · exact absurd h hne

/-- No row is to be found at the scanner's position, or nothing is left to read. -/
def Astray (width : LengthWidth) (input : Bytes) (s : Scanner) : Prop :=
  s.rest = [] ∨ ∀ header, Shown width input header → header.position ≠ s.position

theorem Astray.of_ending {failure : Option TableError} (h : Ending width before.length rest failure) :
    Astray width (before ++ rest) (reading width before.length rest) := by
  cases h with
  | whole => exact .inl rfl
  | cut hcut =>
      refine .inr fun header hshown hposition => ?_
      obtain ⟨tail, hfront, hle⟩ := hshown.length_le hposition
      have hlt := hcut.lt_of_front hfront
      omega
  | negative hnegative =>
      refine .inr fun header hshown hposition => ?_
      obtain ⟨tail, hfront, -⟩ := hshown.length_le hposition
      obtain ⟨key, tail', hfront'⟩ := hnegative.exists_front
      rw [hfront, Option.some.injEq, Prod.mk.injEq, Prod.mk.injEq] at hfront'
      have hsize := hnegative.negative
      omega

/-- A scanner that has lost its place stays so until it reports a header, which is wrong. -/
theorem Astray.call (h : Astray width input s) (c : Call) :
    (∃ a t, s.call c = (a, t) ∧ header? (a, t.position) = none ∧ Astray width input t) ∨
      ∃ header body t, s.call c = (.ok (some (header, body)), t) ∧ ¬ Shown width input header := by
  rcases call_cases s c with hcall | ⟨e, t, hcall, hstays, hkept⟩ | ⟨header, body, t, hcall, hposition, hne⟩
  · exact .inl ⟨_, _, hcall, rfl, h⟩
  · refine .inl ⟨_, _, hcall, rfl, ?_⟩
    rcases hkept with hnil | hposition
    · exact .inl hnil
    · rw [Astray, hposition]
      exact h.imp_left hstays
  · have hnowhere := h.resolve_left hne
    exact .inr ⟨header, body, t, hcall, fun hshown => hnowhere header hshown hposition⟩

theorem Astray.shown_iff (h : Astray width input s) (calls : List Call) :
    (∀ a ∈ s.answers calls, ∀ header, header? a = some header → Shown width input header) ↔
      ∀ a ∈ s.answers calls, header? a = none := by
  constructor
  · intro hshown
    induction calls generalizing s with
    | nil => exact fun _ ha => absurd ha List.not_mem_nil
    | cons c calls ih =>
        rw [answers, List.forall_mem_cons] at hshown ⊢
        rcases h.call c with ⟨a, t, hcall, hnone, hastray⟩ | ⟨header, body, t, hcall, hnot⟩
        · rw [hcall] at hshown ⊢
          exact ⟨hnone, ih hastray hshown.2⟩
        · rw [hcall] at hshown
          exact absurd (hshown.1 header rfl) hnot
  · intro hnone a ha header hheader
    rw [hnone a ha] at hheader
    cases hheader

theorem pairwise_of_header?_eq_none {log : List (Answer × Nat)} (h : ∀ a ∈ log, header? a = none) :
    log.Pairwise fun a b => Failed a → header? b = none :=
  List.pairwise_of_forall_mem_list fun _ _ b hb _ => h b hb

theorem shown_iff_pairwise (before rest : Bytes) (calls : List Call) :
    (∀ a ∈ (reading width before.length rest).answers calls, ∀ header, header? a = some header →
        Shown width (before ++ rest) header) ↔
      ((reading width before.length rest).answers calls).Pairwise fun a b => Failed a → header? b = none := by
  induction calls generalizing before rest with
  | nil => exact ⟨fun _ => .nil, fun _ _ ha => absurd ha List.not_mem_nil⟩
  | cons c calls ih =>
      rcases ending_or_framed width before.length rest with ⟨failure, hending⟩ | ⟨key, body, tail, hrow, rfl⟩
      · -- No row begins here, so the scanner has lost its place from this call on.
        rw [(Astray.of_ending hending).shown_iff]
        refine ⟨pairwise_of_header?_eq_none, fun hpairs => ?_⟩
        obtain ⟨t, hcall, -⟩ := hending.call c
        cases failure with
        | none =>
            cases hending
            exact header?_of_rest_nil rfl _
        | some e =>
            rw [answers, hcall, List.pairwise_cons] at hpairs
            rw [answers, hcall, List.forall_mem_cons]
            exact ⟨rfl, fun b hb => hpairs.1 b hb ⟨e, rfl⟩⟩
      · have hnext : (before ++ Record.framed width key body).length =
            before.length + Record.rowSize width key body.length := by
          rw [List.length_append, Record.length_framed]
        have htail := ih (before ++ Record.framed width key body) tail
        rw [hnext, List.append_assoc] at htail
        rw [answers_framed hrow, List.forall_mem_cons, List.pairwise_cons, htail]
        apply and_congr_left
        intro _
        constructor
        · rintro - b - ⟨e, he⟩
          cases he
        · rintro - header hheader
          cases hheader
          exact shown_framed hrow before tail

/-- **Headers and failed calls.** However often a scanner is asked, every header that it reports tells of a row that is
there exactly if none is reported after a call that failed. So all of them are right up to the first failure, and the
first one after it is wrong. -/
theorem headers_shown_iff (d : Descriptor) (input : Bytes) (calls : List Call) :
    (∀ a ∈ (start d.lengthWidth input).answers calls, ∀ header, header? a = some header →
        Shown d.lengthWidth input header) ↔
      ((start d.lengthWidth input).answers calls).Pairwise fun a b => Failed a → header? b = none := by
  rw [start_eq_reading]
  exact shown_iff_pairwise [] input calls

/-- Behind a row that ends too early the scanner goes on inside its body, and reports what it finds there at the place
of the row. -/
theorem header_after_failure :
    ∃ calls, (start .long (Record.short [97] ++ BigEndian.encodeInt 8 100 ++ Record.row [98] [])).answers calls =
        [(.error (.truncatedRow 0), 0), (.ok (some (⟨[98], 0, 0, 11⟩, some [])), 11)] ∧
      ¬ Shown .long (Record.short [97] ++ BigEndian.encodeInt 8 100 ++ Record.row [98] []) ⟨[98], 0, 0, 11⟩ := by
  refine ⟨[.item, .item], rfl, fun hshown => ?_⟩
  obtain ⟨rest, hfront⟩ := hshown.front
  have hkey : ([97] : Bytes) = [98] := congrArg (fun found => (found.map (·.1)).getD []) hfront
  cases hkey

end SortedTable.Scanner
