import SortedTable.Proofs.Grammar

namespace SortedTable

/-- The bytes of a row's body: those behind its key and its length field, up to its end. -/
def RowHeader.bodyIn (width : LengthWidth) (header : RowHeader) (input : Bytes) : Bytes :=
  (input.take (header.position + header.sizeOnDisk)).drop (header.position + Record.rowSize width header.key 0)

namespace Scanner

inductive Call where
  | header
  | row
  | item
deriving DecidableEq, Repr

/-- What a call gives: a header, with the body if it was read. -/
abbrev Answer := Except TableError (Option (RowHeader × Option Bytes))

/-- What a call takes of a body. -/
def Call.taken : Call → Bytes → Option Bytes
  | .header, _ => none
  | .row, body => some body
  | .item, body => some body

def call (s : Scanner) : Call → Answer × Scanner
  | .header => (s.nextHeader.1.map fun found => found.map fun header => (header, none), s.nextHeader.2)
  | .row => (s.nextRow.1.map fun found => found.map fun row => (row.1, some row.2), s.nextRow.2)
  | .item =>
      match s.next with
      | (none, t) => (.ok none, t)
      | (some (.ok row), t) => (.ok (some (row.1, some row.2)), t)
      | (some (.error e), t) => (.error e, t)

/-- The answers to calls that are made one after the other, each with the position that it leaves. -/
def answers (s : Scanner) : List Call → List (Answer × Nat)
  | [] => []
  | c :: calls => ((s.call c).1, (s.call c).2.position) :: (s.call c).2.answers calls

/-- The answers up to the first without a row, which is the last of them. -/
def untilEnd : List (Answer × Nat) → List (Answer × Nat)
  | [] => []
  | (.ok (some row), position) :: rest => (.ok (some row), position) :: untilEnd rest
  | (.ok none, position) :: _ => [(.ok none, position)]
  | (.error e, position) :: _ => [(.error e, position)]

/-- An answer without the body. -/
def outline (a : Answer × Nat) : Except TableError (Option RowHeader) × Nat :=
  (a.1.map fun found => found.map fun row => row.1, a.2)

section OneCall

variable {s t : Scanner} {width : LengthWidth} {position : Nat} {rest key body : Bytes} {e : TableError}
  {failure : Option TableError}

theorem call_item (s : Scanner) : s.call .item = s.call .row := by
  rw [call, call, next]
  rcases s.nextRow with ⟨e | - | row, t⟩ <;> rfl

theorem call_of_readHeader_none (h : s.readHeader = (.ok none, t)) (c : Call) : s.call c = (.ok none, t) := by
  have hheader : s.nextHeader = (.ok none, t) := by rw [nextHeader, h]
  have hrow : s.nextRow = (.ok none, t) := by rw [nextRow, h]
  cases c with
  | header => rw [call, hheader]; rfl
  | row => rw [call, hrow]; rfl
  | item => rw [call_item, call, hrow]; rfl

theorem call_of_readHeader_error (h : s.readHeader = (.error e, t)) (c : Call) : s.call c = (.error e, t) := by
  have hheader := nextHeader_of_readHeader_error h
  have hrow := nextRow_of_readHeader_error h
  cases c with
  | header => rw [call, hheader]; rfl
  | row => rw [call, hrow]; rfl
  | item => rw [call_item, call, hrow]; rfl

/-- A row in front is what every call gives, and every call leaves the scanner behind it. -/
theorem call_framed (h : Record.Framable width key body) (position : Nat) (rest : Bytes) (c : Call) :
    (reading width position (Record.framed width key body ++ rest)).call c =
      (.ok (some (⟨key, position, body.length, Record.rowSize width key body.length⟩, c.taken body)),
        reading width (position + Record.rowSize width key body.length) rest) := by
  cases c with
  | header => rw [call, nextHeader_framed h]; rfl
  | row => rw [call, nextRow_framed h]; rfl
  | item => rw [call_item, call, nextRow_framed h]; rfl

theorem Ending.call (h : Ending width position rest failure) (c : Call) :
    ∃ t, (reading width position rest).call c = (failure.elim (.ok none) .error, t) ∧ t.position = position := by
  obtain ⟨t, hread, hposition⟩ := h.readHeader
  refine ⟨t, ?_, hposition⟩
  cases failure with
  | none => exact call_of_readHeader_none hread c
  | some e => exact call_of_readHeader_error hread c

theorem Ending.untilEnd (h : Ending width position rest failure) (c : Call) (calls : List Call) :
    untilEnd ((reading width position rest).answers (c :: calls)) = [(failure.elim (.ok none) .error, position)] := by
  obtain ⟨t, hcall, hposition⟩ := h.call c
  rw [answers, hcall, hposition]
  cases failure <;> rfl

/-- Wherever a scanner is, a row begins there, or the scan ends. -/
theorem ending_or_framed (width : LengthWidth) (position : Nat) (rest : Bytes) :
    (∃ failure, Ending width position rest failure) ∨
      ∃ key body tail, Record.Framable width key body ∧ rest = Record.framed width key body ++ tail := by
  rcases Record.classify width rest with rfl | hcut | ⟨size, hnegative⟩ | hrow
  · exact .inl ⟨_, .whole⟩
  · exact .inl ⟨_, .cut hcut⟩
  · exact .inl ⟨_, .negative hnegative⟩
  · exact .inr hrow

end OneCall

section Calls

variable {width : LengthWidth}

theorem answers_framed {key body : Bytes} (h : Record.Framable width key body) (position : Nat) (rest : Bytes)
    (c : Call) (calls : List Call) :
    (reading width position (Record.framed width key body ++ rest)).answers (c :: calls) =
      (.ok (some (⟨key, position, body.length, Record.rowSize width key body.length⟩, c.taken body)),
          position + Record.rowSize width key body.length) ::
        (reading width (position + Record.rowSize width key body.length) rest).answers calls := by
  rw [answers, call_framed h]
  rfl

/-- It makes no difference to the headers, the positions and the end how the rows are asked for. -/
theorem map_outline_untilEnd (width : LengthWidth) (position : Nat) (rest : Bytes) (calls : List Call) :
    (untilEnd ((reading width position rest).answers calls)).map outline =
      (untilEnd ((reading width position rest).answers (calls.map fun _ => .row))).map outline := by
  induction calls generalizing position rest with
  | nil => rfl
  | cons c calls ih =>
      rw [List.map_cons]
      -- At an end both runs stop; behind a row in front both go on from the same place.
      rcases ending_or_framed width position rest with ⟨failure, hending⟩ | ⟨key, body, tail, hrow, rfl⟩
      · rw [hending.untilEnd, hending.untilEnd]
      · have htail := ih (position + Record.rowSize width key body.length) tail
        rw [answers_framed hrow, answers_framed hrow, untilEnd, untilEnd, List.map_cons, List.map_cons, htail]
        rfl

theorem bodyIn_framed (key body before rest : Bytes) :
    RowHeader.bodyIn width ⟨key, before.length, body.length, Record.rowSize width key body.length⟩
      (before ++ (Record.framed width key body ++ rest)) = body := by
  have hfront : (Record.short key ++ BigEndian.encodeInt width.bytes body.length).length =
      Record.rowSize width key 0 := by
    rw [List.length_append, Record.length_short, BigEndian.length_encodeInt, Record.rowSize, Nat.add_zero]
  have hrow : (before ++ Record.framed width key body).length =
      before.length + Record.rowSize width key body.length := by
    rw [List.length_append, Record.length_framed]
  rw [RowHeader.bodyIn, ← List.append_assoc, ← hrow, List.take_left, ← List.drop_drop, List.drop_left,
    Record.framed, ← hfront, List.drop_left]

/-- A call that reads the body gives the bytes at the place that the header names. -/
theorem body_of_untilEnd (before rest : Bytes) {calls : List Call} {i position : Nat} {c : Call} {header : RowHeader}
    {body : Option Bytes} (hcall : calls[i]? = some c)
    (hanswer : (untilEnd ((reading width before.length rest).answers calls))[i]? =
      some (.ok (some (header, body)), position)) :
    header.position + header.sizeOnDisk ≤ (before ++ rest).length ∧
      body = c.taken (header.bodyIn width (before ++ rest)) := by
  induction calls generalizing before rest i with
  | nil => cases hcall
  | cons first calls ih =>
      rcases ending_or_framed width before.length rest with ⟨failure, hending⟩ | ⟨key, content, tail, hrow, rfl⟩
      · rw [hending.untilEnd, List.getElem?_singleton] at hanswer
        cases failure <;> split at hanswer <;> cases hanswer
      · rw [answers_framed hrow, untilEnd] at hanswer
        cases i with
        | zero =>
            cases hcall
            cases hanswer
            constructor
            · rw [List.length_append, List.length_append, Record.length_framed]
              exact Nat.add_le_add_left (Nat.le_add_right _ _) _
            · rw [bodyIn_framed]
        | succ i =>
            have hnext : (before ++ Record.framed width key content).length =
                before.length + Record.rowSize width key content.length := by
              rw [List.length_append, Record.length_framed]
            rw [← hnext] at hanswer
            have hrest := ih _ _ hcall hanswer
            rwa [List.append_assoc] at hrest

/-- **Skipping a body is like reading it.** However the rows of an input are asked for, the answers up to the first
without a row have the headers, the positions and the end that they have when every row is read, and the bodies are
the bytes of the input at the places that their headers name. -/
theorem answers_untilEnd (d : Descriptor) (input : Bytes) (calls : List Call) :
    (untilEnd ((start d.lengthWidth input).answers calls)).map outline =
        (untilEnd ((start d.lengthWidth input).answers (calls.map fun _ => .row))).map outline ∧
      ∀ (i position : Nat) (c : Call) (header : RowHeader) (body : Option Bytes), calls[i]? = some c →
        (untilEnd ((start d.lengthWidth input).answers calls))[i]? = some (.ok (some (header, body)), position) →
        header.position + header.sizeOnDisk ≤ input.length ∧
          body = c.taken (header.bodyIn d.lengthWidth input) := by
  rw [start_eq_reading]
  constructor
  · exact map_outline_untilEnd d.lengthWidth 0 input calls
  · intro i position c header body hcall hanswer
    exact body_of_untilEnd [] input hcall hanswer

/-- Two rows, of which the first is skipped and the second is read. -/
theorem answers_untilEnd_skipped :
    (untilEnd ((start .long (Record.framing .long [([107], [1, 2]), ([108], [3])])).answers [.header, .row])).map
        outline =
      (untilEnd ((start .long (Record.framing .long [([107], [1, 2]), ([108], [3])])).answers [.row, .row])).map
        outline ∧
      13 + 12 ≤ (Record.framing .long [([107], [1, 2]), ([108], [3])]).length ∧
      some [3] = Call.row.taken
        (RowHeader.bodyIn .long ⟨[108], 13, 1, 12⟩ (Record.framing .long [([107], [1, 2]), ([108], [3])])) := by
  obtain ⟨hsame, hbodies⟩ := answers_untilEnd ⟨⟨[107]⟩, "ks", "users", 1, "e", false⟩
    (Record.framing .long [([107], [1, 2]), ([108], [3])]) [.header, .row]
  exact ⟨hsame, hbodies 1 25 .row ⟨[108], 13, 1, 12⟩ (some [3]) rfl rfl⟩

end Calls

end Scanner

end SortedTable
