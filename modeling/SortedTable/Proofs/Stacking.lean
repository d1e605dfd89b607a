import SortedTable.Proofs.Disk.Outputs
import SortedTable.Proofs.Ordering
import SortedTable.Proofs.Rows
import SortedTable.Writer

/-!
# What a call leaves behind

The two files of a writer only grow: what comes next goes behind what is there. So there is little that a call can do,
in whichever of the three ways it appends. It is rejected and leaves everything as it was, or its encoder gives up and
what it has written stays behind the data, or its row is in the data and a record of its key in the index. What is
proved of the calls of a writer rests on this alone. Main statement: `Stacked.on_attempt`.
-/

namespace SortedTable

theorem Encoding.written_framed (body : Bytes) (columnCount : Nat) :
    (framed body columnCount).written = BigEndian.encodeInt Record.rowSizeBytes body.length ++ body := by
  simp [framed, written]

namespace IndexWriter

variable {w : IndexWriter} {v : Volume} {p : Place} {bytes : Bytes}

structure Holds (w : IndexWriter) (disk : Disk) (p : Place) (bytes : Bytes) : Prop where
  output : w.output.Holds disk p bytes
  atEnd : w.output.position = bytes.length

theorem Holds.of_frame {disk disk' : Disk} {outside : Place → Prop} (h : w.Holds disk p bytes)
    (hframe : disk.Frame outside disk') (hp : outside p) : w.Holds disk' p bytes :=
  ⟨h.output.of_frame hframe hp, h.atEnd⟩

theorem Holds.of_sameBut {disk disk' : Disk} {places : List Place} (h : w.Holds disk p bytes)
    (hsame : disk.SameBut places disk') (hp : p ∉ places) : w.Holds disk' p bytes :=
  h.of_frame (hsame.frame fun _ hp => hp) hp

theorem on_add (h : w.Holds v.disk p bytes) (key : DecoratedKey) (offset : Nat) :
    ∃ w' v', Work.on (w.add key offset) v = (w', v') ∧
      w'.Holds v'.disk p (bytes ++ Record.index key.key offset) ∧
      w' = { w with
        output := w'.output
        filter := w.filter.insert key.key
        summary := w.summary.add key bytes.length
        segments := w.segments.offer bytes.length } ∧ v.disk.SameBut [p] v'.disk := by
  obtain ⟨o', v', hrun, hholds, hend, hsame⟩ :=
    Output.on_writePieces_end h.output h.atEnd (Record.indexPieces key.key offset)
  rw [Record.flatten_indexPieces] at hholds hend
  refine ⟨{ w with
    output := o'
    filter := w.filter.insert key.key
    summary := w.summary.add key bytes.length
    segments := w.segments.offer bytes.length }, v', ?_, ⟨hholds, hend⟩, rfl, hsame⟩
  rw [add, Work.on_bind_of hrun, h.atEnd]
  rfl

theorem on_drop (h : w.Holds v.disk p bytes) :
    ∃ v', Work.on w.drop v = ((), v') ∧ v'.disk.tree p = some (.file bytes) ∧ v.disk.SameBut [p] v'.disk := by
  obtain ⟨o, v', hrun, hholds, hempty, -, hsame⟩ := Output.on_flush h.output
  refine ⟨v', ?_, hholds.tree_eq hempty, hsame⟩
  rw [drop, Work.on_bind_of hrun, Work.on_pure]

end IndexWriter

namespace Writer

open AppendedRow

/-- A call of a writer, which may fail. -/
inductive Attempt where
  | encoded (key : DecoratedKey) (row : Encoding)
  /-- A row whose encoding begins with its length. -/
  | framed (key : DecoratedKey) (row : Encoding)
  | value (key : DecoratedKey) (body : Bytes)

namespace Attempt

def key : Attempt → DecoratedKey
  | encoded key _ | framed key _ | value key _ => key

/-- The row that a call appends if it goes well. -/
def row : Attempt → AppendedRow
  | encoded key row => ⟨key, row.written, row.outcome.toOption⟩
  | framed key row => ⟨key, row.written.drop Record.rowSizeBytes, row.outcome.toOption⟩
  | value key body => ⟨key, body, none⟩

/-- A row that is written as a whole has the right length in front of its body. -/
def WellFramed : Attempt → Prop
  | framed _ row => ∀ n, row.outcome = .ok n → ∃ body, row.written = (Encoding.framed body n).written
  | _ => True

/-- The encoder of the row does not give up. -/
def Encodes : Attempt → Prop
  | .encoded _ row | .framed _ row => ∃ columnCount, row.outcome = .ok columnCount
  | .value _ _ => True

/-- What a call returns that is not rejected: it fails if the encoder of its row does. -/
def verdict : Attempt → Except TableError Unit
  | .encoded _ row | .framed _ row =>
      match row.outcome with
      | .ok _ => .ok ()
      | .error e => .error (.io (.encode e))
  | .value _ _ => .ok ()

/-- The bytes that a call has put into the data when it goes well. -/
def written : Attempt → Bytes
  | encoded key row => Record.row key.key row.written
  | framed key row => Record.short key.key ++ row.written
  | value key body => Record.row key.key body

/-- The bytes that a call has put into the data when its encoder gives up. -/
def begun : Attempt → Bytes
  | encoded key row =>
      Record.short key.key ++ BigEndian.encodeInt Record.rowSizeBytes Record.rowSizePlaceholder ++ row.written
  | framed key row => Record.short key.key ++ row.written
  | value _ _ => []

theorem verdict_eq_ok {a : Attempt} (h : a.Encodes) : a.verdict = .ok () := by
  cases a with
  | encoded _ row | framed _ row =>
      obtain ⟨n, houtcome⟩ := h
      simp only [verdict, houtcome]
  | value _ _ => rfl

/-- Whatever follows, the key comes first. -/
theorem exists_written (a : Attempt) : ∃ rest, a.written = Record.short a.key.key ++ rest := by
  cases a with
  | encoded key row | value key row => exact ⟨_, List.append_assoc _ _ _⟩
  | framed key row => exact ⟨_, rfl⟩

theorem key_row (a : Attempt) : a.row.key = a.key := by
  cases a <;> rfl

theorem row_framed (key : DecoratedKey) (body : Bytes) (columnCount : Nat) :
    (framed key (.framed body columnCount)).row = ⟨key, body, some columnCount⟩ := by
  rw [row, Encoding.written_framed, List.drop_left' (BigEndian.length_encodeInt _ _)]
  rfl

theorem WellFramed.framed (key : DecoratedKey) (body : Bytes) (columnCount : Nat) :
    (framed key (.framed body columnCount)).WellFramed := by
  rintro n ⟨⟩
  exact ⟨body, rfl⟩

theorem written_eq_bytes {a : Attempt} (hframed : a.WellFramed) (hencodes : a.Encodes) : a.written = a.row.bytes := by
  cases a with
  | encoded key row | value key body => rfl
  | framed key row =>
      obtain ⟨n, houtcome⟩ := hencodes
      obtain ⟨body, hwritten⟩ := hframed n houtcome
      change Record.short key.key ++ row.written = Record.row key.key (row.written.drop Record.rowSizeBytes)
      rw [hwritten, Encoding.written_framed, List.drop_left' (BigEndian.length_encodeInt _ _), Record.row,
        List.append_assoc]

end Attempt

def attempt (w : Writer) : Attempt → Work (Except TableError Unit × Writer)
  | .encoded key row => w.append key row
  | .framed key row => w.appendFramed key row
  | .value key body => w.appendValue key body

variable {w w' : Writer} {v v' : Volume} {a : Attempt}

theorem rejection?_eq_none_iff {key : DecoratedKey} :
    w.rejection? key = none ↔
      key.key ≠ [] ∧ key.key.length ≤ Record.maxShort ∧ ∀ last, w.lastKey = some last → last ≤ key := by
  unfold rejection?
  by_cases hempty : key.key = []
  · simp [hempty]
  rw [if_neg hempty]
  by_cases hlong : Record.maxShort < key.key.length
  · rw [if_pos hlong]
    simp [Nat.not_le_of_lt hlong]
  rw [if_neg hlong]
  have hle : key.key.length ≤ Record.maxShort := Nat.le_of_not_lt hlong
  rcases w.lastKey with - | last
  · simp [hempty, hle]
  · by_cases hlt : key < last
    · have hnot : ¬ last ≤ key := fun h => h hlt
      simp [hlt, hnot]
    · have hkey : last ≤ key := hlt
      simp [hempty, hle, hlt, hkey]

theorem rejection?_ne_io {key : DecoratedKey} {e : TableError} (h : w.rejection? key = some e) (io : IoError) :
    e ≠ .io io := by
  rintro rfl
  unfold rejection? at h
  split at h
  · cases h
  · split at h
    · cases h
    · split at h
      · split at h
        · cases h
        · cases h
      · cases h

theorem on_attempt_rejected {e : TableError} (h : w.rejection? a.key = some e) (v : Volume) :
    Work.on (w.attempt a) v = ((.error e, w), v) := by
  cases a with
  | encoded key row =>
      change Work.on (w.append key row) v = _
      unfold append
      rw [show w.rejection? key = some e from h]
      rfl
  | framed key row =>
      change Work.on (w.appendFramed key row) v = _
      unfold appendFramed
      rw [show w.rejection? key = some e from h]
      rfl
  | value key body =>
      change Work.on (w.appendValue key body) v = _
      unfold appendValue
      rw [show w.rejection? key = some e from h]
      rfl

/-- A body that is empty is rejected last, after the checks that all calls make. -/
theorem on_attempt_blank {key : DecoratedKey} (hkey : w.rejection? key = none) (v : Volume) :
    Work.on (w.attempt (.value key [])) v = ((.error .emptyValue, w), v) := by
  change Work.on (w.appendValue key []) v = _
  unfold appendValue
  rw [hkey]
  rfl

theorem result_of_passed (hkey : w.rejection? a.key = none) (hblank : ∀ key, a ≠ .value key []) (v : Volume) :
    (Work.on (w.attempt a) v).1.1 = a.verdict := by
  cases a with
  | encoded key row =>
      change (Work.on (w.append key row) v).1.1 = _
      unfold append
      rw [show w.rejection? key = none from hkey]
      rcases houtcome : row.outcome with e | n <;>
        simp only [Work.on_bind, Work.on_pure, Attempt.verdict, houtcome]
  | framed key row =>
      change (Work.on (w.appendFramed key row) v).1.1 = _
      unfold appendFramed
      rw [show w.rejection? key = none from hkey]
      rcases houtcome : row.outcome with e | n <;>
        simp only [Work.on_bind, Work.on_pure, Attempt.verdict, houtcome]
  | value key body =>
      have hbody : body ≠ [] := by
        rintro rfl
        exact hblank key rfl
      change (Work.on (w.appendValue key body) v).1.1 = _
      unfold appendValue
      rw [show w.rejection? key = none from hkey]
      dsimp only
      rw [if_neg hbody]
      simp only [Work.on_bind, Work.on_pure, Attempt.verdict]

/-! ### The bytes of a row

They go behind what the data holds, whatever that is. -/

section Pieces

variable {p : Place} {bytes : Bytes} {key : DecoratedKey}

theorem on_writeKey (h : w.data.Holds v.disk p bytes) (hend : w.data.position = bytes.length)
    (key : DecoratedKey) :
    ∃ data v', Work.on (w.writeKey key) v = (data, v') ∧
      data.Holds v'.disk p (bytes ++ Record.short key.key) ∧
      data.position = (bytes ++ Record.short key.key).length ∧ v.disk.SameBut [p] v'.disk := by
  have hpieces := Output.on_writePieces_end h hend (Record.shortPieces key.key)
  rw [Record.flatten_shortPieces] at hpieces
  exact hpieces

theorem on_appendValue_accepted (h : w.data.Holds v.disk p bytes) (hend : w.data.position = bytes.length)
    (hkey : w.rejection? key = none) {body : Bytes} (hbody : body ≠ []) :
    ∃ data v₁, Work.on (w.appendValue key body) v = Work.on
        (do return (.ok (), ← ({ w with data } : Writer).indexRow key w.filePointer none)) v₁ ∧
      data.Holds v₁.disk p (bytes ++ (⟨key, body, none⟩ : AppendedRow).bytes) ∧
      data.position = (bytes ++ (⟨key, body, none⟩ : AppendedRow).bytes).length ∧ v.disk.SameBut [p] v₁.disk := by
  obtain ⟨data₁, v₁, hrun₁, hholds₁, hend₁, hsame₁⟩ := on_writeKey h hend key
  obtain ⟨data₂, v₂, hrun₂, hholds₂, hend₂, hsame₂⟩ := Output.on_write_end hholds₁ hend₁
    (BigEndian.encodeInt Record.rowSizeBytes body.length)
  obtain ⟨data₃, v₃, hrun₃, hholds₃, hend₃, hsame₃⟩ := Output.on_write_end hholds₂ hend₂ body
  have hrow : bytes ++ Record.short key.key ++ BigEndian.encodeInt Record.rowSizeBytes body.length ++ body =
      bytes ++ (⟨key, body, none⟩ : AppendedRow).bytes := by
    simp only [AppendedRow.bytes, Record.row, List.append_assoc]
  rw [hrow] at hholds₃ hend₃
  refine ⟨data₃, v₃, ?_, hholds₃, hend₃, (hsame₁.trans hsame₂).trans hsame₃⟩
  unfold appendValue
  rw [hkey]
  dsimp only
  rw [if_neg hbody, Work.on_bind_of hrun₁, Work.on_bind_of hrun₂, Work.on_bind_of hrun₃]

theorem on_appendFramed_accepted (h : w.data.Holds v.disk p bytes) (hend : w.data.position = bytes.length)
    (hkey : w.rejection? key = none) (row : Encoding) :
    ∃ data v₁, Work.on (w.appendFramed key row) v = Work.on (match row.outcome with
        | .error e => return (.error (.io (.encode e)), { w with data })
        | .ok n => return (.ok (), ← ({ w with data } : Writer).indexRow key w.filePointer (some n))) v₁ ∧
      data.Holds v₁.disk p (bytes ++ (Record.short key.key ++ row.written)) ∧
      data.position = (bytes ++ (Record.short key.key ++ row.written)).length ∧ v.disk.SameBut [p] v₁.disk := by
  obtain ⟨data₁, v₁, hrun₁, hholds₁, hend₁, hsame₁⟩ := on_writeKey h hend key
  obtain ⟨data₂, v₂, hrun₂, hholds₂, hend₂, hsame₂⟩ := Output.on_writePieces_end hholds₁ hend₁ row.pieces
  rw [List.append_assoc] at hholds₂ hend₂
  refine ⟨data₂, v₂, ?_, hholds₂, hend₂, hsame₁.trans hsame₂⟩
  unfold appendFramed
  rw [hkey]
  dsimp only
  rw [Work.on_bind_of hrun₁]
  exact Work.on_bind_of hrun₂

/-- The placeholder stays in the data if the encoder gives up. -/
theorem on_append_refused (h : w.data.Holds v.disk p bytes) (hend : w.data.position = bytes.length)
    (hkey : w.rejection? key = none) {row : Encoding} {e : EncodeError} (houtcome : row.outcome = .error e) :
    ∃ data v₁, Work.on (w.append key row) v = ((.error (.io (.encode e)), { w with data }), v₁) ∧
      data.Holds v₁.disk p (bytes ++ (Record.short key.key ++
        BigEndian.encodeInt Record.rowSizeBytes Record.rowSizePlaceholder ++ row.written)) ∧
      data.position = (bytes ++ (Record.short key.key ++
        BigEndian.encodeInt Record.rowSizeBytes Record.rowSizePlaceholder ++ row.written)).length ∧
      v.disk.SameBut [p] v₁.disk := by
  obtain ⟨data₁, v₁, hrun₁, hholds₁, hend₁, hsame₁⟩ := on_writeKey h hend key
  obtain ⟨data₂, v₂, hrun₂, hholds₂, hend₂, hsame₂⟩ := Output.on_write_end hholds₁ hend₁
    (BigEndian.encodeInt Record.rowSizeBytes Record.rowSizePlaceholder)
  obtain ⟨data₃, v₃, hrun₃, hholds₃, hend₃, hsame₃⟩ :=
    Output.on_writePieces_end hholds₂ hend₂ row.pieces
  rw [List.append_assoc bytes, List.append_assoc bytes] at hholds₃ hend₃
  refine ⟨data₃, v₃, ?_, hholds₃, hend₃, (hsame₁.trans hsame₂).trans hsame₃⟩
  unfold append
  rw [hkey]
  dsimp only
  rw [Work.on_bind_of hrun₁, Work.on_bind_of hrun₂, Work.on_bind_of hrun₃, houtcome]
  rfl

/-- The length is patched over the placeholder, and the next row goes behind the body again. -/
theorem on_append_accepted (h : w.data.Holds v.disk p bytes) (hend : w.data.position = bytes.length)
    (hkey : w.rejection? key = none) {row : Encoding} {n : Nat} (houtcome : row.outcome = .ok n) :
    ∃ data v₁, Work.on (w.append key row) v = Work.on
        (do return (.ok (), ← ({ w with data } : Writer).indexRow key w.filePointer (some n))) v₁ ∧
      data.Holds v₁.disk p (bytes ++ (⟨key, row.written, some n⟩ : AppendedRow).bytes) ∧
      data.position = (bytes ++ (⟨key, row.written, some n⟩ : AppendedRow).bytes).length ∧
      v.disk.SameBut [p] v₁.disk := by
  obtain ⟨data₁, v₁, hrun₁, hholds₁, hend₁, hsame₁⟩ := on_writeKey h hend key
  obtain ⟨data₂, v₂, hrun₂, hholds₂, hend₂, hsame₂⟩ := Output.on_write_end hholds₁ hend₁
    (BigEndian.encodeInt Record.rowSizeBytes Record.rowSizePlaceholder)
  obtain ⟨data₃, v₃, hrun₃, hholds₃, hend₃, hsame₃⟩ :=
    Output.on_writePieces_end hholds₂ hend₂ row.pieces
  have hsize : data₃.position - (data₁.position + Record.rowSizeBytes) = row.written.length := by
    rw [hend₃, hend₁]
    simp only [List.length_append, BigEndian.length_encodeInt, Encoding.written]
    omega
  have hfinish : data₃.position = (bytes ++ Record.short key.key ++
      BigEndian.encodeInt Record.rowSizeBytes row.written.length ++ row.pieces.flatten).length := by
    rw [hend₃]
    simp only [List.length_append, BigEndian.length_encodeInt]
  obtain ⟨data₄, v₄, data₅, v₅, data₆, v₆, hrun₄, hrun₅, hrun₆, hholds₆, hend₆, hsame₆⟩ :=
    Output.on_patch hholds₃ ((BigEndian.length_encodeInt _ row.written.length).trans
      (BigEndian.length_encodeInt _ Record.rowSizePlaceholder).symm)
  have hrow : bytes ++ Record.short key.key ++ BigEndian.encodeInt Record.rowSizeBytes row.written.length ++
      row.pieces.flatten = bytes ++ (⟨key, row.written, some n⟩ : AppendedRow).bytes := by
    simp only [AppendedRow.bytes, Record.row, Encoding.written, List.append_assoc]
  rw [← hfinish] at hrun₆
  rw [hrow] at hholds₆ hend₆
  refine ⟨data₆, v₆, ?_, hholds₆, hend₆, ((hsame₁.trans hsame₂).trans hsame₃).trans hsame₆⟩
  unfold append
  rw [hkey]
  dsimp only
  rw [Work.on_bind_of hrun₁, Work.on_bind_of hrun₂, Work.on_bind_of hrun₃, houtcome]
  dsimp only
  rw [hsize, hend₁, Work.on_bind_of hrun₄, Work.on_bind_of hrun₅, Work.on_bind_of hrun₆]

end Pieces

/-- The two files of a writer hold these bytes, and what comes next goes behind them. -/
structure Stacked (p q : Place) (data index : Bytes) (w : Writer) (disk : Disk) : Prop where
  dataFile : w.data.Holds disk p data
  atEnd : w.data.position = data.length
  indexFile : w.index.Holds disk q index

variable {p q : Place} {data index : Bytes}

theorem Stacked.of_data (hne : p ≠ q) (h : w.Stacked p q data index v.disk) {o : Output} {more : Bytes}
    (hholds : o.Holds v'.disk p more) (hend : o.position = more.length) (hsame : v.disk.SameBut [p] v'.disk) :
    Stacked p q more index { w with data := o } v'.disk :=
  ⟨hholds, hend, h.indexFile.of_sameBut hsame (by simpa using hne.symm)⟩

theorem Stacked.on_drop (hne : p ≠ q) (h : w.Stacked p q data index v.disk) :
    ∃ v', Work.on w.drop v = ((), v') ∧ v'.disk.tree p = some (.file data) ∧ v'.disk.tree q = some (.file index) ∧
      v.disk.SameBut [p, q] v'.disk := by
  obtain ⟨v₁, hrun, hindex, hsame⟩ := IndexWriter.on_drop h.indexFile
  have hdata := h.dataFile.of_sameBut hsame (by simpa using hne)
  obtain ⟨o, v₂, hrun', hholds, hempty, -, hsame'⟩ := Output.on_flush hdata
  refine ⟨v₂, ?_, hholds.tree_eq hempty, ?_, (hsame.of_mem (by simp)).trans (hsame'.of_mem (by simp))⟩
  · rw [drop, Work.on_bind_of hrun, Work.on_bind_of hrun', Work.on_pure]
  · rw [hsame'.tree _ (by simpa using hne.symm), hindex]

theorem Stacked.on_indexRow (hne : p ≠ q) (h : w.Stacked p q data index v.disk) (key : DecoratedKey) (start : Nat)
    (columnCount : Option Nat) :
    ∃ w' v', Work.on (w.indexRow key start columnCount) v = (w', v') ∧
      w'.Stacked p q data (index ++ Record.index key.key start) v'.disk ∧ v.disk.SameBut [q] v'.disk ∧
      w' = { w with
        index := { w.index with
          output := w'.index.output
          filter := w.index.filter.insert key.key
          summary := w.index.summary.add key index.length
          segments := w.index.segments.offer index.length }
        lastKey := some key
        segments := w.segments.offer start
        rowSizes := w.rowSizes.add (data.length - start)
        columnCounts := columnCount.elim w.columnCounts w.columnCounts.add } := by
  obtain ⟨iw, v', hrun, hindex, hfields, hsame⟩ := IndexWriter.on_add h.indexFile key start
  refine ⟨_, v', Work.on_bind_of hrun, ⟨h.dataFile.of_sameBut hsame (by simpa using hne), h.atEnd, hindex⟩, hsame, ?_⟩
  rw [← h.atEnd]
  dsimp only
  rw [← hfields]

/-- The writer after a call that went well: some bytes are behind the data, and the index has a record of their key. -/
structure Indexed (p q : Place) (data index more : Bytes) (key : DecoratedKey) (columnCount : Option Nat)
    (w w' : Writer) (v v' : Volume) : Prop where
  stacked : w'.Stacked p q (data ++ more) (index ++ Record.index key.key data.length) v'.disk
  fields : w' = { w with
    data := w'.data
    index := { w.index with
      output := w'.index.output
      filter := w.index.filter.insert key.key
      summary := w.index.summary.add key index.length
      segments := w.index.segments.offer index.length }
    lastKey := some key
    segments := w.segments.offer data.length
    rowSizes := w.rowSizes.add more.length
    columnCounts := columnCount.elim w.columnCounts w.columnCounts.add }
  same : v.disk.SameBut [p, q] v'.disk

theorem Stacked.on_indexed (hne : p ≠ q) (h : w.Stacked p q data index v.disk) {more : Bytes} {o : Output}
    {v₁ : Volume} (hholds : o.Holds v₁.disk p (data ++ more)) (hend : o.position = (data ++ more).length)
    (hsame : v.disk.SameBut [p] v₁.disk) (key : DecoratedKey) (columnCount : Option Nat) :
    ∃ w' v', Work.on (({ w with data := o } : Writer).indexRow key w.filePointer columnCount) v₁ = (w', v') ∧
      Indexed p q data index more key columnCount w w' v v' := by
  obtain ⟨w', v', hrun, hstacked, hsame', hfields⟩ :=
    (h.of_data hne hholds hend hsame).on_indexRow hne key data.length columnCount
  have hsize : (data ++ more).length - data.length = more.length := by
    rw [List.length_append]
    omega
  have hdata : w'.data = o := by rw [hfields]
  rw [hsize, ← hdata] at hfields
  refine ⟨w', v', ?_, hstacked, hfields, (hsame.of_mem (by simp)).trans (hsame'.of_mem (by simp))⟩
  rw [filePointer, h.atEnd, hrun]

section Passed

variable (hne : p ≠ q) (h : w.Stacked p q data index v.disk) (hkey : w.rejection? a.key = none)
include hne h hkey

/-- A call that fails no check goes well if its encoder does. -/
theorem Stacked.on_attempt_ok (hencodes : a.Encodes) (hblank : ∀ key, a ≠ .value key []) :
    ∃ w' v', Work.on (w.attempt a) v = ((.ok (), w'), v') ∧
      Indexed p q data index a.written a.key a.row.columnCount w w' v v' := by
  cases a with
  | encoded key row =>
      change w.rejection? key = none at hkey
      obtain ⟨n, houtcome⟩ := hencodes
      have hcount : (Attempt.encoded key row).row.columnCount = some n := congrArg Except.toOption houtcome
      obtain ⟨o, v₁, happend, hholds, hend, hsame⟩ := on_append_accepted h.dataFile h.atEnd hkey houtcome
      obtain ⟨w', v', hrun, hindexed⟩ := h.on_indexed hne hholds hend hsame key (some n)
      refine ⟨w', v', ?_, hcount ▸ hindexed⟩
      change Work.on (w.append key row) v = _
      rw [happend, Work.on_bind_of hrun, Work.on_pure]
  | framed key row =>
      change w.rejection? key = none at hkey
      obtain ⟨n, houtcome⟩ := hencodes
      have hcount : (Attempt.framed key row).row.columnCount = some n := congrArg Except.toOption houtcome
      obtain ⟨o, v₁, happend, hholds, hend, hsame⟩ := on_appendFramed_accepted h.dataFile h.atEnd hkey row
      obtain ⟨w', v', hrun, hindexed⟩ := h.on_indexed hne hholds hend hsame key (some n)
      refine ⟨w', v', ?_, hcount ▸ hindexed⟩
      change Work.on (w.appendFramed key row) v = _
      rw [happend, houtcome]
      change Work.on (indexRow _ key w.filePointer (some n) >>= _) v₁ = _
      rw [Work.on_bind_of hrun, Work.on_pure]
  | value key body =>
      change w.rejection? key = none at hkey
      have hbody : body ≠ [] := by
        rintro rfl
        exact hblank key rfl
      obtain ⟨o, v₁, happend, hholds, hend, hsame⟩ := on_appendValue_accepted h.dataFile h.atEnd hkey hbody
      obtain ⟨w', v', hrun, hindexed⟩ := h.on_indexed hne hholds hend hsame key none
      refine ⟨w', v', ?_, hindexed⟩
      change Work.on (w.appendValue key body) v = _
      rw [happend, Work.on_bind_of hrun, Work.on_pure]

/-- What an encoder has written before it gives up stays in the data. -/
theorem Stacked.on_attempt_torn (hencodes : ¬ a.Encodes) :
    ∃ (e : EncodeError) (o : Output) (v' : Volume),
      Work.on (w.attempt a) v = ((.error (.io (.encode e)), { w with data := o }), v') ∧
      Stacked p q (data ++ a.begun) index { w with data := o } v'.disk ∧ v.disk.SameBut [p] v'.disk ∧
        a.begun ≠ [] := by
  cases a with
  | encoded key row =>
      change w.rejection? key = none at hkey
      rcases houtcome : row.outcome with e | n
      case ok => exact absurd ⟨n, houtcome⟩ hencodes
      obtain ⟨o, v', happend, hholds, hend, hsame⟩ := on_append_refused h.dataFile h.atEnd hkey houtcome
      refine ⟨e, o, v', happend, h.of_data hne hholds hend hsame, hsame, ?_⟩
      rw [Attempt.begun, List.append_assoc]
      exact Record.short_append_ne_nil _ _
  | framed key row =>
      change w.rejection? key = none at hkey
      rcases houtcome : row.outcome with e | n
      case ok => exact absurd ⟨n, houtcome⟩ hencodes
      obtain ⟨o, v', happend, hholds, hend, hsame⟩ := on_appendFramed_accepted h.dataFile h.atEnd hkey row
      refine ⟨e, o, v', ?_, h.of_data hne hholds hend hsame, hsame, Record.short_append_ne_nil _ _⟩
      change Work.on (w.appendFramed key row) v = _
      rw [happend, houtcome]
      rfl
  | value key body => exact absurd trivial hencodes

end Passed

/-- What has become of a writer and its volume by a call. -/
inductive Attempted (p q : Place) (data index : Bytes) (a : Attempt) (w : Writer) (v : Volume) :
    Except TableError Unit → Writer → Volume → Prop
  /-- A check has failed. -/
  | rejected {e : TableError} (check : ∀ io, e ≠ .io io) : Attempted p q data index a w v (.error e) w v
  /-- The encoder has given up. -/
  | torn {e : IoError} {w' : Writer} {v' : Volume} (passed : w.rejection? a.key = none)
      (stacked : w'.Stacked p q (data ++ a.begun) index v'.disk) (fields : w' = { w with data := w'.data })
      (same : v.disk.SameBut [p] v'.disk) (wrote : a.begun ≠ []) :
      Attempted p q data index a w v (.error (.io e)) w' v'
  | accepted {w' : Writer} {v' : Volume} (passed : w.rejection? a.key = none) (encodes : a.Encodes)
      (indexed : Indexed p q data index a.written a.key a.row.columnCount w w' v v') :
      Attempted p q data index a w v (.ok ()) w' v'

theorem Stacked.on_attempt (hne : p ≠ q) (h : w.Stacked p q data index v.disk) (a : Attempt)
    {result : Except TableError Unit} (hrun : Work.on (w.attempt a) v = ((result, w'), v')) :
    Attempted p q data index a w v result w' v' := by
  rcases hkey : w.rejection? a.key with - | e
  case some =>
    rw [on_attempt_rejected hkey] at hrun
    cases hrun
    exact .rejected (rejection?_ne_io hkey)
  by_cases hencodes : a.Encodes
  · by_cases hblank : ∃ key, a = .value key []
    · obtain ⟨key, rfl⟩ := hblank
      change w.rejection? key = none at hkey
      rw [on_attempt_blank hkey] at hrun
      cases hrun
      exact .rejected (by simp)
    · obtain ⟨w'', v'', hrun', hindexed⟩ :=
        h.on_attempt_ok hne hkey hencodes fun key heq => hblank ⟨key, heq⟩
      rw [hrun] at hrun'
      cases hrun'
      exact .accepted hkey hencodes hindexed
  · obtain ⟨e, o, v'', hrun', hstacked, hsame, hwrote⟩ := h.on_attempt_torn hne hkey hencodes
    rw [hrun] at hrun'
    cases hrun'
    exact .torn hkey hstacked rfl hsame hwrote

end Writer

end SortedTable
