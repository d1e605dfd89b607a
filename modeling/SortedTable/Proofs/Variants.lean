import SortedTable.Proofs.CommitPoint
import SortedTable.Proofs.FailedAppends

namespace SortedTable.Writer

/-- A writer that was made on these terms has come to this state, by calls that may have failed. -/
def Terms.Leads (t : Terms) (w : Writer) (v : Volume) : Prop :=
  ∃ v₀ w₀ v₁ log, t.create.on v₀ = (.ok w₀, v₁) ∧ Attempts w₀ v₁ log w v

variable {p q : Place} {data index : Bytes} {w w' : Writer} {v v' : Volume} {t : Terms}

/-- The writer after a row has been appended: what each part of it has become. -/
structure Appended (p q : Place) (data index : Bytes) (w : Writer) (v : Volume) (r : AppendedRow) (w' : Writer)
    (v' : Volume) : Prop where
  stacked : w'.Stacked p q (data ++ r.bytes) (index ++ Record.index r.key.key data.length) v'.disk
  fields : w' = { w with
    data := w'.data
    index := { w.index with
      output := w'.index.output
      filter := w.index.filter.insert r.key.key
      summary := w.index.summary.add r.key index.length
      segments := w.index.segments.offer index.length }
    lastKey := some r.key
    segments := w.segments.offer data.length
    rowSizes := w.rowSizes.add r.bytes.length
    columnCounts := r.columnCount.elim w.columnCounts w.columnCounts.add }
  same : v.disk.SameBut [p, q] v'.disk

section Accepted

variable {key : DecoratedKey} (hne : p ≠ q) (h : w.Stacked p q data index v.disk)
include hne h

theorem appended_of_attempt {a : Attempt} (hkey : w.rejection? a.key = none) (hencodes : a.Encodes)
    (hframed : a.WellFramed) (hblank : ∀ key, a ≠ .value key []) :
    ∃ w' v', Work.on (w.attempt a) v = ((.ok (), w'), v') ∧ Appended p q data index w v a.row w' v' := by
  obtain ⟨w', v', hrun, hindexed⟩ := h.on_attempt_ok hne hkey hencodes hblank
  rw [Attempt.written_eq_bytes hframed hencodes, ← a.key_row] at hindexed
  exact ⟨w', v', hrun, hindexed.stacked, hindexed.fields, hindexed.same⟩

variable (hkey : w.rejection? key = none)
include hkey

theorem appended_of_append {row : Encoding} {columnCount : Nat} (houtcome : row.outcome = .ok columnCount) :
    ∃ w' v', Work.on (w.append key row) v = ((.ok (), w'), v') ∧
      Appended p q data index w v ⟨key, row.written, some columnCount⟩ w' v' := by
  have hrow : (Attempt.encoded key row).row = ⟨key, row.written, some columnCount⟩ := by
    rw [Attempt.row, houtcome]
    rfl
  rw [← hrow]
  exact appended_of_attempt hne h (a := .encoded key row) hkey ⟨columnCount, houtcome⟩ trivial (by simp)

theorem appended_of_appendFramed (body : Bytes) (columnCount : Nat) :
    ∃ w' v', Work.on (w.appendFramed key (.framed body columnCount)) v = ((.ok (), w'), v') ∧
      Appended p q data index w v ⟨key, body, some columnCount⟩ w' v' := by
  rw [← Attempt.row_framed]
  exact appended_of_attempt hne h (a := .framed key _) hkey ⟨columnCount, rfl⟩ (.framed key body columnCount) (by simp)

theorem appended_of_appendValue {body : Bytes} (hbody : body ≠ []) :
    ∃ w' v', Work.on (w.appendValue key body) v = ((.ok (), w'), v') ∧
      Appended p q data index w v ⟨key, body, none⟩ w' v' :=
  appended_of_attempt hne h (a := .value key body) hkey trivial trivial (by simpa using hbody)

end Accepted

/-- A call leaves the writer such that the next one goes behind what it has left, also where it fails. -/
theorem Stacked.attempt (hne : p ≠ q) (h : w.Stacked p q data index v.disk) (a : Attempt)
    {result : Except TableError Unit} (hrun : Work.on (w.attempt a) v = ((result, w'), v')) :
    ∃ data' index', w'.Stacked p q data' index' v'.disk := by
  cases h.on_attempt hne a hrun with
  | rejected _ => exact ⟨_, _, h⟩
  | torn _ hstacked _ _ _ => exact ⟨_, _, hstacked⟩
  | accepted _ _ hindexed => exact ⟨_, _, hindexed.stacked⟩

theorem Stacked.attempts (hne : p ≠ q) {log : List Answer} (hruns : Attempts w v log w' v')
    (h : w.Stacked p q data index v.disk) : ∃ data' index', w'.Stacked p q data' index' v'.disk := by
  induction hruns generalizing data index with
  | nil w v => exact ⟨data, index, h⟩
  | cons first _ ih =>
      obtain ⟨data', index', hfirst⟩ := h.attempt hne _ first
      exact ih hfirst

/-- The two files of a new writer are different ones, whatever the table is called. -/
theorem Terms.stacked_create (hrun : t.create.on v = (.ok w, v')) :
    (t.descriptor.pathOf .data).home ≠ (t.descriptor.pathOf .primaryIndex).home ∧
      w.Stacked (t.descriptor.pathOf .data).home (t.descriptor.pathOf .primaryIndex).home [] [] v'.disk := by
  obtain ⟨-, -, indexId, disk₁, dataId, disk₂, hindex, hdata, rfl, rfl⟩ := Terms.create_eq_ok_iff.mp hrun
  have hne : (t.descriptor.pathOf .data).home ≠ (t.descriptor.pathOf .primaryIndex).home :=
    t.descriptor.home_ne t.descriptor (by decide)
  obtain ⟨hnode₁, -, -, htree₁⟩ := Disk.create_eq_ok hindex
  obtain ⟨hnode₂, hnodes₂, -, htree₂⟩ := Disk.create_eq_ok hdata
  have hempty : disk₂.tree (t.descriptor.pathOf .primaryIndex).home = some (.file []) := by
    rw [htree₂, Tree.put_of_ne hne.symm, htree₁, Tree.put_self]
  refine ⟨hne, Output.holds_create hnode₂ ?_, rfl, Output.holds_create ?_ hempty, rfl⟩
  · rw [Volume.disk_step, htree₂, Tree.put_self]
  · exact (hnodes₂ _ hne.symm).trans hnode₁

theorem Terms.Leads.stacked (h : t.Leads w v) : ∃ p q data index, p ≠ q ∧ w.Stacked p q data index v.disk := by
  obtain ⟨v₀, w₀, v₁, log, hcreate, hruns⟩ := h
  obtain ⟨hne, hstart⟩ := t.stacked_create hcreate
  obtain ⟨data, index, hstacked⟩ := hstart.attempts hne hruns
  exact ⟨_, _, data, index, hne, hstacked⟩

/-- An output that goes on at the same place of the same file, which holds the same bytes with the buffer. -/
structure Alike.Outputs (o o' : Output) (disk disk' : Disk) : Prop where
  file : o'.file = o.file
  position : o'.position = o.position
  image : o'.image disk' = o.image disk

/-- Two writers that differ at most in how much of their files is still in the buffers. -/
structure Alike (w w' : Writer) (v v' : Volume) : Prop where
  descriptor : w'.descriptor = w.descriptor
  metadata : w'.metadata = w.metadata
  partitioner : w'.partitioner = w.partitioner
  lastKey : w'.lastKey = w.lastKey
  data : Alike.Outputs w.data w'.data v.disk v'.disk
  index : Alike.Outputs w.index.output w'.index.output v.disk v'.disk
  indexDescriptor : w'.index.descriptor = w.index.descriptor
  filter : w'.index.filter = w.index.filter
  summary : w'.index.summary = w.index.summary
  segments : w'.segments = w.segments
  indexSegments : w'.index.segments = w.index.segments
  rowSizes : w'.rowSizes = w.rowSizes
  columnCounts : w'.columnCounts = w.columnCounts
  /-- Once the buffers are written, the disks show the same everywhere. -/
  tree : (Work.on w'.drop v').2.disk.tree = (Work.on w.drop v).2.disk.tree

theorem Alike.refl (w : Writer) (v : Volume) : Alike w w v v := by
  constructor
  case data => exact ⟨rfl, rfl, rfl⟩
  case index => exact ⟨rfl, rfl, rfl⟩
  all_goals rfl

/-- Files that hold the same bytes on disks that are otherwise the same look the same when the buffers are written. -/
theorem tree_drop_eq (hne : p ≠ q) {w₁ w₂ : Writer} {v₁ v₂ : Volume} (h₁ : w₁.Stacked p q data index v₁.disk)
    (h₂ : w₂.Stacked p q data index v₂.disk) (hsame₁ : v.disk.SameBut [p, q] v₁.disk)
    (hsame₂ : v.disk.SameBut [p, q] v₂.disk) :
    (Work.on w₂.drop v₂).2.disk.tree = (Work.on w₁.drop v₁).2.disk.tree := by
  obtain ⟨v₁', hrun₁, hdata₁, hindex₁, hdrop₁⟩ := h₁.on_drop hne
  obtain ⟨v₂', hrun₂, hdata₂, hindex₂, hdrop₂⟩ := h₂.on_drop hne
  rw [hrun₁, hrun₂]
  ext1 place
  by_cases hplace : place ∈ [p, q]
  · rw [List.mem_cons, List.mem_singleton] at hplace
    rcases hplace with rfl | rfl
    · rw [hdata₁, hdata₂]
    · rw [hindex₁, hindex₂]
  · rw [hdrop₂.tree place hplace, hsame₂.tree place hplace, hdrop₁.tree place hplace, hsame₁.tree place hplace]

theorem Alike.Outputs.of_holds {o o' : Output} {disk disk₁ disk₂ : Disk} {places : List Place} {bytes : Bytes}
    (h : o.Holds disk₁ p bytes) (h' : o'.Holds disk₂ p bytes) (hsame₁ : disk.SameBut places disk₁)
    (hsame₂ : disk.SameBut places disk₂) (hposition : o'.position = o.position) : Outputs o o' disk₁ disk₂ := by
  refine ⟨?_, hposition, h'.image.trans h.image.symm⟩
  have hnode := h'.node
  rw [hsame₂.nodes, ← hsame₁.nodes, h.node] at hnode
  exact (Node.file.inj (Option.some.inj hnode)).symm

/-- Two ways of appending the same bytes leave the same, up to the column count that one of them adds. -/
theorem Appended.alike (hne : p ≠ q) {key : DecoratedKey} {body : Bytes} {count count' : Option Nat} {w₁ w₂ : Writer}
    {v₁ v₂ : Volume} (h₁ : Appended p q data index w v ⟨key, body, count⟩ w₁ v₁)
    (h₂ : Appended p q data index w v ⟨key, body, count'⟩ w₂ v₂) :
    Alike { w₁ with columnCounts := w₂.columnCounts } w₂ v₁ v₂ := by
  have htree := tree_drop_eq hne h₁.stacked h₂.stacked h₁.same h₂.same
  constructor
  case tree => exact htree
  case data =>
    refine .of_holds h₁.stacked.dataFile h₂.stacked.dataFile h₁.same h₂.same ?_
    exact h₂.stacked.atEnd.trans h₁.stacked.atEnd.symm
  case index =>
    refine .of_holds h₁.stacked.indexFile.output h₂.stacked.indexFile.output h₁.same h₂.same ?_
    exact h₂.stacked.indexFile.atEnd.trans h₁.stacked.indexFile.atEnd.symm
  case columnCounts => rfl
  case rowSizes =>
    rw [h₁.fields, h₂.fields]
    rfl
  all_goals
    rw [h₁.fields, h₂.fields]

/-- In every state of a writer, a row that is encoded on the way and one that was encoded before are accepted alike,
and leave the same writer with the row behind all that was there. A body that is not empty goes the same way, except
that its columns are not counted. -/
theorem append_variants_agree (h : t.Leads w v) (key : DecoratedKey) (row : Encoding) {columnCount : Nat}
    (houtcome : row.outcome = .ok columnCount) :
    ∃ result w₁ v₁ w₂ v₂,
      Work.on (w.append key row) v = ((result, w₁), v₁) ∧
      Work.on (w.appendFramed key (.framed row.written columnCount)) v = ((result, w₂), v₂) ∧
      (result = .ok () ↔ w.rejection? key = none) ∧ Alike w₁ w₂ v₁ v₂ ∧
      (result = .ok () →
        w₁.data.image v₁.disk = w.data.image v.disk ++ Record.row key.key row.written ∧
        w₁.index.output.image v₁.disk = w.index.output.image v.disk ++ Record.index key.key w.filePointer ∧
        w₁.filePointer = w.filePointer + (Record.row key.key row.written).length ∧
        w₁.columnCounts = w.columnCounts.add columnCount) ∧
      (row.written ≠ [] → ∃ w₃ v₃, Work.on (w.appendValue key row.written) v = ((result, w₃), v₃) ∧
        Alike { w₁ with columnCounts := w.columnCounts } w₃ v₁ v₃) := by
  obtain ⟨p, q, data, index, hne, hstacked⟩ := h.stacked
  rcases hkey : w.rejection? key with - | e
  · obtain ⟨w₁, v₁, hencoded, h₁⟩ := appended_of_append hne hstacked hkey houtcome
    obtain ⟨w₂, v₂, hframed, h₂⟩ := appended_of_appendFramed hne hstacked hkey row.written columnCount
    have hcounts₁ : w₁.columnCounts = w.columnCounts.add columnCount := by rw [h₁.fields]; rfl
    have hcounts₂ : w₂.columnCounts = w₁.columnCounts := by rw [h₂.fields, hcounts₁]; rfl
    have halike := h₁.alike hne h₂
    rw [hcounts₂] at halike
    refine ⟨.ok (), w₁, v₁, w₂, v₂, hencoded, hframed, by simp, halike, fun _ => ⟨?_, ?_, ?_, hcounts₁⟩,
      fun hbody => ?_⟩
    · rw [h₁.stacked.dataFile.image, hstacked.dataFile.image]
      rfl
    · rw [h₁.stacked.indexFile.output.image, hstacked.indexFile.output.image, filePointer, hstacked.atEnd]
    · rw [filePointer, filePointer, h₁.stacked.atEnd, hstacked.atEnd, List.length_append]
      rfl
    · obtain ⟨w₃, v₃, hvalue, h₃⟩ := appended_of_appendValue hne hstacked hkey hbody
      have hcounts₃ : w₃.columnCounts = w.columnCounts := by rw [h₃.fields]; rfl
      have halike' := h₁.alike hne h₃
      rw [hcounts₃] at halike'
      exact ⟨w₃, v₃, hvalue, halike'⟩
  · refine ⟨.error e, w, v, w, v, on_attempt_rejected (a := .encoded key row) hkey v,
      on_attempt_rejected (a := .framed key _) hkey v, by simp, .refl w v, fun hok => ?_, fun _ => ?_⟩
    · cases hok
    · exact ⟨w, v, on_attempt_rejected (a := .value key row.written) hkey v, .refl w v⟩

/-- A new table takes the body `xy` of two columns in each of the three ways. -/
theorem append_variants_agree_users :
    ∃ v w₁ v₁ w₂ v₂ w₃ v₃, Terms.users.create.on .new = (.ok (Terms.users.start 0 1), v) ∧
      Work.on ((Terms.users.start 0 1).append (.byteOrdered [97]) ⟨[[120], [121]], .ok 2⟩) v = ((.ok (), w₁), v₁) ∧
      Work.on ((Terms.users.start 0 1).appendFramed (.byteOrdered [97]) (.framed [120, 121] 2)) v =
        ((.ok (), w₂), v₂) ∧
      Work.on ((Terms.users.start 0 1).appendValue (.byteOrdered [97]) [120, 121]) v = ((.ok (), w₃), v₃) ∧
      Alike w₁ w₂ v₁ v₂ ∧ Alike { w₁ with columnCounts := .columnCounts } w₃ v₁ v₃ := by
  have hleads : Terms.users.Leads (Terms.users.start 0 1) _ := ⟨_, _, _, [], Terms.create_users, .nil _ _⟩
  obtain ⟨result, w₁, v₁, w₂, v₂, hencoded, hframed, hok, halike, -, hvalue⟩ :=
    append_variants_agree hleads (.byteOrdered [97]) ⟨[[120], [121]], .ok 2⟩ rfl
  obtain rfl := hok.mpr (by decide)
  obtain ⟨w₃, v₃, hvalue, halike'⟩ := hvalue (by decide)
  exact ⟨_, w₁, v₁, w₂, v₂, w₃, v₃, Terms.create_users, hencoded, hframed, hvalue, halike, halike'⟩

end SortedTable.Writer
