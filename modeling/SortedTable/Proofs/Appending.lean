import SortedTable.Proofs.Counting
import SortedTable.Proofs.Membership
import SortedTable.Proofs.Naming
import SortedTable.Proofs.Stacking

/-!
# Appending rows

A writer, its two files and the rows that were appended stay in step: each successful call adds one row to
the data and one record to the index, in whichever of the three ways the row is appended. Main statements:
`Wrote.call`, `Wrote.appends`.
-/

namespace SortedTable

theorem Partitioner.key_decorate (partitioner : Partitioner) (key : Bytes) :
    (partitioner.decorate key).key = key := rfl

namespace Reader.IndexPass

def addRow (pass : IndexPass) (row : DecoratedKey × Nat) : IndexPass where
  position := pass.position + Record.indexSize row.1.key
  summary := pass.summary.add row.1 pass.position
  index := pass.index.offer pass.position
  data := pass.data.offer row.2

theorem add_eq_addRow (partitioner : Partitioner) (pass : IndexPass) (entry : Bytes × Nat) :
    add partitioner pass entry = pass.addRow (partitioner.decorate entry.1, entry.2) := by
  rw [addRow, Partitioner.key_decorate]
  rfl

theorem keysWritten_foldl_addRow (pass : IndexPass) (rows : List (DecoratedKey × Nat)) :
    (rows.foldl addRow pass).summary.keysWritten = pass.summary.keysWritten + rows.length := by
  induction rows generalizing pass with
  | nil => rfl
  | cons row rest ih =>
      rw [List.foldl_cons, ih, List.length_cons]
      change pass.summary.keysWritten + 1 + rest.length = _
      omega

end Reader.IndexPass

theorem Output.create_eq_ok_iff {v v' : Volume} {path : Path} {capacity : Nat} {o : Output} :
    (Output.create path capacity).op.on v = (.ok o, v') ↔
      ∃ id disk, v.disk.create path = .ok (id, disk) ∧ o = ⟨id, capacity, 0, .empty⟩ ∧
        v' = v.step disk := by
  rw [Action.on_op_eq_ok_iff, Output.create, Action.on_bind_eq_ok_iff]
  constructor
  · rintro ⟨id, v₁, hcreate, hpure⟩
    obtain ⟨disk, hdisk, rfl⟩ := Action.on_change_eq_ok_iff.mp hcreate
    cases hpure
    exact ⟨id, disk, hdisk, rfl, rfl⟩
  · rintro ⟨id, disk, hdisk, rfl, rfl⟩
    exact ⟨id, v.step disk, Action.on_change_ok hdisk, rfl⟩

theorem IndexWriter.create_eq_ok_iff {w : IndexWriter} {v v' : Volume} {d : Descriptor} {keyCount : Nat}
    {config : Config} :
    (IndexWriter.create d keyCount config).on v = (.ok w, v') ↔
      ∃ id disk, v.disk.create (d.pathOf .primaryIndex) = .ok (id, disk) ∧
        w = {
          descriptor := d
          output := ⟨id, config.indexBufferBytes, 0, .empty⟩
          segments := .empty config.indexAccess config.maxSegmentSize
          summary := .empty config.indexInterval
          filter := .sized (max 1 keyCount) config.falsePositiveRate } ∧ v' = v.step disk := by
  rw [IndexWriter.create, Action.on_bind_eq_ok_iff]
  constructor
  · rintro ⟨o, v₁, hcreate, hpure⟩
    obtain ⟨id, disk, hdisk, rfl, rfl⟩ := Output.create_eq_ok_iff.mp hcreate
    cases hpure
    exact ⟨id, disk, hdisk, rfl, rfl⟩
  · rintro ⟨id, disk, hdisk, rfl, rfl⟩
    exact ⟨_, v.step disk, Output.create_eq_ok_iff.mpr ⟨id, disk, hdisk, rfl, rfl⟩, rfl⟩

namespace Writer

open AppendedRow

/-- What a writer is started with. -/
structure Terms where
  descriptor : Descriptor
  keyCount : Nat
  metadata : TableMetadata
  partitioner : Partitioner
  config : Config

def Terms.create (t : Terms) : Action TableError Writer :=
  Writer.create t.descriptor t.keyCount t.metadata t.partitioner t.config

def Terms.filter (t : Terms) : FilterBuilder := .sized (max 1 t.keyCount) t.config.falsePositiveRate

def pass (w : Writer) : Reader.IndexPass :=
  ⟨w.index.output.position, w.index.summary, w.index.segments, w.segments⟩

/-- The state of a writer that has written these rows and nothing else. -/
structure Wrote (t : Terms) (rows : List AppendedRow) (w : Writer) (disk : Disk) : Prop where
  descriptor : w.descriptor = t.descriptor
  metadata : w.metadata = t.metadata
  partitioner : w.partitioner = t.partitioner
  indexDescriptor : w.index.descriptor = t.descriptor
  filter : w.index.filter = t.filter.insertAll (rows.map (·.key.key))
  pass : w.pass = (placedFrom 0 rows).foldl Reader.IndexPass.addRow (.start t.config)
  lastKey : w.lastKey = rows.getLast?.map (·.key)
  rowSizes : w.rowSizes = Histogram.rowSizes.addAll (rows.map size)
  columnCounts : w.columnCounts = Histogram.columnCounts.addAll (rows.filterMap (·.columnCount))
  accepted : ∀ r ∈ rows, r.key.key ≠ [] ∧ r.key.key.length ≤ Record.maxShort
  ascending : rows.Pairwise fun a b => a.key ≤ b.key
  data : w.data.Holds disk (t.descriptor.place .data) (dataBytes rows)
  dataEnd : w.data.position = (dataBytes rows).length
  index : w.index.Holds disk (t.descriptor.place .primaryIndex) (indexBytes rows)

theorem Wrote.of_frame {t : Terms} {rows : List AppendedRow} {w : Writer} {disk disk' : Disk}
    {outside : Place → Prop} (h : w.Wrote t rows disk) (hframe : disk.Frame outside disk')
    (hplaces : ∀ c, outside (t.descriptor.place c)) : w.Wrote t rows disk' :=
  { h with
    data := h.data.of_frame hframe (hplaces .data)
    index := h.index.of_frame hframe (hplaces .primaryIndex) }

/-- A way of appending a row. -/
inductive Call where
  /-- A row that is encoded on the way. -/
  | encoded (key : DecoratedKey) (row : Encoding)
  /-- A row that was encoded before, with its length in front. -/
  | framed (key : DecoratedKey) (body : Bytes) (columnCount : Nat)
  /-- A body whose columns are not counted. -/
  | value (key : DecoratedKey) (body : Bytes)

def Call.row : Call → AppendedRow
  | encoded key row => ⟨key, row.written, row.outcome.toOption⟩
  | framed key body columnCount => ⟨key, body, some columnCount⟩
  | value key body => ⟨key, body, none⟩

def call (w : Writer) : Call → Work (Except TableError Unit × Writer)
  | .encoded key row => w.append key row
  | .framed key body columnCount => w.appendFramed key (.framed body columnCount)
  | .value key body => w.appendValue key body

/-- A writer and a volume lead to others by some calls that succeed one after the other. -/
inductive Appends : Writer → Volume → List Call → Writer → Volume → Prop
  | nil (w : Writer) (v : Volume) : Appends w v [] w v
  | cons {w w' w'' : Writer} {v v' v'' : Volume} {c : Call} {calls : List Call}
      (first : Work.on (w.call c) v = ((.ok (), w'), v')) (rest : Appends w' v' calls w'' v'') :
      Appends w v (c :: calls) w'' v''

variable {t : Terms} {rows : List AppendedRow} {w w' : Writer} {v v' : Volume}

def Terms.places (t : Terms) : List Place :=
  [t.descriptor.place .data, t.descriptor.place .primaryIndex]

theorem data_ne_index (hd : t.descriptor.Valid) :
    t.descriptor.place .data ≠ t.descriptor.place .primaryIndex :=
  Descriptor.place_ne_place hd (by decide)

theorem ascending_concat {α : Type} {key : α → DecoratedKey} {xs : List α} {x : α}
    (h : xs.Pairwise fun a b => key a ≤ key b) (hlast : ∀ last, xs.getLast? = some last → key last ≤ key x) :
    (xs ++ [x]).Pairwise fun a b => key a ≤ key b := by
  rw [List.pairwise_append]
  refine ⟨h, List.pairwise_singleton _ _, fun a ha b hb => ?_⟩
  rw [List.mem_singleton] at hb
  subst hb
  have hne : xs ≠ [] := List.ne_nil_of_mem ha
  have hle := hlast (xs.getLast hne) (List.getLast?_eq_some_getLast hne)
  rw [← List.dropLast_concat_getLast hne, List.mem_append, List.mem_singleton] at ha
  rcases ha with ha | rfl
  · rw [← List.dropLast_concat_getLast hne, List.pairwise_append] at h
    exact DecoratedKey.le_trans (h.2.2 a ha _ (List.mem_singleton_self _)) hle
  · exact hle

theorem Indexed.pass {p q : Place} {data index more : Bytes} {key : DecoratedKey} {columnCount : Option Nat}
    (h : w.Stacked p q data index v.disk) (hindexed : Indexed p q data index more key columnCount w w' v v') :
    w'.pass = w.pass.addRow (key, data.length) := by
  have hposition : w'.index.output.position = w.index.output.position + Record.indexSize key.key := by
    rw [hindexed.stacked.indexFile.atEnd, h.indexFile.atEnd, List.length_append, Record.length_index]
  rw [Writer.pass, hposition, hindexed.fields, ← h.indexFile.atEnd]
  rfl

theorem Wrote.stacked (h : w.Wrote t rows v.disk) :
    w.Stacked (t.descriptor.place .data) (t.descriptor.place .primaryIndex) (dataBytes rows) (indexBytes rows) v.disk :=
  ⟨h.data, h.dataEnd, h.index⟩

theorem Wrote.of_indexed (h : w.Wrote t rows v.disk) {r : AppendedRow} (hkey : w.rejection? r.key = none)
    (hindexed : Indexed (t.descriptor.place .data) (t.descriptor.place .primaryIndex) (dataBytes rows)
      (indexBytes rows) r.bytes r.key r.columnCount w w' v v') :
    w'.Wrote t (rows ++ [r]) v'.disk ∧ v.disk.SameBut t.places v'.disk := by
  obtain ⟨hnonempty, hlong, hlast⟩ := rejection?_eq_none_iff.mp hkey
  have hpass := hindexed.pass h.stacked
  obtain ⟨hstacked, hfields, hsame⟩ := hindexed
  rw [length_dataBytes] at hpass hstacked
  have hdata : dataBytes (rows ++ [r]) = dataBytes rows ++ r.bytes := by
    rw [dataBytes_append, dataBytes_singleton]
  refine ⟨?_, hsame⟩
  constructor
  case descriptor => rw [hfields, h.descriptor]
  case metadata => rw [hfields, h.metadata]
  case partitioner => rw [hfields, h.partitioner]
  case indexDescriptor => rw [hfields, h.indexDescriptor]
  case filter =>
    rw [hfields, List.map_append, FilterBuilder.insertAll_append, ← h.filter]
    rfl
  case pass =>
    rw [hpass, h.pass, placedFrom_append, List.foldl_append, Nat.zero_add]
    rfl
  case lastKey =>
    rw [hfields, List.getLast?_concat]
    rfl
  case rowSizes =>
    rw [hfields, length_bytes, h.rowSizes, List.map_append, Histogram.addAll_append]
    rfl
  case columnCounts =>
    rw [hfields, h.columnCounts, List.filterMap_append, Histogram.addAll_append]
    rcases hcount : r.columnCount with - | n <;> simp [hcount, Histogram.addAll]
  case accepted =>
    intro r' hr'
    rw [List.mem_append, List.mem_singleton] at hr'
    rcases hr' with hr' | rfl
    · exact h.accepted r' hr'
    · exact ⟨hnonempty, hlong⟩
  case ascending =>
    refine ascending_concat h.ascending fun last hrow => hlast last.key ?_
    rw [h.lastKey, hrow, Option.map_some]
  case data =>
    rw [hdata]
    exact hstacked.dataFile
  case dataEnd =>
    rw [hdata]
    exact hstacked.atEnd
  case index =>
    rw [indexBytes_append]
    exact hstacked.indexFile

/-- What a call has to meet beside the checks that all calls make. -/
def Call.Complete : Call → Prop
  | encoded _ row => ∃ columnCount, row.outcome = .ok columnCount
  | framed _ _ _ => True
  | value _ body => body ≠ []

def Call.attempt : Call → Attempt
  | encoded key row => .encoded key row
  | framed key body columnCount => .framed key (.framed body columnCount)
  | value key body => .value key body

theorem attempt_attempt (w : Writer) (c : Call) : w.attempt c.attempt = w.call c := by
  cases c <;> rfl

namespace Call

theorem row_attempt (c : Call) : c.attempt.row = c.row := by
  cases c with
  | encoded key row | value key row => rfl
  | framed key body columnCount => exact Attempt.row_framed key body columnCount

theorem key_attempt (c : Call) : c.attempt.key = c.row.key := by
  rw [← c.row_attempt, Attempt.key_row]

theorem wellFramed_attempt (c : Call) : c.attempt.WellFramed := by
  cases c with
  | encoded key row | value key row => trivial
  | framed key body columnCount => exact .framed key body columnCount

theorem complete_iff {c : Call} : c.Complete ↔ c.attempt.Encodes ∧ ∀ key, c.attempt ≠ .value key [] := by
  cases c with
  | encoded key row => simp [Complete, attempt, Attempt.Encodes]
  | framed key body columnCount => simp [Complete, attempt, Attempt.Encodes, Encoding.framed]
  | value key body => simp [Complete, attempt, Attempt.Encodes]

end Call

theorem Wrote.of_attempt (h : w.Wrote t rows v.disk) {c : Call} (hkey : w.rejection? c.attempt.key = none)
    (hencodes : c.attempt.Encodes)
    (hindexed : Indexed (t.descriptor.place .data) (t.descriptor.place .primaryIndex) (dataBytes rows)
      (indexBytes rows) c.attempt.written c.attempt.key c.attempt.row.columnCount w w' v v') :
    w'.Wrote t (rows ++ [c.row]) v'.disk ∧ v.disk.SameBut t.places v'.disk := by
  rw [Attempt.written_eq_bytes c.wellFramed_attempt hencodes, c.row_attempt, c.key_attempt] at hindexed
  rw [c.key_attempt] at hkey
  exact h.of_indexed hkey hindexed

theorem Wrote.on_call (hd : t.descriptor.Valid) (h : w.Wrote t rows v.disk) {c : Call}
    (hkey : w.rejection? c.row.key = none) (hcomplete : c.Complete) :
    ∃ w' v', Work.on (w.call c) v = ((.ok (), w'), v') ∧ w'.Wrote t (rows ++ [c.row]) v'.disk ∧
      v.disk.SameBut t.places v'.disk := by
  obtain ⟨hencodes, hblank⟩ := Call.complete_iff.mp hcomplete
  rw [← c.key_attempt] at hkey
  obtain ⟨w', v', hrun, hindexed⟩ := h.stacked.on_attempt_ok (data_ne_index hd) hkey hencodes hblank
  rw [attempt_attempt] at hrun
  exact ⟨w', v', hrun, h.of_attempt hkey hencodes hindexed⟩

theorem Wrote.call (hd : t.descriptor.Valid) (h : w.Wrote t rows v.disk) {c : Call}
    (hrun : Work.on (w.call c) v = ((.ok (), w'), v')) :
    w'.Wrote t (rows ++ [c.row]) v'.disk ∧ v.disk.SameBut t.places v'.disk := by
  rw [← attempt_attempt] at hrun
  cases h.stacked.on_attempt (data_ne_index hd) c.attempt hrun with
  | accepted hkey hencodes hindexed => exact h.of_attempt hkey hencodes hindexed

theorem Wrote.appends (hd : t.descriptor.Valid) {calls : List Call}
    (hcalls : Appends w v calls w' v') (h : w.Wrote t rows v.disk) :
    w'.Wrote t (rows ++ calls.map Call.row) v'.disk ∧ v.disk.SameBut t.places v'.disk := by
  induction hcalls generalizing rows with
  | nil w v =>
      rw [List.map_nil, List.append_nil]
      exact ⟨h, .refl _ _⟩
  | cons first _ ih =>
      obtain ⟨hfirst, hsame⟩ := h.call hd first
      obtain ⟨hrest, hsame'⟩ := ih hfirst
      rw [List.append_assoc, List.singleton_append, ← List.map_cons] at hrest
      exact ⟨hrest, hsame.trans hsame'⟩

/-- Calls whose keys are in order and whose rows are complete succeed one after the other. -/
theorem Wrote.exists_appends (hd : t.descriptor.Valid) (h : w.Wrote t rows v.disk) {calls : List Call}
    (hcalls : ∀ c ∈ calls, c.Complete ∧ c.row.key.key ≠ [] ∧ c.row.key.key.length ≤ Record.maxShort)
    (hascending : (rows ++ calls.map Call.row).Pairwise fun a b => a.key ≤ b.key) :
    ∃ w' v', Appends w v calls w' v' := by
  induction calls generalizing w v rows with
  | nil => exact ⟨w, v, .nil w v⟩
  | cons c rest ih =>
      obtain ⟨hcomplete, hnonempty, hlong⟩ := hcalls c List.mem_cons_self
      have hlast : ∀ last, w.lastKey = some last → last ≤ c.row.key := by
        intro last hlast
        rw [h.lastKey, Option.map_eq_some_iff] at hlast
        obtain ⟨r, hr, rfl⟩ := hlast
        exact (List.pairwise_append.mp hascending).2.2 r (List.mem_of_getLast? hr) c.row
          List.mem_cons_self
      obtain ⟨w₁, v₁, hrun, hwrote, -⟩ :=
        h.on_call hd (rejection?_eq_none_iff.mpr ⟨hnonempty, hlong, hlast⟩) hcomplete
      rw [List.map_cons, ← List.singleton_append, ← List.append_assoc] at hascending
      obtain ⟨w', v', happends⟩ := ih hwrote (fun c' hc' => hcalls c' (List.mem_cons_of_mem _ hc'))
        hascending
      exact ⟨w', v', .cons hrun happends⟩

def Terms.start (t : Terms) (indexId dataId : Nat) : Writer where
  descriptor := t.descriptor
  metadata := t.metadata
  partitioner := t.partitioner
  index := {
    descriptor := t.descriptor
    output := ⟨indexId, t.config.indexBufferBytes, 0, .empty⟩
    segments := .empty t.config.indexAccess t.config.maxSegmentSize
    summary := .empty t.config.indexInterval
    filter := t.filter }
  segments := .empty t.config.dataAccess t.config.maxSegmentSize
  data := ⟨dataId, t.config.dataBufferBytes, 0, .empty⟩
  lastKey := none
  rowSizes := .rowSizes
  columnCounts := .columnCounts

/-- The index file is made before the data file. -/
theorem Terms.create_eq_ok_iff :
    t.create.on v = (.ok w, v') ↔
      t.config.validate = .ok () ∧ Descriptor.ValidTable t.descriptor.table ∧
        ∃ indexId disk₁ dataId disk₂,
          v.disk.create (t.descriptor.pathOf .primaryIndex) = .ok (indexId, disk₁) ∧
          disk₁.create (t.descriptor.pathOf .data) = .ok (dataId, disk₂) ∧
          w = t.start indexId dataId ∧ v' = (v.step disk₁).step disk₂ := by
  unfold Terms.create Writer.create
  rcases hconfig : t.config.validate with e | u
  · simp [Action.on_throw]
  by_cases hvalid : Descriptor.ValidTable t.descriptor.table
  · rw [if_pos hvalid]
    cases u
    dsimp only
    simp only [Action.on_bind_eq_ok_iff, hvalid, true_and]
    constructor
    · rintro ⟨index, v₁, hindex, data, v₂, hdata, hpure⟩
      obtain ⟨indexId, disk₁, hdisk₁, rfl, rfl⟩ := IndexWriter.create_eq_ok_iff.mp hindex
      obtain ⟨dataId, disk₂, hdisk₂, rfl, rfl⟩ := Output.create_eq_ok_iff.mp hdata
      cases hpure
      exact ⟨indexId, disk₁, dataId, disk₂, hdisk₁, hdisk₂, rfl, rfl⟩
    · rintro ⟨indexId, disk₁, dataId, disk₂, hdisk₁, hdisk₂, rfl, rfl⟩
      exact ⟨_, v.step disk₁, IndexWriter.create_eq_ok_iff.mpr ⟨indexId, disk₁, hdisk₁, rfl, rfl⟩, _,
        (v.step disk₁).step disk₂, Output.create_eq_ok_iff.mpr ⟨dataId, disk₂, hdisk₂, rfl, rfl⟩, rfl⟩
  · rw [if_neg hvalid]
    constructor
    · intro h
      cases h
    · rintro ⟨-, hvalid', -⟩
      exact absurd hvalid' hvalid

theorem Terms.wrote_create (hrun : t.create.on v = (.ok w, v'))
    (hcurrent : t.descriptor.version = Descriptor.currentVersion) :
    t.descriptor.Valid ∧ w.Wrote t [] v'.disk ∧
      v.disk.Reaches (t.descriptor.pathOf .primaryIndex) (t.descriptor.place .primaryIndex) ∧
      v.disk.Reaches (t.descriptor.pathOf .data) (t.descriptor.place .data) ∧
      v.disk.Frame (· ∉ t.places) v'.disk ∧
      v'.disk.tree = (v.disk.tree.put (t.descriptor.place .primaryIndex) (some (.file []))).put
        (t.descriptor.place .data) (some (.file [])) := by
  obtain ⟨hconfig, hvalid, indexId, disk₁, dataId, disk₂, hindex, hdata, rfl, rfl⟩ :=
    Terms.create_eq_ok_iff.mp hrun
  have hd : t.descriptor.Valid := ⟨hvalid, hcurrent⟩
  have hne := data_ne_index hd
  have hreach := Disk.reaches_of_create hd hindex
  obtain ⟨hnode₁, hnodes₁, htree₁⟩ := Disk.create_spec hreach hindex
  have hreach' := Disk.reaches_of_create hd hdata
  obtain ⟨hnode₂, hnodes₂, htree₂⟩ := Disk.create_spec hreach' hdata
  have hopens := ((Disk.reaches_pathOf_iff hd).mp hreach).1
  have haccepts := ((Disk.reaches_pathOf_iff hd).mp hreach').2
  have hframe₁ := Disk.Frame.of_put htree₁ hnodes₁ (Disk.not_directory_of_create_eq_ok hreach hindex)
  have hframe₂ := Disk.Frame.of_put htree₂ hnodes₂ (Disk.not_directory_of_create_eq_ok hreach' hdata)
  refine ⟨hd, ?_, hreach, (Disk.reaches_pathOf_iff hd).mpr ⟨hopens, haccepts⟩,
    (hframe₁.mono ?_).trans (hframe₂.mono ?_), ?_⟩
  · have hempty : disk₂.tree (t.descriptor.place .primaryIndex) = some (.file []) := by
      rw [htree₂, Tree.put_of_ne hne.symm, htree₁, Tree.put_self]
    constructor
    case index =>
      refine ⟨Output.holds_create ?_ hempty, rfl⟩
      exact (hnodes₂ _ hne.symm).trans hnode₁
    case data =>
      apply Output.holds_create hnode₂
      rw [htree₂]
      exact Tree.put_self
    case accepted =>
      intro r hr
      simp at hr
    case ascending => exact .nil
    all_goals rfl
  · exact fun p hp hindex => hp (by simp [places, hindex])
  · exact fun p hp hdata => hp (by simp [places, hdata])
  · exact htree₂.trans (by rw [htree₁])

end Writer

end SortedTable
