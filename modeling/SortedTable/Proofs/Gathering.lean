import SortedTable.Proofs.Handover
import SortedTable.Proofs.Sampling

namespace SortedTable

/-- Where a record of an index points to, the data has the key of the record. -/
def Placed (data : Bytes) (records : List (DecoratedKey × Nat)) : Prop :=
  ∀ e ∈ records, e.1.key.length ≤ Record.maxShort ∧ ∃ rest, data.drop e.2 = Record.short e.1.key ++ rest

section Placed

variable {data : Bytes} {records : List (DecoratedKey × Nat)}

theorem Placed.lt_length (h : Placed data records) {e : DecoratedKey × Nat} (he : e ∈ records) : e.2 < data.length := by
  obtain ⟨-, rest, hdrop⟩ := h e he
  have hlength := congrArg List.length hdrop
  rw [List.length_drop, List.length_append, Record.length_short] at hlength
  omega

theorem Placed.append (h : Placed data records) (more : Bytes) : Placed (data ++ more) records := by
  intro e he
  obtain ⟨hkey, rest, hdrop⟩ := h e he
  refine ⟨hkey, rest ++ more, ?_⟩
  rw [List.drop_append_of_le_length (Nat.le_of_lt (h.lt_length he)), hdrop, List.append_assoc]

theorem Placed.concat (h : Placed data records) {key : DecoratedKey} (hkey : key.key.length ≤ Record.maxShort)
    (rest : Bytes) : Placed (data ++ (Record.short key.key ++ rest)) (records ++ [(key, data.length)]) := by
  intro e he
  rw [List.mem_append, List.mem_singleton] at he
  rcases he with he | rfl
  · exact h.append _ e he
  · exact ⟨hkey, rest, List.drop_left⟩

end Placed

namespace Writer

/-- Calls that lead from one writer to another, with what they add to its index: each that goes well the key of its
row, with the place where the row begins, and one that fails nothing. -/
inductive Adds : Writer → Volume → List (DecoratedKey × Nat) → Writer → Volume → Prop
  | nil (w : Writer) (v : Volume) : Adds w v [] w v
  | accepted {w w' w'' : Writer} {v v' v'' : Volume} {a : Attempt} {records : List (DecoratedKey × Nat)}
      (first : Work.on (w.attempt a) v = ((.ok (), w'), v')) (rest : Adds w' v' records w'' v'') :
      Adds w v ((a.key, w.filePointer) :: records) w'' v''
  | refused {w w' w'' : Writer} {v v' v'' : Volume} {a : Attempt} {e : TableError} {records : List (DecoratedKey × Nat)}
      (first : Work.on (w.attempt a) v = ((.error e, w'), v')) (rest : Adds w' v' records w'' v'') :
      Adds w v records w'' v''

/-- A writer on these terms, with these records in its index. -/
structure Gathered (t : Terms) (data : Bytes) (records : List (DecoratedKey × Nat)) (w : Writer) (disk : Disk) : Prop
    where
  stacked : w.Stacked (t.descriptor.pathOf .data).home (t.descriptor.pathOf .primaryIndex).home data
    (recordBytes records) disk
  descriptor : w.descriptor = t.descriptor
  indexDescriptor : w.index.descriptor = t.descriptor
  pass : w.pass = records.foldl Reader.IndexPass.addRow (.start t.config)
  lastKey : w.lastKey = records.getLast?.map (·.1)
  ascending : records.Pairwise fun a b => a.1 ≤ b.1
  placed : Placed data records
  length_le : records.length ≤ data.length
  filter : w.index.filter.build.Storable
  rowSizes : ∃ sizes, w.rowSizes = Histogram.rowSizes.addAll sizes ∧ sizes.length = records.length
  columnCounts : ∃ counts, w.columnCounts = Histogram.columnCounts.addAll counts ∧ counts.length ≤ records.length

variable {t : Terms} {data : Bytes} {records : List (DecoratedKey × Nat)} {w w' : Writer} {v v' : Volume}

theorem Terms.gathered_create (hrun : t.create.on v = (.ok w, v')) : Gathered t [] [] w v'.disk := by
  obtain ⟨-, hstacked⟩ := t.stacked_create hrun
  obtain ⟨-, -, indexId, disk₁, dataId, disk₂, -, -, rfl, -⟩ := Terms.create_eq_ok_iff.mp hrun
  constructor
  case stacked => exact hstacked
  case ascending => exact .nil
  case placed =>
    intro e he
    cases he
  case length_le => exact Nat.le_refl 0
  case filter => exact Filter.storable_sized _ _
  case rowSizes => exact ⟨[], rfl, rfl⟩
  case columnCounts => exact ⟨[], rfl, Nat.le_refl 0⟩
  all_goals rfl

theorem Gathered.refused (h : Gathered t data records w v.disk) {more : Bytes}
    (hstacked : w'.Stacked (t.descriptor.pathOf .data).home (t.descriptor.pathOf .primaryIndex).home (data ++ more)
      (recordBytes records) v'.disk) (hfields : w' = { w with data := w'.data }) :
    Gathered t (data ++ more) records w' v'.disk := by
  have hlength : records.length ≤ (data ++ more).length := by
    have hle := h.length_le
    rw [List.length_append]
    omega
  rw [hfields] at hstacked ⊢
  exact { h with
    stacked := hstacked
    placed := h.placed.append more
    length_le := hlength }

theorem Gathered.accepted (h : Gathered t data records w v.disk) {key : DecoratedKey} {rest : Bytes}
    {columnCount : Option Nat} (hkey : w.rejection? key = none)
    (hindexed : Indexed (t.descriptor.pathOf .data).home (t.descriptor.pathOf .primaryIndex).home data
      (recordBytes records) (Record.short key.key ++ rest) key columnCount w w' v v') :
    Gathered t (data ++ (Record.short key.key ++ rest)) (records ++ [(key, w.filePointer)]) w' v'.disk := by
  obtain ⟨-, hlong, hlast⟩ := rejection?_eq_none_iff.mp hkey
  have hpointer : w.filePointer = data.length := h.stacked.atEnd
  rw [hpointer]
  constructor
  case stacked =>
    rw [recordBytes_concat]
    exact hindexed.stacked
  case descriptor =>
    rw [hindexed.fields]
    exact h.descriptor
  case indexDescriptor =>
    rw [hindexed.fields]
    exact h.indexDescriptor
  case pass =>
    rw [hindexed.pass h.stacked, h.pass, List.foldl_append]
    rfl
  case lastKey =>
    rw [hindexed.fields, List.getLast?_concat]
    rfl
  case ascending =>
    refine ascending_concat h.ascending fun last hrecord => hlast last.1 ?_
    rw [h.lastKey, hrecord, Option.map_some]
  case placed => exact h.placed.concat hlong rest
  case length_le =>
    have hle := h.length_le
    rw [List.length_append, List.length_append, List.length_append, Record.length_short, List.length_singleton]
    omega
  case filter =>
    rw [hindexed.fields]
    exact Filter.storable_insert h.filter key.key
  case rowSizes =>
    obtain ⟨sizes, hsizes, hlength⟩ := h.rowSizes
    refine ⟨sizes ++ [(Record.short key.key ++ rest).length], ?_, ?_⟩
    · rw [hindexed.fields, Histogram.addAll_append, ← hsizes]
      rfl
    · simp only [List.length_append, List.length_singleton, hlength]
  case columnCounts =>
    obtain ⟨counts, hcounts, hlength⟩ := h.columnCounts
    refine ⟨counts ++ columnCount.toList, ?_, ?_⟩
    · rw [hindexed.fields, Histogram.addAll_append, ← hcounts]
      cases columnCount <;> rfl
    · have hle : columnCount.toList.length ≤ 1 := by cases columnCount <;> simp
      rw [List.length_append, List.length_append, List.length_singleton]
      omega

/-- The step: a call that goes well gathers one record, and one that fails leaves at most bytes in the data. -/
theorem Gathered.attempt (h : Gathered t data records w v.disk) {a : Attempt} {result : Except TableError Unit}
    (hrun : Work.on (w.attempt a) v = ((result, w'), v')) :
    (∃ e data', result = .error e ∧ Gathered t data' records w' v'.disk) ∨
      ∃ data', result = .ok () ∧ Gathered t data' (records ++ [(a.key, w.filePointer)]) w' v'.disk := by
  have hne : (t.descriptor.pathOf .data).home ≠ (t.descriptor.pathOf .primaryIndex).home :=
    t.descriptor.home_ne t.descriptor (by decide)
  cases h.stacked.on_attempt hne a hrun with
  | rejected _ => exact Or.inl ⟨_, data, rfl, h⟩
  | torn _ hstacked hfields _ _ => exact Or.inl ⟨_, _, rfl, h.refused hstacked hfields⟩
  | accepted hkey _ hindexed =>
      obtain ⟨rest, hwritten⟩ := a.exists_written
      rw [hwritten] at hindexed
      exact Or.inr ⟨_, rfl, h.accepted hkey hindexed⟩

theorem Gathered.adds {more : List (DecoratedKey × Nat)} (hadds : Adds w v more w' v')
    (h : Gathered t data records w v.disk) : ∃ data', Gathered t data' (records ++ more) w' v'.disk := by
  induction hadds generalizing data records with
  | nil w v =>
      rw [List.append_nil]
      exact ⟨data, h⟩
  | accepted first _ ih =>
      rcases h.attempt first with ⟨e, data', hresult, -⟩ | ⟨data', -, hnext⟩
      · cases hresult
      · rw [← List.singleton_append, ← List.append_assoc]
        exact ih hnext
  | refused first _ ih =>
      rcases h.attempt first with ⟨e, data', -, hnext⟩ | ⟨data', hresult, -⟩
      · exact ih hnext
      · cases hresult

theorem Terms.gathered_of_adds {w₀ : Writer} {v₀ v₁ : Volume} (hcreate : t.create.on v₀ = (.ok w₀, v₁))
    (hadds : Adds w₀ v₁ records w v) : ∃ data, Gathered t data records w v.disk :=
  (Terms.gathered_create hcreate).adds hadds

/-- Calls that all go well add the keys of their rows, which lie one behind the other. -/
theorem Wrote.adds {rows : List AppendedRow} (hd : t.descriptor.Valid) {calls : List Call}
    (hcalls : Appends w v calls w' v') (h : w.Wrote t rows v.disk) :
    Adds w v (AppendedRow.placedFrom (AppendedRow.total rows) (calls.map Call.row)) w' v' := by
  induction hcalls generalizing rows with
  | nil w v => exact .nil w v
  | @cons w w' w'' v v' v'' c calls first _ ih =>
      obtain ⟨hfirst, -⟩ := h.call hd first
      have hrest := ih hfirst
      have hpointer : w.filePointer = AppendedRow.total rows := by
        rw [filePointer, h.dataEnd, AppendedRow.length_dataBytes]
      rw [AppendedRow.total_append, ← hpointer] at hrest
      rw [← attempt_attempt] at first
      rw [List.map_cons, AppendedRow.placedFrom, ← hpointer, ← c.key_attempt]
      exact .accepted first hrest

theorem Terms.adds_of_appends {w₀ : Writer} {v₀ v₁ : Volume} {calls : List Call}
    (hcurrent : t.descriptor.isCurrent = true) (hcreate : t.create.on v₀ = (.ok w₀, v₁))
    (hcalls : Appends w₀ v₁ calls w v) : Adds w₀ v₁ (AppendedRow.placedFrom 0 (calls.map Call.row)) w v := by
  obtain ⟨hd, hwrote, -⟩ := Terms.wrote_create hcreate (of_decide_eq_true hcurrent)
  exact hwrote.adds hd hcalls

end Writer

/-- A reader of these bytes and of an index of these records, which holds every so many of them. -/
structure Reader.Samples (r : Reader) (disk : Disk) (data : Bytes) (interval : Nat)
    (records : List (DecoratedKey × Nat)) : Prop where
  summary : r.summary.Samples interval records
  index : r.index.Shows disk (recordBytes records)
  data : r.data.Shows disk data

/-- The records as they are read from an index. -/
def listed (records : List (DecoratedKey × Nat)) : List (Bytes × Nat) := records.map fun e => (e.1.key, e.2)

/-- The records for a reader that decorates the keys in its own way. -/
def redecorated (partitioner : Partitioner) (records : List (DecoratedKey × Nat)) : List (DecoratedKey × Nat) :=
  records.map fun e => (partitioner.decorate e.1.key, e.2)

section Redecorated

variable {partitioner : Partitioner} {records : List (DecoratedKey × Nat)}

theorem indexing_listed (records : List (DecoratedKey × Nat)) :
    Record.indexing (listed records) = recordBytes records := List.flatMap_map _ _ _

theorem recordBytes_redecorated (partitioner : Partitioner) (records : List (DecoratedKey × Nat)) :
    recordBytes (redecorated partitioner records) = recordBytes records := List.flatMap_map _ _ _

theorem Placed.redecorated {data : Bytes} (h : Placed data records) (partitioner : Partitioner) :
    Placed data (redecorated partitioner records) := by
  intro e he
  obtain ⟨record, hrecord, rfl⟩ := List.mem_map.mp he
  exact h record hrecord

theorem redecorated_eq_self (h : ∀ e ∈ records, partitioner.decorate e.1.key = e.1) :
    redecorated partitioner records = records := by
  refine (List.map_congr_left fun e he => ?_).trans (List.map_id records)
  rw [h e he]
  rfl

theorem Placed.decodeRecords {data : Bytes} (h : Placed data records) (hlength : data.length < Disk.maxOffset) :
    Reader.decodeRecords (recordBytes records) = .ok (listed records) := by
  have hreadable : ∀ e ∈ listed records, Record.Readable e := by
    intro e he
    obtain ⟨record, hrecord, rfl⟩ := List.mem_map.mp he
    exact ⟨(h record hrecord).1, Nat.lt_trans (h.lt_length hrecord) hlength⟩
  rw [Reader.decodeRecords, ← indexing_listed, Record.readIndex_indexing hreadable]

theorem Reader.IndexPass.foldl_add_listed (pass : IndexPass) (partitioner : Partitioner)
    (records : List (DecoratedKey × Nat)) :
    (listed records).foldl (add partitioner) pass = (redecorated partitioner records).foldl addRow pass := by
  rw [redecorated, listed, List.foldl_map, List.foldl_map]
  exact List.foldl_ext _ _ _ fun pass e _ => add_eq_addRow partitioner pass _

end Redecorated

/-- A table opens if its index has been read as records of the data, and its filter and its statistics can be read. -/
theorem Reader.samples_openTable {v : Volume} {d : Descriptor} {files : Component → Option Bytes}
    {data stored rest : Bytes} {records : List (DecoratedKey × Nat)} {filter : Filter}
    {statistics : Histogram × Histogram} (hreads : v.disk.Reads d files) (hdata : files .data = some data)
    (hindex : files .primaryIndex = some (recordBytes records)) (hfilter : files .filter = some stored)
    (hdecode : Filter.decode stored = .ok (filter, rest))
    (hstatistics : statisticsOf (files .statistics) = .ok statistics) (hplaced : Placed data records)
    (hlength : data.length < Disk.maxOffset) (metadata : TableMetadata) (partitioner : Partitioner) (config : Config)
    (age : Nat) :
    ∃ r, (openTable d metadata partitioner config age).on v = (.ok r, v) ∧
      r.Samples v.disk data (max 1 config.indexInterval) (redecorated partitioner records) := by
  obtain ⟨indexFile, dataFile, hrun, hindexShows, hdataShows, -⟩ := on_openTable hreads hdata hindex hfilter
    (hplaced.decodeRecords hlength) hdecode hstatistics metadata partitioner config age
  refine ⟨_, hrun, ?_, ?_, hdataShows⟩
  · rw [opened, IndexPass.foldl_add_listed]
    exact (IndexPass.samples_foldl _ config).1
  · rw [recordBytes_redecorated]
    exact hindexShows

namespace Writer

variable {t : Terms} {data : Bytes} {records : List (DecoratedKey × Nat)} {w : Writer} {v v' : Volume} {r : Reader}
  {age : Nat}

theorem Gathered.summary_finish (h : Gathered t data records w v.disk) (hrun : (w.finish age).on v = (.ok r, v')) :
    r.summary = (records.foldl Reader.IndexPass.addRow (.start t.config)).summary.build := by
  obtain ⟨-, indexFile, dataFile, rfl, -⟩ := h.stacked.reads_of_finish h.descriptor h.indexDescriptor hrun
  rw [← h.pass]
  rfl

theorem Gathered.samples_finish (h : Gathered t data records w v.disk)
    (hrun : (w.finish age).on v = (.ok r, v')) :
    v'.disk.Reads t.descriptor.published (fun c => some (w.contents data (recordBytes records) c)) ∧
      r.Samples v'.disk data (max 1 t.config.indexInterval) records := by
  have hsummary := h.summary_finish hrun
  obtain ⟨hreads, indexFile, dataFile, rfl, hindex, hdata⟩ :=
    h.stacked.reads_of_finish h.descriptor h.indexDescriptor hrun
  refine ⟨hreads, ?_, hindex, hdata⟩
  rw [hsummary]
  exact (Reader.IndexPass.samples_foldl records t.config).1

theorem Gathered.storable (h : Gathered t data records w v.disk) (hlength : data.length < Disk.maxOffset) :
    w.rowSizes.Storable ∧ w.columnCounts.Storable := by
  have hrange : BigEndian.range 8 = Disk.maxOffset * 2 := rfl
  have hle := h.length_le
  obtain ⟨sizes, hsizes, hcount⟩ := h.rowSizes
  obtain ⟨counts, hcounts, hcount'⟩ := h.columnCounts
  rw [hsizes, hcounts]
  exact ⟨Histogram.storable_rowSizes (by omega), Histogram.storable_columnCounts (by omega)⟩

/-- What was gathered is handed over on both ways: by the reader that publishing gives, and by the files, to any
reader that is opened from them. -/
theorem Gathered.finish (h : Gathered t data records w v.disk) (hrun : (w.finish age).on v = (.ok r, v')) :
    v'.disk.read (t.descriptor.published.pathOf .primaryIndex) = .ok (recordBytes records) ∧
      r.Samples v'.disk data (max 1 t.config.indexInterval) records ∧
      (data.length < Disk.maxOffset → ∀ metadata partitioner config age', ∃ opened,
        (Reader.openTable t.descriptor.published metadata partitioner config age').on v' = (.ok opened, v') ∧
          opened.Samples v'.disk data (max 1 config.indexInterval) (redecorated partitioner records)) := by
  obtain ⟨hreads, hsamples⟩ := h.samples_finish hrun
  refine ⟨hreads.read_eq_ok rfl, hsamples, fun hlength metadata partitioner config age' => ?_⟩
  obtain ⟨hrowSizes, hcolumnCounts⟩ := h.storable hlength
  have hdecode := Filter.decode_encode_self h.filter
  exact Reader.samples_openTable hreads rfl rfl rfl hdecode (Reader.decodeStatistics_encode hrowSizes hcolumnCounts)
    h.placed hlength metadata partitioner config age'

end Writer

end SortedTable
