import SortedTable.Proofs.Codec.Filters
import SortedTable.Proofs.Counting
import SortedTable.Proofs.Publishing

namespace SortedTable.Reader

open AppendedRow

variable {d : Descriptor} {v v' : Volume} {files : Component → Option Bytes}

theorem load_eq_ok_iff {α : Type} {c : Component} {decode : Bytes → Except DecodeError α} {a : α} :
    (load d c decode).on v = (.ok a, v') ↔
      v' = v ∧ ∃ bytes, v.disk.read (d.pathOf c) = .ok bytes ∧ decode bytes = .ok a := by
  rw [load, Action.on_bind_eq_ok_iff]
  constructor
  · rintro ⟨node, v₁, hfind, hrun⟩
    rw [Action.on_op_eq_ok_iff, Action.on_find] at hfind
    obtain ⟨hfound, rfl⟩ := Prod.mk.inj hfind
    obtain ⟨bytes, v₂, hcontents, hrun⟩ := Action.on_bind_eq_ok_iff.mp hrun
    rw [Action.on_mapError_eq_ok_iff, Action.on_io_eq_ok_iff, Action.on_contents] at hcontents
    obtain ⟨hbytes, rfl⟩ := Prod.mk.inj hcontents
    have hread : v.disk.read (d.pathOf c) = .ok bytes := by
      rw [Disk.read, hfound]
      exact hbytes
    rcases hdecode : decode bytes with e | b
    · rw [hdecode] at hrun
      cases hrun
    · rw [hdecode] at hrun
      cases hrun
      exact ⟨rfl, bytes, hread, hdecode⟩
  · rintro ⟨rfl, bytes, hread, hdecode⟩
    obtain ⟨id, hnode, hbytes⟩ := Disk.find_of_read hread
    refine ⟨.file id, v', ?_, ?_⟩
    · rw [Action.on_op_eq_ok_iff, Action.on_find, hnode]
    · have hcontents : ((Action.contents (.file id)).io.mapError (TableError.corrupt c)).on v' = (.ok bytes, v') := by
        rw [Action.on_mapError_eq_ok_iff, Action.on_io_eq_ok_iff, SegmentedFile.on_contents, hbytes]
      rw [Action.on_bind_ok hcontents, hdecode, Action.on_pure]

theorem mem_componentsOn_iff (hreads : v.disk.Reads d files) {c : Component} :
    c ∈ d.componentsOn v.disk ↔ (files c).isSome = true := by
  rw [Descriptor.componentsOn, List.mem_filter, hreads.existsAt]
  constructor
  · exact fun h => h.2
  · intro h
    refine ⟨?_, h⟩
    cases c <;> decide

/-- All components that a table cannot do without are there. -/
theorem on_required_iff {cs : List Component} {u : PUnit} :
    Action.on (forIn cs PUnit.unit fun c _ =>
      if c ∈ d.componentsOn v.disk then pure (ForInStep.yield PUnit.unit)
      else (do
        throw (TableError.missingComponent c (d.pathOf c))
        pure (ForInStep.yield PUnit.unit) : Action TableError (ForInStep PUnit))) v = (.ok u, v') ↔
      v' = v ∧ ∀ c ∈ cs, c ∈ d.componentsOn v.disk := by
  induction cs with
  | nil =>
      constructor
      · rintro ⟨⟩
        exact ⟨rfl, by simp⟩
      · rintro ⟨rfl, -⟩
        rfl
  | cons c rest ih =>
      rw [List.forIn_cons, List.forall_mem_cons]
      by_cases hc : c ∈ d.componentsOn v.disk
      · rw [if_pos hc, Action.on_bind_ok (Action.on_pure _ _)]
        simp only [hc, true_and]
        exact ih
      · rw [if_neg hc]
        constructor
        · rintro ⟨⟩
        · rintro ⟨-, hmem, -⟩
          exact absurd hmem hc

def opened (d : Descriptor) (components : List Component) (metadata : TableMetadata)
    (partitioner : Partitioner) (config : Config) (age : Nat) (records : List (Bytes × Nat))
    (filter : Filter) (statistics : Histogram × Histogram) (index data : SegmentedFile) : Reader where
  descriptor := d
  components := components
  metadata := metadata
  partitioner := partitioner
  summary := (records.foldl (IndexPass.add partitioner) (IndexPass.start config)).summary.build
  filter := filter
  maxDataAge := age
  rowSizes := statistics.1
  columnCounts := statistics.2
  index := index
  data := data

def statisticsOf : Option Bytes → Except DecodeError (Histogram × Histogram)
  | none => .ok (.rowSizes, .columnCounts)
  | some bytes => decodeStatistics bytes

theorem looks_load {α : Type} (d : Descriptor) (c : Component) (decode : Bytes → Except DecodeError α) :
    (load d c decode).Looks := by
  unfold load
  refine (Action.looks_look _).op.bind fun node => ?_
  refine (((Action.looks_look _).mapError _).mapError _).bind fun bytes => ?_
  cases decode bytes with
  | ok a => exact Action.looks_pure a
  | error e => exact Action.looks_throw _

theorem looks_complete (b : SegmentBuilder) (path : Path) : (b.complete path).Looks :=
  (Action.looks_look _).bind fun _ => Action.looks_look _

theorem looks_openTable (d : Descriptor) (metadata : TableMetadata) (partitioner : Partitioner)
    (config : Config) (age : Nat) : (openTable d metadata partitioner config age).Looks := by
  unfold openTable
  refine Action.looks_get.bind fun volume => ?_
  refine (Action.Looks.forIn fun c => ?_).bind fun _ => ?_
  · exact .ite (Action.looks_pure _) ((Action.looks_throw _).bind fun _ => Action.looks_pure _)
  refine (looks_load d .filter _).bind fun filter => ?_
  have hrest : ∀ statistics : Histogram × Histogram, Action.Looks (do
      let records ← load d .primaryIndex decodeRecords
      let pass := records.foldl (IndexPass.add partitioner) (IndexPass.start config)
      let index ← (pass.index.complete (d.pathOf .primaryIndex)).op
      let data ← (pass.data.complete (d.pathOf .data)).op
      return opened d (d.componentsOn volume.disk) metadata partitioner config age records filter statistics
        index data) := by
    intro statistics
    refine (looks_load d .primaryIndex _).bind fun records => ?_
    exact (looks_complete _ _).op.bind fun index => (looks_complete _ _).op.bind fun data =>
      Action.looks_pure _
  exact .ite ((looks_load d .statistics _).bind hrest) ((Action.looks_pure _).bind hrest)

theorem openTable_eq_ok_iff {metadata : TableMetadata} {partitioner : Partitioner} {config : Config} {age : Nat}
    {r : Reader} :
    (openTable d metadata partitioner config age).on v = (.ok r, v') ↔
      v' = v ∧ (∀ c ∈ [Component.data, .primaryIndex, .filter], c ∈ d.componentsOn v.disk) ∧
        ∃ filter statistics records index data,
          (load d .filter fun input => (Filter.decode input).map (·.1)).on v = (.ok filter, v) ∧
          Action.on (if .statistics ∈ d.componentsOn v.disk then load d .statistics decodeStatistics
            else pure (.rowSizes, .columnCounts)) v = (.ok statistics, v) ∧
          (load d .primaryIndex decodeRecords).on v = (.ok records, v) ∧
          ((records.foldl (IndexPass.add partitioner) (.start config)).index.complete (d.pathOf .primaryIndex)).on v =
            (.ok index, v) ∧
          ((records.foldl (IndexPass.add partitioner) (.start config)).data.complete (d.pathOf .data)).on v =
            (.ok data, v) ∧
          r = opened d (d.componentsOn v.disk) metadata partitioner config age records filter statistics
            index data := by
  unfold openTable
  rw [Action.on_bind_ok (Action.on_get v)]
  dsimp only
  constructor
  · intro hrun
    obtain ⟨u, v₁, hrequired, hrun⟩ := Action.on_bind_eq_ok_iff.mp hrun
    obtain ⟨rfl, hpresent⟩ := on_required_iff.mp hrequired
    obtain ⟨filter, v₂, hfilter, hrun⟩ := Action.on_bind_eq_ok_iff.mp hrun
    obtain rfl := (looks_load _ _ _).eq hfilter
    rw [Action.on_ite_bind] at hrun
    obtain ⟨statistics, v₃, hstatistics, hrun⟩ := Action.on_bind_eq_ok_iff.mp hrun
    obtain rfl := (Action.Looks.ite (looks_load _ _ _) (Action.looks_pure _)).eq hstatistics
    obtain ⟨records, v₄, hrecords, hrun⟩ := Action.on_bind_eq_ok_iff.mp hrun
    obtain rfl := (looks_load _ _ _).eq hrecords
    obtain ⟨index, v₅, hindex, hrun⟩ := Action.on_bind_eq_ok_iff.mp hrun
    obtain rfl := (looks_complete _ _).op.eq hindex
    obtain ⟨data, v₆, hdata, hpure⟩ := Action.on_bind_eq_ok_iff.mp hrun
    obtain rfl := (looks_complete _ _).op.eq hdata
    cases hpure
    exact ⟨rfl, hpresent, filter, statistics, records, index, data, hfilter, hstatistics, hrecords,
      Action.on_op_eq_ok_iff.mp hindex, Action.on_op_eq_ok_iff.mp hdata, rfl⟩
  · rintro ⟨rfl, hpresent, filter, statistics, records, index, data, hfilter, hstatistics, hrecords, hindex, hdata,
      rfl⟩
    rw [Action.on_bind_ok (on_required_iff (u := .unit).mpr ⟨rfl, hpresent⟩), Action.on_bind_ok hfilter,
      Action.on_ite_bind, Action.on_bind_ok hstatistics, Action.on_bind_ok hrecords,
      Action.on_bind_ok (Action.on_op_eq_ok_iff.mpr hindex), Action.on_bind_ok (Action.on_op_eq_ok_iff.mpr hdata)]
    rfl

/-- A table opens if its filter, its index and its statistics can be read. -/
theorem on_openTable (hreads : v.disk.Reads d files) {data index stored : Bytes}
    {records : List (Bytes × Nat)} {filter : Filter} {rest : Bytes} {statistics : Histogram × Histogram}
    (hdata : files .data = some data) (hindex : files .primaryIndex = some index)
    (hfilter : files .filter = some stored) (hrecords : decodeRecords index = .ok records)
    (hdecode : Filter.decode stored = .ok (filter, rest))
    (hstatistics : statisticsOf (files .statistics) = .ok statistics) (metadata : TableMetadata)
    (partitioner : Partitioner) (config : Config) (age : Nat) :
    ∃ indexFile dataFile, (openTable d metadata partitioner config age).on v =
        (.ok (opened d (d.componentsOn v.disk) metadata partitioner config age records filter statistics
          indexFile dataFile), v) ∧
      indexFile.Shows v.disk index ∧ dataFile.Shows v.disk data ∧
      ((records.foldl (IndexPass.add partitioner) (IndexPass.start config)).index.complete
        (d.pathOf .primaryIndex)).on v = (.ok indexFile, v) ∧
      ((records.foldl (IndexPass.add partitioner) (IndexPass.start config)).data.complete
        (d.pathOf .data)).on v = (.ok dataFile, v) := by
  have hmem : ∀ {c : Component}, c ∈ d.componentsOn v.disk ↔ (files c).isSome = true :=
    mem_componentsOn_iff hreads
  have hloadFilter : (load d .filter fun input => (Filter.decode input).map (·.1)).on v = (.ok filter, v) :=
    load_eq_ok_iff.mpr ⟨rfl, stored, hreads.read_eq_ok hfilter, by rw [hdecode]; rfl⟩
  have hloadIndex : (load d .primaryIndex decodeRecords).on v = (.ok records, v) :=
    load_eq_ok_iff.mpr ⟨rfl, index, hreads.read_eq_ok hindex, hrecords⟩
  have hloadStatistics : Action.on (if .statistics ∈ d.componentsOn v.disk then
      load d .statistics decodeStatistics else pure (.rowSizes, .columnCounts)) v =
        (.ok statistics, v) := by
    rcases hfile : files .statistics with - | bytes
    · rw [hfile] at hstatistics
      rw [if_neg (by rw [hmem, hfile]; decide), Action.on_pure]
      cases hstatistics
      rfl
    · rw [hfile] at hstatistics
      rw [if_pos (by rw [hmem, hfile]; rfl)]
      exact load_eq_ok_iff.mpr ⟨rfl, bytes, hreads.read_eq_ok hfile, hstatistics⟩
  let pass := records.foldl (IndexPass.add partitioner) (IndexPass.start config)
  obtain ⟨indexFile, hindexRun, -, hindexShows⟩ :=
    pass.index.on_complete_of_read (hreads.read_eq_ok hindex)
  obtain ⟨dataFile, hdataRun, -, hdataShows⟩ := pass.data.on_complete_of_read (hreads.read_eq_ok hdata)
  refine ⟨indexFile, dataFile, openTable_eq_ok_iff.mpr ⟨rfl, fun c hc => ?_, filter, statistics, records, indexFile,
    dataFile, hloadFilter, hloadStatistics, hloadIndex, hindexRun, hdataRun, rfl⟩, hindexShows, hdataShows, hindexRun,
    hdataRun⟩
  rw [hmem]
  simp only [List.mem_cons, List.not_mem_nil, or_false] at hc
  rcases hc with rfl | rfl | rfl
  · rw [hdata]
    rfl
  · rw [hindex]
    rfl
  · rw [hfilter]
    rfl

theorem keysWritten_foldl_add (partitioner : Partitioner) (pass : IndexPass)
    (records : List (Bytes × Nat)) :
    (records.foldl (IndexPass.add partitioner) pass).summary.keysWritten =
      pass.summary.keysWritten + records.length := by
  induction records generalizing pass with
  | nil => rfl
  | cons record rest ih =>
      rw [List.foldl_cons, ih, List.length_cons]
      change pass.summary.keysWritten + 1 + rest.length = _
      omega

/-- Rows, a filter and statistics that can be read back from the files of a table. -/
structure Sound (rows : List AppendedRow) (filter : Filter) (statistics : Histogram × Histogram) :
    Prop where
  keys : ∀ row ∈ rows, row.key.key.length ≤ Record.maxShort
  total : total rows < Disk.maxOffset
  filter : filter.Storable
  rowSizes : statistics.1.Storable
  columnCounts : statistics.2.Storable

theorem storable_insertAll {b : FilterBuilder} (h : b.build.Storable) (keys : List Bytes) :
    (b.insertAll keys).build.Storable := by
  induction keys generalizing b with
  | nil => exact h
  | cons key rest ih => exact ih (Filter.storable_insert h key)

theorem sound_insertAll {rows : List AppendedRow}
    (hkeys : ∀ row ∈ rows, row.key.key.length ≤ Record.maxShort)
    (htotal : AppendedRow.total rows < Disk.maxOffset) {b : FilterBuilder} (hb : b.build.Storable)
    {counts : List Nat} (hcounts : counts.length ≤ rows.length) :
    Sound rows (b.insertAll (rows.map (·.key.key))).build
      (Histogram.rowSizes.addAll (rows.map size), Histogram.columnCounts.addAll counts) := by
  have hrange : BigEndian.range 8 = Disk.maxOffset * 2 := rfl
  have hlength := length_le_total rows
  refine ⟨hkeys, htotal, storable_insertAll hb _, ?_, ?_⟩
  · apply Histogram.storable_rowSizes
    rw [List.length_map]
    omega
  · apply Histogram.storable_columnCounts
    omega

theorem decodeRecords_indexBytes {rows : List AppendedRow}
    (hkeys : ∀ row ∈ rows, row.key.key.length ≤ Record.maxShort) (htotal : total rows < Disk.maxOffset) :
    decodeRecords (indexBytes rows) = .ok (entries rows) := by
  rw [decodeRecords, readIndex_indexBytes hkeys htotal]

theorem on_openTable_of_sound (hhosts : v.disk.Hosts d) {data : Bytes} {rows : List AppendedRow}
    {filter : Filter} {statistics : Histogram × Histogram}
    (hshows : v.disk.Shows d fun c => some (tableFiles data rows filter statistics c))
    (h : Sound rows filter statistics) (metadata : TableMetadata) (partitioner : Partitioner)
    (config : Config) (age : Nat) :
    ∃ r, (openTable d metadata partitioner config age).on v = (.ok r, v) ∧ r.Shows v.disk d data rows ∧
      r.filter = filter ∧ r.rowSizes = statistics.1 ∧ r.columnCounts = statistics.2 := by
  have hdecode := Filter.decode_encode_self h.filter
  obtain ⟨indexFile, dataFile, hrun, hindexShows, hdataShows, -⟩ := on_openTable (hshows.reads hhosts) rfl rfl rfl
    (decodeRecords_indexBytes h.keys h.total) hdecode
    (decodeStatistics_encode h.rowSizes h.columnCounts) metadata partitioner config age
  refine ⟨_, hrun, ⟨rfl, hhosts .data, hshows .data, hdataShows, hindexShows, ?_⟩, rfl, rfl, rfl⟩
  change ((entries rows).foldl (IndexPass.add partitioner) _).summary.keysWritten = _
  rw [keysWritten_foldl_add, length_entries]
  exact Nat.zero_add _

section Opened

variable {metadata : TableMetadata} {partitioner : Partitioner} {config : Config} {age : Nat} {r : Reader}

theorem openTable_eq_ok (hrun : (openTable d metadata partitioner config age).on v = (.ok r, v')) :
    v' = v ∧ r.descriptor = d ∧
      ∃ stored rest, v.disk.read (d.pathOf .filter) = .ok stored ∧
        Filter.decode stored = .ok (r.filter, rest) := by
  obtain ⟨rfl, -, filter, statistics, records, index, data, hfilter, -, -, -, -, rfl⟩ := openTable_eq_ok_iff.mp hrun
  obtain ⟨-, stored, hread, hdecode⟩ := load_eq_ok_iff.mp hfilter
  rcases hstored : Filter.decode stored with e | ⟨found, rest⟩
  · rw [hstored] at hdecode
    cases hdecode
  · rw [hstored] at hdecode
    cases hdecode
    exact ⟨rfl, rfl, stored, rest, hread, hstored⟩

end Opened

end SortedTable.Reader

namespace SortedTable.Writer

theorem Terms.sound {rows : List AppendedRow} (t : Terms)
    (hkeys : ∀ row ∈ rows, row.key.key.length ≤ Record.maxShort)
    (htotal : AppendedRow.total rows < Disk.maxOffset) :
    Reader.Sound rows (t.filter.insertAll (rows.map (·.key.key))).build
      (Histogram.rowSizes.addAll (rows.map AppendedRow.size),
        Histogram.columnCounts.addAll (rows.filterMap (·.columnCount))) :=
  Reader.sound_insertAll hkeys htotal (Filter.storable_sized _ _) (List.length_filterMap_le _ _)

end SortedTable.Writer
