import SortedTable.Proofs.Appending
import SortedTable.Proofs.Codec.Filters
import SortedTable.Proofs.Files
import SortedTable.Proofs.Segments

namespace SortedTable

def tableFiles (data : Bytes) (rows : List AppendedRow) (filter : Filter)
    (statistics : Histogram × Histogram) : Component → Bytes
  | .data => data
  | .primaryIndex => AppendedRow.indexBytes rows
  | .filter => filter.encode
  | .statistics => Reader.encodeStatistics statistics.1 statistics.2

/-- A reader of the table that has a data file under a descriptor and an index of these rows. -/
structure Reader.Shows (r : Reader) (disk : Disk) (d : Descriptor) (data : Bytes)
    (rows : List AppendedRow) : Prop where
  descriptor : r.descriptor = d
  reaches : disk.Reaches (d.pathOf .data) (d.place .data)
  file : disk.tree (d.place .data) = some (.file data)
  data : r.data.Shows disk data
  index : r.index.Shows disk (AppendedRow.indexBytes rows)
  keyCount : r.summary.keyCount = rows.length

/-- A reader of these rows that also admits the key of each of them. -/
structure Reader.Serves (r : Reader) (disk : Disk) (d : Descriptor) (rows : List AppendedRow) : Prop
    extends r.Shows disk d (AppendedRow.dataBytes rows) rows where
  filter : ∀ row ∈ rows, r.filter.mayContain row.key.key = true

namespace Reader

variable {f : SegmentedFile} {r : Reader} {v : Volume} {bytes key rest : Bytes} {position : Nat}

/-- What is read behind a key with its length in front begins with them. -/
theorem on_readCounted (h : f.Shows v.disk bytes) (hkey : key.length ≤ Record.maxShort) (more : Bytes)
    (hdrop : bytes.drop position = Record.short key ++ (more ++ rest)) :
    (readCounted f position more.length).on v = (.ok (Record.short key ++ more), v) := by
  have hlength : position + (2 + key.length + more.length) ≤ bytes.length := by
    have hsame := congrArg List.length hdrop
    rw [List.length_drop, List.length_append, List.length_append, Record.length_short] at hsame
    omega
  have hfront : position + 2 ≤ bytes.length := by omega
  have hcount := SegmentedFile.on_readAt h hfront
  have htwo : (bytes.drop position).take 2 = BigEndian.encode 2 key.length := by
    rw [hdrop, Record.short, List.append_assoc, List.take_left' (BigEndian.length_encode 2 _)]
  have hdecode : BigEndian.decode (BigEndian.encode 2 key.length) = key.length :=
    BigEndian.decode_encode_of_lt (Record.lt_range_of_le_maxShort hkey)
  have hrecord : (bytes.drop position).take (2 + key.length + more.length) = Record.short key ++ more := by
    rw [hdrop, ← List.append_assoc, List.take_left' (by rw [List.length_append, Record.length_short])]
  rw [htwo] at hcount
  rw [readCounted, Action.on_bind_ok hcount, hdecode, SegmentedFile.on_readAt h hlength, hrecord]

theorem on_keyAt_of_drop (h : r.data.Shows v.disk bytes) (hkey : key.length ≤ Record.maxShort)
    (hdrop : bytes.drop position = Record.short key ++ rest) : (r.keyAt position).on v = (.ok key, v) := by
  have hread : (readCounted r.data position 0).table.on v = (.ok (Record.short key ++ []), v) := by
    rw [Action.table, Action.on_mapError_eq_ok_iff]
    exact on_readCounted h hkey [] hdrop
  rw [keyAt, Action.on_bind_ok hread, Record.decodeShort_short hkey [], Action.on_pure]

theorem on_indexEntryAt_of_drop (h : r.index.Shows v.disk bytes) (hkey : key.length ≤ Record.maxShort) {offset : Nat}
    (hoffset : offset < Disk.maxOffset) (hdrop : bytes.drop position = Record.index key offset ++ rest) :
    (r.indexEntryAt position).on v = (.ok (key, offset), v) := by
  have hread : (readCounted r.index position 8).table.on v = (.ok (Record.index key offset ++ []), v) := by
    rw [Record.index, List.append_assoc] at hdrop
    rw [Action.table, Action.on_mapError_eq_ok_iff, List.append_nil]
    exact on_readCounted h hkey (BigEndian.encodeInt 8 offset) hdrop
  rw [indexEntryAt, Action.on_bind_ok hread, Record.decodeIndex_index hkey hoffset [], Action.on_pure]

end Reader

theorem Action.on_contents_op {v : Volume} {id : Nat} {bytes : Bytes} (hbytes : v.disk.bytesOf id = bytes) :
    (Action.contents (.file id)).op.on v = (.ok bytes, v) := by
  rw [Action.on_op_eq_ok_iff, SegmentedFile.on_contents, hbytes]

/-- A file is found by every path that leads to it. -/
theorem Action.on_find_op {v : Volume} {path : Path} {p : Place} {bytes : Bytes} (hreach : v.disk.Reaches path p)
    (hfile : v.disk.tree p = some (.file bytes)) :
    ∃ id, (Action.find path).op.on v = (.ok (.file id), v) ∧ v.disk.bytesOf id = bytes := by
  obtain ⟨id, hnode, hbytes⟩ := Disk.tree_eq_file_iff.mp hfile
  refine ⟨id, ?_, hbytes⟩
  rw [Action.on_op_eq_ok_iff, Action.on_find, (Disk.find_eq_ok_iff hreach).mpr hnode]

theorem Reader.on_scanTable {v : Volume} {d : Descriptor} (hd : d.Valid) {data : Bytes}
    (hreach : v.disk.Reaches (d.pathOf .data) (d.place .data))
    (hfile : v.disk.tree (d.place .data) = some (.file data)) :
    (scanTable d).on v = (.ok (Scanner.start .long data), v) := by
  obtain ⟨id, hfind, hbytes⟩ := Action.on_find_op hreach hfile
  rw [scanTable, Action.on_bind_ok hfind]
  dsimp only
  rw [Action.on_bind_ok (Action.on_contents_op hbytes), hd.lengthWidth]
  rfl

namespace Reader.Shows

open AppendedRow

variable {r : Reader} {v : Volume} {d : Descriptor} {rows : List AppendedRow}

theorem on_scanner (hd : d.Valid) {data : Bytes} (h : r.Shows v.disk d data rows) :
    r.scanner.on v = (.ok (Scanner.start .long data), v) := by
  rw [scanner, h.descriptor]
  exact on_scanTable hd h.reaches h.file

/-- The key of a row is read at the row's offset, whatever follows the rows in the data. -/
theorem on_keyAt {data tail : Bytes} (h : r.Shows v.disk d data rows) (hdata : data = dataBytes rows ++ tail)
    {i : Nat} {row : AppendedRow} (hrow : rows[i]? = some row)
    (hkey : row.key.key.length ≤ Record.maxShort) :
    (r.keyAt (total (rows.take i))).on v = (.ok row.key.key, v) := by
  obtain ⟨hi, hget⟩ := List.getElem?_eq_some_iff.mp hrow
  have hsplit : data = dataBytes (rows.take i) ++ (Record.short row.key.key ++
      (BigEndian.encodeInt Record.rowSizeBytes row.body.length ++ row.body ++
        (dataBytes (rows.drop (i + 1)) ++ tail))) := by
    have hrows : rows = rows.take i ++ ([row] ++ rows.drop (i + 1)) := by
      rw [← hget, List.singleton_append, ← List.drop_eq_getElem_cons hi, List.take_append_drop]
    conv => lhs; rw [hdata, hrows]
    rw [dataBytes_append, dataBytes_append, dataBytes_singleton, bytes, Record.row]
    simp only [List.append_assoc]
  have hdrop : data.drop (total (rows.take i)) = Record.short row.key.key ++
      (BigEndian.encodeInt Record.rowSizeBytes row.body.length ++ row.body ++
        (dataBytes (rows.drop (i + 1)) ++ tail)) := by
    rw [hsplit, ← length_dataBytes, List.drop_left]
  exact on_keyAt_of_drop h.data hkey hdrop

end Reader.Shows

/-- Closing an index first completes its file, and then writes the filter. -/
theorem IndexWriter.on_close {w : IndexWriter} {v : Volume} {p : Place} {bytes : Bytes}
    (h : w.Holds v.disk p bytes) :
    ∃ v₁, v₁.disk.tree p = some (.file bytes) ∧ v.disk.SameBut [p] v₁.disk ∧
      ∀ closed v', w.close.on v = (.ok closed, v') ↔
        closed = ⟨w.segments, w.summary.build, w.filter.build⟩ ∧
          (Action.writeFile (w.descriptor.pathOf .filter) w.filter.build.encode).on v₁ =
            (.ok (), v') := by
  obtain ⟨o, v₁, hrun, hholds, hempty, -, hsame⟩ := Output.on_flush h.output
  refine ⟨v₁, hholds.tree_eq hempty, hsame, fun closed v' => ?_⟩
  rw [close, Action.on_bind_ok (Action.on_lift_of hrun), Action.on_bind_eq_ok_iff]
  simp only [Action.on_op_eq_ok_iff, Action.on_pure, Prod.mk.injEq, Except.ok.injEq]
  constructor
  · rintro ⟨u, v₂, hwrite, rfl, rfl⟩
    exact ⟨rfl, hwrite⟩
  · rintro ⟨rfl, hwrite⟩
    exact ⟨(), v', hwrite, rfl, rfl⟩

namespace Writer

open AppendedRow

variable {t : Terms} {rows : List AppendedRow} {w : Writer} {v v' : Volume}

def Terms.contents (t : Terms) (rows : List AppendedRow) : Component → Bytes :=
  tableFiles (dataBytes rows) rows (t.filter.insertAll (rows.map (·.key.key))).build
    (Histogram.rowSizes.addAll (rows.map size),
      Histogram.columnCounts.addAll (rows.filterMap (·.columnCount)))

def closed (w : Writer) : ClosedTable where
  descriptor := w.descriptor
  metadata := w.metadata
  partitioner := w.partitioner
  components := Component.all
  index := ⟨w.index.segments, w.index.summary.build, w.index.filter.build⟩
  dataSegments := w.segments
  rowSizes := w.rowSizes
  columnCounts := w.columnCounts

def publishedReader (w : Writer) (index data : SegmentedFile) (age : Nat) : Reader where
  descriptor := w.descriptor.published
  components := Component.all
  metadata := w.metadata
  partitioner := w.partitioner
  summary := w.index.summary.build
  filter := w.index.filter.build
  maxDataAge := age
  rowSizes := w.rowSizes
  columnCounts := w.columnCounts
  index := index
  data := data

theorem Terms.filter_words_pos (t : Terms) : 0 < t.filter.words.size :=
  (Filter.storable_sized _ _).words_pos

theorem Terms.mayContain (t : Terms) {row : AppendedRow} (hrow : row ∈ rows) :
    (t.filter.insertAll (rows.map (·.key.key))).build.mayContain row.key.key = true :=
  FilterBuilder.mayContain_insertAll t.filter_words_pos (Or.inl (List.mem_map_of_mem hrow))

theorem Wrote.mayContain (h : w.Wrote t rows v.disk) {row : AppendedRow} (hrow : row ∈ rows) :
    w.index.filter.build.mayContain row.key.key = true := by
  rw [h.filter]
  exact t.mayContain hrow

theorem Wrote.keyCount (h : w.Wrote t rows v.disk) : w.index.summary.build.keyCount = rows.length := by
  have hpass := congrArg (fun pass => pass.summary.keysWritten) h.pass
  rw [Reader.IndexPass.keysWritten_foldl_addRow, length_placedFrom] at hpass
  exact hpass.trans (Nat.zero_add _)

theorem Wrote.on_drop (hd : t.descriptor.Valid) (h : w.Wrote t rows v.disk) :
    ∃ v', Work.on w.drop v = ((), v') ∧
      v'.disk.tree (t.descriptor.place .data) = some (.file (dataBytes rows)) ∧
      v'.disk.tree (t.descriptor.place .primaryIndex) = some (.file (indexBytes rows)) ∧
      v.disk.SameBut t.places v'.disk :=
  h.stacked.on_drop (data_ne_index hd)

/-- The two files of a writer hold these bytes, whatever they are. -/
structure Carries (d : Descriptor) (data index : Bytes) (w : Writer) (disk : Disk) : Prop where
  descriptor : w.descriptor = d
  indexDescriptor : w.index.descriptor = d
  data : w.data.Holds disk (d.place .data) data
  index : w.index.Holds disk (d.place .primaryIndex) index

/-- What the files hold when the writer has been closed. -/
def contents (w : Writer) (data index : Bytes) : Component → Bytes
  | .data => data
  | .primaryIndex => index
  | .filter => w.index.filter.build.encode
  | .statistics => Reader.encodeStatistics w.rowSizes w.columnCounts

/-- Closing a writer completes the data and the index, and then makes two more files. -/
theorem on_close_of_holds {p q : Place} (hne : p ≠ q) {d : Descriptor} {data index : Bytes} (hd : w.descriptor = d)
    (hindexed : w.index.descriptor = d) (hdata : w.data.Holds v.disk p data)
    (hindex : w.index.Holds v.disk q index) :
    ∃ v₁, v₁.disk.tree p = some (.file data) ∧ v₁.disk.tree q = some (.file index) ∧
      v.disk.SameBut [p, q] v₁.disk ∧
      ∀ table v', w.close.on v = (.ok table, v') ↔ table = w.closed ∧
        ∃ v₂, (Action.writeFile (d.pathOf .filter) (w.contents data index .filter)).on v₁ = (.ok (), v₂) ∧
          (Action.writeFile (d.pathOf .statistics) (w.contents data index .statistics)).on v₂ = (.ok (), v') := by
  obtain ⟨o, v₀, hrun, hholds, hempty, -, hsame⟩ := Output.on_flush hdata
  have hindex₀ := hindex.of_sameBut hsame (by simpa using hne.symm)
  obtain ⟨v₁, htree, hsame', hclose⟩ := IndexWriter.on_close hindex₀
  refine ⟨v₁, ?_, htree, ?_, ?_⟩
  · rw [hsame'.tree _ (by simpa using hne)]
    exact hholds.tree_eq hempty
  · exact (hsame.of_mem (by simp)).trans (hsame'.of_mem (by simp))
  · intro table v'
    rw [hindexed] at hclose
    rw [close, Action.on_bind_ok (Action.on_lift_of hrun), Action.on_bind_eq_ok_iff]
    simp only [hclose, writeStatistics, hd, Action.on_bind_eq_ok_iff,
      Action.on_op_eq_ok_iff, Action.on_pure, Prod.mk.injEq, Except.ok.injEq]
    constructor
    · rintro ⟨index, v₂, ⟨rfl, hfilter⟩, u, v₃, hwrite, rfl, rfl⟩
      refine ⟨?_, v₂, hfilter, hwrite⟩
      rw [closed, hd]
    · rintro ⟨rfl, v₂, hfilter, hwrite⟩
      refine ⟨_, v₂, ⟨rfl, hfilter⟩, (), v', hwrite, ?_, rfl⟩
      rw [closed, hd]

namespace Carries

variable {d : Descriptor} {data index : Bytes}

theorem on_close (hd : d.Valid) (h : w.Carries d data index v.disk) :
    ∃ v₁, v₁.disk.tree (d.place .data) = some (.file data) ∧
      v₁.disk.tree (d.place .primaryIndex) = some (.file index) ∧
      v.disk.SameBut [d.place .data, d.place .primaryIndex] v₁.disk ∧
      ∀ table v', w.close.on v = (.ok table, v') ↔ table = w.closed ∧
        ∃ v₂, (Action.writeFile (d.pathOf .filter) (w.contents data index .filter)).on v₁ = (.ok (), v₂) ∧
          (Action.writeFile (d.pathOf .statistics) (w.contents data index .statistics)).on v₂ = (.ok (), v') :=
  on_close_of_holds (Descriptor.place_ne_place hd (by decide)) h.descriptor h.indexDescriptor h.data h.index

theorem shows_of_close (hd : d.Valid) (h : w.Carries d data index v.disk)
    (hdata : v.disk.Reaches (d.pathOf .data) (d.place .data))
    (hindex : v.disk.Reaches (d.pathOf .primaryIndex) (d.place .primaryIndex))
    {table : ClosedTable} (hrun : w.close.on v = (.ok table, v')) :
    table = w.closed ∧ v'.disk.Hosts d ∧ v'.disk.Shows d (fun c => some (w.contents data index c)) ∧
      v.disk.Frame d.Outside v'.disk := by
  obtain ⟨v₁, hdata₁, hindex₁, hsame, hclose⟩ := h.on_close hd
  obtain ⟨rfl, v₂, hfilter, hstatistics⟩ := (hclose table v').mp hrun
  obtain ⟨hreachF, hnotF, htree₂, hnodes₂⟩ := Action.on_writeFile_component hd hfilter
  obtain ⟨hreachS, hnotS, htree', hnodes'⟩ := Action.on_writeFile_component hd hstatistics
  have hframe₁ : v.disk.Frame d.Outside v₁.disk :=
    hsame.frame fun p hp => by simp [hp .data, hp .primaryIndex]
  have hframe₂ : v₁.disk.Frame d.Outside v₂.disk :=
    (Disk.Frame.of_put htree₂ hnodes₂ hnotF).mono fun p hp => hp _
  have hframe' : v₂.disk.Frame d.Outside v'.disk :=
    (Disk.Frame.of_put htree' hnodes' hnotS).mono fun p hp => hp _
  have hframe := (hframe₁.trans hframe₂).trans hframe'
  have hne : ∀ {c c' : Component}, c ≠ c' → d.place c ≠ d.place c' := Descriptor.place_ne_place hd
  refine ⟨rfl, ?_, ?_, hframe⟩
  · intro c
    cases c with
    | data => exact hdata.mono hframe.keeps
    | primaryIndex => exact hindex.mono hframe.keeps
    | filter => exact hreachF.mono (hframe₂.keeps.trans hframe'.keeps)
    | statistics => exact hreachS.mono hframe'.keeps
  · intro c
    rw [htree', htree₂]
    cases c with
    | data => rw [Tree.put_of_ne (hne (by decide)), Tree.put_of_ne (hne (by decide)), hdata₁]; rfl
    | primaryIndex =>
        rw [Tree.put_of_ne (hne (by decide)), Tree.put_of_ne (hne (by decide)), hindex₁]
        rfl
    | filter =>
        rw [Tree.put_of_ne (hne (by decide)), Tree.put_self]
        rfl
    | statistics =>
        rw [Tree.put_self]
        rfl

theorem close_of_reaches (hd : d.Valid) (h : w.Carries d data index v.disk) (hhosts : v.disk.Hosts d)
    (hfree : ∀ c, v.disk.tree (d.place c) ≠ some .directory) : ∃ v', w.close.on v = (.ok w.closed, v') := by
  obtain ⟨v₁, -, -, hsame, hclose⟩ := h.on_close hd
  have hfree₁ : ∀ c, v₁.disk.tree (d.place c) ≠ some .directory := by
    intro c hdir
    rw [Disk.tree_eq_directory_iff, hsame.nodes, ← Disk.tree_eq_directory_iff] at hdir
    exact hfree c hdir
  obtain ⟨v₂, v', hfilter, hstatistics, -⟩ := Action.on_writeFile_both (Descriptor.place_ne_place hd (by decide))
    ((hhosts .filter).mono hsame.keeps) (hfree₁ .filter) ((hhosts .statistics).mono hsame.keeps) (hfree₁ .statistics)
    (w.contents data index .filter) (w.contents data index .statistics)
  exact ⟨v', (hclose _ v').mpr ⟨rfl, v₂, hfilter, hstatistics⟩⟩

/-- Closed files are published as they are, by a reader that is built from what the writer knows. -/
theorem on_publish_closed (hd : d.Valid) (h : w.Carries d data index v.disk) {v₁ : Volume}
    {contents : Component → Bytes} (hhosts : v₁.disk.Hosts d) (hshows : v₁.disk.Shows d fun c => some (contents c))
    (hfree : ∀ c, v₁.disk.tree (d.published.place c) ≠ some .directory) (age : Nat) :
    ∃ indexFile dataFile v₂, (w.closed.publish age).on v₁ = (.ok (w.publishedReader indexFile dataFile age), v₂) ∧
      indexFile.Shows v₂.disk (contents .primaryIndex) ∧ dataFile.Shows v₂.disk (contents .data) ∧
      v₂.disk.Shows d.published (fun c => some (contents c)) ∧ v₂.disk.Hosts d.published ∧
      (d.temporary = true → v₂.disk.Shows d fun _ => none) ∧ v₁.disk.Frame d.Apart v₂.disk := by
  obtain ⟨v₂, hrun, hshows₂, htemporary, hframe⟩ := Descriptor.on_publish hd hhosts hshows hfree
  have hhosts₂ : v₂.disk.Hosts d.published := (hhosts.published hd).mono hframe.keeps
  obtain ⟨indexFile, hindex, -, hindexShows⟩ := w.closed.index.segments.on_complete
    (hhosts₂ .primaryIndex) (hshows₂ .primaryIndex)
  obtain ⟨dataFile, hdata, -, hdataShows⟩ := w.closed.dataSegments.on_complete
    (hhosts₂ .data) (hshows₂ .data)
  have hrename : (w.closed.descriptor.publish w.closed.components).on v₁ = (.ok d.published, v₂) := by
    rw [closed, h.descriptor]
    exact hrun
  have hdescriptor : w.descriptor.published = d.published := by rw [h.descriptor]
  refine ⟨indexFile, dataFile, v₂, ?_, hindexShows, hdataShows, hshows₂, hhosts₂, htemporary, hframe⟩
  rw [ClosedTable.publish, Action.on_bind_ok hrename,
    Action.on_bind_ok (Action.on_op_eq_ok_iff.mpr hindex),
    Action.on_bind_ok (Action.on_op_eq_ok_iff.mpr hdata), ← hdescriptor]
  rfl

end Carries

theorem Wrote.carries (h : w.Wrote t rows v.disk) :
    w.Carries t.descriptor (dataBytes rows) (indexBytes rows) v.disk :=
  ⟨h.descriptor, h.indexDescriptor, h.data, h.index⟩

theorem Wrote.contents (h : w.Wrote t rows v.disk) :
    w.contents (dataBytes rows) (indexBytes rows) = t.contents rows := by
  funext c
  cases c with
  | data => rfl
  | primaryIndex => rfl
  | filter =>
      rw [Writer.contents, h.filter]
      rfl
  | statistics =>
      rw [Writer.contents, h.rowSizes, h.columnCounts]
      rfl

theorem Wrote.shows_of_close (hd : t.descriptor.Valid) (h : w.Wrote t rows v.disk)
    (hdata : v.disk.Reaches (t.descriptor.pathOf .data) (t.descriptor.place .data))
    (hindex : v.disk.Reaches (t.descriptor.pathOf .primaryIndex) (t.descriptor.place .primaryIndex))
    {table : ClosedTable} (hrun : w.close.on v = (.ok table, v')) :
    table = w.closed ∧ v'.disk.Hosts t.descriptor ∧
      v'.disk.Shows t.descriptor (fun c => some (t.contents rows c)) ∧
      v.disk.Frame t.descriptor.Outside v'.disk := by
  rw [← h.contents]
  exact h.carries.shows_of_close hd hdata hindex hrun

theorem Wrote.close_of_reaches (hd : t.descriptor.Valid) (h : w.Wrote t rows v.disk)
    (hhosts : v.disk.Hosts t.descriptor)
    (hfree : ∀ c, v.disk.tree (t.descriptor.place c) ≠ some .directory) :
    ∃ v', w.close.on v = (.ok w.closed, v') :=
  h.carries.close_of_reaches hd hhosts hfree

theorem on_publish_closed (hd : t.descriptor.Valid) (h : w.Wrote t rows v.disk) {v₁ : Volume}
    (hhosts : v₁.disk.Hosts t.descriptor)
    (hshows : v₁.disk.Shows t.descriptor fun c => some (t.contents rows c))
    (hfree : ∀ c, v₁.disk.tree (t.descriptor.published.place c) ≠ some .directory) (age : Nat) :
    ∃ r v₂, (w.closed.publish age).on v₁ = (.ok r, v₂) ∧
      r.Serves v₂.disk t.descriptor.published rows ∧
      r.rowSizes = Histogram.rowSizes.addAll (rows.map size) ∧
      r.columnCounts = Histogram.columnCounts.addAll (rows.filterMap (·.columnCount)) ∧
      v₂.disk.Shows t.descriptor.published (fun c => some (t.contents rows c)) ∧
      v₂.disk.Hosts t.descriptor.published ∧
      (t.descriptor.temporary = true → v₂.disk.Shows t.descriptor fun _ => none) ∧
      v₁.disk.Frame t.descriptor.Apart v₂.disk := by
  obtain ⟨indexFile, dataFile, v₂, hrun, hindexShows, hdataShows, hshows₂, hhosts₂, htemporary, hframe⟩ :=
    h.carries.on_publish_closed hd hhosts hshows hfree age
  have hdescriptor : w.descriptor.published = t.descriptor.published := by rw [h.descriptor]
  exact ⟨w.publishedReader indexFile dataFile age, v₂, hrun, ⟨⟨hdescriptor, hhosts₂ .data, hshows₂ .data,
    hdataShows, hindexShows, h.keyCount⟩, fun row hrow => h.mayContain hrow⟩, h.rowSizes,
    h.columnCounts, hshows₂, hhosts₂, htemporary, hframe⟩

end Writer

end SortedTable
