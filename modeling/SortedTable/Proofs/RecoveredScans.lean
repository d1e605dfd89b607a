import SortedTable.Proofs.Keeping
import SortedTable.Proofs.Puts
import SortedTable.Proofs.Sites
import SortedTable.Proofs.Tails

/-!
# Scanning a recovered table

A recovery leaves a row that does not end out of the index, but not out of the data. So a recovered reader scans
the rows that its index names, and its scan then ends well exactly where the data is made of whole rows. Main
statement: `Recovery.scan_of_recovery`.
-/

namespace SortedTable

open AppendedRow

namespace AppendedRow

/-- Whole rows, and nothing else. -/
def Whole (data : Bytes) : Prop := ∃ rows : List AppendedRow, (∀ row ∈ rows, row.Fits) ∧ data = dataBytes rows

/-- Whole rows, and after them one of negative length. -/
def Corrupt (data : Bytes) : Prop :=
  ∃ rows tail size, data = dataBytes rows ++ tail ∧ (∀ row ∈ rows, row.Fits) ∧ Negative tail size

variable {rows : List AppendedRow} {tail : Bytes}

/-- Bytes are cut into whole rows in one way at most. -/
theorem whole_append_iff (hfits : ∀ row ∈ rows, row.Fits) (h : Unfinished tail) :
    Whole (dataBytes rows ++ tail) ↔ tail = [] := by
  constructor
  · rintro ⟨rows', hfits', hdata⟩
    have hscan := Scanner.rows_start_append hfits h
    rw [hdata, Scanner.rows_start hfits'] at hscan
    have hend : Scanner.failureAt (total rows) tail = none := (Prod.mk.inj hscan).2.symm
    by_contra hne
    rw [Scanner.failureAt, if_neg hne] at hend
    cases hend
  · rintro rfl
    exact ⟨rows, hfits, List.append_nil _⟩

theorem map_place_headersFrom (start : Nat) (rows : List AppendedRow) :
    (headersFrom start rows).map (fun header => (header.key, header.position)) =
      (placedFrom start rows).map fun e => (e.1.key, e.2) := by
  induction rows generalizing start with
  | nil => rfl
  | cons r rest ih => rw [headersFrom, placedFrom, List.map_cons, List.map_cons, ih]

/-- A scan of the rows gives the keys and the offsets that are in their index. -/
theorem map_place_scannedFrom (rows : List AppendedRow) :
    (scannedFrom 0 rows).map (fun row => (row.1.key, row.1.position)) = entries rows := by
  have hlength : (headersFrom 0 rows).length = (rows.map (·.body)).length := by
    rw [length_headersFrom, List.length_map]
  have hheaders : (scannedFrom 0 rows).map (·.1) = headersFrom 0 rows :=
    List.map_fst_zip (Nat.le_of_eq hlength)
  rw [entries, ← map_place_headersFrom, ← hheaders, List.map_map]
  rfl

end AppendedRow

/-- A reader that counts and scans the rows that its index names. The scan ends well if the data is made of whole
rows, and fails behind the last whole row if it is not. -/
structure Reader.Agrees (r : Reader) (v : Volume) (data : Bytes) : Prop where
  stored : v.disk.read (r.descriptor.pathOf .data) = .ok data
  scan : ∃ index records scanner, v.disk.read (r.descriptor.pathOf .primaryIndex) = .ok index ∧
    Reader.decodeRecords index = .ok records ∧ r.estimatedKeys = records.length ∧
    r.scanner.on v = (.ok scanner, v) ∧
    scanner.rows.1.map (fun row => (row.1.key, row.1.position)) = records ∧
    (scanner.rows.2 = none ↔ Whole data) ∧
    (¬ Whole data → ∃ position, scanner.rows.2 = some (.truncatedRow position) ∧
      position < data.length ∧ Whole (data.take position))

variable {d : Descriptor} {rows : List AppendedRow} {tail data : Bytes} {v v' : Volume} {disk disk' : Disk}
  {r : Reader}

theorem Kept.agrees (hd : d.Valid) (h : Kept d rows tail v.disk (some r)) :
    r.Agrees v (dataBytes rows ++ tail) := by
  have hfits := h.fits
  have hwhole := whole_append_iff hfits h.unfinished
  have hscanner := h.on_scanner hd
  have hcount := h.estimatedKeys
  have hrows := Scanner.rows_start_append hfits h.unfinished
  cases h with
  | published twin hosts _ _ shows sound =>
      have hshows := twin.shows shows
      refine ⟨hshows.read_eq_ok hosts rfl, indexBytes rows, entries rows, _, hshows.read_eq_ok hosts rfl,
        Reader.decodeRecords_indexBytes sound.keys sound.total, ?_, hscanner, ?_, ?_, fun hnot => ?_⟩
      · rw [hcount, length_entries]
      · rw [hrows]
        exact map_place_scannedFrom rows
      · rw [hrows, hwhole, Scanner.failureAt]
        simp
      · rw [hwhole] at hnot
        rw [hrows]
        refine ⟨total rows, if_neg hnot, ?_, rows, hfits, ?_⟩
        · rw [List.length_append, length_dataBytes]
          exact Nat.lt_add_of_pos_right (List.length_pos_iff.mpr hnot)
        · exact List.take_left' (length_dataBytes rows)

namespace Recovery

/-- A temporary table of which there is nothing but the data. -/
structure Bare (d : Descriptor) (data : Bytes) (disk : Disk) : Prop where
  shows : disk.Shows d (partly data none none none)
  unpublished : disk.Shows d.published fun _ => none
  length : data.length < Disk.maxOffset

theorem Bare.of_frame {outside : Place → Prop} (h : Bare d data disk) (hframe : disk.Frame outside disk')
    (hspared : d.Spared outside) : Bare d data disk' :=
  ⟨h.shows.of_tree_eq fun c => hframe.tree _ (hspared c).1,
    h.unpublished.of_tree_eq fun c => hframe.tree _ (hspared c).2, h.length⟩

theorem bare_iff_of_twin {d' : Descriptor} (h : d'.Twin d) : Bare d' data disk ↔ Bare d data disk :=
  ⟨fun hbare => ⟨h.shows_iff.mp hbare.shows, h.published.shows_iff.mp hbare.unpublished, hbare.length⟩,
    fun hbare => ⟨h.shows hbare.shows, h.published.shows hbare.unpublished, hbare.length⟩⟩

theorem intactFiles_bare (data : Bytes) : intactFiles (partly data none none none) data = false :=
  intactFiles_eq_false (Or.inl rfl)

/-- Whatever the data is, it can be recovered or it is corrupt. -/
theorem Bare.kept_or_corrupt (h : Bare d data disk) :
    (∃ rows tail, data = dataBytes rows ++ tail ∧ Kept d rows tail disk none) ∨ Corrupt data := by
  have hlength := h.length
  obtain ⟨rows, tail, rfl, hfits, hunfinished | ⟨size, hnegative⟩⟩ := exists_dataBytes hlength
  · rw [List.length_append, length_dataBytes] at hlength
    refine Or.inl ⟨rows, tail, rfl, ?_⟩
    exact .pending h.shows rfl (intactFiles_bare _) h.unpublished.not_directory (h.unpublished .data)
      (fun row hrow => (hfits row hrow).key) (by omega) hunfinished
  · exact Or.inr ⟨rows, tail, size, rfl, hfits, hnegative⟩

variable {metadata : TableMetadata} {p : Partitioner} {config opening : Config} {age : Nat}

theorem descriptor_of_publishAndOpen (hrun : (publishAndOpen d metadata p opening age).on v = (.ok r, v')) :
    r.descriptor = d.published := by
  rw [publishAndOpen, Action.on_bind_eq_ok_iff] at hrun
  obtain ⟨published, v₁, hpublish, hopen⟩ := hrun
  rw [Descriptor.on_publish_eq, Action.on_bind_eq_ok_iff] at hpublish
  obtain ⟨u, v₂, -, hpure⟩ := hpublish
  cases hpure
  exact (Reader.openTable_eq_ok hopen).2.1

theorem descriptor_of_recoverAndOpen {processor : RecoveryProcessor}
    (hrun : (recoverAndOpen d processor metadata p opening age).on v = (.ok r, v')) :
    d.isCurrent = true ∧ r.descriptor = d.published := by
  obtain ⟨-, heq⟩ | ⟨hcurrent, -, heq⟩ | ⟨hcurrent, heq⟩ := recoverAndOpen_cases d processor metadata p opening age v
  · rw [heq] at hrun
    cases hrun
  · rw [heq] at hrun
    exact ⟨hcurrent, (Reader.openTable_eq_ok hrun).2.1⟩
  · rw [heq, Action.on_bind_eq_ok_iff] at hrun
    obtain ⟨u, v₁, -, hrun⟩ := hrun
    exact ⟨hcurrent, descriptor_of_publishAndOpen hrun⟩

theorem Bare.succeeds (hd : d.Valid) (htemporary : d.temporary = true) (hhosts : v.disk.Hosts d)
    (h : Bare d data v.disk) (hsound : ¬ Corrupt data) (hconfig : config.validate = .ok ()) :
    ∃ r v', (recoverAndOpen d (rebuild p config) metadata p opening age).on v = (.ok r, v') := by
  obtain ⟨rows, tail, -, hkept⟩ := h.kept_or_corrupt.resolve_right hsound
  obtain ⟨r, v', hrun, -⟩ :=
    hkept.on_recover hd htemporary (.refl d) hhosts hconfig metadata p opening age
  exact ⟨r, v', hrun⟩

theorem Bare.not_corrupt (hd : d.Valid) (hhosts : v.disk.Hosts d) (h : Bare d data v.disk)
    (hconfig : config.validate = .ok ())
    (hrun : (recoverAndOpen d (rebuild p config) metadata p opening age).on v = (.ok r, v')) :
    ¬ Corrupt data := by
  rintro ⟨rows, tail, size, rfl, hfits, hsize, key, rest, hfront⟩
  obtain ⟨v'', hfail⟩ := on_recoverAndOpen_negative hd hhosts h.shows rfl (intactFiles_bare _) hfits hfront hsize
    hconfig metadata p opening age
  rw [hrun] at hfail
  cases hfail

/-- A table of which there is nothing but the data, or that has been recovered. -/
def Waits (d : Descriptor) (data : Bytes) (disk : Disk) : Prop :=
  Bare d data disk ∨ ∃ rows tail r, data = dataBytes rows ++ tail ∧ Kept d rows tail disk (some r)

theorem Waits.of_frame {outside : Place → Prop} (h : Waits d data disk) (hframe : disk.Frame outside disk')
    (hspared : d.Spared outside) : Waits d data disk' := by
  rcases h with hbare | ⟨rows, tail, r, hdata, hkept⟩
  · exact Or.inl (hbare.of_frame hframe hspared)
  · exact Or.inr ⟨rows, tail, r, hdata, hkept.of_frame hframe hspared⟩

/-- A recovery that gives a reader leaves the data as it is. -/
theorem Waits.on_recover {d' : Descriptor} (hd : d.Valid) (htemporary : d.temporary = true) (htwin : d'.Twin d)
    (hhosts : v.disk.Hosts d') (h : Waits d data v.disk) (hconfig : config.validate = .ok ())
    (hrun : (recoverAndOpen d' (rebuild p config) metadata p opening age).on v = (.ok r, v')) :
    ∃ rows tail, data = dataBytes rows ++ tail ∧ Kept d rows tail v'.disk (some r) ∧
      v.disk.Frame d.Apart v'.disk := by
  have hrecover : ∀ {rows tail table}, Kept d rows tail v.disk table →
      Kept d rows tail v'.disk (some r) ∧ v.disk.Frame d.Apart v'.disk := by
    intro rows tail table hkept
    obtain ⟨r', v'', hrun', hkept', hframe⟩ :=
      hkept.on_recover hd htemporary htwin hhosts hconfig metadata p opening age
    rw [hrun] at hrun'
    cases hrun'
    exact ⟨hkept', hframe⟩
  rcases h with hbare | ⟨rows, tail, r₀, hdata, hkept⟩
  · have hsound := ((bare_iff_of_twin htwin).mpr hbare).not_corrupt (htwin.valid hd) hhosts hconfig hrun
    obtain ⟨rows, tail, hdata, hkept⟩ := hbare.kept_or_corrupt.resolve_right hsound
    exact ⟨rows, tail, hdata, hrecover hkept⟩
  · exact ⟨rows, tail, hdata, hrecover hkept⟩

/-- A reader that is recovered from nothing but the data agrees with it. -/
theorem Bare.agrees (htable : Descriptor.ValidTable d.table) (htemporary : d.temporary = true)
    (hhosts : v.disk.Hosts d) (h : Bare d data v.disk) (hconfig : config.validate = .ok ())
    (hrun : (recoverAndOpen d (rebuild p config) metadata p opening age).on v = (.ok r, v')) :
    r.descriptor = d.published ∧ r.Agrees v' data := by
  obtain ⟨hcurrent, hname⟩ := descriptor_of_recoverAndOpen hrun
  have hd : d.Valid := ⟨htable, of_decide_eq_true hcurrent⟩
  obtain ⟨rows, tail, rfl, hkept, -⟩ :=
    Waits.on_recover hd htemporary (.refl d) hhosts (Or.inl h) hconfig hrun
  exact ⟨hname, hkept.agrees hd⟩

end Recovery

namespace Store

open Recovery

variable {s s' : Store} {now : Nat} {dir : Path} {table : String} {ds : List Descriptor}
  {recovered generations : List Nat}

/-- A table whose scan finds as many rows as its reader counts. Where the data is made of whole rows, all that is
left is to decode them; where it is not, the scan fails. -/
structure Scans (s : Store) (generation : Nat) (r : Reader) (data : Bytes) (v : Volume) : Prop where
  table : s.tables.get? generation = some r
  agrees : r.Agrees v data
  whole : Whole data → ∃ found : List (RowHeader × Bytes),
    found.length = r.estimatedKeys ∧ (s.scan generation).on v = (found.mapM valueOf, v)
  torn : ¬ Whole data → ∃ e, (s.scan generation).on v = (.error e, v)

/-- The reader of a generation is open, on whatever rows. -/
def Holds (s : Store) (disk : Disk) (dir : Path) (table : String) (generation : Nat) : Prop :=
  ∃ rows tail r, s.tables.get? generation = some r ∧
    Kept (.numbered dir table generation) rows tail disk (some r)

theorem isCurrent_of_recoverAll (hrun : Work.on (recoverAll now ds recovered s) v = ((.ok generations, s'), v')) :
    ∀ d ∈ ds, d.isCurrent = true := by
  induction ds generalizing s v recovered with
  | nil => simp
  | cons d rest ih =>
      obtain ⟨r, v₁, hhead, hrest⟩ := recoverAll_cons_eq_ok hrun
      intro d' hd'
      rcases List.mem_cons.mp hd' with rfl | hd'
      · exact (descriptor_of_recoverAndOpen hhead).1
      · exact ih hrest d' hd'

/-- Each recovery gives a reader that stays as it is while the other tables are recovered. -/
theorem holds_of_recoverAll (htable : Descriptor.ValidTable table) (hconfig : s.config.validate = .ok ())
    (hds : ∀ d ∈ ds, d.Twin (.numbered dir table d.generation) ∧ v.disk.Hosts d ∧
      ∃ data, Waits (.numbered dir table d.generation) data v.disk)
    (hrecovered : ∀ g ∈ recovered, s.Holds v.disk dir table g)
    (hrun : Work.on (recoverAll now ds recovered s) v = ((.ok generations, s'), v')) :
    ∀ g ∈ generations, s'.Holds v'.disk dir table g := by
  induction ds generalizing s v recovered with
  | nil =>
      cases hrun
      exact hrecovered
  | cons d rest ih =>
      obtain ⟨htwin, hhosts, data, hwaits⟩ := hds d List.mem_cons_self
      obtain ⟨r, v₁, hhead, hrest⟩ := recoverAll_cons_eq_ok hrun
      obtain ⟨rows, tail, hdata, hkept, hframe⟩ :=
        hwaits.on_recover ⟨htable, rfl⟩ rfl htwin hhosts hconfig hhead
      refine ih (s := { s with tables := s.tables.insert d.generation r }) hconfig (fun d' hd' => ?_)
        (fun g hg => ?_) hrest
      · obtain ⟨htwin', hhosts', data', hwaits'⟩ := hds d' (List.mem_cons_of_mem _ hd')
        refine ⟨htwin', hhosts'.mono hframe.keeps, ?_⟩
        by_cases hsame : d'.generation = d.generation
        · rw [hsame]
          exact ⟨data, Or.inr ⟨rows, tail, r, hdata, hkept⟩⟩
        · exact ⟨data', hwaits'.of_frame hframe (Descriptor.spared_numbered htable (Ne.symm hsame))⟩
      · have hget := SortedMap.get?_insert s.tables d.generation r g
        by_cases hsame : g = d.generation
        · rw [if_pos hsame] at hget
          rw [← hsame] at hkept
          exact ⟨rows, tail, r, hget, hkept⟩
        · rw [if_neg hsame] at hget
          have hold : g ∈ recovered := by simpa [hsame] using hg
          obtain ⟨rows', tail', r', hr', hkept'⟩ := hrecovered g hold
          exact ⟨rows', tail', r', hget.trans hr',
            hkept'.of_frame hframe (Descriptor.spared_numbered htable (Ne.symm hsame))⟩

theorem twin_of_mem_unfinished {names : List Bytes} (hnames : ∀ name ∈ names, FileName name) {d : Descriptor}
    (hd : d ∈ s.unfinished (s.filesAmong names)) (hcurrent : d.isCurrent = true) :
    d.Twin (.numbered s.dir s.metadata.name d.generation) := by
  simp only [unfinished, List.mem_map, List.mem_filter, Bool.and_eq_true, decide_eq_true_eq] at hd
  obtain ⟨f, ⟨hmem, ⟨-, htemporary⟩, -⟩, rfl⟩ := hd
  obtain ⟨name, hname, hpath, htable⟩ := mem_filesAmong.mp hmem
  exact ⟨Descriptor.shortens_of_ofPath? (hnames name hname) hpath, htable, rfl, of_decide_eq_true hcurrent,
    htemporary⟩

theorem scans_of_agrees {generation : Nat} (htable : s.tables.get? generation = some r) (h : r.Agrees v data) :
    s.Scans generation r data v := by
  obtain ⟨index, records, scanner, -, -, hcount, hscanner, hrows, hends, hfails⟩ := h.scan
  have hscan := on_scan htable hscanner
  refine ⟨htable, h, fun hwhole => ⟨scanner.rows.1, ?_, ?_⟩, fun hnot => ?_⟩
  · rw [hcount, ← hrows, List.length_map]
  · rw [hscan, hends.mpr hwhole]
    exact congrArg (·, v) (bind_pure (scanner.rows.1.mapM valueOf))
  · obtain ⟨position, hfailure, -⟩ := hfails hnot
    rw [hfailure] at hscan
    rcases hvalues : scanner.rows.1.mapM valueOf with e | values
    · rw [hvalues] at hscan
      exact ⟨e, hscan⟩
    · rw [hvalues] at hscan
      exact ⟨_, hscan⟩

theorem scans_of_recover {names : List Bytes} (hconfig : s.config.validate = .ok ())
    (htable : Descriptor.ValidTable s.metadata.name) (hlist : v.disk.list s.dir = .ok names)
    (hnames : ∀ name ∈ names, FileName name)
    (hbare : ∀ d ∈ s.unfinished (s.filesAmong names), v.disk.Hosts d ∧ ∃ data, Bare d data v.disk)
    (hrun : Work.on (s.recover now) v = ((.ok generations, s'), v')) :
    ∀ g ∈ generations, ∃ r data, s'.Scans g r data v' := by
  rw [on_recover_of_listed (on_listFiles hlist)] at hrun
  have hcurrent := isCurrent_of_recoverAll hrun
  have hholds := holds_of_recoverAll htable hconfig (fun d hd => by
    have htwin := twin_of_mem_unfinished hnames hd (hcurrent d hd)
    obtain ⟨hhosts, data, hdata⟩ := hbare d hd
    exact ⟨htwin, hhosts, data, Or.inl ((bare_iff_of_twin htwin).mp hdata)⟩) (by simp) hrun
  intro g hg
  obtain ⟨rows, tail, r, hr, hkept⟩ := hholds g hg
  exact ⟨r, _, scans_of_agrees hr (hkept.agrees ⟨htable, rfl⟩)⟩

end Store

namespace Recovery

/-- From nothing but its data, a table is recovered if and only if the data is not corrupt. Its reader counts and
scans the rows that the index names, and so does each reader that the recovery of a store reports. The scan ends
well if and only if the data is made of whole rows. -/
theorem scan_of_recovery (v : Volume) (now : Nat) :
    (∀ (d : Descriptor) (data : Bytes) (p : Partitioner) (config opening : Config) (metadata : TableMetadata),
      Descriptor.ValidTable d.table → d.temporary = true → v.disk.Hosts d → Bare d data v.disk →
      config.validate = .ok () →
        ((∃ r v', (recoverAndOpen d (rebuild p config) metadata p opening now).on v = (.ok r, v')) ↔
          d.isCurrent = true ∧ ¬ Corrupt data) ∧
        ∀ r v', (recoverAndOpen d (rebuild p config) metadata p opening now).on v = (.ok r, v') →
          r.descriptor = d.published ∧ r.Agrees v' data) ∧
    ∀ (s s' : Store) (names : List Bytes) (generations : List Nat) (v' : Volume),
      s.config.validate = .ok () → Descriptor.ValidTable s.metadata.name → v.disk.list s.dir = .ok names →
      (∀ name ∈ names, FileName name) →
      (∀ d ∈ s.unfinished (s.filesAmong names), v.disk.Hosts d ∧ ∃ data, Bare d data v.disk) →
      Work.on (s.recover now) v = ((.ok generations, s'), v') →
        ∀ g ∈ generations, ∃ r data, s'.Scans g r data v' := by
  constructor
  · intro d data p config opening metadata htable htemporary hhosts hbare hconfig
    refine ⟨⟨?_, ?_⟩, fun r v' hrun => hbare.agrees htable htemporary hhosts hconfig hrun⟩
    · rintro ⟨r, v', hrun⟩
      have hcurrent := (descriptor_of_recoverAndOpen hrun).1
      exact ⟨hcurrent, hbare.not_corrupt ⟨htable, of_decide_eq_true hcurrent⟩ hhosts hconfig hrun⟩
    · rintro ⟨hcurrent, hsound⟩
      exact hbare.succeeds ⟨htable, of_decide_eq_true hcurrent⟩ htemporary hhosts hsound hconfig
  · intro s s' names generations v' hconfig htable hlist hnames hbare hrun
    exact Store.scans_of_recover hconfig htable hlist hnames hbare hrun

/-! ### A row that does not end, behind one that does

Only the data is left of the table, so a recovery makes the other files from the row that ends. -/

open Store (usersSite usersVolume)

def tornBytes : Bytes := dataBytes [Writer.Call.user.row] ++ [0, 3, 122, 122]

def tornVolume : Volume :=
  usersVolume.step ((usersVolume.disk.addFile ((usersSite.slot 0).place .data)).write 0 0 tornBytes)

theorem valid_torn : (usersSite.slot 0).Valid := ⟨by decide, rfl⟩

theorem bare_torn : Bare (usersSite.slot 0) tornBytes tornVolume.disk where
  shows c := by cases c <;> rfl
  unpublished c := by cases c <;> rfl
  length := by decide

theorem hosts_torn : tornVolume.disk.Hosts (usersSite.slot 0) := by
  intro c
  have hcreate : ∃ found, tornVolume.disk.create ((usersSite.slot 0).pathOf c) = .ok found := by
    cases c <;> exact ⟨_, rfl⟩
  exact Disk.reaches_of_create valid_torn hcreate.choose_spec

theorem kept_torn : Kept (usersSite.slot 0) [Writer.Call.user.row] [0, 3, 122, 122] tornVolume.disk none :=
  .pending bare_torn.shows rfl (intactFiles_bare _) bare_torn.unpublished.not_directory
    (bare_torn.unpublished .data) (by decide) (by decide) (.of_cut (by decide))

theorem on_recover_torn {d : Descriptor} (h : d.Twin (usersSite.slot 0)) : ∃ r v,
    (recoverAndOpen d (rebuild .byteOrdered .default) usersSite.metadata .byteOrdered .default 0).on tornVolume =
      (.ok r, v) ∧
    Kept (usersSite.slot 0) [Writer.Call.user.row] [0, 3, 122, 122] v.disk (some r) := by
  have hconfig : Config.default.validate = .ok () := by decide
  obtain ⟨r, v, hrun, hkept, -⟩ := kept_torn.on_recover valid_torn rfl h (h.hosts valid_torn hosts_torn) hconfig
    usersSite.metadata .byteOrdered .default 0
  exact ⟨r, v, hrun, hkept⟩

theorem unfinished_torn : ∃ d, d.Twin (usersSite.slot 0) ∧
    usersSite.store.unfinished (usersSite.store.filesAmong [(usersSite.slot 0).nameOf .data]) = [d] := by
  obtain ⟨d, hpath, htwin⟩ := Descriptor.ofPath?_pathOf valid_torn (by decide) .data
  have hread : Descriptor.ofPath? (usersSite.store.dir.join ⟨(usersSite.slot 0).nameOf .data⟩) = some (d, .data) := by
    rw [← hpath, Descriptor.pathOf_eq]
    rfl
  have hname : d.table = usersSite.store.metadata.name := htwin.table
  have hfound : usersSite.store.filesAmong [(usersSite.slot 0).nameOf .data] = [⟨d, .data⟩] := by
    simp [Store.filesAmong, hread, hname]
  have htemporary : d.temporary = true := htwin.temporary
  have hwriter : usersSite.store.writer = none := rfl
  exact ⟨d, htwin, by simp [Store.unfinished, hfound, htemporary, hwriter]⟩

theorem recover_torn : ∃ s v,
    Work.on (usersSite.store.recover 0) tornVolume = ((.ok [1], s), v) := by
  obtain ⟨d, htwin, hunfinished⟩ := unfinished_torn
  obtain ⟨r, v, hrun, -⟩ := on_recover_torn htwin
  have hlist : tornVolume.disk.list usersSite.store.dir = .ok [(usersSite.slot 0).nameOf .data] := rfl
  have hgeneration : d.generation = 1 := htwin.generation
  refine ⟨{ usersSite.store with tables := usersSite.store.tables.insert 1 r }, v, ?_⟩
  rw [Store.on_recover_of_listed (Store.on_listFiles hlist), hunfinished,
    Store.on_recoverAll_cons (s := usersSite.store) hrun, hgeneration]
  rfl

theorem scan_of_recovery_users :
    ∃ r v s v' r' data, (recoverAndOpen (usersSite.slot 0) (rebuild .byteOrdered .default) usersSite.metadata
        .byteOrdered .default 0).on tornVolume = (.ok r, v) ∧
      ¬ Corrupt tornBytes ∧ r.descriptor = (usersSite.slot 0).published ∧ r.Agrees v tornBytes ∧
      Work.on (usersSite.store.recover 0) tornVolume = ((.ok [1], s), v') ∧ s.Scans 1 r' data v' := by
  obtain ⟨r, v, hrun, -⟩ := on_recover_torn (.refl _)
  obtain ⟨s, v', hstore⟩ := recover_torn
  obtain ⟨hone, hall⟩ := scan_of_recovery tornVolume 0
  obtain ⟨hiff, hreader⟩ := hone (usersSite.slot 0) tornBytes .byteOrdered .default .default
    usersSite.metadata (by decide) rfl hosts_torn bare_torn (by decide)
  obtain ⟨hname, hagrees⟩ := hreader r v hrun
  have hnames : ∀ name ∈ [(usersSite.slot 0).nameOf .data], FileName name := by
    simpa using Descriptor.fileName_nameOf valid_torn .data
  have hbare : ∀ d ∈ usersSite.store.unfinished (usersSite.store.filesAmong [(usersSite.slot 0).nameOf .data]),
      tornVolume.disk.Hosts d ∧ ∃ data, Bare d data tornVolume.disk := by
    obtain ⟨d, htwin, hunfinished⟩ := unfinished_torn
    rw [hunfinished]
    simpa using ⟨htwin.hosts valid_torn hosts_torn, tornBytes, (bare_iff_of_twin htwin).mpr bare_torn⟩
  obtain ⟨r', data, hscans⟩ := hall usersSite.store s _ _ v' (by decide) (by decide) rfl hnames hbare
    hstore 1 (by simp)
  exact ⟨r, v, s, v', r', data, hrun, (hiff.mp ⟨r, v, hrun⟩).2, hname, hagrees, hstore, hscans⟩

/-- A recovered reader that counts one row, and whose scan fails behind it. -/
theorem recovered_scan_fails :
    Bare (usersSite.slot 0) tornBytes tornVolume.disk ∧ ∃ r v scanner,
      (recoverAndOpen (usersSite.slot 0) (rebuild .byteOrdered .default) usersSite.metadata .byteOrdered .default
        0).on tornVolume = (.ok r, v) ∧
      r.estimatedKeys = 1 ∧ r.scanner.on v = (.ok scanner, v) ∧ scanner.rows.1.length = 1 ∧
      scanner.rows.2 = some (.truncatedRow 12) := by
  obtain ⟨r, v, hrun, hkept⟩ := on_recover_torn (.refl _)
  have hrows := Scanner.rows_start_append hkept.fits hkept.unfinished
  refine ⟨bare_torn, r, v, _, hrun, hkept.estimatedKeys, hkept.on_scanner valid_torn, ?_, ?_⟩
  · rw [hrows]
    rfl
  · rw [hrows]
    rfl

end Recovery

end SortedTable
