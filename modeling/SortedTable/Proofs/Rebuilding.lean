import SortedTable.Proofs.Opening
import SortedTable.Proofs.Tails
import SortedTable.Recovery

namespace SortedTable

open AppendedRow

namespace Estimate

variable {width : LengthWidth} {limit : Nat} {s : Sample} {key body rest tail : Bytes} {size : Int} {e : BadLength}

theorem sample_of_le (h : limit ≤ s.position) (samples : Nat) (rest : Bytes) :
    sample width limit samples s rest = .ok s := by
  cases samples with
  | zero => rfl
  | succ samples => exact if_pos h

theorem sample_of_cut (h : Record.takeRowFront? width rest = none) (limit samples : Nat) (s : Sample) :
    sample width limit samples s rest = .ok s := by
  cases samples with
  | zero => rfl
  | succ samples =>
      unfold sample
      rw [h]
      split <;> rfl

/-- A row is sampled by its front, whether its body is there or not. -/
theorem sample_of_front (hfront : Record.takeRowFront? width rest = some (key, size, tail)) (hsize : 0 ≤ size)
    (h : s.position < limit) (samples : Nat) :
    sample width limit (samples + 1) s rest =
      sample width limit samples ⟨s.rows + 1, s.position + Record.rowSize width key size.toNat⟩
        (tail.drop size.toNat) := by
  conv => lhs; unfold sample
  rw [if_neg (Nat.not_le_of_lt h), hfront]
  dsimp only
  rw [if_neg (Int.not_lt.mpr hsize), Nat.add_assoc, Record.rowSize_zero_add]

/-- A row of negative length ends the sample behind its front. -/
theorem sample_of_negative (hfront : Record.takeRowFront? width rest = some (key, size, tail)) (hsize : size < 0)
    (h : s.position < limit) (samples : Nat) :
    sample width limit (samples + 1) s rest = .error ⟨size, s.position + Record.rowSize width key 0⟩ := by
  unfold sample
  rw [if_neg (Nat.not_le_of_lt h), hfront]
  exact if_pos hsize

theorem sample_framed (hrow : Record.Framable width key body) (h : s.position < limit) (samples : Nat) (rest : Bytes) :
    sample width limit (samples + 1) s (Record.framed width key body ++ rest) =
      sample width limit samples ⟨s.rows + 1, s.position + Record.rowSize width key body.length⟩ rest := by
  rw [sample_of_front (Record.takeRowFront?_framed hrow rest) (Int.natCast_nonneg _) h, Int.toNat_natCast,
    List.drop_left]

/-- Whole rows are sampled without an error, so what follows them decides whether there is one. -/
theorem sample_dataBytes {P : Except BadLength Sample → Prop} (hok : ∀ s, P (.ok s)) {limit : Nat}
    {tail : Bytes} (htail : ∀ samples s, P (sample .long limit samples s tail))
    {rows : List AppendedRow} (h : ∀ r ∈ rows, r.Fits) (samples : Nat) (s : Sample) :
    P (sample .long limit samples s (dataBytes rows ++ tail)) := by
  induction samples generalizing rows s with
  | zero => exact hok s
  | succ samples ih =>
      cases rows with
      | nil => exact htail (samples + 1) s
      | cons r rest =>
          by_cases hlimit : limit ≤ s.position
          · rw [sample_of_le hlimit]
            exact hok s
          have hframable := Scanner.framable_of_fits (h r List.mem_cons_self)
          have hbytes : dataBytes (r :: rest) ++ tail = Record.framed .long r.key.key r.body ++
              (dataBytes rest ++ tail) := by
            rw [dataBytes_cons, List.append_assoc]
            rfl
          rw [hbytes, sample_framed hframable (Nat.lt_of_not_le hlimit)]
          exact ih (fun r' hr' => h r' (List.mem_cons_of_mem _ hr')) _

theorem sample_unfinished {tail : Bytes} (h : Unfinished tail) (limit samples : Nat) (s : Sample) :
    ∃ s', sample .long limit samples s tail = .ok s' := by
  rcases hfront : Record.takeRowFront? .long tail with - | ⟨key, size, rest⟩
  · exact ⟨s, sample_of_cut hfront limit samples s⟩
  by_cases hlimit : limit ≤ s.position
  · exact ⟨s, sample_of_le hlimit samples tail⟩
  cases samples with
  | zero => exact ⟨s, rfl⟩
  | succ samples =>
      have hsize := h key size rest hfront
      have hover : rest.drop size.toNat = [] := List.drop_of_length_le (by omega)
      rw [sample_of_front hfront (by omega) (Nat.lt_of_not_le hlimit), hover]
      exact ⟨_, sample_of_cut (Record.takeRowFront?_nil _) _ _ _⟩

theorem sample_negative {tail key body : Bytes} {size : Int}
    (hfront : Record.takeRowFront? .long tail = some (key, size, body)) (hsize : size < 0)
    (limit samples : Nat) (s : Sample) :
    sample .long limit samples s tail = .ok s ∨
      ∃ position, sample .long limit samples s tail = .error ⟨size, position⟩ := by
  cases samples with
  | zero => exact Or.inl rfl
  | succ samples =>
      by_cases hlimit : limit ≤ s.position
      · exact Or.inl (sample_of_le hlimit _ _)
      · exact Or.inr ⟨_, sample_of_negative hfront hsize (Nat.lt_of_not_le hlimit) samples⟩

/-- The cursor is rewound, wherever it was. -/
theorem estimateRows_of_sample {bytes : Bytes}
    (h : sample width (min maxBytes bytes.length) maxSamples ⟨0, 0⟩ bytes = .ok s) (position : Nat) :
    estimateRows width ⟨bytes, position⟩ = (.ok (ofSample bytes.length s), ⟨bytes, 0⟩) := by
  unfold estimateRows
  dsimp only
  rw [h]

theorem estimateRows_of_sample_error {bytes : Bytes}
    (h : sample width (min maxBytes bytes.length) maxSamples ⟨0, 0⟩ bytes = .error e) (position : Nat) :
    estimateRows width ⟨bytes, position⟩ = (.error (.rowSize e.length), ⟨bytes, e.position⟩) := by
  unfold estimateRows
  dsimp only
  rw [h]

end Estimate

namespace Recovery

variable {v : Volume} {d : Descriptor} {rows : List AppendedRow} {files : Component → Option Bytes}

section Estimates

variable {width : LengthWidth} {id : Nat} {bytes : Bytes} {cursor : Cursor}

theorem on_estimateOpen (hbytes : v.disk.bytesOf id = bytes) {estimated : Nat}
    (hestimate : estimateRows width ⟨bytes, 0⟩ = (.ok estimated, cursor)) :
    (estimateOpen width (.file id)).on v = (.ok (estimated, cursor.position), v) := by
  unfold estimateOpen
  rw [Action.on_bind_ok (Action.on_contents_op hbytes), hestimate, Action.on_pure]

theorem on_estimateOpen_error (hbytes : v.disk.bytesOf id = bytes) {e : DecodeError}
    (hestimate : estimateRows width ⟨bytes, 0⟩ = (.error e, cursor)) :
    (estimateOpen width (.file id)).on v = (.error (.io (.decode e)), v) := by
  unfold estimateOpen
  rw [Action.on_bind_ok (Action.on_contents_op hbytes), hestimate, Action.on_throw]

end Estimates

theorem on_indexRows {index : IndexWriter} {p : Place} {bytes : Bytes} (h : index.Holds v.disk p bytes)
    (partitioner : Partitioner) (headers : List RowHeader) (sizes : Histogram) :
    ∃ index' v', Work.on (indexRows partitioner headers (index, sizes)) v =
        ((index', sizes.addAll (headers.map (·.sizeOnDisk))), v') ∧
      index'.Holds v'.disk p (bytes ++ headers.flatMap fun header => Record.index header.key header.position) ∧
      index'.descriptor = index.descriptor ∧
      index'.filter = index.filter.insertAll (headers.map (·.key)) ∧ v.disk.SameBut [p] v'.disk := by
  induction headers generalizing index v bytes sizes with
  | nil =>
      refine ⟨index, v, rfl, ?_, rfl, rfl, .refl _ _⟩
      rw [List.flatMap_nil, List.append_nil]
      exact h
  | cons header rest ih =>
      obtain ⟨index₁, v₁, hrun, hholds, hfields, hsame⟩ :=
        IndexWriter.on_add h (partitioner.decorate header.key) header.position
      rw [Partitioner.key_decorate] at hholds hfields
      obtain ⟨index', v', hrun', hholds', hdescriptor, hfilter, hsame'⟩ := ih hholds (sizes.add header.sizeOnDisk)
      refine ⟨index', v', ?_, ?_, ?_, ?_, hsame.trans hsame'⟩
      · have hfirst : Work.on (indexRow partitioner (index, sizes) header) v =
            ((index₁, sizes.add header.sizeOnDisk), v₁) := by
          rw [indexRow, Work.on_bind_of hrun, Work.on_pure]
        rw [indexRows, List.foldlM_cons, Work.on_bind_of hfirst]
        exact hrun'
      · rw [List.flatMap_cons, ← List.append_assoc]
        exact hholds'
      · rw [hdescriptor, hfields]
      · rw [hfilter, hfields]
        rfl

def rebuiltFilter (config : Config) (estimated : Nat) (rows : List AppendedRow) : Filter :=
  ((FilterBuilder.sized (max 1 estimated) config.falsePositiveRate).insertAll
    (rows.map (·.key.key))).build

theorem mayContain_rebuiltFilter {config : Config} {estimated : Nat} {row : AppendedRow}
    (hrow : row ∈ rows) : (rebuiltFilter config estimated rows).mayContain row.key.key = true :=
  FilterBuilder.mayContain_insertAll (Filter.storable_sized _ _).words_pos
    (Or.inl (List.mem_map_of_mem hrow))

/-- The statistics of a rebuilt table, whose columns are not counted. -/
def rebuiltStatistics (rows : List AppendedRow) : Histogram × Histogram :=
  (Histogram.rowSizes.addAll (rows.map size), .columnCounts)

def rebuilt (data : Bytes) (rows : List AppendedRow) (config : Config) (estimated : Nat) :
    Component → Bytes :=
  tableFiles data rows (rebuiltFilter config estimated rows) (rebuiltStatistics rows)

/-- What the other files of a table are made of again: the headers of the rows, and how many rows were estimated. -/
def remade (headers : List RowHeader) (config : Config) (estimated : Nat) : Component → Bytes
  | .data => []
  | .primaryIndex => headers.flatMap fun header => Record.index header.key header.position
  | .filter =>
      ((FilterBuilder.sized (max 1 estimated) config.falsePositiveRate).insertAll (headers.map (·.key))).build.encode
  | .statistics => Reader.encodeStatistics (Histogram.rowSizes.addAll (headers.map (·.sizeOnDisk))) .columnCounts

theorem remade_headersFrom (data : Bytes) (rows : List AppendedRow) (config : Config) (estimated : Nat) {c : Component}
    (hc : c ≠ .data) : remade (headersFrom 0 rows) config estimated c = rebuilt data rows config estimated c := by
  cases c with
  | data => exact absurd rfl hc
  | primaryIndex => exact flatMap_index_headersFrom 0 rows
  | filter =>
      rw [remade, map_key_headersFrom]
      rfl
  | statistics =>
      rw [remade, map_sizeOnDisk_headersFrom]
      rfl

/-- The names of a table lead to these places, where there is no directory. -/
structure Located (d : Descriptor) (place : Component → Place) (disk : Disk) : Prop where
  injective : Function.Injective place
  reaches : ∀ c, disk.Reaches (d.pathOf c) (place c)
  free : ∀ c, disk.tree (place c) ≠ some .directory

theorem located_of_hosts (hd : d.Valid) (hhosts : v.disk.Hosts d)
    (hfree : ∀ c, v.disk.tree (d.place c) ≠ some .directory) : Located d d.place v.disk where
  injective c c' hsame := by
    by_contra hne
    exact Descriptor.place_ne_place hd hne hsame
  reaches := hhosts
  free := hfree

section Located

variable {place : Component → Place}

theorem Located.ne (h : Located d place v.disk) {c c' : Component} (hne : c ≠ c') : place c ≠ place c' :=
  fun hsame => hne (h.injective hsame)

theorem Located.on_createIndex (h : Located d place v.disk) (estimated : Nat) (config : Config) :
    ∃ index v', (IndexWriter.create d estimated config).on v = (.ok index, v') ∧
      index.Holds v'.disk (place .primaryIndex) [] ∧ index.descriptor = d ∧
      index.filter = .sized (max 1 estimated) config.falsePositiveRate ∧
      v.disk.Frame (· ≠ place .primaryIndex) v'.disk := by
  obtain ⟨id, disk, hcreate, hnode, hnodes, htree⟩ :=
    Disk.create_eq_ok_of_reaches (h.reaches .primaryIndex) (h.free .primaryIndex)
  have hempty : disk.tree (place .primaryIndex) = some (.file []) := by
    rw [htree, Tree.put_self]
  exact ⟨_, _, IndexWriter.create_eq_ok_iff.mpr ⟨id, disk, hcreate, rfl, rfl⟩,
    ⟨Output.holds_create hnode hempty, rfl⟩, rfl, rfl, .of_put htree hnodes (h.free .primaryIndex)⟩

theorem Located.on_reindex (h : Located d place v.disk) (partitioner : Partitioner) (config : Config) (estimated : Nat)
    (headers : List RowHeader) :
    ∃ index v₁ index' v₂ v', (IndexWriter.create d estimated config).on v = (.ok index, v₁) ∧
      Work.on (indexRows partitioner headers (index, .rowSizes)) v₁ =
        ((index', Histogram.rowSizes.addAll (headers.map (·.sizeOnDisk))), v₂) ∧
      Action.on (do
        let _ ← index'.close
        writeStatistics d (Histogram.rowSizes.addAll (headers.map (·.sizeOnDisk))) .columnCounts) v₂ = (.ok (), v') ∧
      (∀ c, c ≠ .data → v'.disk.tree (place c) = some (.file (remade headers config estimated c))) ∧
      v.disk.Frame (fun p => ∀ c, c ≠ .data → p ≠ place c) v'.disk := by
  have hne : ∀ {c c' : Component}, c ≠ c' → place c ≠ place c' := h.ne
  obtain ⟨index, v₁, hindex, hempty, hdescriptor₁, hfilter₁, hframe₁⟩ :=
    h.on_createIndex estimated config
  obtain ⟨index', v₂, hrows, hholds, hdescriptor, hfilter, hsame₂⟩ :=
    on_indexRows hempty partitioner headers .rowSizes
  obtain ⟨v₃, htree₃, hsame₃, hclose⟩ := IndexWriter.on_close hholds
  have hframe₃ : v.disk.Frame (· ≠ place .primaryIndex) v₃.disk :=
    hframe₁.trans ((hsame₂.trans hsame₃).frame fun p hp => by simpa using hp)
  have hfree₃ : ∀ {c : Component}, c ≠ .primaryIndex → v₃.disk.tree (place c) ≠ some .directory := by
    intro c hc
    rw [hframe₃.tree _ (hne hc)]
    exact h.free c
  obtain ⟨v₄, v', hwrite₄, hwrite', htree', hframe'⟩ := Action.on_writeFile_both (hne (by decide))
    ((h.reaches .filter).mono hframe₃.keeps) (hfree₃ (by decide))
    ((h.reaches .statistics).mono hframe₃.keeps) (hfree₃ (by decide)) index'.filter.build.encode
    (Reader.encodeStatistics (Histogram.rowSizes.addAll (headers.map (·.sizeOnDisk))) .columnCounts)
  refine ⟨index, v₁, index', v₂, v', hindex, hrows, ?_, ?_, (hframe₃.mono ?_).trans (hframe'.mono ?_)⟩
  · have hclosed := (hclose _ v₄).mpr ⟨rfl, by rw [hdescriptor, hdescriptor₁]; exact hwrite₄⟩
    rw [Action.on_bind_ok hclosed]
    exact Action.on_op_eq_ok_iff.mpr hwrite'
  · intro c hc
    rw [htree']
    cases c with
    | data => exact absurd rfl hc
    | primaryIndex =>
        rw [Tree.put_of_ne (hne (by decide)), Tree.put_of_ne (hne (by decide)), htree₃, List.nil_append]
        rfl
    | filter =>
        rw [Tree.put_of_ne (hne (by decide)), Tree.put_self, hfilter, hfilter₁]
        rfl
    | statistics =>
        rw [Tree.put_self]
        rfl
  · exact fun p hp => hp _ (by decide)
  · exact fun p hp => ⟨hp _ (by decide), hp _ (by decide)⟩

/-- The headers up to where a row was cut are all that a rebuilt table is made of, next to the estimate. -/
theorem Located.on_rebuild_headers (h : Located d place v.disk) {config : Config} (hconfig : config.validate = .ok ())
    {bytes : Bytes} (hdata : v.disk.tree (place .data) = some (.file bytes)) {estimated : Nat} {cursor : Cursor}
    (hestimate : estimateRows d.lengthWidth ⟨bytes, 0⟩ = (.ok estimated, cursor)) {headers : List RowHeader}
    {failure : Option TableError} (hheaders : (Scanner.start d.lengthWidth bytes).headers = (headers, failure))
    (hfailure : failure = none ∨ ∃ position, failure = some (.truncatedRow position)) (partitioner : Partitioner) :
    ∃ v', (rebuild partitioner config d).on v = (.ok (), v') ∧
      (∀ c, c ≠ .data → v'.disk.tree (place c) = some (.file (remade headers config estimated c))) ∧
      v.disk.Frame (fun p => ∀ c, c ≠ .data → p ≠ place c) v'.disk := by
  obtain ⟨id, hfind, hbytes⟩ := Action.on_find_op (h.reaches .data) hdata
  obtain ⟨index, v₁, index', v₂, v', hcreate, hrows, hfinish, hfiles, hframe⟩ :=
    h.on_reindex partitioner config estimated headers
  refine ⟨v', ?_, hfiles, hframe⟩
  unfold rebuild
  rw [hconfig]
  dsimp only
  rw [Action.on_bind_ok hfind, Action.on_bind_ok (on_estimateOpen hbytes hestimate)]
  dsimp only
  rw [Action.on_bind_ok (Action.on_contents_op hbytes), hheaders, Action.on_bind_ok hcreate]
  dsimp only
  rw [Action.on_bind_ok (Action.on_lift_of hrows)]
  rcases hfailure with rfl | ⟨position, rfl⟩
  · exact hfinish
  · exact hfinish

/-- Any other failure comes up when the pass over the headers is through, and the index that was begun is left. -/
theorem Located.on_rebuild_failed (h : Located d place v.disk) {config : Config} (hconfig : config.validate = .ok ())
    {bytes : Bytes} (hdata : v.disk.tree (place .data) = some (.file bytes)) {estimated : Nat} {cursor : Cursor}
    (hestimate : estimateRows d.lengthWidth ⟨bytes, 0⟩ = (.ok estimated, cursor)) {headers : List RowHeader}
    {e : TableError} (hheaders : (Scanner.start d.lengthWidth bytes).headers = (headers, some e))
    (hfailure : ∀ position, e ≠ .truncatedRow position) (partitioner : Partitioner) :
    ∃ v', (rebuild partitioner config d).on v = (.error e, v') ∧
      v.disk.Frame (· ≠ place .primaryIndex) v'.disk := by
  obtain ⟨id, hfind, hbytes⟩ := Action.on_find_op (h.reaches .data) hdata
  obtain ⟨index, v₁, hcreate, hempty, -, -, hframe⟩ := h.on_createIndex estimated config
  obtain ⟨index', v₂, hrows, hholds, -, -, hsame⟩ := on_indexRows hempty partitioner headers .rowSizes
  obtain ⟨v₃, hdrop, -, hsame'⟩ := IndexWriter.on_drop hholds
  refine ⟨v₃, ?_, hframe.trans ((hsame.trans hsame').frame fun p hp => by simpa using hp)⟩
  unfold rebuild
  rw [hconfig]
  dsimp only
  rw [Action.on_bind_ok hfind, Action.on_bind_ok (on_estimateOpen hbytes hestimate)]
  dsimp only
  rw [Action.on_bind_ok (Action.on_contents_op hbytes), hheaders, Action.on_bind_ok hcreate]
  dsimp only
  rw [Action.on_bind_ok (Action.on_lift_of hrows)]
  dsimp only
  split
  · rename_i heq
    cases heq
  · rename_i position heq
    cases heq
    exact absurd rfl (hfailure position)
  · rename_i heq
    cases heq
    rw [Action.on_bind_ok (Action.on_lift_of hdrop)]
    rfl

/-- Whole rows are all that a rebuilt table has, whatever unfinished row follows them in the data. -/
theorem Located.on_rebuild (h : Located d place v.disk) (hwidth : d.lengthWidth = .long) {config : Config}
    (hconfig : config.validate = .ok ()) {tail : Bytes}
    (hdata : v.disk.tree (place .data) = some (.file (dataBytes rows ++ tail))) (hfits : ∀ r ∈ rows, r.Fits)
    (hunfinished : Unfinished tail) (partitioner : Partitioner) :
    ∃ estimated v', (rebuild partitioner config d).on v = (.ok (), v') ∧
      (∀ c, v'.disk.tree (place c) = some (.file (rebuilt (dataBytes rows ++ tail) rows config estimated c))) ∧
      v.disk.Frame (fun p => ∀ c, p ≠ place c) v'.disk := by
  let limit := min Estimate.maxBytes (dataBytes rows ++ tail).length
  have htail : ∀ samples s, ∃ s', Estimate.sample .long limit samples s tail = .ok s' :=
    Estimate.sample_unfinished hunfinished limit
  obtain ⟨s, hsample⟩ := Estimate.sample_dataBytes (P := fun result => ∃ s, result = .ok s)
    (fun s => ⟨s, rfl⟩) htail hfits Estimate.maxSamples ⟨0, 0⟩
  have hestimate := Estimate.estimateRows_of_sample hsample 0
  have hheaders := Scanner.headers_start_append hfits hunfinished
  have hfailure : Scanner.failureAt (total rows) tail = none ∨
      ∃ position, Scanner.failureAt (total rows) tail = some (.truncatedRow position) := by
    unfold Scanner.failureAt
    split
    · exact .inl rfl
    · exact .inr ⟨_, rfl⟩
  rw [← hwidth] at hestimate hheaders
  obtain ⟨v', hrun, hfiles, hframe⟩ :=
    h.on_rebuild_headers hconfig hdata hestimate hheaders hfailure partitioner
  refine ⟨Estimate.ofSample (dataBytes rows ++ tail).length s, v', hrun, fun c => ?_, hframe.mono fun p hp c _ => hp c⟩
  by_cases hc : c = .data
  · subst hc
    rw [hframe.tree _ fun c hc => h.ne hc.symm, hdata]
    rfl
  · rw [hfiles c hc, remade_headersFrom _ _ _ _ hc]

/-- A negative length behind the whole rows is an error, which the estimate or else the scan comes upon. -/
theorem Located.on_rebuild_negative (h : Located d place v.disk) (hwidth : d.lengthWidth = .long) {config : Config}
    (hconfig : config.validate = .ok ()) {tail key body : Bytes} {size : Int}
    (hdata : v.disk.tree (place .data) = some (.file (dataBytes rows ++ tail))) (hfits : ∀ r ∈ rows, r.Fits)
    (hfront : Record.takeRowFront? .long tail = some (key, size, body)) (hsize : size < 0)
    (partitioner : Partitioner) :
    ∃ v', (rebuild partitioner config d).on v = (.error (.io (.decode (.rowSize size))), v') ∧
      v.disk.Frame (· ≠ place .primaryIndex) v'.disk := by
  let limit := min Estimate.maxBytes (dataBytes rows ++ tail).length
  have htail : ∀ samples s, (∃ s', Estimate.sample .long limit samples s tail = .ok s') ∨
      ∃ position, Estimate.sample .long limit samples s tail = .error ⟨size, position⟩ := by
    intro samples s
    rcases Estimate.sample_negative hfront hsize limit samples s with h | h
    · exact Or.inl ⟨s, h⟩
    · exact Or.inr h
  rcases Estimate.sample_dataBytes
      (P := fun result => (∃ s, result = .ok s) ∨ ∃ position, result = .error ⟨size, position⟩)
      (fun s => .inl ⟨s, rfl⟩) htail hfits Estimate.maxSamples ⟨0, 0⟩ with ⟨s, hsample⟩ | ⟨position, hsample⟩
  · have hestimate := Estimate.estimateRows_of_sample hsample 0
    have hheaders : (Scanner.start .long (dataBytes rows ++ tail)).headers =
        (headersFrom 0 rows, some (.io (.decode (.rowSize size)))) := by
      rw [Scanner.start_eq_after, Scanner.headers_dataBytes hfits,
        Scanner.headers_negative hfront hsize, List.append_nil]
    rw [← hwidth] at hestimate hheaders
    exact h.on_rebuild_failed hconfig hdata hestimate hheaders (by simp) partitioner
  · have hestimate := Estimate.estimateRows_of_sample_error hsample 0
    obtain ⟨id, hfind, hbytes⟩ := Action.on_find_op (h.reaches .data) hdata
    refine ⟨v, ?_, .refl _ _⟩
    unfold rebuild
    rw [hconfig, hwidth]
    dsimp only
    rw [Action.on_bind_ok hfind]
    exact Action.on_bind_error (on_estimateOpen_error hbytes hestimate)

end Located

theorem on_rebuild (hd : d.Valid) {config : Config} (hconfig : config.validate = .ok ())
    (hhosts : v.disk.Hosts d) {tail : Bytes}
    (hdata : v.disk.tree (d.place .data) = some (.file (dataBytes rows ++ tail)))
    (hfree : ∀ c, v.disk.tree (d.place c) ≠ some .directory) (hfits : ∀ r ∈ rows, r.Fits)
    (hunfinished : Unfinished tail) (partitioner : Partitioner) :
    ∃ estimated v', (rebuild partitioner config d).on v = (.ok (), v') ∧
      v'.disk.Shows d (fun c => some (rebuilt (dataBytes rows ++ tail) rows config estimated c)) ∧
      v.disk.Frame d.Outside v'.disk :=
  (located_of_hosts hd hhosts hfree).on_rebuild hd.lengthWidth hconfig hdata hfits hunfinished partitioner

theorem on_rebuild_negative (hd : d.Valid) {config : Config} (hconfig : config.validate = .ok ())
    (hhosts : v.disk.Hosts d) {tail key body : Bytes} {size : Int}
    (hdata : v.disk.tree (d.place .data) = some (.file (dataBytes rows ++ tail)))
    (hfree : ∀ c, v.disk.tree (d.place c) ≠ some .directory) (hfits : ∀ r ∈ rows, r.Fits)
    (hfront : Record.takeRowFront? .long tail = some (key, size, body)) (hsize : size < 0)
    (partitioner : Partitioner) :
    ∃ v', (rebuild partitioner config d).on v = (.error (.io (.decode (.rowSize size))), v') := by
  obtain ⟨v', hrun, -⟩ := (located_of_hosts hd hhosts hfree).on_rebuild_negative hd.lengthWidth hconfig hdata hfits
    hfront hsize partitioner
  exact ⟨v', hrun⟩

end Recovery

end SortedTable
