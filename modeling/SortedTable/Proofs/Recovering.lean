import SortedTable.Proofs.Fidelity
import SortedTable.Proofs.Rebuilding

/-!
# Recovering tables

What a recovery does is decided by what lies under the temporary names: it opens what was published, it
publishes what is intact, or it makes the other files again from the data.
-/

namespace SortedTable.Recovery

open AppendedRow

variable {v : Volume} {d : Descriptor} {rows : List AppendedRow} {files : Component → Option Bytes}

theorem on_removeIfThere {path : Path} {p : Place} (hreach : v.disk.Reaches path p)
    (hfile : v.disk.tree p ≠ some .directory) :
    ∃ v', (removeIfThere path).op.on v = (.ok (), v') ∧ v'.disk.tree = v.disk.tree.put p none ∧
      v.disk.Frame (· ≠ p) v'.disk := by
  have hremove := Disk.remove_of_reaches hreach
  rcases hnode : v.disk.node? p with - | node
  · rw [hnode] at hremove
    have hmissing : (Action.remove path).on v = (.error .notFound, v) := Action.on_change_unit_error hremove
    refine ⟨v, ?_, ?_, .refl _ _⟩
    · rw [Action.on_op_eq_ok_iff, removeIfThere, Action.on_tryCatch_error hmissing, if_pos rfl,
        Action.on_pure]
    · rw [Tree.put_eq_self]
      exact Disk.tree_eq_none_iff.mpr hnode
  · cases node with
    | directory => exact absurd (Disk.tree_eq_directory_iff.mpr hnode) hfile
    | file id =>
        rw [hnode] at hremove
        have hremoved : (Action.remove path).on v = (.ok (), v.step (v.disk.erase p)) :=
          Action.on_change_unit_ok hremove
        have htree : (v.disk.erase p).tree = v.disk.tree.put p none := Disk.tree_erase hreach.ne_nil
        refine ⟨v.step (v.disk.erase p), ?_, htree, .of_put htree (fun q hq => ?_) hfile⟩
        · rw [Action.on_op_eq_ok_iff, removeIfThere]
          exact Action.on_tryCatch_ok hremoved
        · rw [Volume.disk_step, Disk.node?_erase hreach.ne_nil, if_neg hq]

/-- What is left of a table when its auxiliary files are removed. -/
def dataOnly (files : Component → Option Bytes) : Component → Option Bytes
  | .data => files .data
  | _ => none

theorem on_removeAuxiliary (hd : d.Valid) (hhosts : v.disk.Hosts d) (hshows : v.disk.Shows d files) :
    ∃ v', (Action.forEach (fun c => (removeIfThere (d.pathOf c)).op) Component.auxiliary).on v =
        (.ok (), v') ∧
      v'.disk.Shows d (dataOnly files) ∧ v.disk.Frame d.Outside v'.disk := by
  have hne : ∀ {c c' : Component}, c ≠ c' → d.place c ≠ d.place c' := Descriptor.place_ne_place hd
  obtain ⟨v₁, hrun₁, htree₁, hframe₁⟩ :=
    on_removeIfThere (hhosts .primaryIndex) (hshows.not_directory .primaryIndex)
  have hfree₁ : v₁.disk.tree (d.place .filter) ≠ some .directory := by
    rw [hframe₁.tree _ (hne (by decide))]
    exact hshows.not_directory .filter
  obtain ⟨v₂, hrun₂, htree₂, hframe₂⟩ := on_removeIfThere ((hhosts .filter).mono hframe₁.keeps) hfree₁
  have hfree₂ : v₂.disk.tree (d.place .statistics) ≠ some .directory := by
    rw [hframe₂.tree _ (hne (by decide)), hframe₁.tree _ (hne (by decide))]
    exact hshows.not_directory .statistics
  obtain ⟨v₃, hrun₃, htree₃, hframe₃⟩ := on_removeIfThere
    ((hhosts .statistics).mono (hframe₁.keeps.trans hframe₂.keeps)) hfree₂
  refine ⟨v₃, ?_, ?_, ((hframe₁.mono ?_).trans (hframe₂.mono ?_)).trans (hframe₃.mono ?_)⟩
  · rw [Component.auxiliary, Action.forEach, Action.on_bind_ok hrun₁, Action.forEach,
      Action.on_bind_ok hrun₂, Action.forEach, Action.on_bind_ok hrun₃]
    rfl
  · intro c
    rw [htree₃, htree₂, htree₁]
    cases c with
    | data =>
        rw [Tree.put_of_ne (hne (by decide)), Tree.put_of_ne (hne (by decide)),
          Tree.put_of_ne (hne (by decide)), hshows .data]
        rfl
    | primaryIndex =>
        rw [Tree.put_of_ne (hne (by decide)), Tree.put_of_ne (hne (by decide)), Tree.put_self]
        rfl
    | filter =>
        rw [Tree.put_of_ne (hne (by decide)), Tree.put_self]
        rfl
    | statistics =>
        rw [Tree.put_self]
        rfl
  all_goals exact fun p hp => hp _

def intactFiles (files : Component → Option Bytes) (data : Bytes) : Bool :=
  match files .primaryIndex, files .filter, files .statistics with
  | some index, some _, some statistics =>
      (Reader.decodeStatistics statistics).isOk &&
        match Record.readIndex index with
        | (_, some _) => false
        | (records, none) => describesData .long records data
  | _, _, _ => false

theorem on_statisticsReadable (hhosts : v.disk.Hosts d) (hshows : v.disk.Shows d files) :
    (statisticsReadable d).on v = (.ok (match files .statistics with
      | none => false
      | some bytes => (Reader.decodeStatistics bytes).isOk), v) := by
  have hread := hshows.reads hhosts .statistics
  unfold statisticsReadable
  rw [Action.on_bind_ok (Action.on_get v), hread]
  rcases files .statistics with - | bytes <;> rfl

theorem on_auxiliaryIntact (hd : d.Valid) (hhosts : v.disk.Hosts d) (hshows : v.disk.Shows d files)
    {data : Bytes} (hdata : files .data = some data) :
    (auxiliaryIntact d).on v = (.ok (intactFiles files data), v) := by
  have hindex := hshows.reads hhosts .primaryIndex
  have hread := hshows.reads hhosts .data
  have hstatistics := on_statisticsReadable hhosts hshows
  unfold auxiliaryIntact intactFiles
  rw [Action.on_bind_ok (Action.on_get v)]
  dsimp only
  rw [hshows.existsAt hhosts, hshows.existsAt hhosts, hindex, hread, hdata, hd.lengthWidth]
  rcases files .primaryIndex with - | index
  · rfl
  rcases files .filter with - | stored
  · rfl
  simp only [Option.isSome_some, Bool.and_self, if_true]
  rw [Action.on_bind_ok hstatistics]
  rcases files .statistics with - | statistics
  · rfl
  dsimp only
  by_cases hreadable : (Reader.decodeStatistics statistics).isOk = true
  · rw [if_pos hreadable, hreadable, Bool.true_and]
    rcases Record.readIndex index with ⟨records, - | e⟩ <;> rfl
  · rw [if_neg hreadable, Bool.eq_false_of_not_eq_true hreadable, Bool.false_and, Action.on_pure]

theorem on_auxiliaryIntact_of_filter (hhosts : v.disk.Hosts d) (hshows : v.disk.Shows d files)
    (hfilter : files .filter = none) : (auxiliaryIntact d).on v = (.ok false, v) := by
  have habsent :
      (v.disk.existsAt (d.pathOf .primaryIndex) && v.disk.existsAt (d.pathOf .filter)) = false := by
    rw [hshows.existsAt hhosts .filter, hfilter, Option.isSome_none, Bool.and_false]
  unfold auxiliaryIntact
  rw [Action.on_bind_ok (Action.on_get v)]
  dsimp only
  rw [habsent]
  rfl

theorem intactFiles_eq_false {data : Bytes} (h : files .primaryIndex = none ∨ files .filter = none ∨
    files .statistics = none) : intactFiles files data = false := by
  unfold intactFiles
  rcases hindex : files .primaryIndex with - | index
  · rfl
  rcases hfilter : files .filter with - | stored
  · rfl
  rcases hstatistics : files .statistics with - | statistics
  · rfl
  simp [hindex, hfilter, hstatistics] at h

theorem intactFiles_eq_false_of_statistics {statistics data : Bytes}
    (hfile : files .statistics = some statistics)
    (h : (Reader.decodeStatistics statistics).isOk = false) : intactFiles files data = false := by
  unfold intactFiles
  rw [hfile]
  rcases files .primaryIndex with - | index
  · rfl
  rcases files .filter with - | stored
  · rfl
  dsimp only
  rw [h, Bool.false_and]

/-- The last record of an index names the row that ends where the data does. -/
theorem describesData_entries (hfits : ∀ r ∈ rows, r.Fits) :
    describesData .long (entries rows) (dataBytes rows) = true := by
  by_cases hnil : rows = []
  · rw [hnil]
    rfl
  let front := rows.dropLast
  let last := rows.getLast hnil
  have hrows : rows = front ++ [last] := (List.dropLast_concat_getLast hnil).symm
  have hlast : last.Fits := hfits last (List.getLast_mem hnil)
  have hdata : dataBytes rows = dataBytes front ++ last.bytes := by
    rw [hrows, dataBytes_append, dataBytes_singleton]
  have hlength : (dataBytes rows).length = total front + last.size := by
    rw [length_dataBytes, hrows, total_append, total_cons]
    rfl
  have hfront : Record.takeRowFront? .long ((dataBytes rows).drop (total front)) =
      some (last.key.key, (last.body.length : Int), last.body) := by
    rw [hdata, ← length_dataBytes, List.drop_left]
    have hrow := Record.takeRowFront?_row hlast.key hlast.body []
    rw [List.append_nil, List.append_nil] at hrow
    exact hrow
  have hend : rowEnd? .long (dataBytes rows) (last.key.key, total front) = some (dataBytes rows).length := by
    have hnonneg : (0 : Int) ≤ last.body.length := Int.natCast_nonneg _
    simp only [rowEnd?, hfront, Option.bind_eq_bind, Option.bind_some, hnonneg, and_self, if_true,
      Int.toNat_natCast, hlength]
    rfl
  have hpos := last.size_pos
  have hentries : (entries rows).getLast? = some (last.key.key, total front) := by
    rw [hrows, entries_append, List.getLast?_concat]
  unfold describesData
  rw [hentries]
  dsimp only
  rw [hend, decide_eq_true rfl, Bool.and_true, decide_eq_true_iff]
  omega

theorem intactFiles_eq_true (hkeys : ∀ row ∈ rows, row.key.key.length ≤ Record.maxShort)
    (htotal : total rows < Disk.maxOffset) (hindex : files .primaryIndex = some (indexBytes rows))
    {stored statistics : Bytes} (hfilter : files .filter = some stored)
    (hstatistics : files .statistics = some statistics)
    (hreadable : (Reader.decodeStatistics statistics).isOk = true) :
    intactFiles files (dataBytes rows) = true := by
  unfold intactFiles
  rw [hindex, hfilter, hstatistics]
  dsimp only
  rw [hreadable, Bool.true_and, readIndex_indexBytes hkeys htotal]
  exact describesData_entries (fits_of_total_lt hkeys htotal)

variable {processor : RecoveryProcessor} {metadata : TableMetadata} {partitioner : Partitioner}
  {config : Config} {age : Nat}

def publishAndOpen (d : Descriptor) (metadata : TableMetadata) (partitioner : Partitioner)
    (config : Config) (age : Nat) : Action TableError Reader := do
  let published ← d.publish Component.all
  Reader.openTable published metadata partitioner config age

/-- Recovery before the table is published: what is not intact is made again. -/
def prepare (d : Descriptor) (processor : RecoveryProcessor) : Action TableError Unit := do
  unless ← auxiliaryIntact d do
    for c in Component.auxiliary do
      (removeIfThere (d.pathOf c)).op
    processor d

theorem on_prepare_intact (h : (auxiliaryIntact d).on v = (.ok true, v)) :
    (prepare d processor).on v = (.ok (), v) := by
  unfold prepare
  rw [Action.on_bind_ok h]
  rfl

theorem on_prepare_broken (h : (auxiliaryIntact d).on v = (.ok false, v)) :
    (prepare d processor).on v =
      (Action.forEach (fun c => (removeIfThere (d.pathOf c)).op) Component.auxiliary >>= fun _ =>
        processor d).on v := by
  unfold prepare
  rw [Action.on_bind_ok h, if_neg Bool.false_ne_true]
  exact Action.on_bind_congr (Action.on_forIn _ Component.auxiliary v) _

/-- A table of another version is left alone. -/
theorem on_recoverAndOpen_outdated (h : d.isCurrent = false) :
    (recoverAndOpen d processor metadata partitioner config age).on v =
      (.error (.incompatibleVersion d.version), v) := by
  unfold recoverAndOpen
  rw [if_neg (by simp [h])]
  rfl

/-- What has been published is only opened. -/
theorem on_recoverAndOpen_done (hcurrent : d.isCurrent = true) (htemporary : v.disk.existsAt (d.pathOf .data) = false)
    (hpermanent : v.disk.existsAt (d.published.pathOf .data) = true) :
    (recoverAndOpen d processor metadata partitioner config age).on v =
      (Reader.openTable d.published metadata partitioner config age).on v := by
  unfold recoverAndOpen
  rw [hcurrent, if_pos rfl, Action.on_bind_ok (Action.on_get v)]
  dsimp only
  rw [htemporary, hpermanent]
  rfl

/-- A table whose data has no permanent name yet is prepared, then published and opened. -/
theorem on_recoverAndOpen_eq (hcurrent : d.isCurrent = true)
    (h : (!v.disk.existsAt (d.pathOf .data) && v.disk.existsAt (d.published.pathOf .data)) = false) :
    (recoverAndOpen d processor metadata partitioner config age).on v =
      (prepare d processor >>= fun _ => publishAndOpen d metadata partitioner config age).on v := by
  have hrecover : (recoverAndOpen d processor metadata partitioner config age).on v = Action.on (do
      if ← auxiliaryIntact d then publishAndOpen d metadata partitioner config age
      else do
        for c in Component.auxiliary do
          (removeIfThere (d.pathOf c)).op
        processor d
        publishAndOpen d metadata partitioner config age) v := by
    unfold recoverAndOpen publishAndOpen
    rw [hcurrent, if_pos rfl, Action.on_bind_ok (Action.on_get v)]
    dsimp only
    rw [h]
    rfl
  rw [hrecover, prepare, bind_assoc]
  congr 2
  funext intact
  cases intact with
  | true => rw [if_pos rfl, if_pos rfl, pure_bind]
  | false => rw [if_neg Bool.false_ne_true, if_neg Bool.false_ne_true, bind_assoc]

/-- All that a recovery can do. -/
theorem recoverAndOpen_cases (d : Descriptor) (processor : RecoveryProcessor) (metadata : TableMetadata)
    (partitioner : Partitioner) (config : Config) (age : Nat) (v : Volume) :
    (d.isCurrent = false ∧ (recoverAndOpen d processor metadata partitioner config age).on v =
        (.error (.incompatibleVersion d.version), v)) ∨
      (d.isCurrent = true ∧ v.disk.existsAt (d.pathOf .data) = false ∧
        (recoverAndOpen d processor metadata partitioner config age).on v =
          (Reader.openTable d.published metadata partitioner config age).on v) ∨
      (d.isCurrent = true ∧ (recoverAndOpen d processor metadata partitioner config age).on v =
        (prepare d processor >>= fun _ => publishAndOpen d metadata partitioner config age).on v) := by
  rcases hcurrent : d.isCurrent
  · exact .inl ⟨rfl, on_recoverAndOpen_outdated hcurrent⟩
  rcases hdone : !v.disk.existsAt (d.pathOf .data) && v.disk.existsAt (d.published.pathOf .data)
  · exact .inr (.inr ⟨rfl, on_recoverAndOpen_eq hcurrent hdone⟩)
  · rw [Bool.and_eq_true, Bool.not_eq_true'] at hdone
    exact .inr (.inl ⟨rfl, hdone.1, on_recoverAndOpen_done hcurrent hdone.1 hdone.2⟩)

theorem on_recoverAndOpen_published (hd : d.Valid) (hhosts : v.disk.Hosts d)
    (hdata : v.disk.tree (d.place .data) = none)
    (hpublished : (v.disk.tree (d.published.place .data)).isSome = true) :
    (recoverAndOpen d processor metadata partitioner config age).on v =
      (Reader.openTable d.published metadata partitioner config age).on v := by
  have htemporary := Disk.existsAt_of_reaches (hhosts .data)
  have hpermanent := Disk.existsAt_of_reaches (hhosts.published hd .data)
  rw [hdata] at htemporary
  rw [hpublished] at hpermanent
  exact on_recoverAndOpen_done hd.isCurrent htemporary hpermanent

theorem not_published (hd : d.Valid) (hhosts : v.disk.Hosts d)
    (hdata : (v.disk.tree (d.place .data)).isSome = true ∨ v.disk.tree (d.published.place .data) = none) :
    (!v.disk.existsAt (d.pathOf .data) && v.disk.existsAt (d.published.pathOf .data)) = false := by
  rw [Disk.existsAt_of_reaches (hhosts .data), Disk.existsAt_of_reaches (hhosts.published hd .data)]
  rcases hdata with h | h <;> simp [h]

theorem on_recoverAndOpen_intact (hd : d.Valid) (hhosts : v.disk.Hosts d)
    (hdata : (v.disk.tree (d.place .data)).isSome = true ∨ v.disk.tree (d.published.place .data) = none)
    (hintact : (auxiliaryIntact d).on v = (.ok true, v)) :
    (recoverAndOpen d processor metadata partitioner config age).on v =
      (publishAndOpen d metadata partitioner config age).on v := by
  rw [on_recoverAndOpen_eq hd.isCurrent (not_published hd hhosts hdata),
    Action.on_bind_ok (on_prepare_intact hintact)]

/-- What is not intact is removed before the other files are made again. -/
theorem on_recoverAndOpen_broken (hd : d.Valid) (hhosts : v.disk.Hosts d)
    (hdata : (v.disk.tree (d.place .data)).isSome = true ∨ v.disk.tree (d.published.place .data) = none)
    (hbroken : (auxiliaryIntact d).on v = (.ok false, v)) {v₁ : Volume}
    (hremove : (Action.forEach (fun c => (removeIfThere (d.pathOf c)).op) Component.auxiliary).on v =
      (.ok (), v₁)) :
    (recoverAndOpen d processor metadata partitioner config age).on v =
      (processor d >>= fun _ => publishAndOpen d metadata partitioner config age).on v₁ := by
  have hprepare : (prepare d processor).on v = (processor d).on v₁ := by
    rw [on_prepare_broken hbroken, Action.on_bind_ok hremove]
  rw [on_recoverAndOpen_eq hd.isCurrent (not_published hd hhosts hdata), Action.on_bind_congr hprepare]

/-- A table that has come out of temporary status, and the reader that was opened of it. -/
structure Completed (d : Descriptor) (data : Bytes) (rows : List AppendedRow) (filter : Filter)
    (statistics : Histogram × Histogram) (r : Reader) (disk : Disk) : Prop where
  reader : r.Shows disk d.published data rows
  kept : r.filter = filter
  rowSizes : r.rowSizes = statistics.1
  columnCounts : r.columnCounts = statistics.2
  permanent : disk.Shows d.published fun c => some (tableFiles data rows filter statistics c)
  temporary : disk.Shows d fun _ => none
  hosts : disk.Hosts d

variable {data : Bytes} {filter : Filter} {statistics : Histogram × Histogram}

theorem on_publishAndOpen (hd : d.Valid) (htemporary : d.temporary = true) (hhosts : v.disk.Hosts d)
    (hshows : v.disk.Shows d fun c => some (tableFiles data rows filter statistics c))
    (hfree : ∀ c, v.disk.tree (d.published.place c) ≠ some .directory)
    (hsound : Reader.Sound rows filter statistics) (metadata : TableMetadata) (partitioner : Partitioner)
    (config : Config) (age : Nat) :
    ∃ r v', (publishAndOpen d metadata partitioner config age).on v = (.ok r, v') ∧
      Completed d data rows filter statistics r v'.disk ∧ v.disk.Frame d.Apart v'.disk := by
  obtain ⟨v₁, hpublish, hpermanent, hmoved, hframe⟩ := Descriptor.on_publish hd hhosts hshows hfree
  obtain ⟨r, hopen, hreader, hfilter, hrowSizes, hcolumnCounts⟩ := Reader.on_openTable_of_sound
    ((hhosts.published hd).mono hframe.keeps) hpermanent hsound metadata partitioner config age
  refine ⟨r, v₁, ?_, ⟨hreader, hfilter, hrowSizes, hcolumnCounts, hpermanent, hmoved htemporary,
    hhosts.mono hframe.keeps⟩, hframe⟩
  rw [publishAndOpen, Action.on_bind_ok hpublish, hopen]

theorem on_recoverAndOpen_sound (hd : d.Valid) (htemporary : d.temporary = true)
    (hhosts : v.disk.Hosts d)
    (hshows : v.disk.Shows d fun c => some (tableFiles (dataBytes rows) rows filter statistics c))
    (hfree : ∀ c, v.disk.tree (d.published.place c) ≠ some .directory)
    (hsound : Reader.Sound rows filter statistics) (processor : RecoveryProcessor)
    (metadata : TableMetadata) (partitioner : Partitioner) (config : Config) (age : Nat) :
    ∃ r v', (recoverAndOpen d processor metadata partitioner config age).on v = (.ok r, v') ∧
      Completed d (dataBytes rows) rows filter statistics r v'.disk ∧ v.disk.Frame d.Apart v'.disk := by
  have hdata : (v.disk.tree (d.place .data)).isSome = true := by
    rw [hshows .data]
    rfl
  have hreadable : (Reader.decodeStatistics
      (tableFiles (dataBytes rows) rows filter statistics .statistics)).isOk = true := by
    change (Reader.decodeStatistics (Reader.encodeStatistics statistics.1 statistics.2)).isOk = true
    rw [Reader.decodeStatistics_encode hsound.rowSizes hsound.columnCounts]
    rfl
  have hintact := on_auxiliaryIntact hd hhosts hshows rfl
  change (auxiliaryIntact d).on v = (.ok (intactFiles _ (dataBytes rows)), v) at hintact
  rw [intactFiles_eq_true hsound.keys hsound.total rfl rfl rfl hreadable] at hintact
  rw [on_recoverAndOpen_intact hd hhosts (Or.inl hdata) hintact]
  exact on_publishAndOpen hd htemporary hhosts hshows hfree hsound metadata partitioner config age

theorem sound_rebuilt (hkeys : ∀ row ∈ rows, row.key.key.length ≤ Record.maxShort)
    (htotal : total rows < Disk.maxOffset) (config : Config) (estimated : Nat) :
    Reader.Sound rows (rebuiltFilter config estimated rows) (rebuiltStatistics rows) := by
  have hcounts : ([] : List Nat).length ≤ rows.length := Nat.zero_le _
  exact Reader.sound_insertAll hkeys htotal (Filter.storable_sized _ _) hcounts

theorem on_recoverAndOpen_rebuilt (hd : d.Valid) (htemporary : d.temporary = true)
    (hhosts : v.disk.Hosts d) (hshows : v.disk.Shows d files)
    (hfree : ∀ c, v.disk.tree (d.published.place c) ≠ some .directory) {tail : Bytes}
    (hdata : files .data = some (dataBytes rows ++ tail))
    (hbroken : intactFiles files (dataBytes rows ++ tail) = false)
    (hkeys : ∀ row ∈ rows, row.key.key.length ≤ Record.maxShort) (htotal : total rows < Disk.maxOffset)
    (hunfinished : Unfinished tail) {config : Config} (hconfig : config.validate = .ok ())
    (metadata : TableMetadata) (partitioner : Partitioner) (opening : Config) (age : Nat) :
    ∃ estimated r v', (recoverAndOpen d (rebuild partitioner config) metadata partitioner opening age).on v =
        (.ok r, v') ∧
      Completed d (dataBytes rows ++ tail) rows (rebuiltFilter config estimated rows)
        (rebuiltStatistics rows) r v'.disk ∧
      v.disk.Frame d.Apart v'.disk := by
  have hpresent : (v.disk.tree (d.place .data)).isSome = true := by
    rw [hshows .data, hdata]
    rfl
  have hintact := on_auxiliaryIntact hd hhosts hshows hdata
  rw [hbroken] at hintact
  obtain ⟨v₁, hremove, hshows₁, hframe₁⟩ := on_removeAuxiliary hd hhosts hshows
  have hdata₁ : v₁.disk.tree (d.place .data) = some (.file (dataBytes rows ++ tail)) := by
    rw [hshows₁ .data, dataOnly, hdata]
    rfl
  obtain ⟨estimated, v₂, hrebuild, hshows₂, hframe₂⟩ := on_rebuild hd hconfig
    (hhosts.mono hframe₁.keeps) hdata₁ hshows₁.not_directory (fits_of_total_lt hkeys htotal) hunfinished partitioner
  have hframe := hframe₁.trans hframe₂
  have hfree₂ : ∀ c, v₂.disk.tree (d.published.place c) ≠ some .directory := by
    intro c
    rw [hframe.tree _ (Descriptor.outside_published_place hd htemporary c)]
    exact hfree c
  obtain ⟨r, v', hopen, hcompleted, hframe'⟩ := on_publishAndOpen hd htemporary (hhosts.mono hframe.keeps)
    hshows₂ hfree₂ (sound_rebuilt hkeys htotal config estimated) metadata partitioner opening age
  refine ⟨estimated, r, v', ?_, hcompleted, (hframe.mono fun _ => Descriptor.Apart.outside).trans hframe'⟩
  rw [on_recoverAndOpen_broken hd hhosts (Or.inl hpresent) hintact hremove, Action.on_bind_ok hrebuild,
    hopen]

def partly (data : Bytes) (index filter statistics : Option Bytes) : Component → Option Bytes
  | .data => some data
  | .primaryIndex => index
  | .filter => filter
  | .statistics => statistics

theorem on_recoverAndOpen_whole (hd : d.Valid) (htemporary : d.temporary = true)
    (hhosts : v.disk.Hosts d) (hshows : v.disk.Shows d files)
    (hfree : ∀ c, v.disk.tree (d.published.place c) ≠ some .directory)
    (hdata : files .data = some (dataBytes rows)) (hbroken : intactFiles files (dataBytes rows) = false)
    (hkeys : ∀ row ∈ rows, row.key.key.length ≤ Record.maxShort) (htotal : total rows < Disk.maxOffset)
    {config : Config} (hconfig : config.validate = .ok ()) (metadata : TableMetadata)
    (partitioner : Partitioner) (opening : Config) (age : Nat) :
    ∃ estimated r v', (recoverAndOpen d (rebuild partitioner config) metadata partitioner opening age).on v =
        (.ok r, v') ∧
      Completed d (dataBytes rows) rows (rebuiltFilter config estimated rows) (rebuiltStatistics rows) r
        v'.disk ∧ v.disk.Frame d.Apart v'.disk := by
  have hnil : dataBytes rows ++ [] = dataBytes rows := List.append_nil _
  rw [← hnil] at hdata hbroken
  have hrun := on_recoverAndOpen_rebuilt hd htemporary hhosts hshows hfree hdata hbroken hkeys htotal
    .nil hconfig metadata partitioner opening age
  rwa [hnil] at hrun

theorem on_recoverAndOpen_negative (hd : d.Valid) (hhosts : v.disk.Hosts d) (hshows : v.disk.Shows d files)
    {tail key body : Bytes} {size : Int} (hdata : files .data = some (dataBytes rows ++ tail))
    (hbroken : intactFiles files (dataBytes rows ++ tail) = false) (hfits : ∀ r ∈ rows, r.Fits)
    (hfront : Record.takeRowFront? .long tail = some (key, size, body)) (hsize : size < 0)
    {config : Config} (hconfig : config.validate = .ok ()) (metadata : TableMetadata)
    (partitioner : Partitioner) (opening : Config) (age : Nat) :
    ∃ v', (recoverAndOpen d (rebuild partitioner config) metadata partitioner opening age).on v =
      (.error (.io (.decode (.rowSize size))), v') := by
  have hpresent : (v.disk.tree (d.place .data)).isSome = true := by
    rw [hshows .data, hdata]
    rfl
  have hintact := on_auxiliaryIntact hd hhosts hshows hdata
  rw [hbroken] at hintact
  obtain ⟨v₁, hremove, hshows₁, hframe₁⟩ := on_removeAuxiliary hd hhosts hshows
  have hdata₁ : v₁.disk.tree (d.place .data) = some (.file (dataBytes rows ++ tail)) := by
    rw [hshows₁ .data, dataOnly, hdata]
    rfl
  obtain ⟨v', hrebuild⟩ := on_rebuild_negative hd hconfig (hhosts.mono hframe₁.keeps) hdata₁
    hshows₁.not_directory hfits hfront hsize partitioner
  refine ⟨v', ?_⟩
  rw [on_recoverAndOpen_broken hd hhosts (Or.inl hpresent) hintact hremove, Action.on_bind_error hrebuild]

/-- A disk on which the table of some rows can be completed. -/
structure Workable (t : Writer.Terms) (rows : List AppendedRow) (disk : Disk) : Prop where
  valid : t.descriptor.Valid
  temporary : t.descriptor.temporary = true
  config : t.config.validate = .ok ()
  keys : ∀ row ∈ rows, row.key.key.length ≤ Record.maxShort
  total : total rows < Disk.maxOffset
  hosts : disk.Hosts t.descriptor
  free : ∀ c, disk.tree (t.descriptor.published.place c) ≠ some .directory

namespace Workable

open Writer

variable {t : Terms} {disk disk' : Disk}

theorem mono (h : Workable t rows disk) (hkeeps : disk.Keeps disk')
    (hpermanent : ∀ c, disk'.tree (t.descriptor.published.place c) =
      disk.tree (t.descriptor.published.place c)) : Workable t rows disk' :=
  ⟨h.valid, h.temporary, h.config, h.keys, h.total, h.hosts.mono hkeeps,
    fun c => by rw [hpermanent c]; exact h.free c⟩

theorem of_appends {w₀ w : Writer} {v₀ v₁ v₂ : Volume} {calls : List Call}
    (hcurrent : t.descriptor.isCurrent = true) (htemporary : t.descriptor.temporary = true)
    (hfresh : t.descriptor.Fresh v₀.disk) (hcreate : t.create.on v₀ = (.ok w₀, v₁))
    (hcalls : Appends w₀ v₁ calls w v₂)
    (htotal : AppendedRow.total (calls.map Call.row) < Disk.maxOffset) :
    Workable t (calls.map Call.row) v₂.disk := by
  obtain ⟨hd, hwrote, -, -, hkeeps, helsewhere⟩ := wrote_of_appends hcurrent hcreate hcalls
  have hhosts := hosts_of_fresh hcurrent hfresh hcreate
  refine ⟨hd, htemporary, (Terms.create_eq_ok_iff.mp hcreate).1,
    fun row hrow => (hwrote.accepted row hrow).2, htotal, hhosts.mono hkeeps, fun c => ?_⟩
  have hapart := Descriptor.published_place_ne hd htemporary c
  rw [helsewhere _ (by simp [Terms.places, hapart])]
  exact hfresh.not_directory hd hhosts c

/-- A new table can be closed, and its files are then complete under their temporary names. -/
theorem closes {w₀ w : Writer} {v₀ v₁ v₂ : Volume} {calls : List Call}
    (hcurrent : t.descriptor.isCurrent = true) (htemporary : t.descriptor.temporary = true)
    (hfresh : t.descriptor.Fresh v₀.disk) (hcreate : t.create.on v₀ = (.ok w₀, v₁))
    (hcalls : Appends w₀ v₁ calls w v₂)
    (htotal : AppendedRow.total (calls.map Call.row) < Disk.maxOffset) :
    ∃ v₃, w.close.on v₂ = (.ok w.closed, v₃) ∧ Workable t (calls.map Call.row) v₃.disk ∧
      v₃.disk.Shows t.descriptor fun c => some (t.contents (calls.map Call.row) c) := by
  obtain ⟨hd, hwrote, hdata, hindex, -, helsewhere⟩ := wrote_of_appends hcurrent hcreate hcalls
  have hwork := of_appends hcurrent htemporary hfresh hcreate hcalls htotal
  have hhosts := hosts_of_fresh hcurrent hfresh hcreate
  obtain ⟨v₃, hclose⟩ := hwrote.close_of_reaches hd hwork.hosts
    (not_directory_of_fresh hfresh hhosts hwrote helsewhere)
  obtain ⟨-, -, hshows, helsewhere', hkeeps⟩ := hwrote.shows_of_close hd hdata hindex hclose
  exact ⟨v₃, hclose, hwork.mono hkeeps fun c => helsewhere' _ (Descriptor.published_place_ne hd htemporary c),
    hshows⟩

end Workable

end SortedTable.Recovery
