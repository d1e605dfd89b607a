import SortedTable.Proofs.CommitPoint
import SortedTable.Proofs.RecoveredScans

/-!
# Recoveries that fail

A recovery that fails should leave the data under its temporary name, for another one. It does, with one
exception: files that pass for intact are published before anything looks into their filter. If that cannot be
read, the table stays published and can never be opened. Main statement: `retryable_after_failure`.
-/

namespace SortedTable

open Disk

variable {d : Descriptor} {v v' : Volume} {data : Bytes} {contents : Component → Bytes}

theorem Disk.Shows.eq_some {disk : Disk} {files : Component → Option Bytes} {c : Component} {bytes : Bytes}
    (h : disk.Shows d files) (htree : disk.tree (d.place c) = some (.file bytes)) : files c = some bytes := by
  have hfile := (h c).symm.trans htree
  rcases hcase : files c with - | found
  · rw [hcase] at hfile
    cases hfile
  · rw [hcase] at hfile
    cases hfile
    rfl

namespace Descriptor

variable {c : Component} {cs : List Component}

/-- No directory has one of the table's names as they are. -/
def Plain (d : Descriptor) (disk : Disk) : Prop := ∀ c, disk.tree (d.place c) ≠ some .directory

theorem Plain.exists_shows {disk : Disk} (h : d.Plain disk) : ∃ files, disk.Shows d files := by
  have hfile : ∀ c, ∃ file : Option Bytes, disk.tree (d.place c) = file.map .file := by
    intro c
    rcases hitem : disk.tree (d.place c) with - | item
    · exact ⟨none, rfl⟩
    · cases item with
      | directory => exact absurd hitem (h c)
      | file bytes => exact ⟨some bytes, rfl⟩
  choose files hfiles using hfile
  exact ⟨files, hfiles⟩

theorem Plain.of_touches {disk disk' : Disk} {inside : Place → Prop} (h : d.Plain disk)
    (htouches : disk.Touches inside disk') : d.Plain disk' :=
  fun c hdirectory => h c (htouches.kept _ hdirectory)

/-- A component that could be renamed was a file under a usable name. -/
structure Renamed (d : Descriptor) (c : Component) (disk disk' : Disk) : Prop where
  reaches : disk.Reaches (d.pathOf c) (d.place c)
  file : ∃ bytes, disk.tree (d.place c) = some (.file bytes)
  free : disk.tree (d.published.place c) ≠ some .directory
  tree : disk'.tree = d.renamed disk.tree c
  frame : disk.Frame d.Apart disk'

theorem renamed_of_on_renameComponent (hd : d.Valid) (hplain : v.disk.tree (d.place c) ≠ some .directory)
    (hrun : (d.renameComponent c).on v = (.ok (), v')) : Renamed d c v.disk v'.disk := by
  rcases on_renameComponent_cases d c v with ⟨e, herror⟩ | ⟨disk, hrename, -⟩
  · rw [hrun] at herror
    cases herror
  obtain ⟨⟨e, hentry, hfollow⟩, -, hmoved⟩ := Disk.rename_eq_ok hrename
  have hreach : v.disk.Reaches (d.pathOf c) (d.place c) :=
    reaches_of_follow (fileName_nameOf hd c) hentry hfollow
  have hfile : ∃ bytes, v.disk.tree (d.place c) = some (.file bytes) := by
    have hold := hmoved.old
    rw [home_of_reaches hreach, ne_eq, ← tree_eq_none_iff] at hold
    rcases hitem : v.disk.tree (d.place c) with - | item
    · exact absurd hitem hold
    · cases item with
      | directory => exact absurd hitem hplain
      | file bytes => exact ⟨bytes, rfl⟩
  obtain ⟨bytes, htree⟩ := hfile
  have hfree := not_directory_of_on_renameComponent hd hreach htree hrun
  obtain ⟨v'', hrun', hrenamed, hframe⟩ := on_renameComponent hd hreach htree hfree
  rw [hrun] at hrun'
  cases hrun'
  exact ⟨hreach, ⟨bytes, htree⟩, hfree, hrenamed, hframe⟩

theorem Plain.of_renamed {disk disk' : Disk} (hd : d.Valid) (htemporary : d.temporary = true) (h : d.Plain disk)
    (hrenamed : Renamed d c disk disk') : d.Plain disk' := by
  intro c'
  rw [hrenamed.tree]
  by_cases hsame : c' = c
  · rw [hsame, renamed_temporary hd htemporary]
    simp
  · have hother := renamed_of_ne hd hsame disk.tree d.temporary
    exact fun hdirectory => h c' (hother.symm.trans hdirectory)

/-- If all renamings go well, all names were usable and all files were there. -/
theorem renamed_of_on_renameAll (hd : d.Valid) (htemporary : d.temporary = true) (hnodup : cs.Nodup)
    (hplain : d.Plain v.disk) (hrun : (Action.forEach d.renameComponent cs).on v = (.ok (), v')) :
    ∀ c ∈ cs, Accepts d.directory (d.nameOf c) ∧ (∃ bytes, v.disk.tree (d.place c) = some (.file bytes)) ∧
      v.disk.tree (d.published.place c) ≠ some .directory := by
  induction cs generalizing v with
  | nil => simp
  | cons c rest ih =>
      rw [List.nodup_cons] at hnodup
      rw [Action.forEach, Action.on_bind_eq_ok_iff] at hrun
      obtain ⟨u, v₁, hfirst, hrest⟩ := hrun
      have hrenamed := renamed_of_on_renameComponent hd (hplain c) hfirst
      have hothers := ih hnodup.2 (hplain.of_renamed hd htemporary hrenamed) hrest
      intro c' hc'
      rcases List.mem_cons.mp hc' with rfl | hc'
      · exact ⟨((reaches_pathOf_iff hd).mp hrenamed.reaches).2, hrenamed.file, hrenamed.free⟩
      · obtain ⟨hold, hnew⟩ := tree_of_renamed hd hnodup.1 hrenamed.tree hc'
        obtain ⟨haccepts, hfile, hfree⟩ := hothers c' hc'
        rw [hold] at hfile
        rw [hnew] at hfree
        exact ⟨haccepts, hfile, hfree⟩

theorem shows_of_on_publish (hd : d.Valid) (htemporary : d.temporary = true) (hopens : v.disk.Opens d.directory)
    (hplain : d.Plain v.disk) {published : Descriptor}
    (hrun : (d.publish Component.all).on v = (.ok published, v')) :
    v.disk.Hosts d ∧ d.published.Plain v.disk ∧
      ∃ contents : Component → Bytes, v.disk.Shows d fun c => some (contents c) := by
  rw [on_publish_eq, Action.on_bind_eq_ok_iff] at hrun
  obtain ⟨u, v₁, hrename, -⟩ := hrun
  have hall := fun c => renamed_of_on_renameAll hd htemporary nodup_renameOrder_all hplain hrename c
    (mem_renameOrder_all c)
  refine ⟨fun c => (reaches_pathOf_iff hd).mpr ⟨hopens, (hall c).1⟩, fun c => (hall c).2.2, ?_⟩
  choose contents hcontents using fun c => (hall c).2.1
  exact ⟨contents, hcontents⟩

end Descriptor

theorem Reader.on_openTable_of_filter (hhosts : v.disk.Hosts d) (hshows : v.disk.Shows d fun c => some (contents c))
    {e : DecodeError} (hdecode : Filter.decode (contents .filter) = .error e) (metadata : TableMetadata)
    (partitioner : Partitioner) (config : Config) (age : Nat) :
    (openTable d metadata partitioner config age).on v = (.error (.corrupt .filter (.decode e)), v) := by
  obtain ⟨id, hfind, hbytes⟩ := Action.on_find_op (hhosts .filter) (hshows .filter)
  have hcontents : ((Action.contents (.file id)).io.mapError (TableError.corrupt .filter)).on v =
      (.ok (contents .filter), v) := by
    rw [Action.on_mapError_eq_ok_iff, Action.on_io_eq_ok_iff, SegmentedFile.on_contents, hbytes]
  have hload : (load d .filter fun input => (Filter.decode input).map (·.1)).on v =
      (.error (.corrupt .filter (.decode e)), v) := by
    rw [load, Action.on_bind_ok hfind, Action.on_bind_ok hcontents, hdecode]
    rfl
  have hpresent : ∀ c ∈ [Component.data, .primaryIndex, .filter], c ∈ d.componentsOn v.disk :=
    fun c _ => (mem_componentsOn_iff (hshows.reads hhosts)).mpr rfl
  unfold openTable
  rw [Action.on_bind_ok (Action.on_get v)]
  dsimp only
  rw [Action.on_bind_ok (on_required_iff (u := .unit).mpr ⟨rfl, hpresent⟩), Action.on_bind_error hload]

namespace Recovery

open Descriptor AppendedRow

/-- The data is there under its temporary name, and not under the permanent one. -/
structure Retryable (d : Descriptor) (data : Bytes) (disk : Disk) : Prop where
  data : disk.read (d.pathOf .data) = .ok data
  unpublished : d.Unpublished disk

namespace Retryable

variable {disk disk' : Disk}

theorem reaches (h : Retryable d data disk) (hd : d.Valid) : disk.Reaches (d.pathOf .data) (d.place .data) := by
  have hread := h.data
  unfold Disk.read at hread
  obtain ⟨node, hfind, -⟩ := Except.bind_eq_ok_iff.mp hread
  exact reaches_of_find (fileName_nameOf hd .data) hfind

theorem tree (h : Retryable d data disk) (hd : d.Valid) : disk.tree (d.place .data) = some (.file data) :=
  (read_eq_ok_iff (h.reaches hd)).mp h.data

theorem opens (h : Retryable d data disk) (hd : d.Valid) : disk.Opens d.directory :=
  ((reaches_pathOf_iff hd).mp (h.reaches hd)).1

theorem published_tree (h : Retryable d data disk) (hd : d.Valid) :
    disk.tree (d.published.place .data) = none := by
  have hnot := h.unpublished
  rw [Unpublished, existsAt_of_reaches (reaches_published hd (h.reaches hd))] at hnot
  exact Option.isSome_eq_false_iff.mp hnot |> Option.isNone_iff_eq_none.mp

theorem of_tree (hd : d.Valid) (hreach : disk.Reaches (d.pathOf .data) (d.place .data))
    (htree : disk.tree (d.place .data) = some (.file data))
    (hfree : disk.tree (d.published.place .data) = none) : Retryable d data disk := by
  refine ⟨(read_eq_ok_iff hreach).mpr htree, ?_⟩
  rw [Unpublished, existsAt_of_reaches (reaches_published hd hreach), hfree]
  rfl

theorem of_touches (h : Retryable d data disk) (hd : d.Valid) (htouches : disk.Touches d.Auxiliary disk') :
    Retryable d data disk' := by
  have hreach := h.reaches hd
  have hoff : ¬ d.Auxiliary (d.place .data) := by
    rintro ⟨c, hc, heq⟩
    have hne : Component.data ≠ c := by
      rintro rfl
      exact absurd hc (by decide)
    obtain ⟨dir, base, hanchor⟩ := d.exists_anchor
    rw [← home_of_reaches hreach] at heq
    exact hanchor.home_ne hanchor hne heq
  refine ⟨(read_eq_ok_iff (hreach.mono htouches.keeps)).mpr ?_, unpublished_of_touches htouches h.unpublished⟩
  rw [htouches.tree _ hoff, h.tree hd]

theorem of_renamed (h : Retryable d data disk) (hd : d.Valid) {c : Component} (hc : c ≠ .data)
    (hrenamed : Renamed d c disk disk') : Retryable d data disk' := by
  obtain ⟨bytes, hfile⟩ := hrenamed.file
  have hkeeps := keeps_renamed hfile hrenamed.free hrenamed.tree
  refine of_tree hd ((h.reaches hd).mono hkeeps) ?_ ?_
  · rw [hrenamed.tree]
    exact (renamed_of_ne hd hc.symm _ d.temporary).trans (h.tree hd)
  · rw [hrenamed.tree]
    exact (renamed_of_ne hd hc.symm _ false).trans (h.published_tree hd)

/-- As long as the data is not renamed, the recovery can be tried again. -/
theorem on_renameAll (hd : d.Valid) (htemporary : d.temporary = true) {cs : List Component} (hdata : .data ∉ cs)
    (h : Retryable d data v.disk) (hplain : d.Plain v.disk) :
    Retryable d data ((Action.forEach d.renameComponent cs).on v).2.disk := by
  induction cs generalizing v with
  | nil => exact h
  | cons c rest ih =>
      rw [List.mem_cons, not_or] at hdata
      rw [Action.forEach]
      rcases hrun : (d.renameComponent c).on v with ⟨e | u, v₁⟩
      · rcases on_renameComponent_cases d c v with ⟨e', herror⟩ | ⟨disk, -, hok⟩
        · rw [hrun] at herror
          cases herror
          rw [Action.on_bind_error hrun]
          exact h
        · rw [hrun] at hok
          cases hok
      · have hrenamed := renamed_of_on_renameComponent hd (hplain c) hrun
        rw [Action.on_bind_ok hrun]
        exact ih hdata.2 (h.of_renamed hd (Ne.symm hdata.1) hrenamed) (hplain.of_renamed hd htemporary hrenamed)

theorem on_publish_error (hd : d.Valid) (htemporary : d.temporary = true) (h : Retryable d data v.disk)
    (hplain : d.Plain v.disk) {e : TableError} (hrun : (d.publish Component.all).on v = (.error e, v')) :
    Retryable d data v'.disk := by
  have horder : Action.forEach d.renameComponent (renameOrder Component.all) =
      Action.forEach d.renameComponent Component.auxiliary >>= fun _ => d.renameComponent .data := by
    simp only [renameOrder_all, Component.auxiliary, Action.forEach, bind_assoc, bind_pure_unit]
  have hdata : .data ∉ Component.auxiliary := by decide
  have hauxiliary := on_renameAll hd htemporary hdata h hplain
  rw [on_publish_eq, horder, bind_assoc] at hrun
  rcases hfirst : (Action.forEach d.renameComponent Component.auxiliary).on v with ⟨e' | u, v₁⟩
  · rw [hfirst] at hauxiliary
    rw [Action.on_bind_error hfirst] at hrun
    cases hrun
    exact hauxiliary
  · rw [hfirst] at hauxiliary
    rw [Action.on_bind_ok hfirst] at hrun
    rcases on_renameComponent_cases d .data v₁ with ⟨e', herror⟩ | ⟨disk, -, hok⟩
    · rw [Action.on_bind_error herror] at hrun
      cases hrun
      exact hauxiliary
    · rw [Action.on_bind_ok hok] at hrun
      cases hrun

end Retryable

/-- Four files that pass for intact, though the filter cannot be read. -/
structure Unreadable (d : Descriptor) (data : Bytes) (contents : Component → Bytes) (e : DecodeError) (disk : Disk) :
    Prop where
  shows : disk.Shows d fun c => some (contents c)
  stored : contents .data = data
  intact : intactFiles (fun c => some (contents c)) data = true
  filter : Filter.decode (contents .filter) = .error e

/-- Nothing stands in the way of publishing what cannot be opened. -/
structure Misjudged (d : Descriptor) (data : Bytes) (disk : Disk) : Prop where
  hosts : disk.Hosts d
  free : d.published.Plain disk
  files : ∃ contents e, Unreadable d data contents e disk

variable {e : DecodeError} {metadata : TableMetadata} {p rebuilder : Partitioner}
  {config opening : Config} {age : Nat}

theorem readable_of_intactFiles (h : intactFiles (fun c => some (contents c)) data = true) :
    (∃ statistics, Reader.decodeStatistics (contents .statistics) = .ok statistics) ∧
      ∃ records, Reader.decodeRecords (contents .primaryIndex) = .ok records := by
  simp only [intactFiles, Bool.and_eq_true] at h
  obtain ⟨hstatistics, hindex⟩ := h
  constructor
  · rcases hdecode : Reader.decodeStatistics (contents .statistics) with e | statistics
    · rw [hdecode] at hstatistics
      cases hstatistics
    · exact ⟨statistics, rfl⟩
  · unfold Reader.decodeRecords
    rcases hread : Record.readIndex (contents .primaryIndex) with ⟨records, - | e⟩
    · exact ⟨records, rfl⟩
    · rw [hread] at hindex
      cases hindex

theorem on_auxiliaryIntact_contents (hd : d.Valid) (hhosts : v.disk.Hosts d)
    (hshows : v.disk.Shows d fun c => some (contents c)) :
    (auxiliaryIntact d).on v = (.ok (intactFiles (fun c => some (contents c)) (contents .data)), v) :=
  on_auxiliaryIntact hd hhosts hshows rfl

/-- The files are published, and the filter is found to be unreadable only then. -/
theorem Unreadable.on_recover (hd : d.Valid) (htemporary : d.temporary = true) (hhosts : v.disk.Hosts d)
    (hfree : d.published.Plain v.disk) (h : Unreadable d data contents e v.disk) (processor : RecoveryProcessor)
    (metadata : TableMetadata) (p : Partitioner) (opening : Config) (age : Nat) :
    ∃ v', (recoverAndOpen d processor metadata p opening age).on v = (.error (.corrupt .filter (.decode e)), v') ∧
      v'.disk.Hosts d ∧ v'.disk.Shows d (fun _ => none) ∧
      v'.disk.Shows d.published fun c => some (contents c) := by
  have hpresent : (v.disk.tree (d.place .data)).isSome = true := by
    rw [h.shows .data]
    rfl
  have hintact := on_auxiliaryIntact_contents hd hhosts h.shows
  rw [h.stored, h.intact] at hintact
  obtain ⟨v', hpublish, hpermanent, hmoved, hframe⟩ := on_publish hd hhosts h.shows hfree
  have hhosts' := hhosts.mono hframe.keeps
  refine ⟨v', ?_, hhosts', hmoved htemporary, hpermanent⟩
  rw [on_recoverAndOpen_intact hd hhosts (Or.inl hpresent) hintact, publishAndOpen, Action.on_bind_ok hpublish]
  exact Reader.on_openTable_of_filter (hhosts'.published hd) hpermanent h.filter metadata p opening age

/-- A rebuild that succeeds leaves files that can be published and opened. -/
theorem shows_of_on_rebuild (hd : d.Valid) (hhosts : v.disk.Hosts d) (hplain : d.Plain v.disk)
    (hdata : v.disk.tree (d.place .data) = some (.file data)) (hlength : data.length < Disk.maxOffset)
    (hrun : (rebuild rebuilder config d).on v = (.ok (), v')) :
    ∃ rows filter statistics, v'.disk.Shows d (fun c => some (tableFiles data rows filter statistics c)) ∧
      Reader.Sound rows filter statistics := by
  have hconfig : config.validate = .ok () := by
    rcases hvalid : config.validate with e | u
    · unfold rebuild at hrun
      rw [hvalid] at hrun
      cases hrun
    · rfl
  obtain ⟨rows, tail, rfl, hfits, hunfinished | ⟨size, hsize, key, rest, hfront⟩⟩ := exists_dataBytes hlength
  · obtain ⟨estimated, v'', hrebuild, hshows, -⟩ :=
      on_rebuild hd hconfig hhosts hdata hplain hfits hunfinished rebuilder
    rw [hrun] at hrebuild
    cases hrebuild
    rw [List.length_append, length_dataBytes] at hlength
    exact ⟨rows, _, _, hshows, sound_rebuilt (fun row hrow => (hfits row hrow).key) (by omega) config estimated⟩
  · obtain ⟨v'', hrebuild⟩ := on_rebuild_negative hd hconfig hhosts hdata hplain hfits hfront hsize rebuilder
    rw [hrun] at hrebuild
    cases hrebuild

/-- What was made again can be opened once it is published. -/
theorem opens_of_broken (hd : d.Valid) (htemporary : d.temporary = true) (hlength : data.length < Disk.maxOffset)
    {files : Component → Option Bytes} (hhosts : v.disk.Hosts d) (hshows : v.disk.Shows d files)
    (hdata : files .data = some data) (hbroken : intactFiles files data = false) {v₁ : Volume}
    (hprepare : (prepare d (rebuild rebuilder config)).on v = (.ok (), v₁)) (hhosts₁ : v₁.disk.Hosts d)
    (hfree₁ : d.published.Plain v₁.disk) :
    ∃ r v₂, (publishAndOpen d metadata p opening age).on v₁ = (.ok r, v₂) := by
  have hintact := on_auxiliaryIntact hd hhosts hshows hdata
  rw [hbroken] at hintact
  rw [on_prepare_broken hintact] at hprepare
  obtain ⟨v₂, hremove, hshows₂, hframe₂⟩ := on_removeAuxiliary hd hhosts hshows
  rw [Action.on_bind_ok hremove] at hprepare
  have hdata₂ : v₂.disk.tree (d.place .data) = some (.file data) := by
    rw [hshows₂ .data, dataOnly, hdata]
    rfl
  obtain ⟨rows, filter, statistics, hrebuilt, hsound⟩ := shows_of_on_rebuild hd (hhosts.mono hframe₂.keeps)
    hshows₂.not_directory hdata₂ hlength hprepare
  obtain ⟨r, v', hrun, -⟩ := on_publishAndOpen hd htemporary hhosts₁ hrebuilt hfree₁ hsound metadata p opening age
  exact ⟨r, v', hrun⟩

/-- What passes for intact can be opened once it is published, if its filter can be read. -/
theorem opens_of_readable (hd : d.Valid) (hhosts : v.disk.Hosts d)
    (hshows : v.disk.Shows d fun c => some (contents c)) (hfree : d.published.Plain v.disk)
    (hintact : intactFiles (fun c => some (contents c)) data = true) {filter : Filter} {rest : Bytes}
    (hfilter : Filter.decode (contents .filter) = .ok (filter, rest)) :
    ∃ r v₂, (publishAndOpen d metadata p opening age).on v = (.ok r, v₂) := by
  obtain ⟨⟨statistics, hstatistics⟩, records, hrecords⟩ := readable_of_intactFiles hintact
  obtain ⟨v₂, hpublish, hpermanent, -, hframe⟩ := on_publish hd hhosts hshows hfree
  obtain ⟨indexFile, dataFile, hopened, -⟩ := Reader.on_openTable
    (hpermanent.reads ((hhosts.published hd).mono hframe.keeps)) rfl rfl rfl hrecords hfilter hstatistics metadata p
    opening age
  rw [publishAndOpen, Action.on_bind_ok hpublish, hopened]
  exact ⟨_, v₂, rfl⟩

/-- What is published after a preparation and cannot be opened was taken for intact. -/
theorem misjudged_of_error (hd : d.Valid) (htemporary : d.temporary = true) (hlength : data.length < Disk.maxOffset)
    (hplain : d.Plain v.disk) (h : Retryable d data v.disk) {v₁ v₂ : Volume} {published : Descriptor} {e : TableError}
    (hprepare : (prepare d (rebuild rebuilder config)).on v = (.ok (), v₁))
    (hpublish : (d.publish Component.all).on v₁ = (.ok published, v₂))
    (hopen : (publishAndOpen d metadata p opening age).on v₁ = (.error e, v')) : Misjudged d data v.disk := by
  have hfails : ¬ ∃ r v₂, (publishAndOpen d metadata p opening age).on v₁ = (.ok r, v₂) := by
    rintro ⟨r, v₂, hrun⟩
    rw [hopen] at hrun
    cases hrun
  have htouches : v.disk.Touches d.Auxiliary v₁.disk := by
    have hwithin := within_prepare (confined_rebuild rebuilder config d) v
    rw [Action.Within, hprepare] at hwithin
    exact hwithin.last_of
  obtain ⟨hhosts₁, hfree₁, contents, hshows₁⟩ :=
    shows_of_on_publish hd htemporary ((h.of_touches hd htouches).opens hd) (hplain.of_touches htouches) hpublish
  have hhosts : v.disk.Hosts d := fun c => htouches.reaches_iff.mp (hhosts₁ c)
  obtain ⟨files, hshows⟩ := hplain.exists_shows
  have hdata := hshows.eq_some (h.tree hd)
  rcases hcase : intactFiles files data with - | -
  · exact absurd (opens_of_broken hd htemporary hlength hhosts hshows hdata hcase hprepare hhosts₁ hfree₁) hfails
  · -- nothing was prepared, so that these are the files which were published
    have hintact := on_auxiliaryIntact hd hhosts hshows hdata
    rw [hcase] at hintact
    rw [on_prepare_intact hintact] at hprepare
    cases hprepare
    obtain rfl : files = fun c => some (contents c) := funext fun c => hshows.eq_some (hshows₁ c)
    refine ⟨hhosts, hfree₁, contents, ?_⟩
    rcases hfilter : Filter.decode (contents .filter) with e' | ⟨filter, rest⟩
    · exact ⟨e', hshows, Option.some.inj hdata, hcase, hfilter⟩
    · exact absurd (opens_of_readable hd hhosts hshows hfree₁ hcase hfilter) hfails

/-- The data is published, and it cannot be opened: no recovery changes that. -/
structure Barred (d : Descriptor) (data : Bytes) (e : DecodeError) (v : Volume) : Prop where
  moved : v.disk.existsAt (d.pathOf .data) = false
  published : v.disk.read (d.published.pathOf .data) = .ok data
  fails : ∀ (processor : RecoveryProcessor) (metadata : TableMetadata) (p : Partitioner) (opening : Config)
    (age : Nat), (recoverAndOpen d processor metadata p opening age).on v = (.error (.corrupt .filter (.decode e)), v)

theorem Misjudged.on_recover (hd : d.Valid) (htemporary : d.temporary = true) (h : Misjudged d data v.disk)
    (processor : RecoveryProcessor) (metadata : TableMetadata) (p : Partitioner) (opening : Config) (age : Nat) :
    ∃ e v', (recoverAndOpen d processor metadata p opening age).on v =
      (.error (.corrupt .filter (.decode e)), v') ∧ Barred d data e v' := by
  obtain ⟨hhosts, hfree, contents, e, hunreadable⟩ := h
  obtain ⟨v', hrun, hhosts', hmoved, hpermanent⟩ :=
    hunreadable.on_recover hd htemporary hhosts hfree processor metadata p opening age
  refine ⟨e, v', hrun, hmoved.existsAt hhosts' .data, ?_, fun processor metadata p opening age => ?_⟩
  · rw [← hunreadable.stored]
    exact hpermanent.read_eq_ok (hhosts'.published hd) rfl
  · rw [on_recoverAndOpen_published hd hhosts' (hmoved .data) (by rw [hpermanent .data]; rfl)]
    exact Reader.on_openTable_of_filter (hhosts'.published hd) hpermanent hunreadable.filter metadata p opening age

theorem Barred.not_retryable {e : DecodeError} (hd : d.Valid) (h : Barred d data e v) :
    ¬ Retryable d data v.disk := by
  intro hretryable
  have hmoved := h.moved
  rw [existsAt_of_reaches (hretryable.reaches hd), hretryable.tree hd] at hmoved
  cases hmoved

/-- Where the data is there under its temporary name only, a recovery that fails can be tried again, with the one
exception of files that are misjudged. These are published and stay so: the data cannot be opened under either name,
and no further recovery changes that. -/
theorem retryable_after_failure (htable : ValidTable d.table) (hcurrent : d.isCurrent = true)
    (htemporary : d.temporary = true) (hlength : data.length < Disk.maxOffset) (hplain : d.Plain v.disk)
    (h : Retryable d data v.disk) (rebuilder p : Partitioner) (config opening : Config) (metadata : TableMetadata)
    (age : Nat) :
    (∀ e v', (recoverAndOpen d (rebuild rebuilder config) metadata p opening age).on v = (.error e, v') →
      (Retryable d data v'.disk ↔ ¬ Misjudged d data v.disk)) ∧
    (Misjudged d data v.disk → ∃ e v',
      (recoverAndOpen d (rebuild rebuilder config) metadata p opening age).on v =
        (.error (.corrupt .filter (.decode e)), v') ∧ Barred d data e v') := by
  have hd : d.Valid := ⟨htable, of_decide_eq_true hcurrent⟩
  have hbarred := fun hmisjudged : Misjudged d data v.disk =>
    hmisjudged.on_recover hd htemporary (rebuild rebuilder config) metadata p opening age
  refine ⟨fun e v' hrun => ⟨fun hretryable hmisjudged => ?_, fun hsound => ?_⟩, hbarred⟩
  · obtain ⟨e', v'', hrun', hstays⟩ := hbarred hmisjudged
    rw [hrun] at hrun'
    cases hrun'
    exact hstays.not_retryable hd hretryable
  · have hnot : (!v.disk.existsAt (d.pathOf .data) && v.disk.existsAt (d.published.pathOf .data)) = false := by
      rw [h.unpublished, Bool.and_false]
    rw [on_recoverAndOpen_eq hcurrent hnot] at hrun
    have hprepared := within_prepare (confined_rebuild rebuilder config d) v
    rcases hprepare : (prepare d (rebuild rebuilder config)).on v with ⟨e' | u, v₁⟩
    · rw [Action.on_bind_error hprepare] at hrun
      cases hrun
      rw [Action.Within, hprepare] at hprepared
      exact h.of_touches hd hprepared.last_of
    · rw [Action.on_bind_ok hprepare] at hrun
      rw [Action.Within, hprepare] at hprepared
      have htouches := hprepared.last_of
      rcases hpublish : (d.publish Component.all).on v₁ with ⟨e' | published, v₂⟩
      · have hsame := hrun
        rw [publishAndOpen, Action.on_bind_error hpublish] at hsame
        cases hsame
        exact (h.of_touches hd htouches).on_publish_error hd htemporary (hplain.of_touches htouches) hpublish
      · exact absurd (misjudged_of_error hd htemporary hlength hplain h hprepare hpublish hrun) hsound

/-! ### A filter that was cut short

The other files of the table agree with each other, and so it passes for intact. -/

open Store (usersSite usersVolume)

def cutFilterFiles : Component → Bytes
  | .data => dataBytes [Writer.Call.user.row]
  | .primaryIndex => indexBytes [Writer.Call.user.row]
  | .filter => [0, 0, 0]
  | .statistics => Reader.encodeStatistics (.empty [1]) (.empty [1])

def cutFilterVolume : Volume :=
  usersVolume.step (Component.all.foldl (fun disk c =>
    (disk.addFile ((usersSite.slot 0).place c)).write disk.files.size 0 (cutFilterFiles c)) usersVolume.disk)

theorem shows_cutFilter : cutFilterVolume.disk.Shows (usersSite.slot 0) fun c => some (cutFilterFiles c) := by
  intro c
  cases c <;> rfl

theorem hosts_cutFilter : cutFilterVolume.disk.Hosts (usersSite.slot 0) := by
  intro c
  have hcreate : ∃ found, cutFilterVolume.disk.create ((usersSite.slot 0).pathOf c) = .ok found := by
    cases c <;> exact ⟨_, rfl⟩
  exact Disk.reaches_of_create valid_torn hcreate.choose_spec

theorem misjudged_cutFilter :
    Misjudged (usersSite.slot 0) (dataBytes [Writer.Call.user.row]) cutFilterVolume.disk where
  hosts := hosts_cutFilter
  free := by
    intro c
    cases c <;> exact (by simp : (none : Option Item) ≠ some .directory)
  files := ⟨cutFilterFiles, .endOfInput, shows_cutFilter, rfl,
    intactFiles_eq_true (by decide) (by decide) rfl rfl rfl (by decide), rfl⟩

theorem retryable_cutFilter :
    Retryable (usersSite.slot 0) (dataBytes [Writer.Call.user.row]) cutFilterVolume.disk :=
  ⟨shows_cutFilter.read_eq_ok hosts_cutFilter rfl, rfl⟩

theorem retryable_after_failure_users : ∃ e v,
    (recoverAndOpen (usersSite.slot 0) (rebuild .byteOrdered .default) usersSite.metadata .byteOrdered .default
      0).on cutFilterVolume = (.error (.corrupt .filter (.decode e)), v) ∧
    Barred (usersSite.slot 0) (dataBytes [Writer.Call.user.row]) e v ∧
    (Retryable (usersSite.slot 0) (dataBytes [Writer.Call.user.row]) v.disk ↔
      ¬ Misjudged (usersSite.slot 0) (dataBytes [Writer.Call.user.row]) cutFilterVolume.disk) := by
  obtain ⟨hiff, hbarred⟩ := retryable_after_failure (by decide) (by decide) rfl (by decide)
    shows_cutFilter.not_directory retryable_cutFilter .byteOrdered .byteOrdered .default .default usersSite.metadata 0
  obtain ⟨e, v, hrun, hstays⟩ := hbarred misjudged_cutFilter
  exact ⟨e, v, hrun, hstays, hiff _ _ hrun⟩

/-- A recovery that fails and has published the data. -/
theorem failed_recovery_publishes :
    Retryable (usersSite.slot 0) (dataBytes [Writer.Call.user.row]) cutFilterVolume.disk ∧ ∃ e v,
      (recoverAndOpen (usersSite.slot 0) (rebuild .byteOrdered .default) usersSite.metadata .byteOrdered .default
        0).on cutFilterVolume = (.error e, v) ∧
      v.disk.existsAt ((usersSite.slot 0).pathOf .data) = false ∧
      v.disk.existsAt ((usersSite.slot 0).published.pathOf .data) = true := by
  obtain ⟨e, v, hrun, hstays⟩ := misjudged_cutFilter.on_recover valid_torn rfl (rebuild .byteOrdered .default)
    usersSite.metadata .byteOrdered .default 0
  refine ⟨retryable_cutFilter, _, v, hrun, hstays.moved, ?_⟩
  have hread := hstays.published
  unfold Disk.read at hread
  obtain ⟨node, hfind, -⟩ := Except.bind_eq_ok_iff.mp hread
  rw [existsAt, hfind]
  rfl

end Recovery

end SortedTable
