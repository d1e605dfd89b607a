import SortedTable.Proofs.Fidelity
import SortedTable.Proofs.Recovering

namespace SortedTable.Recovery

open AppendedRow Writer

/-- How far a table came after its data was complete. What was being written holds some first bytes of what
it was to hold, or is not there yet. -/
inductive CrashPoint where
  | index (written : Option Bytes)
  | filter (written : Option Bytes)
  | statistics (written : Option Bytes)
  | renames (count : Nat)

def withAuxiliary (d : Descriptor) (t : Tree) (index filter statistics : Option Item) : Tree :=
  ((t.put (d.place .primaryIndex) index).put (d.place .filter) filter).put (d.place .statistics) statistics

namespace CrashPoint

/-- What a crash leaves of a table whose files would all have been as in `closed`. -/
def tree (d : Descriptor) (closed : Tree) : CrashPoint → Tree
  | index written => withAuxiliary d closed (written.map .file) none none
  | filter written => withAuxiliary d closed (closed (d.place .primaryIndex)) (written.map .file) none
  | statistics written => withAuxiliary d closed (closed (d.place .primaryIndex))
      (closed (d.place .filter)) (written.map .file)
  | renames count => ((Descriptor.renameOrder Component.all).take count).foldl d.renamed closed

def PartOf (whole : Option Item) (written : Option Bytes) : Prop :=
  ∀ bytes, written = some bytes → ∃ complete, whole = some (.file complete) ∧ bytes <+: complete

def Possible (d : Descriptor) (closed : Tree) : CrashPoint → Prop
  | index written => PartOf (closed (d.place .primaryIndex)) written
  | filter written => PartOf (closed (d.place .filter)) written
  | statistics written => PartOf (closed (d.place .statistics)) written
  | renames _ => True

end CrashPoint

theorem withAuxiliary_elsewhere {d : Descriptor} {p : Place} (h : ∀ c, p ≠ d.place c) (t : Tree)
    (index filter statistics : Option Item) : withAuxiliary d t index filter statistics p = t p := by
  rw [withAuxiliary, Tree.put_of_ne (h _), Tree.put_of_ne (h _), Tree.put_of_ne (h _)]

theorem CrashPoint.tree_elsewhere {d : Descriptor} {closed : Tree} {p : Place}
    (h : ∀ c, p ≠ d.place c ∧ p ≠ d.published.place c) (crash : CrashPoint) :
    crash.tree d closed p = closed p := by
  cases crash with
  | renames count => exact Descriptor.foldl_renamed_elsewhere h closed
  | index written => exact withAuxiliary_elsewhere (fun c => (h c).1) closed _ _ _
  | filter written => exact withAuxiliary_elsewhere (fun c => (h c).1) closed _ _ _
  | statistics written => exact withAuxiliary_elsewhere (fun c => (h c).1) closed _ _ _

theorem CrashPoint.not_directory {d : Descriptor} (hd : d.Valid) (htemporary : d.temporary = true)
    {closed : Tree} (hclosed : ∀ c, closed (d.place c) ≠ some .directory)
    (hfree : ∀ c, closed (d.published.place c) ≠ some .directory) (crash : CrashPoint) (c : Component) :
    crash.tree d closed (d.published.place c) ≠ some .directory := by
  have hapart : ∀ c', d.published.place c ≠ d.place c' := Descriptor.published_place_ne hd htemporary c
  cases crash with
  | renames count =>
      rw [tree]
      by_cases hc : c ∈ (Descriptor.renameOrder Component.all).take count
      · rw [Descriptor.foldl_renamed_published hd
          (Descriptor.nodup_renameOrder_all.sublist (List.take_sublist _ _)) hc]
        exact hclosed c
      · have hkept := Descriptor.foldl_renamed_of_notMem hd hc closed false
        intro hdir
        exact hfree c (hkept.symm.trans hdir)
  | index written =>
      rw [tree, withAuxiliary_elsewhere hapart]
      exact hfree c
  | filter written =>
      rw [tree, withAuxiliary_elsewhere hapart]
      exact hfree c
  | statistics written =>
      rw [tree, withAuxiliary_elsewhere hapart]
      exact hfree c

variable {t : Terms} {rows : List AppendedRow} {w : Writer} {v v' : Volume} {closed : Tree}

def Restored (t : Terms) (rows : List AppendedRow) (r : Reader) (disk : Disk) : Prop :=
  ∃ filter statistics, Completed t.descriptor (dataBytes rows) rows filter statistics r disk ∧
    (∀ row ∈ rows, filter.mayContain row.key.key = true) ∧
    statistics.1 = Histogram.rowSizes.addAll (rows.map size) ∧
    (statistics.2 = Histogram.columnCounts.addAll (rows.filterMap (·.columnCount)) ∨
      statistics.2 = .columnCounts)

theorem restored_of_closed (h : Workable t rows v.disk)
    (hshows : v.disk.Shows t.descriptor fun c => some (t.contents rows c)) (metadata : TableMetadata)
    (opening : Config) (age : Nat) :
    ∃ r v', (recoverAndOpen t.descriptor (rebuild t.partitioner t.config) metadata t.partitioner opening
        age).on v = (.ok r, v') ∧ Restored t rows r v'.disk := by
  obtain ⟨r, v', hrun, hcompleted, -⟩ := on_recoverAndOpen_sound h.valid h.temporary h.hosts hshows h.free
    (t.sound h.keys h.total) (rebuild t.partitioner t.config) metadata t.partitioner opening age
  exact ⟨r, v', hrun, _, _, hcompleted, fun _ => t.mayContain, rfl, Or.inl rfl⟩

theorem restored_of_broken (h : Workable t rows v.disk) {files : Component → Option Bytes}
    (hshows : v.disk.Shows t.descriptor files) (hdata : files .data = some (dataBytes rows))
    (hbroken : intactFiles files (dataBytes rows) = false) (metadata : TableMetadata)
    (opening : Config) (age : Nat) :
    ∃ r v', (recoverAndOpen t.descriptor (rebuild t.partitioner t.config) metadata t.partitioner opening
        age).on v = (.ok r, v') ∧ Restored t rows r v'.disk := by
  obtain ⟨estimated, r, v', hrun, hcompleted, -⟩ := on_recoverAndOpen_whole h.valid h.temporary h.hosts hshows
    h.free hdata hbroken h.keys h.total h.config metadata t.partitioner opening age
  exact ⟨r, v', hrun, _, _, hcompleted, fun _ => mayContain_rebuiltFilter, rfl, Or.inr rfl⟩

theorem restored_of_published (h : Workable t rows v.disk)
    (hmoved : v.disk.Shows t.descriptor fun _ => none)
    (hshows : v.disk.Shows t.descriptor.published fun c => some (t.contents rows c))
    (metadata : TableMetadata) (opening : Config) (age : Nat) :
    ∃ r v', (recoverAndOpen t.descriptor (rebuild t.partitioner t.config) metadata t.partitioner opening
        age).on v = (.ok r, v') ∧ Restored t rows r v'.disk := by
  obtain ⟨r, hopen, hreader, hkept, hrowSizes, hcolumnCounts⟩ := Reader.on_openTable_of_sound
    (h.hosts.published h.valid) hshows (t.sound h.keys h.total) metadata t.partitioner opening age
  have hpresent : (v.disk.tree (t.descriptor.published.place .data)).isSome = true := by
    rw [hshows .data]
    rfl
  refine ⟨r, v, ?_, _, _, ⟨hreader, hkept, hrowSizes, hcolumnCounts, hshows, hmoved, h.hosts⟩,
    fun _ => t.mayContain, rfl, Or.inl rfl⟩
  rw [on_recoverAndOpen_published h.valid h.hosts (hmoved .data) hpresent, hopen]

theorem Workable.of_crash {v₁ : Volume} (h : Workable t rows v.disk)
    (hshows : v.disk.Shows t.descriptor fun c => some (t.contents rows c)) (crash : CrashPoint)
    (htree : v₁.disk.tree = crash.tree t.descriptor v.disk.tree) : Workable t rows v₁.disk := by
  have hkeeps : v.disk.Keeps v₁.disk := by
    intro p hp
    rw [htree, CrashPoint.tree_elsewhere, hp]
    intro c
    constructor
    · rintro rfl
      exact hshows.not_directory c hp
    · rintro rfl
      exact h.free c hp
  refine ⟨h.valid, h.temporary, h.config, h.keys, h.total, h.hosts.mono hkeeps, fun c => ?_⟩
  rw [htree]
  exact crash.not_directory h.valid h.temporary hshows.not_directory h.free c

theorem shows_withAuxiliary {d : Descriptor} (hd : d.Valid) {disk disk' : Disk} {data : Bytes}
    {index filter statistics : Option Bytes} (hdata : disk.tree (d.place .data) = some (.file data))
    (htree : disk'.tree = withAuxiliary d disk.tree (index.map .file) (filter.map .file)
      (statistics.map .file)) : disk'.Shows d (partly data index filter statistics) := by
  have hne : ∀ {c c' : Component}, c ≠ c' → d.place c ≠ d.place c' := Descriptor.place_ne_place hd
  intro c
  rw [htree, withAuxiliary]
  cases c with
  | data =>
      rw [Tree.put_of_ne (hne (by decide)), Tree.put_of_ne (hne (by decide)),
        Tree.put_of_ne (hne (by decide)), hdata]
      rfl
  | primaryIndex =>
      rw [Tree.put_of_ne (hne (by decide)), Tree.put_of_ne (hne (by decide)), Tree.put_self]
      rfl
  | filter =>
      rw [Tree.put_of_ne (hne (by decide)), Tree.put_self]
      rfl
  | statistics =>
      rw [Tree.put_self]
      rfl

theorem intactFiles_cut (hsound : Reader.Sound rows (t.filter.insertAll (rows.map (·.key.key))).build
      (Histogram.rowSizes.addAll (rows.map size),
        Histogram.columnCounts.addAll (rows.filterMap (·.columnCount))))
    {index filter : Option Bytes} {data written : Bytes}
    (hbegins : written <+: t.contents rows .statistics) (hcut : written ≠ t.contents rows .statistics) :
    intactFiles (partly data index filter (some written)) data = false :=
  intactFiles_eq_false_of_statistics rfl
    (Reader.isOk_decodeStatistics_of_isPrefix hsound.rowSizes hsound.columnCounts hbegins hcut)

theorem take_renameOrder (count : Nat) :
    (Descriptor.renameOrder Component.all).take count = [] ∨
      (.primaryIndex ∈ (Descriptor.renameOrder Component.all).take count ∧
        .data ∉ (Descriptor.renameOrder Component.all).take count) ∨
      (Descriptor.renameOrder Component.all).take count = Descriptor.renameOrder Component.all := by
  rw [Descriptor.renameOrder_all]
  match count with
  | 0 => exact Or.inl rfl
  | 1 => exact Or.inr (Or.inl (by decide))
  | 2 => exact Or.inr (Or.inl (by decide))
  | 3 => exact Or.inr (Or.inl (by decide))
  | n + 4 => exact Or.inr (Or.inr (List.take_of_length_le (by simp)))

/-- The statistics are complete, or they are made again with the other files. -/
theorem restored_of_statistics (h : Workable t rows v.disk) {written : Option Bytes}
    (hshows : v.disk.Shows t.descriptor
      (partly (dataBytes rows) (some (indexBytes rows)) (some (t.contents rows .filter)) written))
    (hpossible : ∀ bytes, written = some bytes → bytes <+: t.contents rows .statistics) (metadata : TableMetadata)
    (opening : Config) (age : Nat) :
    ∃ r v', (recoverAndOpen t.descriptor (rebuild t.partitioner t.config) metadata t.partitioner opening
        age).on v = (.ok r, v') ∧ Restored t rows r v'.disk := by
  rcases written with - | written
  · exact restored_of_broken h hshows rfl (intactFiles_eq_false (Or.inr (Or.inr rfl))) metadata opening age
  · by_cases hcut : written = t.contents rows .statistics
    · subst hcut
      refine restored_of_closed h (fun c => ?_) metadata opening age
      rw [hshows c]
      cases c <;> rfl
    · exact restored_of_broken h hshows rfl
        (intactFiles_cut (t.sound h.keys h.total) (hpossible written rfl) hcut) metadata opening age

/-- Some files were renamed: none of them, all of them, or the index and not the data. -/
theorem restored_of_renames {v₁ : Volume} (h : Workable t rows v.disk) (hwork : Workable t rows v₁.disk)
    (hshows : v.disk.Shows t.descriptor fun c => some (t.contents rows c)) (count : Nat)
    (htree : v₁.disk.tree =
      ((Descriptor.renameOrder Component.all).take count).foldl t.descriptor.renamed v.disk.tree)
    (metadata : TableMetadata) (opening : Config) (age : Nat) :
    ∃ r v', (recoverAndOpen t.descriptor (rebuild t.partitioner t.config) metadata t.partitioner opening
        age).on v₁ = (.ok r, v') ∧ Restored t rows r v'.disk := by
  rcases take_renameOrder count with hdone | ⟨hindex, hdata⟩ | hdone
  · rw [hdone] at htree
    exact restored_of_closed hwork (hshows.of_tree_eq fun c => by rw [htree]; rfl) metadata opening age
  · have hnodup := Descriptor.nodup_renameOrder_all.sublist (List.take_sublist count _)
    have hfiles : v₁.disk.Shows t.descriptor fun c =>
        if c ∈ (Descriptor.renameOrder Component.all).take count then none
        else some (t.contents rows c) := by
      intro c
      rw [htree]
      dsimp only
      by_cases hc : c ∈ (Descriptor.renameOrder Component.all).take count
      · rw [if_pos hc]
        exact Descriptor.foldl_renamed_temporary h.valid h.temporary hnodup hc _
      · rw [if_neg hc]
        exact (Descriptor.foldl_renamed_of_notMem h.valid hc _ t.descriptor.temporary).trans (hshows c)
    exact restored_of_broken hwork hfiles (if_neg hdata) (intactFiles_eq_false (Or.inl (if_pos hindex)))
      metadata opening age
  · rw [hdone] at htree
    have hmem := Descriptor.mem_renameOrder_all
    refine restored_of_published hwork (fun c => ?_) (fun c => ?_) metadata opening age
    · rw [htree]
      exact Descriptor.foldl_renamed_temporary h.valid h.temporary Descriptor.nodup_renameOrder_all (hmem c) _
    · rw [htree, Descriptor.foldl_renamed_published h.valid Descriptor.nodup_renameOrder_all (hmem c)]
      exact hshows c

theorem restored_of_crash {v₁ : Volume} (h : Workable t rows v.disk)
    (hshows : v.disk.Shows t.descriptor fun c => some (t.contents rows c)) (crash : CrashPoint)
    (hpossible : crash.Possible t.descriptor v.disk.tree)
    (htree : v₁.disk.tree = crash.tree t.descriptor v.disk.tree) (metadata : TableMetadata)
    (opening : Config) (age : Nat) :
    ∃ r v', (recoverAndOpen t.descriptor (rebuild t.partitioner t.config) metadata t.partitioner opening
        age).on v₁ = (.ok r, v') ∧ Restored t rows r v'.disk := by
  have hwork := h.of_crash hshows crash htree
  cases crash with
  | index written =>
      have hfiles : v₁.disk.Shows t.descriptor (partly (dataBytes rows) written none none) :=
        shows_withAuxiliary h.valid (hshows .data) htree
      exact restored_of_broken hwork hfiles rfl (intactFiles_eq_false (Or.inr (Or.inl rfl))) metadata opening
        age
  | filter written =>
      rw [CrashPoint.tree, hshows .primaryIndex] at htree
      have hfiles : v₁.disk.Shows t.descriptor
          (partly (dataBytes rows) (some (indexBytes rows)) written none) :=
        shows_withAuxiliary h.valid (hshows .data) htree
      exact restored_of_broken hwork hfiles rfl (intactFiles_eq_false (Or.inr (Or.inr rfl))) metadata opening
        age
  | statistics written =>
      rw [CrashPoint.tree, hshows .primaryIndex, hshows .filter] at htree
      have hfiles := shows_withAuxiliary h.valid (hshows .data) htree
      refine restored_of_statistics hwork hfiles (fun bytes hbytes => ?_) metadata opening age
      obtain ⟨complete, hcomplete, hbegins⟩ := hpossible bytes hbytes
      rw [hshows .statistics] at hcomplete
      cases hcomplete
      exact hbegins
  | renames count => exact restored_of_renames h hwork hshows count htree metadata opening age

/-- A recovery has left what a publication without a crash leaves, and has a reader to match; only the
columns may be uncounted. -/
structure Matches (d : Descriptor) (w : Writer) (rows : List AppendedRow) (published recovered : Disk)
    (r : Reader) : Prop where
  permanent : ∀ c, recovered.existsAt (d.published.pathOf c) = true
  temporary : ∀ c, recovered.existsAt (d.pathOf c) = false
  data : ∃ bytes, published.read (d.published.pathOf .data) = .ok bytes ∧
    recovered.read (d.published.pathOf .data) = .ok bytes
  index : ∃ bytes, published.read (d.published.pathOf .primaryIndex) = .ok bytes ∧
    recovered.read (d.published.pathOf .primaryIndex) = .ok bytes
  filter : ∀ row ∈ rows, r.mayContain row.key = true
  rowSizes : r.rowSizes = w.rowSizes
  columnCounts : r.columnCounts = w.columnCounts ∨ r.columnCounts = .columnCounts

variable {w₀ : Writer} {v₀ v₁ v₂ : Volume} {calls : List Call}

theorem matches_of_restored (hwrote : w.Wrote t rows v.disk) {published : Disk}
    (hpublished : t.descriptor.published.Stores published rows) {r : Reader} (hd : t.descriptor.Valid)
    (h : Restored t rows r v'.disk) : Matches t.descriptor w rows published v'.disk r := by
  obtain ⟨filter, statistics, hcompleted, hadmits, hrowSizes, hcolumnCounts⟩ := h
  have hhosts := hcompleted.hosts.published hd
  have hread := fun c => hcompleted.permanent.reads hhosts c
  constructor
  case permanent => exact fun c => hcompleted.permanent.existsAt hhosts c
  case temporary => exact fun c => hcompleted.temporary.existsAt hcompleted.hosts c
  case data => exact ⟨_, hpublished.data, hread .data⟩
  case index => exact ⟨_, hpublished.index, hread .primaryIndex⟩
  case filter =>
    intro row hrow
    rw [Reader.mayContain, hcompleted.kept]
    exact hadmits row hrow
  case rowSizes => rw [hcompleted.rowSizes, hrowSizes, hwrote.rowSizes]
  case columnCounts => rwa [hcompleted.columnCounts, hwrote.columnCounts]

/-- Of a table that is new and temporary, every crash between the end of its data and the end of its
publication is recovered from, and the files end up as they do without a crash. -/
theorem recover_of_crash (hcurrent : t.descriptor.isCurrent = true)
    (htemporary : t.descriptor.temporary = true) (hfresh : t.descriptor.Fresh v₀.disk)
    (hcreate : t.create.on v₀ = (.ok w₀, v₁)) (hcalls : Appends w₀ v₁ calls w v₂)
    (htotal : AppendedRow.total (calls.map Call.row) < Disk.maxOffset) (age : Nat) :
    ∃ table v₃ reader v₄, w.close.on v₂ = (.ok table, v₃) ∧ (table.publish age).on v₃ = (.ok reader, v₄) ∧
      ∀ (crash : CrashPoint) (crashed : Volume), crash.Possible t.descriptor v₃.disk.tree →
        crashed.disk.tree = crash.tree t.descriptor v₃.disk.tree → ∀ metadata opening age',
          ∃ r v', (recoverAndOpen t.descriptor (rebuild t.partitioner t.config) metadata t.partitioner
              opening age').on crashed = (.ok r, v') ∧
            Matches t.descriptor w (calls.map Call.row) v₄.disk v'.disk r := by
  obtain ⟨hd, hwrote, hdata, hindex, -, helsewhere⟩ := wrote_of_appends hcurrent hcreate hcalls
  have hwork := Workable.of_appends hcurrent htemporary hfresh hcreate hcalls htotal
  have hhosts := hosts_of_fresh hcurrent hfresh hcreate
  obtain ⟨v₃, hclose⟩ := hwrote.close_of_reaches hd hwork.hosts
    (not_directory_of_fresh hfresh hhosts hwrote helsewhere)
  obtain ⟨-, hhosts₃, hshows₃, helsewhere₃, hkeeps₃⟩ := hwrote.shows_of_close hd hdata hindex hclose
  have hwork₃ := hwork.mono hkeeps₃ fun c =>
    helsewhere₃ _ (Descriptor.published_place_ne hd htemporary c)
  obtain ⟨reader, v₄, hpublish, -, -, -, hshows₄, hhosts₄, -⟩ :=
    on_publish_closed hd hwrote hhosts₃ hshows₃ hwork₃.free age
  refine ⟨w.closed, v₃, reader, v₄, hclose, hpublish, ?_⟩
  intro crash crashed hpossible htree metadata opening age'
  obtain ⟨r, v', hrun, hrestored⟩ :=
    restored_of_crash hwork₃ hshows₃ crash hpossible htree metadata opening age'
  exact ⟨r, v', hrun, matches_of_restored hwrote (stores_of_shows hhosts₄ hshows₄) hd hrestored⟩

theorem recover_of_crash_users :
    ∃ v₁ w v₂ table v₃ crashed r v', Terms.users.create.on .new = (.ok (Terms.users.start 0 1), v₁) ∧
      Appends (Terms.users.start 0 1) v₁ Call.users w v₂ ∧ w.close.on v₂ = (.ok table, v₃) ∧
      (Action.forEach Terms.users.descriptor.renameComponent [.primaryIndex, .filter]).on v₃ =
        (.ok (), crashed) ∧
      (recoverAndOpen Terms.users.descriptor (rebuild .byteOrdered .default) (.new "ks" "users")
        .byteOrdered .default 0).on crashed = (.ok r, v') := by
  obtain ⟨w, v₂, hcalls⟩ := exists_appends_users Terms.create_users
  obtain ⟨table, v₃, reader, v₄, hclose, -, hrecover⟩ :=
    recover_of_crash rfl rfl Terms.fresh_users Terms.create_users hcalls (by decide) 0
  obtain ⟨hd, hwrote, hdata, hindex, -⟩ := wrote_of_appends rfl Terms.create_users hcalls
  have hwork := Workable.of_appends rfl rfl Terms.fresh_users Terms.create_users hcalls (by decide)
  obtain ⟨-, hhosts, hshows, helsewhere, hkeeps⟩ := hwrote.shows_of_close hd hdata hindex hclose
  have hfree := (hwork.mono hkeeps fun c => helsewhere _ (Descriptor.published_place_ne hd rfl c)).free
  have hnodup : [Component.primaryIndex, .filter].Nodup := by decide
  obtain ⟨crashed, hrenames, htree, -⟩ := Descriptor.on_renameAll hd hnodup hhosts
    (fun c _ => ⟨_, hshows c⟩) fun c _ => hfree c
  obtain ⟨r, v', hrun, -⟩ := hrecover (.renames 2) crashed trivial htree (.new "ks" "users") .default 0
  exact ⟨_, w, v₂, table, v₃, crashed, r, v', Terms.create_users, hcalls, hclose, hrenames, hrun⟩

end SortedTable.Recovery
