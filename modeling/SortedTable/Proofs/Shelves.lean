import SortedTable.Proofs.Recovering

/-!
# What lies under a table's names

Between two calls the files under the temporary names of a table are in one of a few states, and every call
leads from such a state to such a state. What lies under the permanent names only changes when a table comes
out of temporary status.
-/

namespace SortedTable

open AppendedRow Recovery Writer

/-- The files that lie under the names of a table. The filter and the statistics come and go together. -/
inductive Shelf where
  | bare
  | data (rows : List AppendedRow)
  | indexed (rows : List AppendedRow)
  | full (rows : List AppendedRow) (filter : Filter) (statistics : Histogram × Histogram)

namespace Shelf

def files : Shelf → Component → Option Bytes
  | bare => fun _ => none
  | data rows => partly (dataBytes rows) none none none
  | indexed rows => partly (dataBytes rows) (some (indexBytes rows)) none none
  | full rows filter statistics => fun c => some (tableFiles (dataBytes rows) rows filter statistics c)

def Sound : Shelf → Prop
  | bare => True
  | data rows => (∀ row ∈ rows, row.key.key.length ≤ Record.maxShort) ∧ total rows < Disk.maxOffset
  | indexed rows => (∀ row ∈ rows, row.key.key.length ≤ Record.maxShort) ∧ total rows < Disk.maxOffset
  | full rows filter statistics => Reader.Sound rows filter statistics

/-- A filter that lies there denies no key of the rows that lie there. -/
def Fair : Shelf → Prop
  | full rows filter _ => ∀ row ∈ rows, filter.mayContain row.key.key = true
  | _ => True

def left : Shelf → Option (Filter × Histogram × Histogram)
  | full _ filter statistics => some (filter, statistics)
  | _ => none

/-- What comes to lie there with other rows, while the filter and the statistics stay. -/
def holding (rows : List AppendedRow) : Option (Filter × Histogram × Histogram) → Shelf
  | none => indexed rows
  | some (filter, statistics) => full rows filter statistics

end Shelf

def Writer.Terms.shelf (t : Terms) (rows : List AppendedRow) : Shelf :=
  .full rows (t.filter.insertAll (rows.map (·.key.key))).build
    (Histogram.rowSizes.addAll (rows.map size),
      Histogram.columnCounts.addAll (rows.filterMap (·.columnCount)))

theorem Writer.Terms.fair_shelf (t : Terms) (rows : List AppendedRow) : (t.shelf rows).Fair :=
  fun _ hrow => t.mayContain hrow

def Disk.SameUnder (d : Descriptor) (disk disk' : Disk) : Prop :=
  ∀ c, disk'.tree (d.place c) = disk.tree (d.place c)

/-- No directory has the name that a file of the published table will have. -/
def Disk.Free (disk : Disk) (d : Descriptor) : Prop :=
  ∀ c, disk.tree (d.published.place c) ≠ some .directory

/-- The disk of a table that no writer is at work on. -/
structure Stands (d : Descriptor) (disk : Disk) (shelf : Shelf) : Prop where
  hosts : disk.Hosts d
  free : disk.Free d
  files : disk.Shows d shelf.files
  sound : shelf.Sound

/-- The disk of a table that a writer is at work on, with a filter and statistics that another one left. -/
structure Works (d : Descriptor) (w : Writer) (disk : Disk) (rows : List AppendedRow)
    (left : Option (Filter × Histogram × Histogram)) : Prop where
  hosts : disk.Hosts d
  free : disk.Free d
  wrote : ∃ t : Terms, t.descriptor = d ∧ w.Wrote t rows disk
  total : total rows < Disk.maxOffset
  filterFile : disk.tree (d.place .filter) = left.map fun f => .file f.1.encode
  statisticsFile : disk.tree (d.place .statistics) =
    left.map fun f => .file (Reader.encodeStatistics f.2.1 f.2.2)
  leftSound : ∀ f, left = some f → f.1.Storable ∧ f.2.1.Storable ∧ f.2.2.Storable

variable {d : Descriptor} {v v' : Volume} {disk disk' : Disk} {shelf : Shelf} {w w' : Writer}
  {rows : List AppendedRow} {left : Option (Filter × Histogram × Histogram)}

theorem Disk.Frame.sameUnder_published (hd : d.Valid) (htemporary : d.temporary = true)
    (h : disk.Frame d.Outside disk') : disk.SameUnder d.published disk' :=
  fun c => h.tree _ (Descriptor.outside_published_place hd htemporary c)

theorem Disk.Free.of_sameUnder (h : disk.Free d) (hsame : disk.SameUnder d.published disk') :
    disk'.Free d := by
  intro c
  rw [hsame c]
  exact h c

section Elsewhere

variable {outside : Place → Prop}

theorem Disk.Free.of_frame (h : disk.Free d) (hframe : disk.Frame outside disk') (hspared : d.Spared outside) :
    disk'.Free d :=
  h.of_sameUnder fun c => hframe.tree _ (hspared c).2

theorem Works.of_frame (h : Works d w disk rows left) (hframe : disk.Frame outside disk')
    (hspared : d.Spared outside) : Works d w disk' rows left := by
  obtain ⟨t, rfl, hwrote⟩ := h.wrote
  refine ⟨h.hosts.mono hframe.keeps, h.free.of_frame hframe hspared,
    ⟨t, rfl, hwrote.of_frame hframe fun c => (hspared c).1⟩, h.total, ?_, ?_, h.leftSound⟩
  · rw [hframe.tree _ (hspared _).1, h.filterFile]
  · rw [hframe.tree _ (hspared _).1, h.statisticsFile]

end Elsewhere

theorem Stands.on_create (hd : d.Valid) (htemporary : d.temporary = true) (h : Stands d v.disk shelf)
    (keyCount : Nat) (metadata : TableMetadata) (p : Partitioner) {config : Config}
    (hconfig : config.validate = .ok ()) :
    ∃ w v', (Writer.create d keyCount metadata p config).on v = (.ok w, v') ∧
      Works d w v'.disk [] shelf.left ∧ v.disk.Frame d.Outside v'.disk := by
  let t : Terms := ⟨d, keyCount, metadata, p, config⟩
  obtain ⟨id₁, disk₁, hcreate₁, -, -, htree₁⟩ := Disk.create_eq_ok_of_reaches (h.hosts .primaryIndex)
    (h.files.not_directory .primaryIndex)
  have hkeeps₁ : v.disk.Keeps disk₁ := .of_put htree₁ (h.files.not_directory .primaryIndex)
  have hfree₁ : disk₁.tree (d.place .data) ≠ some .directory := by
    rw [htree₁, Tree.put_of_ne (Descriptor.place_ne_place hd (by decide))]
    exact h.files.not_directory .data
  obtain ⟨id₂, disk₂, hcreate₂, -, -, -⟩ :=
    Disk.create_eq_ok_of_reaches ((h.hosts .data).mono hkeeps₁) hfree₁
  have hrun : t.create.on v = (.ok (t.start id₁ id₂), (v.step disk₁).step disk₂) :=
    Terms.create_eq_ok_iff.mpr ⟨hconfig, hd.validTable, id₁, disk₁, id₂, disk₂, hcreate₁, hcreate₂, rfl, rfl⟩
  obtain ⟨-, hwrote, -, -, hcreated, -⟩ := Terms.wrote_create hrun hd.current
  have hframe : v.disk.Frame d.Outside ((v.step disk₁).step disk₂).disk :=
    hcreated.mono fun p hp => by simp [Terms.places, t, hp .data, hp .primaryIndex]
  have hother : ∀ p, p ≠ d.place .data → p ≠ d.place .primaryIndex →
      ((v.step disk₁).step disk₂).disk.tree p = v.disk.tree p :=
    fun p hp hp' => hcreated.tree p (by simp [Terms.places, t, hp, hp'])
  have hne : ∀ {c c' : Component}, c ≠ c' → d.place c ≠ d.place c' := Descriptor.place_ne_place hd
  refine ⟨_, _, hrun, ⟨h.hosts.mono hframe.keeps,
    h.free.of_sameUnder (hframe.sameUnder_published hd htemporary), ⟨t, rfl, hwrote⟩, by decide, ?_, ?_, ?_⟩,
    hframe⟩
  · rw [hother _ (hne (by decide)) (hne (by decide)), h.files .filter]
    cases shelf <;> rfl
  · rw [hother _ (hne (by decide)) (hne (by decide)), h.files .statistics]
    cases shelf <;> rfl
  · intro f hf
    have hsound := h.sound
    cases shelf with
    | full rows filter statistics =>
        cases hf
        exact ⟨hsound.filter, hsound.rowSizes, hsound.columnCounts⟩
    | bare => cases hf
    | data rows => cases hf
    | indexed rows => cases hf

theorem on_create_invalid {config : Config} {e : ConfigError} (hconfig : config.validate = .error e)
    (keyCount : Nat) (metadata : TableMetadata) (p : Partitioner) (v : Volume) :
    (Writer.create d keyCount metadata p config).on v = (.error (.config e), v) := by
  unfold create
  rw [hconfig]
  rfl

theorem Works.other (hd : d.Valid) (h : Works d w v.disk rows left) {t : Terms} (ht : t.descriptor = d)
    (hsame : v.disk.SameBut t.places v'.disk) :
    v'.disk.Hosts d ∧ v'.disk.tree (d.place .filter) = left.map (fun f => .file f.1.encode) ∧
      v'.disk.tree (d.place .statistics) =
        left.map (fun f => .file (Reader.encodeStatistics f.2.1 f.2.2)) ∧
      v.disk.Frame d.Outside v'.disk := by
  subst ht
  have hne : ∀ {c c' : Component}, c ≠ c' → t.descriptor.place c ≠ t.descriptor.place c' :=
    Descriptor.place_ne_place hd
  refine ⟨h.hosts.mono hsame.keeps, ?_, ?_, hsame.frame fun p hp => ?_⟩
  · rw [hsame.tree _ (by simp [Terms.places, hne]), h.filterFile]
  · rw [hsame.tree _ (by simp [Terms.places, hne]), h.statisticsFile]
  · simp [Terms.places, hp .data, hp .primaryIndex]

theorem Works.on_call (hd : d.Valid) (htemporary : d.temporary = true) (h : Works d w v.disk rows left)
    {c : Call} (hrun : Work.on (w.call c) v = ((.ok (), w'), v'))
    (hroom : w'.filePointer < Disk.maxOffset) :
    Works d w' v'.disk (rows ++ [c.row]) left ∧ v.disk.Frame d.Outside v'.disk := by
  obtain ⟨t, rfl, hwrote⟩ := h.wrote
  obtain ⟨hwrote', hsame⟩ := hwrote.call hd hrun
  obtain ⟨hhosts, hfilter, hstatistics, hframe⟩ := h.other hd rfl hsame
  have htotal : AppendedRow.total (rows ++ [c.row]) < Disk.maxOffset := by
    rwa [filePointer, hwrote'.dataEnd, length_dataBytes] at hroom
  exact ⟨⟨hhosts, h.free.of_sameUnder (hframe.sameUnder_published hd htemporary), ⟨t, rfl, hwrote'⟩, htotal,
    hfilter, hstatistics, h.leftSound⟩, hframe⟩

theorem Works.keys (h : Works d w disk rows left) :
    ∀ row ∈ rows, row.key.key.length ≤ Record.maxShort := by
  obtain ⟨t, -, hwrote⟩ := h.wrote
  exact fun row hrow => (hwrote.accepted row hrow).2

/-- A writer that is dropped leaves its rows beside whatever filter was there. -/
theorem Works.on_drop (hd : d.Valid) (htemporary : d.temporary = true) (h : Works d w v.disk rows left) :
    ∃ v', Work.on w.drop v = ((), v') ∧ Stands d v'.disk (.holding rows left) ∧
      v.disk.Frame d.Outside v'.disk := by
  have hkeys := h.keys
  obtain ⟨t, ht, hwrote⟩ := h.wrote
  obtain ⟨v', hdrop, hdata, hindex, hsame⟩ := hwrote.on_drop (by rwa [ht])
  obtain ⟨hhosts, hfilter, hstatistics, hframe⟩ := h.other hd ht hsame
  rw [ht] at hdata hindex
  refine ⟨v', hdrop, ⟨hhosts, h.free.of_sameUnder (hframe.sameUnder_published hd htemporary),
    fun c => ?_, ?_⟩, hframe⟩
  · rcases left with - | ⟨filter, statistics⟩
    · cases c with
      | data => exact hdata
      | primaryIndex => exact hindex
      | filter => exact hfilter
      | statistics => exact hstatistics
    · cases c with
      | data => exact hdata
      | primaryIndex => exact hindex
      | filter => exact hfilter
      | statistics => exact hstatistics
  · rcases left with - | ⟨filter, statistics⟩
    · exact ⟨hkeys, h.total⟩
    · obtain ⟨hfilterSound, hrowSizes, hcolumnCounts⟩ := h.leftSound _ rfl
      exact ⟨hkeys, h.total, hfilterSound, hrowSizes, hcolumnCounts⟩

theorem Works.on_close (hd : d.Valid) (htemporary : d.temporary = true) (h : Works d w v.disk rows left) :
    ∃ (t : Terms) (v' : Volume), t.descriptor = d ∧ w.Wrote t rows v.disk ∧
      w.close.on v = (.ok w.closed, v') ∧ Stands d v'.disk (t.shelf rows) ∧
      v.disk.Frame d.Outside v'.disk := by
  have hkeys := h.keys
  obtain ⟨t, rfl, hwrote⟩ := h.wrote
  have hfree : ∀ c, v.disk.tree (t.descriptor.place c) ≠ some .directory := by
    intro c
    cases c with
    | data =>
        rw [ne_eq, Disk.tree_eq_directory_iff, hwrote.data.node]
        simp
    | primaryIndex =>
        rw [ne_eq, Disk.tree_eq_directory_iff, hwrote.index.output.node]
        simp
    | filter =>
        rw [h.filterFile]
        cases left <;> simp
    | statistics =>
        rw [h.statisticsFile]
        cases left <;> simp
  obtain ⟨v', hclose⟩ := hwrote.close_of_reaches hd h.hosts hfree
  obtain ⟨-, hhosts, hshows, hframe⟩ :=
    hwrote.shows_of_close hd (h.hosts .data) (h.hosts .primaryIndex) hclose
  exact ⟨t, v', rfl, hwrote, hclose, ⟨hhosts, h.free.of_sameUnder (hframe.sameUnder_published hd htemporary),
    hshows, t.sound hkeys h.total⟩, hframe⟩

theorem Stands.on_publish (hd : d.Valid) (htemporary : d.temporary = true) {t : Terms}
    (ht : t.descriptor = d) (hwrote : w.Wrote t rows disk) (h : Stands d v.disk (t.shelf rows))
    (age : Nat) :
    ∃ r v', (w.closed.publish age).on v = (.ok r, v') ∧ Stands d v'.disk .bare ∧
      v'.disk.Shows d.published (t.shelf rows).files ∧ r.Serves v'.disk d.published rows := by
  subst ht
  obtain ⟨r, v', hrun, hserves, -, -, hshows, -, hmoved, hframe⟩ :=
    on_publish_closed (v := ⟨disk, []⟩) hd hwrote h.hosts h.files h.free age
  exact ⟨r, v', hrun, ⟨h.hosts.mono hframe.keeps, Disk.Shows.not_directory hshows, hmoved htemporary, trivial⟩,
    hshows, hserves⟩

theorem Stands.frame_of_publish (hd : d.Valid) {t : Terms} (ht : t.descriptor = d)
    (hwrote : w.Wrote t rows disk) (h : Stands d v.disk (t.shelf rows)) {age : Nat} {r : Reader}
    (hrun : (w.closed.publish age).on v = (.ok r, v')) : v.disk.Frame d.Apart v'.disk := by
  subst ht
  obtain ⟨r', v₁, hpublish, -, -, -, -, -, -, hframe⟩ :=
    on_publish_closed (v := ⟨disk, []⟩) hd hwrote h.hosts h.files h.free age
  rw [hrun] at hpublish
  cases hpublish
  exact hframe

theorem Stands.on_publish_bare (hd : d.Valid) (hw : w.descriptor = d) (h : Stands d v.disk .bare)
    (age : Nat) : ∃ e, (w.closed.publish age).on v = (.error e, v) := by
  obtain ⟨e, hpublish⟩ := Descriptor.on_publish_missing hd h.hosts (h.files .primaryIndex)
  refine ⟨e, ?_⟩
  rw [ClosedTable.publish]
  exact Action.on_bind_error (by rw [closed, hw]; exact hpublish)

namespace Shelf

/-- What a recovery that fails leaves of it. -/
def stripped : Shelf → Shelf
  | bare => bare
  | data rows | indexed rows | full rows _ _ => data rows

theorem files_stripped (shelf : Shelf) : shelf.stripped.files = dataOnly shelf.files := by
  funext c
  cases shelf <;> cases c <;> rfl

theorem Sound.stripped (h : shelf.Sound) : shelf.stripped.Sound := by
  cases shelf with
  | bare => trivial
  | data rows => exact h
  | indexed rows => exact h
  | full rows filter statistics => exact ⟨h.keys, h.total⟩

theorem fair_stripped (shelf : Shelf) : shelf.stripped.Fair := by
  cases shelf <;> trivial

end Shelf

variable {metadata : TableMetadata} {p : Partitioner} {config opening : Config} {age : Nat}

theorem stands_of_completed {filter : Filter} {statistics : Histogram × Histogram} {r : Reader}
    (h : Completed d (dataBytes rows) rows filter statistics r disk) : Stands d disk .bare :=
  ⟨h.hosts, h.permanent.not_directory, h.temporary, trivial⟩

theorem Stands.on_recover_data (hd : d.Valid) (htemporary : d.temporary = true)
    (hshelf : shelf = .data rows ∨ shelf = .indexed rows) (h : Stands d v.disk shelf)
    (hconfig : config.validate = .ok ()) :
    ∃ filter statistics r v',
      (recoverAndOpen d (rebuild p config) metadata p opening age).on v = (.ok r, v') ∧
      Completed d (dataBytes rows) rows filter statistics r v'.disk ∧
      Reader.Sound rows filter statistics ∧ (∀ row ∈ rows, filter.mayContain row.key.key = true) ∧
      v.disk.Frame d.Apart v'.disk := by
  have hparts : shelf.files .data = some (dataBytes rows) ∧ shelf.files .filter = none ∧
      (∀ row ∈ rows, row.key.key.length ≤ Record.maxShort) ∧ total rows < Disk.maxOffset := by
    have hsound := h.sound
    rcases hshelf with rfl | rfl <;> exact ⟨rfl, rfl, hsound⟩
  obtain ⟨hdata, hfilter, hkeys, htotal⟩ := hparts
  obtain ⟨estimated, r, v', hrun, hcompleted, hframe⟩ := on_recoverAndOpen_whole hd htemporary h.hosts h.files
    h.free hdata (intactFiles_eq_false (Or.inr (Or.inl hfilter))) hkeys htotal hconfig metadata p opening age
  exact ⟨_, _, r, v', hrun, hcompleted, sound_rebuilt hkeys htotal config estimated,
    fun _ => mayContain_rebuiltFilter, hframe⟩

theorem on_rebuild_error (hhosts : v.disk.Hosts d)
    (h : (∃ e, config.validate = .error e) ∨ v.disk.tree (d.place .data) = none) :
    ∃ e, (rebuild p config d).on v = (.error e, v) := by
  unfold rebuild
  rcases hconfig : config.validate with e | u
  · exact ⟨.config e, rfl⟩
  · rcases h with ⟨e, he⟩ | hdata
    · rw [hconfig] at he
      cases he
    · have hfind : (Action.find (d.pathOf .data)).op.on v = (.error (.io (.disk .notFound)), v) := by
        rw [Action.op, Action.table, Action.on_mapError, Action.io, Action.on_mapError, Action.find,
          Action.on_look, (Disk.find_eq_notFound_iff (hhosts .data)).mpr hdata]
        rfl
      exact ⟨_, Action.on_bind_error hfind⟩

/-- A recovery that finds no filter and cannot make one leaves at most the data. -/
theorem Stands.on_recover_error (hd : d.Valid) (htemporary : d.temporary = true)
    (h : Stands d v.disk shelf) (hleft : shelf.left = none)
    (hdata : shelf = .bare → v.disk.tree (d.published.place .data) = none)
    (hfail : (∃ e, config.validate = .error e) ∨ shelf = .bare) :
    ∃ e v', (recoverAndOpen d (rebuild p config) metadata p opening age).on v = (.error e, v') ∧
      Stands d v'.disk shelf.stripped ∧ v.disk.SameUnder d.published v'.disk := by
  have hfilter : shelf.files .filter = none := by
    cases shelf with
    | full rows filter statistics => cases hleft
    | bare => rfl
    | data rows => rfl
    | indexed rows => rfl
  have hpresent : (v.disk.tree (d.place .data)).isSome = true ∨
      v.disk.tree (d.published.place .data) = none := by
    rw [h.files .data]
    cases shelf with
    | bare => exact Or.inr (hdata rfl)
    | data rows => exact Or.inl rfl
    | indexed rows => exact Or.inl rfl
    | full rows filter statistics => exact Or.inl rfl
  have hbroken := on_auxiliaryIntact_of_filter h.hosts h.files hfilter
  obtain ⟨v₁, hremove, hshows, hframe⟩ := on_removeAuxiliary hd h.hosts h.files
  have hpermanent := hframe.sameUnder_published hd htemporary
  have hfail₁ : (∃ e, config.validate = .error e) ∨ v₁.disk.tree (d.place .data) = none := by
    refine hfail.imp_right fun hbare => ?_
    rw [hshows .data, hbare]
    rfl
  obtain ⟨e, hrebuild⟩ := on_rebuild_error (p := p) (h.hosts.mono hframe.keeps) hfail₁
  refine ⟨e, v₁, ?_, ⟨h.hosts.mono hframe.keeps, h.free.of_sameUnder hpermanent, ?_, h.sound.stripped⟩,
    hpermanent⟩
  · rw [on_recoverAndOpen_broken hd h.hosts hpresent hbroken hremove]
    exact Action.on_bind_error hrebuild
  · rw [shelf.files_stripped]
    exact hshows

end SortedTable
