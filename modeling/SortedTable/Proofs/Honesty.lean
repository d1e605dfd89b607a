import SortedTable.Proofs.Shelves

/-!
# Honest readers

A reader is honest if it denies no key of the rows that it gives. Whether it is depends on the filter that it
was opened or published with, and on nothing else that lies under the names of the table.
-/

namespace SortedTable

open AppendedRow Recovery Writer

/-- A reader that denies no key of the rows its scanner gives. -/
def Reader.Honest (p : Partitioner) (r : Reader) (v : Volume) : Prop :=
  ∀ scanner v', r.scanner.on v = (.ok scanner, v') →
    ∀ row ∈ scanner.rows.1, r.mayContain (p.decorate row.1.key) = true

/-- A filter that lies under the names of a table denies no key of the rows that lie there. -/
def Disk.Fair (disk : Disk) (d : Descriptor) : Prop :=
  ∀ data stored filter rest, disk.read (d.pathOf .data) = .ok data →
    disk.read (d.pathOf .filter) = .ok stored → Filter.decode stored = .ok (filter, rest) →
      ∀ row ∈ (Scanner.start d.lengthWidth data).rows.1, filter.mayContain row.1.key = true

variable {d : Descriptor} {v v' : Volume} {disk disk' : Disk} {shelf : Shelf} {w : Writer} {r : Reader}
  {rows : List AppendedRow} {filter : Filter} {statistics : Histogram × Histogram} {p : Partitioner}

theorem Disk.Fair.of_sameUnder (h : disk.Hosts d) (h' : disk'.Hosts d) (hsame : disk.SameUnder d disk')
    (hfair : disk.Fair d) : disk'.Fair d := by
  have hread : ∀ c bytes, disk'.read (d.pathOf c) = .ok bytes → disk.read (d.pathOf c) = .ok bytes := by
    intro c bytes
    rw [read_eq_ok_iff (h c), read_eq_ok_iff (h' c), hsame c]
    exact id
  intro data stored filter rest hdata hstored
  exact hfair data stored filter rest (hread _ _ hdata) (hread _ _ hstored)

theorem Disk.fair_of_missing (hhosts : disk.Hosts d)
    (h : disk.tree (d.place .data) = none ∨ disk.tree (d.place .filter) = none) : disk.Fair d := by
  intro data stored filter rest hdata hfilter
  rw [read_eq_ok_iff (hhosts _)] at hdata hfilter
  rw [hdata, hfilter] at h
  simp at h

theorem forall_scanned_iff (hkeys : ∀ row ∈ rows, row.key.key.length ≤ Record.maxShort)
    (htotal : total rows < Disk.maxOffset) (P : Bytes → Prop) :
    (∀ row ∈ (Scanner.start .long (dataBytes rows)).rows.1, P row.1.key) ↔ ∀ row ∈ rows, P row.key.key := by
  rw [Scanner.rows_start (fits_of_total_lt hkeys htotal)]
  calc
    (∀ row ∈ scannedFrom 0 rows, P row.1.key) ↔ ∀ key ∈ (scannedFrom 0 rows).map (·.1.key), P key :=
      List.forall_mem_map.symm
    _ ↔ ∀ key ∈ rows.map (·.key.key), P key := by rw [map_key_scannedFrom]
    _ ↔ ∀ row ∈ rows, P row.key.key := List.forall_mem_map

theorem fair_iff_of_shows (hd : d.Valid) (hhosts : disk.Hosts d) (hshows : disk.Shows d shelf.files)
    (hsound : shelf.Sound) : disk.Fair d ↔ shelf.Fair := by
  cases shelf with
  | bare => exact iff_of_true (Disk.fair_of_missing hhosts (Or.inl (hshows .data))) trivial
  | data rows => exact iff_of_true (Disk.fair_of_missing hhosts (Or.inr (hshows .filter))) trivial
  | indexed rows => exact iff_of_true (Disk.fair_of_missing hhosts (Or.inr (hshows .filter))) trivial
  | full rows filter statistics =>
      have hdata : disk.read (d.pathOf .data) = .ok (dataBytes rows) := hshows.reads hhosts .data
      have hstored : disk.read (d.pathOf .filter) = .ok filter.encode := hshows.reads hhosts .filter
      have hdecode := Filter.decode_encode_self hsound.filter
      have hscan := forall_scanned_iff hsound.keys hsound.total (fun key => filter.mayContain key = true)
      rw [← hd.lengthWidth] at hscan
      refine Iff.trans ⟨fun h => h _ _ _ _ hdata hstored hdecode, fun h => ?_⟩ hscan
      intro data stored found rest hdata' hstored' hdecode'
      rw [hdata] at hdata'
      cases hdata'
      rw [hstored] at hstored'
      cases hstored'
      rw [hdecode] at hdecode'
      cases hdecode'
      exact h

theorem Stands.fair_iff (hd : d.Valid) (h : Stands d disk shelf) : disk.Fair d ↔ shelf.Fair :=
  fair_iff_of_shows hd h.hosts h.files h.sound

namespace Reader

theorem scanner_eq_ok_iff {scanner : Scanner} :
    r.scanner.on v = (.ok scanner, v') ↔ v' = v ∧ ∃ data,
      v.disk.read (r.descriptor.pathOf .data) = .ok data ∧
        scanner = Scanner.start r.descriptor.lengthWidth data := by
  rw [Reader.scanner, scanTable, Action.on_bind_eq_ok_iff]
  constructor
  · rintro ⟨node, v₁, hfind, hrun⟩
    rw [Action.on_op_eq_ok_iff, Action.on_find] at hfind
    obtain ⟨hfound, rfl⟩ := Prod.mk.inj hfind
    cases node with
    | directory => cases hrun
    | file id =>
        dsimp only at hrun
        rw [Action.on_bind_eq_ok_iff] at hrun
        obtain ⟨bytes, v₂, hcontents, hpure⟩ := hrun
        rw [Action.on_op_eq_ok_iff, SegmentedFile.on_contents] at hcontents
        cases hcontents
        cases hpure
        refine ⟨rfl, _, ?_, rfl⟩
        rw [Disk.read, hfound]
        rfl
  · rintro ⟨rfl, data, hread, rfl⟩
    rcases hfound : v'.disk.find (r.descriptor.pathOf .data) with e | node
    · rw [Disk.read, hfound] at hread
      cases hread
    · have hfind : (Action.find (r.descriptor.pathOf .data)).op.on v' = (.ok node, v') := by
        rw [Action.on_op_eq_ok_iff, Action.on_find, hfound]
      rw [Disk.read, hfound] at hread
      refine ⟨node, v', hfind, ?_⟩
      cases node with
      | directory => cases hread
      | file id =>
          cases hread
          dsimp only
          rw [Action.on_bind_ok (Action.on_op_eq_ok_iff.mpr (SegmentedFile.on_contents v'))]
          rfl

theorem honest_iff : r.Honest p v ↔ ∀ data, v.disk.read (r.descriptor.pathOf .data) = .ok data →
    ∀ row ∈ (Scanner.start r.descriptor.lengthWidth data).rows.1, r.filter.mayContain row.1.key = true := by
  constructor
  · intro h data hread
    exact h _ v (scanner_eq_ok_iff.mpr ⟨rfl, data, hread, rfl⟩)
  · intro h scanner v' hrun
    obtain ⟨-, data, hread, rfl⟩ := scanner_eq_ok_iff.mp hrun
    exact h data hread

theorem honest_iff_fair {metadata : TableMetadata} {config : Config} {age : Nat}
    (hrun : (openTable d metadata p config age).on v = (.ok r, v')) :
    v' = v ∧ (r.Honest p v ↔ v.disk.Fair d) := by
  obtain ⟨hsame, hdescriptor, stored, rest, hstored, hdecode⟩ := openTable_eq_ok hrun
  refine ⟨hsame, honest_iff.trans ?_⟩
  rw [hdescriptor]
  constructor
  · intro h data stored' filter rest' hdata hstored' hdecode'
    rw [hstored] at hstored'
    cases hstored'
    rw [hdecode] at hdecode'
    cases hdecode'
    exact h data hdata
  · intro h data hdata
    exact h data stored r.filter rest hdata hstored hdecode

theorem Shows.honest_iff (hd : d.Valid) (h : r.Shows v.disk d (dataBytes rows) rows)
    (hkeys : ∀ row ∈ rows, row.key.key.length ≤ Record.maxShort) (htotal : total rows < Disk.maxOffset) :
    r.Honest p v ↔ ∀ row ∈ rows, r.filter.mayContain row.key.key = true := by
  have hscan := forall_scanned_iff hkeys htotal (fun key => r.filter.mayContain key = true)
  refine Iff.trans ⟨fun hhonest => hhonest _ v (h.on_scanner hd), fun hall => ?_⟩ hscan
  intro scanner v' hrun
  rw [h.on_scanner hd] at hrun
  cases hrun
  exact hall

end Reader

variable {metadata : TableMetadata} {config opening : Config} {age : Nat} {result : Except TableError Reader}

theorem Stands.honest_of_publish (hd : d.Valid) (htemporary : d.temporary = true) {t : Terms}
    (ht : t.descriptor = d) (hwrote : w.Wrote t rows disk) (h : Stands d v.disk (t.shelf rows))
    (hrun : (w.closed.publish age).on v = (result, v')) :
    Stands d v'.disk .bare ∧ v'.disk.Fair d.published ∧ ∀ r, result = .ok r → r.Honest p v' := by
  have hsound := h.sound
  obtain ⟨r, v₁, hpublish, hstands, hshows, hserves⟩ := h.on_publish hd htemporary ht hwrote age
  rw [hrun] at hpublish
  cases hpublish
  refine ⟨hstands, ?_, ?_⟩
  · rw [fair_iff_of_shows hd.published (hstands.hosts.published hd) hshows hsound]
    exact t.fair_shelf rows
  · rintro r ⟨⟩
    rw [Reader.Shows.honest_iff hd.published hserves.toShows hsound.keys hsound.total]
    exact hserves.filter

theorem honest_of_completed (hd : d.Valid) (hsound : Reader.Sound rows filter statistics)
    (h : Completed d (dataBytes rows) rows filter statistics r v.disk) :
    (r.Honest p v ↔ (Shelf.full rows filter statistics).Fair) ∧
      (v.disk.Fair d.published ↔ (Shelf.full rows filter statistics).Fair) := by
  have hshows : v.disk.Shows d.published (Shelf.full rows filter statistics).files := h.permanent
  have hfair := fair_iff_of_shows hd.published (h.hosts.published hd) hshows hsound
  refine ⟨?_, hfair⟩
  rw [h.reader.honest_iff hd.published hsound.keys hsound.total, h.kept]
  rfl

/-- What a recovery does: it completes a table, it opens one that was published already, or it fails. -/
inductive RecoveryOutcome (d : Descriptor) (p : Partitioner) (shelf : Shelf) (v v' : Volume) :
    Except TableError Reader → Prop
  | completed {r : Reader} (stands : Stands d v'.disk .bare) (honest : r.Honest p v' ↔ v.disk.Fair d)
      (published : v'.disk.Fair d.published ↔ v.disk.Fair d) : RecoveryOutcome d p shelf v v' (.ok r)
  | opened {result : Except TableError Reader} (bare : shelf = .bare) (same : v' = v)
      (honest : ∀ r, result = .ok r → (r.Honest p v' ↔ v.disk.Fair d.published)) :
      RecoveryOutcome d p shelf v v' result
  | failed {e : TableError} (left : shelf.left = none) (stands : Stands d v'.disk shelf.stripped)
      (same : v.disk.SameUnder d.published v'.disk) : RecoveryOutcome d p shelf v v' (.error e)

theorem Stands.outcome_of_completed (hd : d.Valid) (h : Stands d v.disk shelf)
    (hsound : Reader.Sound rows filter statistics)
    (hfair : (Shelf.full rows filter statistics).Fair ↔ shelf.Fair)
    (hcompleted : Completed d (dataBytes rows) rows filter statistics r v'.disk) :
    RecoveryOutcome d p shelf v v' (.ok r) := by
  obtain ⟨hhonest, hpublished⟩ := honest_of_completed (p := p) hd hsound hcompleted
  have hbefore : (Shelf.full rows filter statistics).Fair ↔ v.disk.Fair d := hfair.trans (h.fair_iff hd).symm
  exact .completed (stands_of_completed hcompleted) (hhonest.trans hbefore) (hpublished.trans hbefore)

theorem Stands.on_recover_bare (hd : d.Valid) (htemporary : d.temporary = true) (h : Stands d v.disk .bare)
    (hrun : (recoverAndOpen d (rebuild p config) metadata p opening age).on v = (result, v')) :
    RecoveryOutcome d p .bare v v' result := by
  rcases hpublished : v.disk.tree (d.published.place .data) with - | item
  · obtain ⟨e, v₁, hrecover, hstands, hsame⟩ := h.on_recover_error hd htemporary rfl
      (fun _ => hpublished) (Or.inr rfl)
    rw [hrun] at hrecover
    cases hrecover
    exact .failed rfl hstands hsame
  · have hsome : (v.disk.tree (d.published.place .data)).isSome = true := by
      rw [hpublished]
      rfl
    rw [on_recoverAndOpen_published hd h.hosts (h.files .data) hsome] at hrun
    have hsame := (Reader.looks_openTable _ _ _ _ _).eq hrun
    subst hsame
    refine .opened rfl rfl fun r hr => ?_
    rw [hr] at hrun
    exact (Reader.honest_iff_fair hrun).2

theorem Stands.on_recover_partial (hd : d.Valid) (htemporary : d.temporary = true)
    (hshelf : shelf = .data rows ∨ shelf = .indexed rows) (h : Stands d v.disk shelf)
    (hrun : (recoverAndOpen d (rebuild p config) metadata p opening age).on v = (result, v')) :
    RecoveryOutcome d p shelf v v' result := by
  have hshelf' : shelf ≠ .bare ∧ shelf.left = none ∧ shelf.Fair := by
    rcases hshelf with rfl | rfl <;> exact ⟨by simp, rfl, trivial⟩
  obtain ⟨hbare, hleft, hfair⟩ := hshelf'
  rcases hconfig : config.validate with e | u
  · obtain ⟨e', v₁, hrecover, hstands, hsame⟩ := h.on_recover_error hd htemporary hleft
      (fun heq => absurd heq hbare) (Or.inl ⟨e, hconfig⟩)
    rw [hrun] at hrecover
    cases hrecover
    exact .failed hleft hstands hsame
  · obtain ⟨filter, statistics, r, v₁, hrecover, hcompleted, hsound, hall, -⟩ :=
      h.on_recover_data hd htemporary hshelf hconfig
    rw [hrun] at hrecover
    cases hrecover
    exact h.outcome_of_completed hd hsound (iff_of_true hall hfair) hcompleted

theorem Stands.on_recover (hd : d.Valid) (htemporary : d.temporary = true) (h : Stands d v.disk shelf)
    (hrun : (recoverAndOpen d (rebuild p config) metadata p opening age).on v = (result, v')) :
    RecoveryOutcome d p shelf v v' result := by
  cases shelf with
  | bare => exact h.on_recover_bare hd htemporary hrun
  | data rows => exact h.on_recover_partial hd htemporary (Or.inl rfl) hrun
  | indexed rows => exact h.on_recover_partial hd htemporary (Or.inr rfl) hrun
  | full rows filter statistics =>
      obtain ⟨r, v₁, hrecover, hcompleted, -⟩ := on_recoverAndOpen_sound hd htemporary h.hosts h.files h.free
        h.sound (rebuild p config) metadata p opening age
      rw [hrun] at hrecover
      cases hrecover
      exact h.outcome_of_completed hd h.sound Iff.rfl hcompleted

end SortedTable
