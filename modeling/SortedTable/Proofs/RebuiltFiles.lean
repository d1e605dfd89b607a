import SortedTable.Proofs.Anchors
import SortedTable.Proofs.RecoveredScans

namespace SortedTable.Recovery

open AppendedRow

/-- The data file of a table has these bytes, and a file can be made under each of its other names. -/
structure Rebuildable (d : Descriptor) (data : Bytes) (disk : Disk) : Prop where
  data : disk.read (d.pathOf .data) = .ok data
  others : ∀ c, c ≠ .data → (disk.create (d.pathOf c)).isOk = true

/-- The other files of a table say of these rows what an index, a filter and statistics are to say. -/
structure MadeFrom (d : Descriptor) (rows : List AppendedRow) (disk : Disk) : Prop where
  index : disk.read (d.pathOf .primaryIndex) = .ok (indexBytes rows)
  filter : ∃ stored filter rest, disk.read (d.pathOf .filter) = .ok stored ∧
    Filter.decode stored = .ok (filter, rest) ∧ ∀ row ∈ rows, filter.mayContain row.key.key = true
  statistics : ∃ stored, disk.read (d.pathOf .statistics) = .ok stored ∧
    Reader.decodeStatistics stored = .ok (Histogram.rowSizes.addAll (rows.map size), .columnCounts)

variable {d : Descriptor} {data tail : Bytes} {rows : List AppendedRow} {v v' : Volume} {config : Config}

theorem Rebuildable.located (h : Rebuildable d data v.disk) :
    Located d (fun c => (d.pathOf c).home) v.disk ∧ v.disk.tree (d.pathOf .data).home = some (.file data) := by
  obtain ⟨dir, base, hanchor⟩ := d.exists_anchor
  have hreach : v.disk.Reaches (d.pathOf .data) (d.pathOf .data).home := by
    obtain ⟨id, hfind, -⟩ := Disk.find_of_read h.data
    rw [hanchor.home]
    rw [hanchor.pathOf] at hfind ⊢
    exact Disk.reaches_of_find (hanchor.fileName .data) hfind
  have hdata : v.disk.tree (d.pathOf .data).home = some (.file data) := (Disk.read_eq_ok_iff hreach).mp h.data
  have hothers : ∀ c, c ≠ .data → v.disk.Reaches (d.pathOf c) (d.pathOf c).home ∧
      v.disk.tree (d.pathOf c).home ≠ some .directory := by
    intro c hc
    rcases hcreate : v.disk.create (d.pathOf c) with e | found
    · have hok := h.others c hc
      rw [hcreate] at hok
      cases hok
    · have hreach : v.disk.Reaches (d.pathOf c) (d.pathOf c).home := by
        rw [hanchor.home]
        rw [hanchor.pathOf] at hcreate ⊢
        exact Disk.reaches_of_create_eq_ok (hanchor.fileName c) hcreate
      exact ⟨hreach, Disk.not_directory_of_create_eq_ok hreach hcreate⟩
  refine ⟨⟨fun c c' hsame => ?_, fun c => ?_, fun c => ?_⟩, hdata⟩
  · by_contra hne
    exact d.home_ne d hne hsame
  · by_cases hc : c = .data
    · rw [hc]
      exact hreach
    · exact (hothers c hc).1
  · by_cases hc : c = .data
    · rw [hc, hdata]
      simp
    · exact (hothers c hc).2

theorem madeFrom_of_rebuilt {estimated : Nat}
    (hreads : ∀ c, v.disk.read (d.pathOf c) = .ok (rebuilt data rows config estimated c))
    (hsound : Reader.Sound rows (rebuiltFilter config estimated rows) (rebuiltStatistics rows)) :
    MadeFrom d rows v.disk := by
  have hdecode := Filter.decode_encode_self hsound.filter
  exact ⟨hreads .primaryIndex, ⟨_, _, [], hreads .filter, hdecode, fun row => mayContain_rebuiltFilter⟩, _,
    hreads .statistics, Reader.decodeStatistics_encode hsound.rowSizes hsound.columnCounts⟩

theorem Rebuildable.on_rebuild (h : Rebuildable d (dataBytes rows ++ tail) v.disk) (hwidth : d.lengthWidth = .long)
    (hlength : (dataBytes rows ++ tail).length < Disk.maxOffset) (hconfig : config.validate = .ok ())
    (hfits : ∀ row ∈ rows, row.Fits) (hunfinished : Unfinished tail) (partitioner : Partitioner) :
    ∃ v', (rebuild partitioner config d).on v = (.ok (), v') ∧ MadeFrom d rows v'.disk ∧
      v'.disk.read (d.pathOf .data) = .ok (dataBytes rows ++ tail) := by
  obtain ⟨hlocated, hdata⟩ := h.located
  obtain ⟨estimated, v', hrun, hfiles, hframe⟩ :=
    hlocated.on_rebuild hwidth hconfig hdata hfits hunfinished partitioner
  have hreads : ∀ c, v'.disk.read (d.pathOf c) = .ok (rebuilt (dataBytes rows ++ tail) rows config estimated c) :=
    fun c => (Disk.read_eq_ok_iff ((hlocated.reaches c).mono hframe.keeps)).mpr (hfiles c)
  rw [List.length_append, length_dataBytes] at hlength
  have hsound := sound_rebuilt (fun row hrow => (hfits row hrow).key) (by omega) config estimated
  exact ⟨v', hrun, madeFrom_of_rebuilt hreads hsound, hreads .data⟩

theorem Rebuildable.on_rebuild_negative {size : Int} (h : Rebuildable d (dataBytes rows ++ tail) v.disk)
    (hwidth : d.lengthWidth = .long) (hconfig : config.validate = .ok ()) (hfits : ∀ row ∈ rows, row.Fits)
    (hnegative : Negative tail size) (partitioner : Partitioner) :
    ∃ v', (rebuild partitioner config d).on v = (.error (.io (.decode (.rowSize size))), v') ∧
      v'.disk.read (d.pathOf .data) = .ok (dataBytes rows ++ tail) := by
  obtain ⟨hlocated, hdata⟩ := h.located
  obtain ⟨hsize, key, rest, hfront⟩ := hnegative
  obtain ⟨v', hrun, hframe⟩ := hlocated.on_rebuild_negative hwidth hconfig hdata hfits hfront hsize partitioner
  refine ⟨v', hrun, (Disk.read_eq_ok_iff ((hlocated.reaches .data).mono hframe.keeps)).mpr ?_⟩
  rw [hframe.tree _ (d.home_ne d (by decide)), hdata]

/-- Whatever the data file holds, a rebuild succeeds iff no row of negative length comes behind its whole rows, and it
leaves the data alone. When it succeeds, the other files are made from exactly the whole rows, which are those that a
scan meets. -/
theorem rebuild_of_bytes (hcurrent : d.isCurrent = true) (h : Rebuildable d data v.disk)
    (hlength : data.length < Disk.maxOffset) (hconfig : config.validate = .ok ()) (partitioner : Partitioner) :
    ((∃ v', (rebuild partitioner config d).on v = (.ok (), v')) ↔ ¬ Corrupt data) ∧
      (∀ v', (rebuild partitioner config d).on v = (.ok (), v') →
        v'.disk.read (d.pathOf .data) = .ok data ∧
          ∃ rows tail, data = dataBytes rows ++ tail ∧ (∀ row ∈ rows, row.Fits) ∧ Unfinished tail ∧
            (Scanner.start .long data).headers.1 = headersFrom 0 rows ∧ MadeFrom d rows v'.disk) ∧
      ∀ e v', (rebuild partitioner config d).on v = (.error e, v') →
        v'.disk.read (d.pathOf .data) = .ok data ∧ ∃ size < 0, e = .io (.decode (.rowSize size)) := by
  have hwidth := Descriptor.lengthWidth_of_isCurrent hcurrent
  -- What comes behind the whole rows decides how the rebuild ends.
  obtain ⟨rows, tail, rfl, hfits, hunfinished | ⟨size, hnegative⟩⟩ := exists_dataBytes hlength
  · obtain ⟨v', hrun, hmade, hread⟩ := h.on_rebuild hwidth hlength hconfig hfits hunfinished partitioner
    refine ⟨iff_of_true ⟨v', hrun⟩ ?_, fun v'' hrun' => ?_, fun e v'' hfail => ?_⟩
    · rintro ⟨rows', tail', size, hdata, hfits', hnegative⟩
      rw [hdata] at h
      obtain ⟨v'', hfail, -⟩ := h.on_rebuild_negative hwidth hconfig hfits' hnegative partitioner
      rw [hrun] at hfail
      cases hfail
    · rw [hrun] at hrun'
      cases hrun'
      exact ⟨hread, rows, tail, rfl, hfits, hunfinished,
        by rw [Scanner.headers_start_append hfits hunfinished], hmade⟩
    · rw [hrun] at hfail
      cases hfail
  · obtain ⟨v', hfail, hread⟩ := h.on_rebuild_negative hwidth hconfig hfits hnegative partitioner
    refine ⟨iff_of_false ?_ fun hsound => hsound ⟨rows, tail, size, rfl, hfits, hnegative⟩, fun v'' hrun => ?_,
      fun e v'' hfail' => ?_⟩
    · rintro ⟨v'', hrun⟩
      rw [hrun] at hfail
      cases hfail
    · rw [hrun] at hfail
      cases hfail
    · rw [hfail] at hfail'
      cases hfail'
      exact ⟨hread, size, hnegative.1, rfl⟩

open Store (usersSite)

theorem rebuildable_torn : Rebuildable (usersSite.slot 0) tornBytes tornVolume.disk where
  data := rfl
  others c _ := by cases c <;> rfl

theorem rebuild_of_bytes_users :
    ∃ v' rows tail, (rebuild .byteOrdered .default (usersSite.slot 0)).on tornVolume = (.ok (), v') ∧
      ¬ Corrupt tornBytes ∧ tornBytes = dataBytes rows ++ tail ∧ Unfinished tail ∧
      MadeFrom (usersSite.slot 0) rows v'.disk ∧
      v'.disk.read ((usersSite.slot 0).pathOf .data) = .ok tornBytes := by
  have hconfig : Config.default.validate = .ok () := by decide
  have hfits : ∀ row ∈ [Writer.Call.user.row], row.Fits := by
    intro row hrow
    rw [List.mem_singleton.mp hrow]
    exact ⟨by decide, by decide⟩
  obtain ⟨v', hrun, -⟩ := rebuildable_torn.on_rebuild rfl (by decide) hconfig hfits (.of_cut (by decide)) .byteOrdered
  obtain ⟨hiff, hmade, -⟩ := rebuild_of_bytes rfl rebuildable_torn (by decide) hconfig .byteOrdered
  obtain ⟨hread, rows, tail, hdata, -, hunfinished, -, hmade⟩ := hmade v' hrun
  exact ⟨v', rows, tail, hrun, hiff.mp ⟨v', hrun⟩, hdata, hunfinished, hmade, hread⟩

end SortedTable.Recovery
