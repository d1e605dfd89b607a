import Mathlib.Data.List.Basic
import SortedTable.Proofs.Recovering

namespace SortedTable

open AppendedRow

namespace AppendedRow

/-- Every key is the one that the partitioner makes of its bytes. -/
def Decorated (partitioner : Partitioner) (rows : List AppendedRow) : Prop :=
  ∀ row ∈ rows, row.key = partitioner.decorate row.key.key

theorem Decorated.of_mem_placedFrom {partitioner : Partitioner} {rows : List AppendedRow}
    (h : Decorated partitioner rows) {start : Nat} {placed : DecoratedKey × Nat}
    (hplaced : placed ∈ placedFrom start rows) : partitioner.decorate placed.1.key = placed.1 := by
  obtain ⟨i, hi⟩ := List.getElem?_of_mem hplaced
  rw [getElem?_placedFrom, Option.map_eq_some_iff] at hi
  obtain ⟨row, hrow, rfl⟩ := hi
  exact (h row (List.mem_of_getElem? hrow)).symm

end AppendedRow

/-- One pass over the records of an index gives what the writer of the index has gathered. -/
theorem Reader.IndexPass.foldl_add_entries {partitioner : Partitioner} {rows : List AppendedRow}
    (h : Decorated partitioner rows) (pass : IndexPass) :
    (entries rows).foldl (add partitioner) pass = (placedFrom 0 rows).foldl addRow pass := by
  rw [entries, List.foldl_map]
  refine List.foldl_ext _ _ _ fun pass placed hplaced => ?_
  rw [add_eq_addRow, h.of_mem_placedFrom hplaced]

theorem Descriptor.componentsOn_eq_all {d : Descriptor} {disk : Disk} {contents : Component → Bytes}
    (hhosts : disk.Hosts d) (hshows : disk.Shows d fun c => some (contents c)) :
    d.componentsOn disk = Component.all := by
  rw [componentsOn, List.filter_eq_self]
  intro c hc
  rw [hshows.existsAt hhosts]
  rfl

namespace Writer

variable {t : Terms} {rows : List AppendedRow} {w w₀ : Writer} {v v' v₀ v₁ v₂ : Volume}

/-- What publishing gives is made of what the writer has in memory, and of the lengths of the two files. -/
theorem reader_of_publish {age : Nat} {r : Reader} (hrun : (w.closed.publish age).on v = (.ok r, v')) :
    ∃ index data, r = w.publishedReader index data age ∧
      (w.index.segments.complete (w.descriptor.published.pathOf .primaryIndex)).on v' = (.ok index, v') ∧
      (w.segments.complete (w.descriptor.published.pathOf .data)).on v' = (.ok data, v') := by
  rw [ClosedTable.publish, Action.on_bind_eq_ok_iff] at hrun
  obtain ⟨d, v₁, hrename, hrun⟩ := hrun
  rw [Action.on_bind_eq_ok_iff] at hrun
  obtain ⟨index, v₂, hindex, hrun⟩ := hrun
  rw [Action.on_bind_eq_ok_iff] at hrun
  obtain ⟨data, v₃, hdata, hrun⟩ := hrun
  rw [Action.on_op_eq_ok_iff] at hindex hdata
  have hindexLooks := (Reader.looks_complete _ _).eq hindex
  have hdataLooks := (Reader.looks_complete _ _).eq hdata
  subst hindexLooks hdataLooks
  have hname : d = w.descriptor.published := by
    rw [Descriptor.on_publish_eq, Action.on_bind_eq_ok_iff] at hrename
    obtain ⟨u, v₄, -, hpure⟩ := hrename
    cases hpure
    rfl
  subst hname
  cases hrun
  exact ⟨index, data, rfl, hindex, hdata⟩

/-- On a disk that was free for the table, a writer can be finished. -/
theorem exists_finish {calls : List Call} (hcurrent : t.descriptor.isCurrent = true)
    (htemporary : t.descriptor.temporary = true) (hfresh : t.descriptor.Fresh v₀.disk)
    (hcreate : t.create.on v₀ = (.ok w₀, v₁)) (hcalls : Appends w₀ v₁ calls w v₂)
    (htotal : AppendedRow.total (calls.map Call.row) < Disk.maxOffset) (age : Nat) :
    ∃ r v₃, (w.finish age).on v₂ = (.ok r, v₃) := by
  obtain ⟨hd, hwrote, -⟩ := wrote_of_appends hcurrent hcreate hcalls
  obtain ⟨v₃, hclose, hwork, hshows⟩ :=
    Recovery.Workable.closes hcurrent htemporary hfresh hcreate hcalls htotal
  obtain ⟨published, v₄, hpublish, -⟩ := on_publish_closed hd hwrote hwork.hosts hshows hwork.free age
  exact ⟨published, v₄, by rw [finish, Action.on_bind_ok hclose, hpublish]⟩

theorem on_openTable_published (h : w.Wrote t rows v.disk) (hdecorated : Decorated t.partitioner rows)
    (hsound : Reader.Sound rows (t.filter.insertAll (rows.map (·.key.key))).build
      (Histogram.rowSizes.addAll (rows.map size),
        Histogram.columnCounts.addAll (rows.filterMap (·.columnCount))))
    (hhosts : v'.disk.Hosts t.descriptor.published)
    (hshows : v'.disk.Shows t.descriptor.published fun c => some (t.contents rows c))
    {index data : SegmentedFile}
    (hindex : (w.index.segments.complete (t.descriptor.published.pathOf .primaryIndex)).on v' =
      (.ok index, v'))
    (hdata : (w.segments.complete (t.descriptor.published.pathOf .data)).on v' = (.ok data, v'))
    (metadata : TableMetadata) (age published : Nat) :
    (Reader.openTable t.descriptor.published metadata t.partitioner t.config age).on v' =
      (.ok { w.publishedReader index data published with metadata, maxDataAge := age }, v') := by
  have hdecode := Filter.decode_encode_self hsound.filter
  obtain ⟨indexFile, dataFile, hrun, -, -, hindexFile, hdataFile⟩ := Reader.on_openTable (hshows.reads hhosts)
    rfl rfl rfl (Reader.decodeRecords_indexBytes hsound.keys hsound.total) hdecode
    (Reader.decodeStatistics_encode hsound.rowSizes hsound.columnCounts) metadata t.partitioner t.config age
  have hpass : (entries rows).foldl (Reader.IndexPass.add t.partitioner) (.start t.config) = w.pass := by
    rw [Reader.IndexPass.foldl_add_entries hdecorated, h.pass]
  rw [hpass] at hindexFile hdataFile
  have hsameIndex : (Except.ok indexFile, v') = (.ok index, v') := hindexFile.symm.trans hindex
  have hsameData : (Except.ok dataFile, v') = (.ok data, v') := hdataFile.symm.trans hdata
  cases hsameIndex
  cases hsameData
  rw [hrun, Reader.opened, hpass, Descriptor.componentsOn_eq_all hhosts hshows, publishedReader, h.descriptor,
    h.partitioner, h.filter, h.rowSizes, h.columnCounts]
  rfl

/-- A table that is closed and published can be opened, and the reader that is opened is the one that was
published: the same descriptor, components, summary, filter, histograms and segments of both files. -/
theorem openTable_published {calls : List Call} (hcurrent : t.descriptor.isCurrent = true)
    (htemporary : t.descriptor.temporary = true) (hfresh : t.descriptor.Fresh v₀.disk)
    (hcreate : t.create.on v₀ = (.ok w₀, v₁)) (hcalls : Appends w₀ v₁ calls w v₂)
    (hdecorated : Decorated t.partitioner (calls.map Call.row))
    (htotal : AppendedRow.total (calls.map Call.row) < Disk.maxOffset) (age : Nat) :
    ∃ table v₃ published v₄, w.close.on v₂ = (.ok table, v₃) ∧
      (table.publish age).on v₃ = (.ok published, v₄) ∧
      ∀ metadata age', ∃ opened,
        (Reader.openTable t.descriptor.published metadata t.partitioner t.config age').on v₄ =
          (.ok opened, v₄) ∧
        opened = { published with metadata, maxDataAge := age' } := by
  obtain ⟨hd, hwrote, -⟩ := wrote_of_appends hcurrent hcreate hcalls
  obtain ⟨v₃, hclose, hwork, hshows⟩ :=
    Recovery.Workable.closes hcurrent htemporary hfresh hcreate hcalls htotal
  obtain ⟨published, v₄, hpublish, -, -, -, hshows₄, hhosts₄, -⟩ :=
    on_publish_closed hd hwrote hwork.hosts hshows hwork.free age
  refine ⟨w.closed, v₃, published, v₄, hclose, hpublish, fun metadata age' => ?_⟩
  obtain ⟨index, data, rfl, hindex, hdata⟩ := reader_of_publish hpublish
  rw [hwrote.descriptor] at hindex hdata
  exact ⟨_, on_openTable_published hwrote hdecorated (t.sound hwork.keys htotal) hhosts₄ hshows₄ hindex hdata
    metadata age' age, rfl⟩

theorem openTable_published_users :
    ∃ v₁ w v₂ table v₃ published v₄ opened,
      Terms.users.create.on .new = (.ok (Terms.users.start 0 1), v₁) ∧
        Appends (Terms.users.start 0 1) v₁ Call.users w v₂ ∧ w.close.on v₂ = (.ok table, v₃) ∧
        (table.publish 7).on v₃ = (.ok published, v₄) ∧
        (Reader.openTable Terms.users.descriptor.published (.new "ks" "users") .byteOrdered .default 9).on
          v₄ = (.ok opened, v₄) ∧
        opened.summary = published.summary ∧ opened.filter = published.filter ∧
        opened.data = published.data := by
  obtain ⟨w, v₂, hcalls⟩ := exists_appends_users Terms.create_users
  obtain ⟨table, v₃, published, v₄, hclose, hpublish, hopen⟩ :=
    openTable_published rfl rfl Terms.fresh_users Terms.create_users hcalls
      (by intro row hrow; revert row hrow; decide) (by decide) 7
  obtain ⟨opened, hopened, rfl⟩ := hopen (.new "ks" "users") 9
  exact ⟨_, w, v₂, table, v₃, published, v₄, _, Terms.create_users, hcalls, hclose, hpublish, hopened, rfl,
    rfl, rfl⟩

end Writer

end SortedTable
