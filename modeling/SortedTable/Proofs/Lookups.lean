import SortedTable.Proofs.Gathering

namespace SortedTable

/-- Every so many of these records have an entry in the summary of a reader: the key, with the place of the record in
the index. There the key is read with the offset of its row, and at this offset the key is read again. -/
structure Reader.Points (r : Reader) (v : Volume) (interval : Nat) (records : List (DecoratedKey × Nat)) : Prop where
  size : r.summary.size = (records.length + interval - 1) / interval
  entry : ∀ j < r.summary.size, ∃ key offset, records[j * interval]? = some (key, offset) ∧
    r.summary.entries[j]? = some ⟨key, indexPosition records (j * interval)⟩ ∧
    (r.indexEntryAt (indexPosition records (j * interval))).on v = (.ok (key.key, offset), v) ∧
    (r.keyAt offset).on v = (.ok key.key, v)

theorem drop_indexPosition {records : List (DecoratedKey × Nat)} {i : Nat} {e : DecoratedKey × Nat}
    (he : records[i]? = some e) :
    (recordBytes records).drop (indexPosition records i) =
      Record.index e.1.key e.2 ++ recordBytes (records.drop (i + 1)) := by
  obtain ⟨hi, rfl⟩ := List.getElem?_eq_some_iff.mp he
  have hsplit : recordBytes records = recordBytes (records.take i) ++ recordBytes (records.drop i) := by
    rw [← recordBytes_append, List.take_append_drop]
  rw [hsplit, indexPosition, List.drop_left, List.drop_eq_getElem_cons hi]
  rfl

theorem Reader.Samples.points {r : Reader} {v : Volume} {data : Bytes} {interval : Nat}
    {records : List (DecoratedKey × Nat)} (h : r.Samples v.disk data interval records) (hpos : 0 < interval)
    (hplaced : Placed data records) (hlength : data.length < Disk.maxOffset) : r.Points v interval records := by
  refine ⟨h.summary.size_eq hpos, fun j hj => ?_⟩
  obtain ⟨⟨key, offset⟩, hrecord, hentry⟩ := h.summary.entry_iff.mp (List.getElem?_eq_getElem hj)
  have hmem : (key, offset) ∈ records := List.mem_of_getElem? hrecord
  obtain ⟨hkey, rest, hdrop⟩ := hplaced _ hmem
  refine ⟨key, offset, hrecord, ?_, ?_, on_keyAt_of_drop h.data hkey hdrop⟩
  · rw [← hentry]
    exact List.getElem?_eq_getElem hj
  · exact on_indexEntryAt_of_drop h.index hkey (Nat.lt_trans (hplaced.lt_length hmem) hlength)
      (drop_indexPosition hrecord)

namespace Writer

variable {t : Terms} {records : List (DecoratedKey × Nat)} {w₀ w : Writer} {v₀ v₁ v₂ v₃ : Volume} {published : Reader}
  {age : Nat}

theorem Terms.interval_pos (hcreate : t.create.on v₀ = (.ok w₀, v₁)) :
    max 1 t.config.indexInterval = t.config.indexInterval := by
  obtain ⟨hconfig, -⟩ := Terms.create_eq_ok_iff.mp hcreate
  refine Nat.max_eq_right (Nat.one_le_iff_ne_zero.mpr fun hzero => ?_)
  rw [Config.validate, if_neg (not_not.mpr hzero)] at hconfig
  cases hconfig

/-- A table that was published has a summary of exact pointers, whether its reader came from the writer or is opened
from the files, with whatever interval. -/
theorem summary_entries_point (hcreate : t.create.on v₀ = (.ok w₀, v₁)) (hadds : Adds w₀ v₁ records w v₂)
    (hfinish : (w.finish age).on v₂ = (.ok published, v₃)) (hroom : w.filePointer < Disk.maxOffset) :
    v₃.disk.read (t.descriptor.published.pathOf .primaryIndex) = .ok (recordBytes records) ∧
      published.Points v₃ t.config.indexInterval records ∧
      ∀ metadata partitioner config age', ∃ opened,
        (Reader.openTable t.descriptor.published metadata partitioner config age').on v₃ = (.ok opened, v₃) ∧
          opened.Points v₃ (max 1 config.indexInterval) (redecorated partitioner records) := by
  obtain ⟨data, hgathered⟩ := Terms.gathered_of_adds hcreate hadds
  have hlength : data.length < Disk.maxOffset := hgathered.stacked.atEnd ▸ hroom
  obtain ⟨hread, hsamples, hopen⟩ := hgathered.finish hfinish
  refine ⟨hread, ?_, fun metadata partitioner config age' => ?_⟩
  · rw [← Terms.interval_pos hcreate]
    exact hsamples.points (Nat.le_max_left 1 _) hgathered.placed hlength
  · obtain ⟨opened, hrun, hsamples'⟩ := hopen hlength metadata partitioner config age'
    exact ⟨opened, hrun, hsamples'.points (Nat.le_max_left 1 _) (hgathered.placed.redecorated partitioner) hlength⟩

theorem summary_entries_point_users :
    ∃ v₁ w v₂ published v₃ opened, Terms.users.create.on .new = (.ok (Terms.users.start 0 1), v₁) ∧
      Adds (Terms.users.start 0 1) v₁ [(.byteOrdered [97], 0), (.byteOrdered [98], 14)] w v₂ ∧
      (w.finish 7).on v₂ = (.ok published, v₃) ∧
      published.Points v₃ 128 [(.byteOrdered [97], 0), (.byteOrdered [98], 14)] ∧
      (Reader.openTable Terms.users.descriptor.published (.new "ks" "users") .byteOrdered .default 9).on v₃ =
        (.ok opened, v₃) ∧
      opened.Points v₃ 128 [(.byteOrdered [97], 0), (.byteOrdered [98], 14)] := by
  obtain ⟨w, v₂, hcalls⟩ := exists_appends_users Terms.create_users
  obtain ⟨published, v₃, hfinish⟩ := exists_finish rfl rfl Terms.fresh_users Terms.create_users hcalls (by decide) 7
  have hadds := Terms.adds_of_appends rfl Terms.create_users hcalls
  obtain ⟨-, hwrote, -⟩ := wrote_of_appends rfl Terms.create_users hcalls
  have hroom : w.filePointer < Disk.maxOffset := by
    rw [filePointer, hwrote.dataEnd]
    decide
  obtain ⟨-, hpoints, hopen⟩ := summary_entries_point Terms.create_users hadds hfinish hroom
  obtain ⟨opened, hrun, hpoints'⟩ := hopen (.new "ks" "users") .byteOrdered .default 9
  exact ⟨_, w, v₂, published, v₃, opened, Terms.create_users, hadds, hfinish, hpoints, hrun, hpoints'⟩

/-- A search for a key has nowhere to start iff the key is before all keys of the table. It starts early enough for
all records of the key iff no record that is sampled has another one of the key before it. -/
theorem floor_starts_scan_iff (hcreate : t.create.on v₀ = (.ok w₀, v₁)) (hadds : Adds w₀ v₁ records w v₂)
    (hfinish : (w.finish age).on v₂ = (.ok published, v₃)) :
    (∀ key, (published.summary.floor key = none ↔ ∀ e ∈ records, key < e.1) ∧
      (published.summary.Covers records key ↔ Summary.SampledFirst t.config.indexInterval records key)) ∧
    (w.filePointer < Disk.maxOffset → ∀ metadata partitioner config age',
      (∀ e ∈ records, partitioner.decorate e.1.key = e.1) → ∃ opened,
        (Reader.openTable t.descriptor.published metadata partitioner config age').on v₃ = (.ok opened, v₃) ∧
        ∀ key, (opened.summary.floor key = none ↔ ∀ e ∈ records, key < e.1) ∧
          (opened.summary.Covers records key ↔ Summary.SampledFirst (max 1 config.indexInterval) records key)) := by
  obtain ⟨data, hgathered⟩ := Terms.gathered_of_adds hcreate hadds
  have hpos : ∀ interval, 0 < max 1 interval := Nat.le_max_left 1
  obtain ⟨-, hsamples, hopen⟩ := hgathered.finish hfinish
  refine ⟨fun key => ⟨hsamples.summary.floor_eq_none_iff (hpos _) hgathered.ascending, ?_⟩,
    fun hroom metadata partitioner config age' hdecorated => ?_⟩
  · rw [← Terms.interval_pos hcreate]
    exact hsamples.summary.covers_iff (hpos _) hgathered.ascending
  · obtain ⟨opened, hrun, hsamples'⟩ := hopen (hgathered.stacked.atEnd ▸ hroom) metadata partitioner config age'
    rw [redecorated_eq_self hdecorated] at hsamples'
    exact ⟨opened, hrun, fun key => ⟨hsamples'.summary.floor_eq_none_iff (hpos _) hgathered.ascending,
      hsamples'.summary.covers_iff (hpos _) hgathered.ascending⟩⟩

def Terms.everyKey : Terms := { Terms.users with config := { Config.default with indexInterval := 1 } }

def Call.twice : List Call := [.value (.byteOrdered [97]) [120], .value (.byteOrdered [97]) [121]]

def twiceRecords : List (DecoratedKey × Nat) := [(.byteOrdered [97], 0), (.byteOrdered [97], 12)]

theorem finish_twice :
    ∃ w₀ v₁ w v₂ published v₃, Terms.everyKey.create.on .new = (.ok w₀, v₁) ∧ Adds w₀ v₁ twiceRecords w v₂ ∧
      (w.finish 0).on v₂ = (.ok published, v₃) := by
  obtain ⟨w₀, v₁, hcreate⟩ : ∃ w₀ v₁, Terms.everyKey.create.on .new = (.ok w₀, v₁) :=
    ⟨_, _, Terms.create_eq_ok_iff.mpr ⟨rfl, by decide, 0, _, 1, _, rfl, rfl, rfl, rfl⟩⟩
  obtain ⟨hd, hwrote, -⟩ := Terms.wrote_create hcreate rfl
  obtain ⟨w, v₂, hcalls⟩ : ∃ w v₂, Appends w₀ v₁ Call.twice w v₂ := by
    refine hwrote.exists_appends hd (fun c hc => ?_) (by decide)
    simp only [Call.twice, List.mem_cons, List.not_mem_nil, or_false] at hc
    rcases hc with rfl | rfl
    · exact ⟨List.cons_ne_nil _ _, by decide, by decide⟩
    · exact ⟨List.cons_ne_nil _ _, by decide, by decide⟩
  have hfresh : Terms.everyKey.descriptor.Fresh Volume.new.disk := Terms.fresh_users
  obtain ⟨published, v₃, hfinish⟩ := exists_finish rfl rfl hfresh hcreate hcalls (by decide) 0
  exact ⟨w₀, v₁, w, v₂, published, v₃, hcreate, Terms.adds_of_appends rfl hcreate hcalls, hfinish⟩

theorem floor_starts_scan_iff_twice :
    ∃ w₀ v₁ w v₂ published v₃, Terms.everyKey.create.on .new = (.ok w₀, v₁) ∧ Adds w₀ v₁ twiceRecords w v₂ ∧
      (w.finish 0).on v₂ = (.ok published, v₃) ∧ published.summary.floor (.byteOrdered [96]) = none ∧
      published.summary.Covers twiceRecords (.byteOrdered [98]) ∧
      ¬ published.summary.Covers twiceRecords (.byteOrdered [97]) := by
  obtain ⟨w₀, v₁, w, v₂, published, v₃, hcreate, hadds, hfinish⟩ := finish_twice
  obtain ⟨hsearch, -⟩ := floor_starts_scan_iff hcreate hadds hfinish
  refine ⟨w₀, v₁, w, v₂, published, v₃, hcreate, hadds, hfinish, (hsearch _).1.mpr (by decide), ?_, ?_⟩
  · refine (hsearch _).2.mpr fun i j offset offset' hi _ => ?_
    exact absurd (List.mem_of_getElem? hi) (by simp [twiceRecords, DecoratedKey.byteOrdered])
  · exact fun hcovers => absurd ((hsearch _).2.mp hcovers 0 1 0 12 rfl rfl) (by decide)

/-- A search for the key starts behind its first record. -/
theorem floor_skips_record :
    ∃ w₀ v₁ w v₂ published v₃, Terms.everyKey.create.on .new = (.ok w₀, v₁) ∧ Adds w₀ v₁ twiceRecords w v₂ ∧
      (w.finish 0).on v₂ = (.ok published, v₃) ∧
      published.summary.floor (.byteOrdered [97]) = some ⟨.byteOrdered [97], 11⟩ ∧
      twiceRecords[0]? = some (.byteOrdered [97], 0) ∧ indexPosition twiceRecords 0 = 0 ∧
      ¬ published.summary.Covers twiceRecords (.byteOrdered [97]) := by
  obtain ⟨w₀, v₁, w, v₂, published, v₃, hcreate, hadds, hfinish⟩ := finish_twice
  obtain ⟨data, hgathered⟩ := Terms.gathered_of_adds hcreate hadds
  have hfloor : published.summary.floor (.byteOrdered [97]) = some ⟨.byteOrdered [97], 11⟩ := by
    rw [hgathered.summary_finish hfinish]
    decide +kernel
  refine ⟨w₀, v₁, w, v₂, published, v₃, hcreate, hadds, hfinish, hfloor, rfl, rfl, fun hcovers => ?_⟩
  exact absurd (hcovers _ hfloor 0 0 rfl) (by decide)

end Writer

end SortedTable
