import SortedTable.Proofs.Disk.Running
import SortedTable.Proofs.Disk.Walks
import SortedTable.Segment

namespace SortedTable

namespace SegmentBuilder

variable {v : Volume} {path : Path} {p : Place} {bytes : Bytes}

def segmentOf (b : SegmentBuilder) (id : Nat) (range : Nat × Nat) : Segment :=
  ⟨range.1, range.2, if b.isMapped range.2 then some id else none⟩

theorem segmentsOf_file (b : SegmentBuilder) (id length : Nat) :
    b.segmentsOf (.file id) length = .ok ((cut length (b.starts length)).map (b.segmentOf id)) := by
  have hpure : (fun range : Nat × Nat =>
      if b.isMapped range.2 then (.ok ⟨range.1, range.2, some id⟩ : Except DiskError Segment)
      else .ok ⟨range.1, range.2, none⟩) = fun range => pure (b.segmentOf id range) := by
    funext range
    unfold segmentOf
    split <;> rfl
  unfold segmentsOf
  change (cut length (b.starts length)).mapM (fun range : Nat × Nat =>
      if b.isMapped range.2 then (.ok ⟨range.1, range.2, some id⟩ : Except DiskError Segment)
      else .ok ⟨range.1, range.2, none⟩) = _
  rw [hpure, List.mapM_pure]
  rfl

end SegmentBuilder

namespace SegmentedFile

variable {f : SegmentedFile} {v : Volume} {path : Path} {p : Place} {bytes : Bytes}

/-- An open file that has these bytes. -/
structure Shows (f : SegmentedFile) (disk : Disk) (bytes : Bytes) : Prop where
  find : ∃ id, disk.find f.path = .ok (.file id) ∧ disk.bytesOf id = bytes ∧
    ∀ s ∈ f.segments, ∀ i, s.map = some i → i = id
  length : f.length = bytes.length

theorem mapFor_eq_some {position count i : Nat} (h : f.mapFor position count = some i) :
    ∃ s ∈ f.segments, s.map = some i := by
  unfold mapFor at h
  split at h
  · rename_i s hs
    split at h
    · refine ⟨s, ?_, h⟩
      unfold segmentFor at hs
      split at hs
      · simp at hs
      · rw [Option.filter_eq_some_iff] at hs
        exact List.mem_of_getElem? hs.1
    · simp at h
  · simp at h

theorem mapped_eq {position count : Nat} (h : position + count ≤ bytes.length) :
    mapped bytes position count = (bytes.drop position).take count := by
  have hlength : ((bytes.drop position).take count).length = count := by
    rw [List.length_take, List.length_drop]
    omega
  rw [mapped, hlength, Nat.sub_self, List.replicate_zero, List.append_nil]

theorem on_contents {id : Nat} (v : Volume) :
    (Action.contents (.file id)).on v = (.ok (v.disk.bytesOf id), v) := by
  rw [Action.on_contents]
  rfl

theorem wrapsInto_iff {length position count : Nat} :
    wrapsInto length position count = true ↔
      length < position + count ∧ (position + count) % Decimal.limit64 ≤ length := by
  rw [wrapsInto, Bool.and_eq_true, decide_eq_true_eq, decide_eq_true_eq]

theorem on_readAt (h : f.Shows v.disk bytes) {position count : Nat}
    (hrange : position + count ≤ bytes.length) :
    (f.readAt position count).on v = (.ok ((bytes.drop position).take count), v) := by
  obtain ⟨⟨id, hfind, hbytes, hmaps⟩, hlength⟩ := h
  have hinside : ¬ f.length < position + count := by omega
  have hfits : ¬ wrapsInto f.length position count = true := fun hwraps => hinside (wrapsInto_iff.mp hwraps).1
  unfold readAt
  rw [if_neg hfits, if_neg hinside]
  rcases hmap : f.mapFor position count with - | i
  · have hnode : (Action.find f.path).io.on v = (.ok (.file id), v) := by
      rw [Action.on_io_eq_ok_iff, Action.on_find, hfind]
    change Action.on ((Action.find f.path).io >>= _) v = _
    rw [Action.on_bind_ok hnode]
    by_cases hzero : count = 0
    · rw [if_pos hzero, hzero, List.take_zero]
      rfl
    · have hcontents : (Action.contents (.file id)).io.on v = (.ok bytes, v) := by
        rw [Action.on_io_eq_ok_iff, on_contents, hbytes]
      have hsplit : Bytes.split? count (bytes.drop position) =
          some ((bytes.drop position).take count, (bytes.drop position).drop count) := by
        refine Bytes.split?_eq_some_iff.mpr ⟨(List.take_append_drop _ _).symm, ?_⟩
        rw [List.length_take, List.length_drop]
        omega
      rw [if_neg hzero, Action.on_bind_ok hcontents, hsplit]
      rfl
  · obtain ⟨s, hs, hsmap⟩ := mapFor_eq_some hmap
    have hid := hmaps s hs i hsmap
    subst hid
    change Action.on (get >>= fun v : Volume => pure (mapped (v.disk.bytesOf i) position count)) v = _
    rw [Action.on_bind_ok (Action.on_get v), Action.on_pure, hbytes, mapped_eq hrange]

end SegmentedFile

theorem SegmentBuilder.on_complete_of_find (b : SegmentBuilder) {v : Volume} {path : Path} {id : Nat}
    (hfind : v.disk.find path = .ok (.file id)) :
    (b.complete path).on v = (.ok ⟨path, (v.disk.bytesOf id).length, b.mode,
      (cut (v.disk.bytesOf id).length (b.starts (v.disk.bytesOf id).length)).map (b.segmentOf id)⟩, v) := by
  have hlength : v.disk.length (.file id) = (v.disk.bytesOf id).length := by
    rw [Disk.bytesOf, Contents.length_bytes]
    rfl
  have hrun : (Action.find path).on v = (.ok (.file id), v) := by
    rw [Action.on_find, hfind]
  rw [complete, Action.on_bind_ok hrun, Action.on_look]
  simp only [hlength, segmentsOf_file]
  rfl

theorem SegmentBuilder.on_complete_of_read (b : SegmentBuilder) {v : Volume} {path : Path} {bytes : Bytes}
    (hread : v.disk.read path = .ok bytes) :
    ∃ f, (b.complete path).on v = (.ok f, v) ∧ f.path = path ∧ f.Shows v.disk bytes := by
  obtain ⟨id, hfind, rfl⟩ := Disk.find_of_read hread
  refine ⟨_, b.on_complete_of_find hfind, rfl, ⟨id, hfind, rfl, ?_⟩, rfl⟩
  intro s hs i hi
  obtain ⟨range, -, rfl⟩ := List.mem_map.mp hs
  unfold segmentOf at hi
  dsimp only at hi
  split at hi
  · exact (Option.some.inj hi).symm
  · simp at hi

theorem SegmentBuilder.on_complete (b : SegmentBuilder) {v : Volume} {path : Path} {p : Place}
    {bytes : Bytes} (hreach : v.disk.Reaches path p) (htree : v.disk.tree p = some (.file bytes)) :
    ∃ f, (b.complete path).on v = (.ok f, v) ∧ f.path = path ∧ f.Shows v.disk bytes :=
  b.on_complete_of_read ((Disk.read_eq_ok_iff hreach).mpr htree)

end SortedTable
