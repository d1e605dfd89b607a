import SortedTable.Proofs.Parsing
import SortedTable.Proofs.Shelves

/-!
# A table that is kept

Once its writer is gone, a table waits under its temporary names or is published and open. It gets from the
one to the other by a recovery, it can be opened as often as one likes, and its rows stay the same, with what
was left behind them of a row that does not end. Main statements: `Works.on_finish`, `Kept.on_recover`,
`Kept.on_openTable`.
-/

namespace SortedTable

open AppendedRow Recovery Writer

/-- The disk of a table that no writer is at work on, and the reader that is open on it. The data is made of
these rows and of a tail that is not a row. -/
inductive Kept (d : Descriptor) (rows : List AppendedRow) (tail : Bytes) (disk : Disk) : Option Reader → Prop
  | pending {files : Component → Option Bytes} (shows : disk.Shows d files)
      (stored : files .data = some (dataBytes rows ++ tail))
      (broken : intactFiles files (dataBytes rows ++ tail) = false) (free : disk.Free d)
      (unpublished : disk.tree (d.published.place .data) = none)
      (keys : ∀ row ∈ rows, row.key.key.length ≤ Record.maxShort) (total : AppendedRow.total rows < Disk.maxOffset)
      (unfinished : Unfinished tail) : Kept d rows tail disk none
  | published {r : Reader} {filter : Filter} {statistics : Histogram × Histogram}
      (twin : r.descriptor.Twin d.published) (hosts : disk.Hosts r.descriptor)
      (counted : r.estimatedKeys = rows.length) (moved : disk.Shows d fun _ => none)
      (shows : disk.Shows d.published fun c =>
        some (tableFiles (dataBytes rows ++ tail) rows filter statistics c))
      (sound : Reader.Sound rows filter statistics) (unfinished : Unfinished tail) : Kept d rows tail disk (some r)

variable {d d' : Descriptor} {rows : List AppendedRow} {tail : Bytes} {v : Volume} {disk disk' : Disk}
  {table : Option Reader} {r : Reader}

theorem Descriptor.Twin.refl (d : Descriptor) : d.Twin d :=
  ⟨⟨[], (List.append_nil _).symm, by simp⟩, rfl, rfl, rfl, rfl⟩

namespace Kept

theorem of_frame {outside : Place → Prop} (h : Kept d rows tail disk table) (hframe : disk.Frame outside disk')
    (hspared : d.Spared outside) : Kept d rows tail disk' table := by
  have htemporary : ∀ c, disk'.tree (d.place c) = disk.tree (d.place c) :=
    fun c => hframe.tree _ (hspared c).1
  have hpublished : ∀ c, disk'.tree (d.published.place c) = disk.tree (d.published.place c) :=
    fun c => hframe.tree _ (hspared c).2
  cases h with
  | pending shows stored broken free unpublished keys total unfinished =>
      exact .pending (shows.of_tree_eq htemporary) stored broken (free.of_sameUnder hpublished)
        ((hpublished .data).trans unpublished) keys total unfinished
  | published twin hosts counted moved shows sound unfinished =>
      exact .published twin (hosts.mono hframe.keeps) counted (moved.of_tree_eq htemporary)
        (shows.of_tree_eq hpublished) sound unfinished

/-- The data is under the temporary name until the table is published. -/
theorem tree_temporary (h : Kept d rows tail disk table) :
    disk.tree (d.place .data) ≠ none ↔ table = none := by
  cases h with
  | pending shows stored => simp [shows .data, stored]
  | published _ _ _ moved => simp [moved .data]

theorem tree_published (h : Kept d rows tail disk table) :
    disk.tree (d.published.place .data) ≠ none ↔ table.isSome = true := by
  cases h with
  | pending _ _ _ _ unpublished => simp [unpublished]
  | published _ _ _ _ shows => simp [shows .data]

theorem fits (h : Kept d rows tail disk table) : ∀ row ∈ rows, row.Fits := by
  cases h with
  | pending _ _ _ _ _ keys total => exact fits_of_total_lt keys total
  | published _ _ _ _ _ sound => exact fits_of_total_lt sound.keys sound.total

theorem unfinished (h : Kept d rows tail disk table) : Unfinished tail := by
  cases h with
  | pending _ _ _ _ _ _ _ unfinished => exact unfinished
  | published _ _ _ _ _ _ unfinished => exact unfinished

theorem estimatedKeys (h : Kept d rows tail disk (some r)) : r.estimatedKeys = rows.length := by
  cases h with
  | published _ _ counted => exact counted

/-- The reader scans all the data, whether the rows in it end or not. -/
theorem on_scanner (hd : d.Valid) (h : Kept d rows tail v.disk (some r)) :
    r.scanner.on v = (.ok (Scanner.start .long (dataBytes rows ++ tail)), v) := by
  cases h with
  | published twin hosts _ _ shows =>
      exact Reader.on_scanTable (twin.valid hd.published) (hosts .data) (twin.shows shows .data)

variable {config : Config}

theorem on_openTable (h : Kept d rows tail v.disk (some r)) (htwin : d'.Twin d.published)
    (hhosts : v.disk.Hosts d') (metadata : TableMetadata) (p : Partitioner) (config : Config) (age : Nat) :
    ∃ r', (Reader.openTable d' metadata p config age).on v = (.ok r', v) ∧
      Kept d rows tail v.disk (some r') := by
  cases h with
  | published _ _ _ moved shows sound unfinished =>
      obtain ⟨r', hrun, hshows, -⟩ :=
        Reader.on_openTable_of_sound hhosts (htwin.shows shows) sound metadata p config age
      have hname := hshows.descriptor
      exact ⟨r', hrun,
        .published (hname ▸ htwin) (hname ▸ hhosts) hshows.keyCount moved shows sound unfinished⟩

/-- A recovery publishes what is pending, and opens what was published before. -/
theorem on_recover (hd : d.Valid) (htemporary : d.temporary = true) (htwin : d'.Twin d)
    (h : Kept d rows tail v.disk table) (hhosts : v.disk.Hosts d') (hconfig : config.validate = .ok ())
    (metadata : TableMetadata) (p : Partitioner) (opening : Config) (age : Nat) :
    ∃ r v', (recoverAndOpen d' (rebuild p config) metadata p opening age).on v = (.ok r, v') ∧
      Kept d rows tail v'.disk (some r) ∧ v.disk.Frame d.Apart v'.disk := by
  have hd' := htwin.valid hd
  cases h with
  | pending shows stored broken free unpublished keys total unfinished =>
      have hfree : v.disk.Free d' := fun c => by
        rw [htwin.published.place]
        exact free c
      obtain ⟨estimated, r, v', hrun, hcompleted, hframe⟩ := on_recoverAndOpen_rebuilt hd'
        (htwin.temporary.trans htemporary) hhosts (htwin.shows shows) hfree stored broken keys total unfinished
        hconfig metadata p opening age
      have hname := hcompleted.reader.descriptor
      have hshows : v'.disk.Shows d.published fun c => some (tableFiles (dataBytes rows ++ tail) rows
          (rebuiltFilter config estimated rows) (rebuiltStatistics rows) c) := by
        intro c
        rw [← htwin.published.place]
        exact hcompleted.permanent c
      have hmoved : v'.disk.Shows d fun _ => none := by
        intro c
        rw [← htwin.place]
        exact hcompleted.temporary c
      exact ⟨r, v', hrun,
        .published (hname ▸ htwin.published) (hname ▸ hcompleted.hosts.published hd') hcompleted.reader.keyCount
          hmoved hshows (sound_rebuilt keys total config estimated) unfinished,
        hframe.mono fun q hq => htwin.apart_iff.mpr hq⟩
  | @published r filter statistics twin hosts counted moved shows sound unfinished =>
      have h := published twin hosts counted moved shows sound unfinished
      have hmoved : v.disk.tree (d'.place .data) = none := by
        rw [htwin.place]
        exact moved .data
      have hpublished : (v.disk.tree (d'.published.place .data)).isSome = true := by
        rw [htwin.published.place, shows .data]
        rfl
      obtain ⟨r', hopen, hkept⟩ := h.on_openTable htwin.published (hhosts.published hd') metadata p opening age
      refine ⟨r', v, ?_, hkept, .refl _ _⟩
      rw [on_recoverAndOpen_published hd' hhosts hmoved hpublished, hopen]

end Kept

/-- A writer that is dropped leaves its table to a recovery. -/
theorem Stands.pending (h : Stands d disk (.indexed rows))
    (hunpublished : disk.tree (d.published.place .data) = none) : Kept d rows [] disk none := by
  obtain ⟨hkeys, htotal⟩ := h.sound
  refine .pending h.files ?_ (intactFiles_eq_false (Or.inr (Or.inl rfl))) h.free hunpublished hkeys htotal .nil
  rw [List.append_nil]
  rfl

/-- A writer that is finished leaves its table published, and the reader is open on it. -/
theorem Works.on_finish {w : Writer} {left : Option (Filter × Histogram × Histogram)} (hd : d.Valid)
    (htemporary : d.temporary = true) (h : Works d w v.disk rows left) (age : Nat) :
    ∃ r v', (w.finish age).on v = (.ok r, v') ∧ r.descriptor = d.published ∧
      Kept d rows [] v'.disk (some r) ∧ v.disk.Frame d.Apart v'.disk := by
  have hkeys := h.keys
  have htotal := h.total
  obtain ⟨t, v₁, ht, hwrote, hclose, hstands, hclosed⟩ := h.on_close hd htemporary
  obtain ⟨r, v₂, hpublish, hbare, hshows, hserves⟩ := hstands.on_publish hd htemporary ht hwrote age
  have hpublished := hstands.frame_of_publish hd ht hwrote hpublish
  have hname := hserves.descriptor
  refine ⟨r, v₂, ?_, hname, .published (hname ▸ .refl _) (hname ▸ hbare.hosts.published hd) hserves.keyCount
    hbare.files (by rw [List.append_nil]; exact hshows) (t.sound hkeys htotal) .nil,
    (hclosed.mono fun _ hp => hp.outside).trans hpublished⟩
  rw [finish, Action.on_bind_ok hclose, hpublish]

end SortedTable
