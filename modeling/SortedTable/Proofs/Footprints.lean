import SortedTable.Proofs.Appending
import SortedTable.Proofs.Anchors

namespace SortedTable

theorem Action.within_write {v : Volume} {p : Place} {id : Nat} (h : v.disk.node? p = some (.file id))
    (position : Nat) (bytes : Bytes) : Work.Within (Disk.SameBut [p]) (Action.write id position bytes) v :=
  .step (.of_write h)

namespace Output

/-- The work writes to the file at a place only, and leaves an output to the same file. -/
structure Sticks (o : Output) (p : Place) (work : Work Output) (v : Volume) : Prop where
  within : Work.Within (Disk.SameBut [p]) work v
  file : (Work.on work v).1.file = o.file

variable {o : Output} {p : Place} {v : Volume}

namespace Sticks

variable {work : Work Output} {next : Output → Work Output}

theorem nodes (h : o.Sticks p work v) (q : Place) : (Work.on work v).2.disk.node? q = v.disk.node? q :=
  h.within.last_of.nodes q

theorem node (h : o.Sticks p work v) (hnode : v.disk.node? p = some (.file o.file)) :
    (Work.on work v).2.disk.node? p = some (.file (Work.on work v).1.file) := by
  rw [h.file, h.nodes p, hnode]

theorem bind (h : o.Sticks p work v)
    (hnext : (Work.on work v).1.Sticks p (next (Work.on work v).1) (Work.on work v).2) :
    o.Sticks p (work >>= next) v :=
  ⟨h.within.bind hnext.within, hnext.file.trans h.file⟩

end Sticks

theorem sticks_flush (h : v.disk.node? p = some (.file o.file)) : o.Sticks p o.flush v := by
  unfold flush
  by_cases hempty : o.pending.length = 0
  · rw [if_pos hempty]
    exact ⟨.pure _ _ _, rfl⟩
  · rw [if_neg hempty]
    exact ⟨(Action.within_write h _ _).bind (.pure _ _ _), rfl⟩

theorem sticks_writeThrough (h : v.disk.node? p = some (.file o.file)) (bytes : Bytes) :
    o.Sticks p (o.writeThrough bytes) v :=
  ⟨(Action.within_write h _ _).bind (.pure _ _ _), rfl⟩

theorem sticks_writeLast (h : v.disk.node? p = some (.file o.file)) (bytes : Bytes) :
    o.Sticks p (if o.capacity ≤ bytes.length then o.writeThrough bytes
      else return { o with pending := o.pending.append bytes }) v := by
  split
  · exact sticks_writeThrough h bytes
  · exact ⟨.pure _ _ _, rfl⟩

theorem sticks_write (h : v.disk.node? p = some (.file o.file)) (bytes : Bytes) :
    o.Sticks p (o.write bytes) v := by
  unfold write
  by_cases hnil : bytes = []
  · rw [if_pos hnil]
    exact ⟨.pure _ _ _, rfl⟩
  rw [if_neg hnil]
  by_cases hfits : bytes.length < o.room
  · rw [if_pos hfits]
    exact ⟨.pure _ _ _, rfl⟩
  rw [if_neg hfits]
  by_cases hroom : o.room < bytes.length
  · rw [if_pos hroom]
    have hflush := sticks_flush h
    exact hflush.bind (sticks_writeLast (hflush.node h) bytes)
  · rw [if_neg hroom]
    exact sticks_writeLast h bytes

theorem sticks_writePieces (h : v.disk.node? p = some (.file o.file)) (pieces : List Bytes) :
    o.Sticks p (o.writePieces pieces) v := by
  induction pieces generalizing o v with
  | nil => exact ⟨.pure _ _ _, rfl⟩
  | cons piece rest ih =>
      rw [writePieces, List.foldlM_cons]
      have hfirst := sticks_write h piece
      exact hfirst.bind (ih (hfirst.node h))

theorem sticks_seek (h : v.disk.node? p = some (.file o.file)) (position : Nat) :
    o.Sticks p (o.seek position) v :=
  (sticks_flush h).bind ⟨.pure _ _ _, rfl⟩

end Output

namespace Action

variable {v : Volume}

theorem within_create (path : Path) : (Action.create path).Within (Disk.Touches (· = path.home)) v :=
  .change fun _ _ h => Disk.touches_create h

theorem node?_of_on_create {path : Path} {id : Nat} {v' : Volume}
    (h : (Action.create path).on v = (.ok id, v')) : v'.disk.node? path.home = some (.file id) := by
  obtain ⟨disk, hdisk, rfl⟩ := on_change_eq_ok_iff.mp h
  exact (Disk.create_eq_ok hdisk).1

theorem within_writeFile (path : Path) (bytes : Bytes) :
    (Action.writeFile path bytes).Within (Disk.Touches (· = path.home)) v := by
  refine (within_create path).bind fun id v' hcreate => .lift ?_
  exact (within_write (node?_of_on_create hcreate) 0 bytes).mono fun disk hdisk =>
    .of_sameBut hdisk fun p hp => List.mem_singleton.mp hp

theorem within_remove (path : Path) : (Action.remove path).Within (Disk.Touches (· = path.home)) v :=
  .change_ fun _ h => Disk.touches_remove h

end Action

namespace IndexWriter

variable {w : IndexWriter} {p : Place} {v : Volume}

theorem within_add (h : v.disk.node? p = some (.file w.output.file)) (key : DecoratedKey) (offset : Nat) :
    Work.Within (Disk.SameBut [p]) (w.add key offset) v ∧
      (Work.on (w.add key offset) v).1.output.file = w.output.file ∧
      (Work.on (w.add key offset) v).1.descriptor = w.descriptor := by
  have hwrite := Output.sticks_writePieces h (Record.indexPieces key.key offset)
  exact ⟨hwrite.within.bind (.pure _ _ _), hwrite.file, rfl⟩

theorem within_drop (h : v.disk.node? p = some (.file w.output.file)) :
    Work.Within (Disk.SameBut [p]) w.drop v :=
  (Output.sticks_flush h).within.bind (.pure _ _ _)

theorem within_close {R : Disk → Disk → Prop} [IsPreorder Disk R]
    (h : v.disk.node? p = some (.file w.output.file))
    (hwrite : ∀ disk disk', Disk.SameBut [p] disk disk' → R disk disk')
    (hmake : ∀ disk disk', Disk.Touches (· = (w.descriptor.pathOf .filter).home) disk disk' → R disk disk') :
    w.close.Within R v := by
  refine .bind (.lift ?_) fun _ v' _ => ?_
  · exact (Output.sticks_flush h).within.mono (hwrite _)
  · exact .bind ((Action.within_writeFile _ _).op.mono (hmake _)) fun _ _ _ => .refl _ _

theorem within_create (d : Descriptor) (keyCount : Nat) (config : Config) :
    (IndexWriter.create d keyCount config).Within (Disk.Touches (· = (d.pathOf .primaryIndex).home)) v :=
  .bind (.op (.bind (Action.within_create _) fun _ _ _ => .refl _ _)) fun _ _ _ => .refl _ _

theorem node?_of_on_create {d : Descriptor} {keyCount : Nat} {config : Config} {v' : Volume}
    (h : (IndexWriter.create d keyCount config).on v = (.ok w, v')) :
    v'.disk.node? (d.pathOf .primaryIndex).home = some (.file w.output.file) ∧ w.descriptor = d := by
  obtain ⟨id, disk, hdisk, rfl, rfl⟩ := create_eq_ok_iff.mp h
  exact ⟨(Disk.create_eq_ok hdisk).1, rfl⟩

end IndexWriter

namespace Writer

variable {w w' : Writer} {disk disk' : Disk} {v v' : Volume}

/-- The places of the files that a writer has made. -/
def places (w : Writer) : List Place := [w.descriptor.place .data, w.descriptor.place .primaryIndex]

/-- The files of a writer lie where its descriptor says. -/
structure Sits (w : Writer) (disk : Disk) : Prop where
  data : disk.node? (w.descriptor.place .data) = some (.file w.data.file)
  index : disk.node? (w.descriptor.place .primaryIndex) = some (.file w.index.output.file)
  descriptor : w.index.descriptor = w.descriptor

/-- Two states of one writer. -/
structure Goes (w w' : Writer) : Prop where
  descriptor : w'.descriptor = w.descriptor
  data : w'.data.file = w.data.file
  index : w'.index.output.file = w.index.output.file
  indexDescriptor : w'.index.descriptor = w.index.descriptor

theorem Goes.refl (w : Writer) : w.Goes w := ⟨rfl, rfl, rfl, rfl⟩

theorem Sits.goes (h : w.Sits disk) (hgoes : w.Goes w') (hnodes : ∀ p ∈ w.places, disk'.node? p = disk.node? p) :
    w'.Sits disk' := by
  refine ⟨?_, ?_, ?_⟩
  · rw [hgoes.descriptor, hgoes.data, hnodes _ (by simp [places]), h.data]
  · rw [hgoes.descriptor, hgoes.index, hnodes _ (by simp [places]), h.index]
  · rw [hgoes.indexDescriptor, hgoes.descriptor, h.descriptor]

theorem within_places {α : Type} {work : Work α} {p : Place} (hp : p ∈ w.places)
    (h : Work.Within (Disk.SameBut [p]) work v) : Work.Within (Disk.SameBut w.places) work v :=
  h.mono fun _ hdisk => hdisk.of_mem hp

theorem data_mem_places (w : Writer) : w.descriptor.place .data ∈ w.places := by simp [places]

theorem index_mem_places (w : Writer) : w.descriptor.place .primaryIndex ∈ w.places := by simp [places]

/-- The work writes to the two files of a writer only, and leaves the writer to them. -/
structure Stays {α : Type} (w : Writer) (work : Work (α × Writer)) (v : Volume) : Prop where
  within : Work.Within (Disk.SameBut w.places) work v
  goes : w.Goes (Work.on work v).1.2

theorem Stays.after {α : Type} {o : Output} {first : Work Output} {next : Output → Work (α × Writer)}
    (h : o.Sticks (w.descriptor.place .data) first v) (hfile : o.file = w.data.file) (hsits : w.Sits v.disk)
    (hnext : ∀ o' v', o'.file = w.data.file → w.Sits v'.disk → w.Stays (next o') v') :
    w.Stays (first >>= next) v := by
  obtain ⟨hrest, hgoes⟩ := hnext _ _ (h.file.trans hfile) (hsits.goes (.refl w) fun p _ => h.nodes p)
  exact ⟨(within_places w.data_mem_places h.within).bind hrest, hgoes⟩

theorem stays_indexRow {α : Type} {data : Output} (hdata : data.file = w.data.file)
    (h : v.disk.node? (w.descriptor.place .primaryIndex) = some (.file w.index.output.file)) (key : DecoratedKey)
    (start : Nat) (columnCount : Option Nat) (result : α) :
    w.Stays (do return (result, ← ({ w with data } : Writer).indexRow key start columnCount)) v := by
  obtain ⟨hadd, hfile, hdescriptor⟩ := IndexWriter.within_add h key start
  have hrow : Work.Within (Disk.SameBut w.places) (({ w with data } : Writer).indexRow key start columnCount) v := by
    unfold indexRow
    exact (within_places w.index_mem_places hadd).bind (.pure _ _ _)
  have hgoes : w.Goes (Work.on (({ w with data } : Writer).indexRow key start columnCount) v).1 :=
    ⟨rfl, hdata, hfile, hdescriptor⟩
  exact ⟨hrow.bind (.pure _ _ _), hgoes⟩

/-- Appending a row writes to the two files of the writer only, whether the row is accepted or not. -/
theorem stays_append (h : w.Sits v.disk) (key : DecoratedKey) (row : Encoding) :
    w.Stays (w.append key row) v := by
  unfold append
  rcases w.rejection? key with - | e
  case some => exact ⟨.pure _ _ _, .refl w⟩
  dsimp only
  refine .after (Output.sticks_writePieces h.data _) rfl h fun o₁ v₁ hfile₁ h₁ => ?_
  refine .after (Output.sticks_write (hfile₁ ▸ h₁.data) _) hfile₁ h₁ fun o₂ v₂ hfile₂ h₂ => ?_
  refine .after (Output.sticks_writePieces (hfile₂ ▸ h₂.data) _) hfile₂ h₂ fun o₃ v₃ hfile₃ h₃ => ?_
  rcases row.outcome with e | columnCount
  · exact ⟨.pure _ _ _, rfl, hfile₃, rfl, rfl⟩
  refine .after (Output.sticks_seek (hfile₃ ▸ h₃.data) _) hfile₃ h₃ fun o₄ v₄ hfile₄ h₄ => ?_
  refine .after (Output.sticks_write (hfile₄ ▸ h₄.data) _) hfile₄ h₄ fun o₅ v₅ hfile₅ h₅ => ?_
  refine .after (Output.sticks_seek (hfile₅ ▸ h₅.data) _) hfile₅ h₅ fun o₆ v₆ hfile₆ h₆ => ?_
  exact stays_indexRow hfile₆ h₆.index key _ _ _

theorem within_drop (h : w.Sits v.disk) : Work.Within (Disk.SameBut w.places) w.drop v := by
  have hindex := within_places w.index_mem_places (IndexWriter.within_drop h.index)
  refine hindex.bind ((within_places w.data_mem_places (Output.sticks_flush ?_).within).bind (.pure _ _ _))
  rw [hindex.last_of.nodes, h.data]

/-- Closing a writer writes to its two files, and makes the filter and the statistics. -/
theorem within_close {R : Disk → Disk → Prop} [IsPreorder Disk R] (hd : w.descriptor.Valid) (h : w.Sits v.disk)
    (hwrite : ∀ disk disk', Disk.SameBut w.places disk disk' → R disk disk')
    (hmake : ∀ c ∈ [Component.filter, .statistics], ∀ disk disk',
      Disk.Touches (· = w.descriptor.place c) disk disk' → R disk disk') :
    w.close.Within R v := by
  have hdata := Output.sticks_flush h.data
  refine .bind (.lift ((within_places w.data_mem_places hdata.within).mono (hwrite _))) fun o v₁ hflush => ?_
  have hvolume : v₁ = (Work.on w.data.flush v).2 := (congrArg Prod.snd hflush).symm
  have hindex : v₁.disk.node? (w.descriptor.place .primaryIndex) = some (.file w.index.output.file) := by
    rw [hvolume, hdata.nodes, h.index]
  refine .bind (IndexWriter.within_close hindex (fun disk disk' hdisk => ?_) fun disk disk' hdisk => ?_)
    fun index v₂ _ => ?_
  · exact hwrite _ _ (hdisk.of_mem w.index_mem_places)
  · rw [h.descriptor, Descriptor.home_pathOf hd] at hdisk
    exact hmake .filter (by decide) _ _ hdisk
  · refine .bind ((Action.within_writeFile _ _).op.mono fun disk hdisk => ?_) fun _ _ _ => .refl _ _
    rw [Descriptor.home_pathOf hd] at hdisk
    exact hmake .statistics (by decide) _ _ hdisk

end Writer

end SortedTable
