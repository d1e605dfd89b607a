import SortedTable.Proofs.Listing

namespace SortedTable

/-- The temporary table of a name and a generation in a directory. -/
def Descriptor.numbered (dir : Path) (table : String) (generation : Nat) : Descriptor :=
  .current dir (keyspaceOf dir) table generation true

theorem Descriptor.apart_numbered {dir : Path} {table : String} (htable : ValidTable table) {g g' : Nat}
    (hne : g ≠ g') (temporary : Bool) (c : Component) :
    (numbered dir table g).Apart (((numbered dir table g').asTemporary temporary).place c) := by
  have hg : (numbered dir table g).Valid := ⟨htable, rfl⟩
  have hg' : (numbered dir table g').Valid := ⟨htable, rfl⟩
  exact apart_of_generation_ne hg (hg'.asTemporary temporary) hne c

theorem Descriptor.spared_numbered {dir : Path} {table : String} (htable : ValidTable table) {g g' : Nat}
    (hne : g ≠ g') : (numbered dir table g').Spared (numbered dir table g).Apart :=
  fun c => ⟨apart_numbered htable hne true c, apart_numbered htable hne false c⟩

/-- A table name in a directory, with the settings that its tables are written and opened with. -/
structure Site where
  dir : Path
  table : String
  partitioner : Partitioner
  config : Config

namespace Site

def metadata (a : Site) : TableMetadata := .new (Descriptor.keyspaceOf a.dir) a.table

/-- The table that is begun after so many others. Generations are counted from one. -/
def slot (a : Site) (i : Nat) : Descriptor := .numbered a.dir a.table (i + 1)

/-- A store without tables. -/
def store (a : Site) : Store where
  dir := a.dir
  metadata := a.metadata
  partitioner := a.partitioner
  config := a.config
  tables := .empty
  writer := none
  nextGeneration := 1

/-- A place that has none of the names of the first tables. -/
def Beyond (a : Site) (n : Nat) (p : Place) : Prop := ∀ i < n, (a.slot i).Apart p

/-- A directory that can hold the files of so many tables, and does not hold a file of any. -/
structure Vacant (a : Site) (bound : Nat) (disk : Disk) : Prop where
  config : a.config.validate = .ok ()
  validTable : Descriptor.ValidTable a.table
  numbered : bound < Decimal.limit64
  lists : ∃ names, disk.list a.dir = .ok names
  hosts : ∀ i < bound, disk.Hosts (a.slot i)
  clear : ∀ name d c, disk.tree (a.dir.home ++ [name]) ≠ none →
    Descriptor.ofPath? (a.dir.join ⟨name⟩) = some (d, c) → d.table ≠ a.table

variable {a : Site} {bound n i j : Nat} {origin disk disk' : Disk}

theorem apart_slot (htable : Descriptor.ValidTable a.table) (hne : i ≠ j) (temporary : Bool) (c : Component) :
    (a.slot i).Apart (((a.slot j).asTemporary temporary).place c) :=
  Descriptor.apart_numbered htable (by omega) temporary c

theorem spared_slot (htable : Descriptor.ValidTable a.table) (hne : i ≠ j) :
    (a.slot j).Spared (a.slot i).Apart :=
  Descriptor.spared_numbered htable (by omega)

theorem beyond_slot (htable : Descriptor.ValidTable a.table) (hle : n ≤ j) (temporary : Bool) (c : Component) :
    a.Beyond n (((a.slot j).asTemporary temporary).place c) :=
  fun i hi => apart_slot htable (by omega) temporary c

theorem Beyond.mono {p : Place} (h : a.Beyond n p) {m : Nat} (hle : m ≤ n) : a.Beyond m p :=
  fun i hi => h i (by omega)

theorem exists_of_not_beyond {name : Bytes} (h : ¬ a.Beyond n (a.dir.home ++ [name])) :
    ∃ i < n, ∃ temporary c, name = ((a.slot i).asTemporary temporary).nameOf c := by
  simp only [Beyond, Descriptor.Apart, not_forall, not_and_or, not_not] at h
  obtain ⟨i, hi, c, hplace⟩ := h
  rcases hplace with hplace | hplace
  · exact ⟨i, hi, true, c, List.singleton_inj.mp (List.append_cancel_left hplace)⟩
  · exact ⟨i, hi, false, c, List.singleton_inj.mp (List.append_cancel_left hplace)⟩

namespace Vacant

theorem valid (h : a.Vacant bound origin) (i : Nat) : (a.slot i).Valid := ⟨h.validTable, rfl⟩

theorem ofPath?_slot (h : a.Vacant bound origin) (hi : i < bound) (temporary : Bool) (c : Component) :
    ∃ d', Descriptor.ofPath? (((a.slot i).asTemporary temporary).pathOf c) = some (d', c) ∧
      d'.Twin ((a.slot i).asTemporary temporary) := by
  have hbound := h.numbered
  refine Descriptor.ofPath?_pathOf ((h.valid i).asTemporary temporary) ?_ c
  change i + 1 < Decimal.limit64
  omega

theorem tree_place (h : a.Vacant bound origin) (hi : i < bound) (temporary : Bool) (c : Component) :
    origin.tree (((a.slot i).asTemporary temporary).place c) = none := by
  obtain ⟨d', hpath, htwin⟩ := h.ofPath?_slot hi temporary c
  by_contra hpresent
  exact h.clear _ d' c hpresent hpath htwin.table

theorem list_of_frame (h : a.Vacant bound origin) (hframe : origin.Frame (a.Beyond n) disk) :
    disk.list a.dir = .ok (disk.namesIn a.dir.home) := by
  obtain ⟨names, hnames⟩ := h.lists
  exact Disk.list_mono hframe.keeps hnames

theorem hosts_of_frame (h : a.Vacant bound origin) (hframe : origin.Frame (a.Beyond n) disk) (hi : i < bound) :
    disk.Hosts (a.slot i) :=
  (h.hosts i hi).mono hframe.keeps

/-- There is no file of a table that was not begun. -/
theorem tree_place_of_frame (h : a.Vacant bound origin) (hframe : origin.Frame (a.Beyond n) disk) (hle : n ≤ i)
    (hi : i < bound) (temporary : Bool) (c : Component) :
    disk.tree (((a.slot i).asTemporary temporary).place c) = none := by
  rw [hframe.tree _ (beyond_slot h.validTable hle temporary c), h.tree_place hi]

variable {s : Store} {f : Store.Found}

/-- What a store finds in the directory is a file of a table that was begun. -/
theorem twin_of_mem_filesAmong (h : a.Vacant bound origin) (hframe : origin.Frame (a.Beyond n) disk)
    (hn : n ≤ bound) (hdir : s.dir = a.dir) (hname : s.metadata.name = a.table)
    (hf : f ∈ s.filesAmong (disk.namesIn a.dir.home)) :
    ∃ i < n, ∃ temporary, f.descriptor.Twin ((a.slot i).asTemporary temporary) ∧
      disk.tree (((a.slot i).asTemporary temporary).place f.component) ≠ none := by
  obtain ⟨name, hmem, hpath, htable⟩ := Store.mem_filesAmong.mp hf
  rw [hdir] at hpath
  rw [hname] at htable
  have hpresent := Disk.mem_namesIn_iff.mp hmem
  have hbegun : ¬ a.Beyond n (a.dir.home ++ [name]) := by
    intro hbeyond
    rw [hframe.tree _ hbeyond] at hpresent
    exact h.clear name f.descriptor f.component hpresent hpath htable
  obtain ⟨i, hi, temporary, c, rfl⟩ := exists_of_not_beyond hbegun
  obtain ⟨d', hpath', htwin⟩ := h.ofPath?_slot (by omega : i < bound) temporary c
  rw [Descriptor.pathOf_eq] at hpath'
  obtain ⟨rfl, rfl⟩ := Prod.mk.inj (Option.some.inj (hpath.symm.trans hpath'))
  exact ⟨i, hi, temporary, htwin, hpresent⟩

/-- Every file of a table that was begun is found. -/
theorem exists_mem_filesAmong (h : a.Vacant bound origin) (hi : i < bound) (hdir : s.dir = a.dir)
    (hname : s.metadata.name = a.table) (temporary : Bool) {c : Component}
    (hpresent : disk.tree (((a.slot i).asTemporary temporary).place c) ≠ none) :
    ∃ d', d'.Twin ((a.slot i).asTemporary temporary) ∧ ⟨d', c⟩ ∈ s.filesAmong (disk.namesIn a.dir.home) := by
  obtain ⟨d', hpath, htwin⟩ := h.ofPath?_slot hi temporary c
  refine ⟨d', htwin, Store.mem_filesAmong.mpr ⟨_, Disk.mem_namesIn_iff.mpr hpresent, ?_, ?_⟩⟩
  · rw [hdir, ← hpath, Descriptor.pathOf_eq]
    rfl
  · rw [hname]
    exact htwin.table

end Vacant

end Site

namespace Store

/-- A directory that is made for the tables of a name. -/
def usersSite : Site := ⟨⟨[107, 115]⟩, "users", .byteOrdered, .default⟩

def usersVolume : Volume := Volume.new.step (Disk.empty.addDirectory [[107, 115]])

end Store

end SortedTable
