import SortedTable.Proofs.Publishing

namespace SortedTable

open AppendedRow

/-- A writer that has written these rows and nothing else, as it can be seen from outside. -/
structure Writer.InStep (w : Writer) (disk : Disk) (rows : List AppendedRow) : Prop where
  data : w.data.image disk = dataBytes rows
  index : w.index.output.image disk = indexBytes rows
  ascending : rows.Pairwise fun a b => a.key ≤ b.key
  filePointer : w.filePointer = total rows
  rowsWritten : w.rowsWritten = rows.length

structure Descriptor.Stores (d : Descriptor) (disk : Disk) (rows : List AppendedRow) : Prop where
  data : disk.read (d.pathOf .data) = .ok (dataBytes rows)
  index : disk.read (d.pathOf .primaryIndex) = .ok (indexBytes rows)

/-- No file of the table is there, and no directory has the name that a file of it will have. -/
def Descriptor.Fresh (d : Descriptor) (disk : Disk) : Prop :=
  ∀ c, disk.find (d.pathOf c) = .error .notFound ∧ disk.find (d.published.pathOf c) ≠ .ok .directory

namespace Descriptor.Fresh

variable {d : Descriptor} {disk : Disk}

theorem tree_eq_none (h : d.Fresh disk) (hhosts : disk.Hosts d) (c : Component) :
    disk.tree (d.place c) = none :=
  (Disk.find_eq_notFound_iff (hhosts c)).mp (h c).1

theorem not_directory (hd : d.Valid) (h : d.Fresh disk) (hhosts : disk.Hosts d) (c : Component) :
    disk.tree (d.published.place c) ≠ some .directory := by
  rw [ne_eq, Disk.tree_eq_directory_iff, ← Disk.find_eq_ok_iff (hhosts.published hd c)]
  exact (h c).2

end Descriptor.Fresh

/-- A reader that gives some rows back, each at its offset, and ends the scan behind them. -/
structure Reader.GivesBack (r : Reader) (v : Volume) (rows : List AppendedRow) : Prop where
  scan : ∃ scanner, r.scanner.on v = (.ok scanner, v) ∧ scanner.rows = (scannedFrom 0 rows, none)
  estimatedKeys : r.estimatedKeys = rows.length
  keyAt : ∀ i row, rows[i]? = some row →
    (r.keyAt (total (rows.take i))).on v = (.ok row.key.key, v)
  mayContain : ∀ row ∈ rows, r.mayContain row.key = true

theorem Reader.Serves.givesBack_of_fits {r : Reader} {v : Volume} {d : Descriptor} {rows : List AppendedRow}
    (hd : d.Valid) (h : r.Serves v.disk d rows) (hfits : ∀ row ∈ rows, row.Fits) : r.GivesBack v rows where
  scan := ⟨_, h.on_scanner hd, Scanner.rows_start hfits⟩
  estimatedKeys := h.keyCount
  keyAt := fun _ row hrow => h.on_keyAt (List.append_nil _).symm hrow (hfits row (List.mem_of_getElem? hrow)).key
  mayContain := h.filter

theorem Reader.Serves.givesBack {r : Reader} {v : Volume} {d : Descriptor} {rows : List AppendedRow}
    (hd : d.Valid) (h : r.Serves v.disk d rows)
    (hkeys : ∀ row ∈ rows, row.key.key.length ≤ Record.maxShort)
    (htotal : total rows < Disk.maxOffset) : r.GivesBack v rows :=
  h.givesBack_of_fits hd (fits_of_total_lt hkeys htotal)

namespace Writer

variable {t : Terms} {rows : List AppendedRow} {w w₀ : Writer} {v v₀ v₁ v₂ : Volume}

theorem Wrote.inStep (h : w.Wrote t rows v.disk) : w.InStep v.disk rows where
  data := h.data.image
  index := h.index.output.image
  ascending := h.ascending
  filePointer := by rw [filePointer, h.dataEnd, length_dataBytes]
  rowsWritten := by rw [rowsWritten, h.rowSizes, Histogram.count_rowSizes, List.length_map]

theorem stores_of_tree {d : Descriptor} {disk : Disk}
    (hdata : disk.Reaches (d.pathOf .data) (d.place .data))
    (hindex : disk.Reaches (d.pathOf .primaryIndex) (d.place .primaryIndex))
    (hdataFile : disk.tree (d.place .data) = some (.file (dataBytes rows)))
    (hindexFile : disk.tree (d.place .primaryIndex) = some (.file (indexBytes rows))) :
    d.Stores disk rows where
  data := (Disk.read_eq_ok_iff hdata).mpr hdataFile
  index := (Disk.read_eq_ok_iff hindex).mpr hindexFile

theorem stores_of_shows {d : Descriptor} {disk : Disk} (hhosts : disk.Hosts d)
    (hshows : disk.Shows d fun c => some (t.contents rows c)) : d.Stores disk rows :=
  stores_of_tree (hhosts .data) (hhosts .primaryIndex) (hshows .data) (hshows .primaryIndex)

theorem wrote_of_appends (hcurrent : t.descriptor.isCurrent = true)
    (hcreate : t.create.on v₀ = (.ok w₀, v₁)) {calls : List Call} (hcalls : Appends w₀ v₁ calls w v₂) :
    t.descriptor.Valid ∧ w.Wrote t (calls.map Call.row) v₂.disk ∧
      v₂.disk.Reaches (t.descriptor.pathOf .data) (t.descriptor.place .data) ∧
      v₂.disk.Reaches (t.descriptor.pathOf .primaryIndex) (t.descriptor.place .primaryIndex) ∧
      v₀.disk.Keeps v₂.disk ∧ ∀ p, p ∉ t.places → v₂.disk.tree p = v₀.disk.tree p := by
  have hversion : t.descriptor.version = Descriptor.currentVersion := by
    rwa [Descriptor.isCurrent, decide_eq_true_iff] at hcurrent
  obtain ⟨hd, hwrote, hindex, hdata, hcreated, -⟩ := Terms.wrote_create hcreate hversion
  obtain ⟨hwrote', hsame⟩ := hwrote.appends hd hcalls
  rw [List.nil_append] at hwrote'
  have hframe := hcreated.trans (hsame.frame fun _ => id)
  exact ⟨hd, hwrote', hdata.mono hframe.keeps, hindex.mono hframe.keeps, hframe.keeps, hframe.tree⟩

/-- The names of a fresh table can all be used if two of them can. -/
theorem hosts_of_fresh (hcurrent : t.descriptor.isCurrent = true) (hfresh : t.descriptor.Fresh v₀.disk)
    (hcreate : t.create.on v₀ = (.ok w₀, v₁)) : v₀.disk.Hosts t.descriptor := by
  have hversion : t.descriptor.version = Descriptor.currentVersion := by
    rwa [Descriptor.isCurrent, decide_eq_true_iff] at hcurrent
  obtain ⟨hd, -, -, hdata, -⟩ := Terms.wrote_create hcreate hversion
  have hopens := Disk.opens_of_reaches (Descriptor.fileName_nameOf hd .data) hdata
  exact fun c => Disk.reaches_of_find_eq_notFound (Descriptor.fileName_nameOf hd c) hopens (hfresh c).1

theorem not_directory_of_fresh (hfresh : t.descriptor.Fresh v₀.disk)
    (hhosts : v₀.disk.Hosts t.descriptor) (hwrote : w.Wrote t rows v.disk)
    (helsewhere : ∀ p, p ∉ t.places → v.disk.tree p = v₀.disk.tree p) (c : Component) :
    v.disk.tree (t.descriptor.place c) ≠ some .directory := by
  by_cases hc : t.descriptor.place c ∈ t.places
  · rw [Terms.places, List.mem_cons, List.mem_singleton] at hc
    rcases hc with hc | hc
    · rw [hc, ne_eq, Disk.tree_eq_directory_iff, hwrote.data.node]
      simp
    · rw [hc, ne_eq, Disk.tree_eq_directory_iff, hwrote.index.output.node]
      simp
  · rw [helsewhere _ hc, hfresh.tree_eq_none hhosts]
    simp

namespace Carries

variable {d : Descriptor} {data index : Bytes}

/-- A table that was finished was closed first, and nothing stood in the way of its permanent names. -/
theorem closed_of_finish (hd : d.Valid) (h : w.Carries d data index v.disk)
    (hdata : v.disk.Reaches (d.pathOf .data) (d.place .data))
    (hindex : v.disk.Reaches (d.pathOf .primaryIndex) (d.place .primaryIndex))
    {age : Nat} {r : Reader} {v' : Volume} (hrun : (w.finish age).on v = (.ok r, v')) :
    ∃ v₁, (w.closed.publish age).on v₁ = (.ok r, v') ∧ v₁.disk.Hosts d ∧
      v₁.disk.Shows d (fun c => some (w.contents data index c)) ∧
      ∀ c, v₁.disk.tree (d.published.place c) ≠ some .directory := by
  rw [finish, Action.on_bind_eq_ok_iff] at hrun
  obtain ⟨table, v₁, hclose, hpublish⟩ := hrun
  obtain ⟨rfl, hhosts, hshows, -⟩ := h.shows_of_close hd hdata hindex hclose
  refine ⟨v₁, hpublish, hhosts, hshows, ?_⟩
  rw [ClosedTable.publish, Action.on_bind_eq_ok_iff] at hpublish
  obtain ⟨published, v₂, hrename, -⟩ := hpublish
  rw [closed, h.descriptor] at hrename
  exact Descriptor.not_directory_of_on_publish hd hhosts hshows hrename

theorem finish_of_create (hd : d.Valid) (h : w.Carries d data index v.disk)
    (hnames : ∀ c, (v.disk.create (d.pathOf c)).isOk = true ∧
      (v.disk.create (d.published.pathOf c)).isOk = true) (age : Nat) :
    ∃ r v', (w.finish age).on v = (.ok r, v') := by
  have husable : ∀ {d : Descriptor} {c : Component}, d.Valid →
      (v.disk.create (d.pathOf c)).isOk = true →
        v.disk.Reaches (d.pathOf c) (d.place c) ∧ v.disk.tree (d.place c) ≠ some .directory := by
    intro d c hd hok
    rcases hcreate : v.disk.create (d.pathOf c) with e | found
    · rw [hcreate] at hok
      simp [Except.isOk, Except.toBool] at hok
    · have hreach := Disk.reaches_of_create hd hcreate
      exact ⟨hreach, Disk.not_directory_of_create_eq_ok hreach hcreate⟩
  have hhosts : v.disk.Hosts d := fun c => (husable hd (hnames c).1).1
  obtain ⟨v₁, hclose⟩ := h.close_of_reaches hd hhosts fun c => (husable hd (hnames c).1).2
  obtain ⟨-, hhosts₁, hshows₁, helsewhere, -⟩ :=
    h.shows_of_close hd (hhosts .data) (hhosts .primaryIndex) hclose
  have hfree : ∀ c, v₁.disk.tree (d.published.place c) ≠ some .directory := by
    intro c
    by_cases hplace : ∃ c', d.published.place c = d.place c'
    · obtain ⟨c', hc'⟩ := hplace
      rw [hc']
      exact hshows₁.not_directory c'
    · rw [helsewhere _ fun c' hc' => hplace ⟨c', hc'⟩]
      exact (husable hd.published (hnames c).2).2
  obtain ⟨indexFile, dataFile, v₂, hpublish, -⟩ := h.on_publish_closed hd hhosts₁ hshows₁ hfree age
  exact ⟨_, v₂, by rw [finish, Action.on_bind_ok hclose, hpublish]⟩

end Carries

theorem Wrote.serves_of_finish (hd : t.descriptor.Valid) (h : w.Wrote t rows v.disk)
    (hdata : v.disk.Reaches (t.descriptor.pathOf .data) (t.descriptor.place .data))
    (hindex : v.disk.Reaches (t.descriptor.pathOf .primaryIndex) (t.descriptor.place .primaryIndex))
    {age : Nat} {r : Reader} {v' : Volume} (hrun : (w.finish age).on v = (.ok r, v')) :
    r.Serves v'.disk t.descriptor.published rows ∧
      v'.disk.Shows t.descriptor.published (fun c => some (t.contents rows c)) ∧
      v'.disk.Hosts t.descriptor.published := by
  obtain ⟨v₁, hpublish, hhosts, hshows, hfree⟩ := h.carries.closed_of_finish hd hdata hindex hrun
  rw [h.contents] at hshows
  obtain ⟨r', v₂, hpublish', hserves, -, -, hshows', hhosts', -⟩ :=
    on_publish_closed hd h hhosts hshows hfree age
  rw [hpublish] at hpublish'
  cases hpublish'
  exact ⟨hserves, hshows', hhosts'⟩

theorem Wrote.finish_of_create (hd : t.descriptor.Valid) (h : w.Wrote t rows v.disk)
    (hnames : ∀ c, (v.disk.create (t.descriptor.pathOf c)).isOk = true ∧
      (v.disk.create (t.descriptor.published.pathOf c)).isOk = true) (age : Nat) :
    ∃ r v', (w.finish age).on v = (.ok r, v') :=
  h.carries.finish_of_create hd hnames age

/-- In every state of a writer, when it is dropped, when it is closed and when its table is published, the
files are exactly those of the rows that were appended, and the published table gives the rows back. -/
theorem table_faithful {calls : List Call} (hcurrent : t.descriptor.isCurrent = true)
    (hcreate : t.create.on v₀ = (.ok w₀, v₁)) (hcalls : Appends w₀ v₁ calls w v₂) :
    w.InStep v₂.disk (calls.map Call.row) ∧
      (∀ v₃, Work.on w.drop v₂ = ((), v₃) →
        t.descriptor.Stores v₃.disk (calls.map Call.row)) ∧
      (∀ table v₃, w.close.on v₂ = (.ok table, v₃) →
        t.descriptor.Stores v₃.disk (calls.map Call.row)) ∧
      (∀ age r v₃, (w.finish age).on v₂ = (.ok r, v₃) →
        t.descriptor.published.Stores v₃.disk (calls.map Call.row) ∧
          (total (calls.map Call.row) < Disk.maxOffset → r.GivesBack v₃ (calls.map Call.row))) ∧
      ((∀ c, (v₂.disk.create (t.descriptor.pathOf c)).isOk = true ∧
          (v₂.disk.create (t.descriptor.published.pathOf c)).isOk = true) →
        ∀ age, ∃ r v₃, (w.finish age).on v₂ = (.ok r, v₃)) := by
  obtain ⟨hd, hwrote, hdata, hindex, -⟩ := wrote_of_appends hcurrent hcreate hcalls
  refine ⟨hwrote.inStep, ?_, ?_, ?_, fun hnames age => hwrote.finish_of_create hd hnames age⟩
  · intro v₃ hdrop
    obtain ⟨v', hdrop', hdataFile, hindexFile, hsame⟩ := hwrote.on_drop hd
    rw [hdrop] at hdrop'
    cases hdrop'
    exact stores_of_tree (hdata.mono hsame.keeps) (hindex.mono hsame.keeps) hdataFile hindexFile
  · intro table v₃ hclose
    obtain ⟨-, hhosts, hshows, -⟩ := hwrote.shows_of_close hd hdata hindex hclose
    exact stores_of_shows hhosts hshows
  · intro age r v₃ hfinish
    obtain ⟨hserves, hshows, hhosts⟩ := hwrote.serves_of_finish hd hdata hindex hfinish
    refine ⟨stores_of_shows hhosts hshows, fun htotal => ?_⟩
    exact hserves.givesBack hd.published (fun row hrow => (hwrote.accepted row hrow).2) htotal

def Terms.users : Terms where
  descriptor := .current ⟨[]⟩ "ks" "users" 1 true
  keyCount := 2
  metadata := .new "ks" "users"
  partitioner := .byteOrdered
  config := .default

def Call.users : List Call :=
  [.encoded (.byteOrdered [97]) ⟨[[1], [2, 3]], .ok 1⟩, .value (.byteOrdered [98]) [4]]

def Call.user : Call := .value (.byteOrdered [97]) [120]

theorem Terms.create_users :
    Terms.users.create.on .new = (.ok (Terms.users.start 0 1),
      (Volume.new.step (Disk.empty.addFile (Terms.users.descriptor.place .primaryIndex))).step
        ((Disk.empty.addFile (Terms.users.descriptor.place .primaryIndex)).addFile
          (Terms.users.descriptor.place .data))) :=
  Terms.create_eq_ok_iff.mpr ⟨rfl, by decide, 0, _, 1, _, rfl, rfl, rfl, rfl⟩

theorem Terms.fresh_users : Terms.users.descriptor.Fresh Volume.new.disk := by
  intro c
  cases c <;> exact ⟨rfl, by decide⟩

theorem exists_appends_users {v₁ : Volume}
    (h : Terms.users.create.on .new = (.ok (Terms.users.start 0 1), v₁)) :
    ∃ w v₂, Appends (Terms.users.start 0 1) v₁ Call.users w v₂ := by
  obtain ⟨hd, hwrote, -⟩ := Terms.wrote_create h rfl
  refine hwrote.exists_appends hd ?_ (by decide)
  intro c hc
  simp only [Call.users, List.mem_cons, List.not_mem_nil, or_false] at hc
  rcases hc with rfl | rfl
  · exact ⟨⟨1, rfl⟩, by decide, by decide⟩
  · exact ⟨List.cons_ne_nil _ _, by decide, by decide⟩

theorem table_faithful_users :
    ∃ w₀ v₁ w v₂, Terms.users.create.on .new = (.ok w₀, v₁) ∧ Appends w₀ v₁ Call.users w v₂ ∧
      w.InStep v₂.disk (Call.users.map Call.row) := by
  obtain ⟨w, v₂, hcalls⟩ := exists_appends_users Terms.create_users
  exact ⟨_, _, w, v₂, Terms.create_users, hcalls, (table_faithful rfl Terms.create_users hcalls).1⟩

end Writer

end SortedTable
