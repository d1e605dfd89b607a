import SortedTable.Proofs.Directories
import SortedTable.Proofs.Generations

/-!
# A store ahead of its directory

A store that counts on above every generation in its directory begins tables whose names are all free, and only the
table at hand has its names taken. So appending and flushing leave everything alone that was there before, but for
the files of that table. Main statements: `Ahead.exists_appended`, `Ahead.on_flush`, `Sole.agrees_of_tends`.
-/

namespace SortedTable

open Descriptor Disk

variable {dir : Path} {table : String} {g : Nat} {s s' : Store} {v v' : Volume}

/-- What is made on the way to a directory has the name of a piece of a path. -/
theorem Disk.Grows.proper {disk disk' : Disk} (h : Grows disk disk') (hproper : disk.Proper dir) :
    disk'.Proper dir := by
  intro name hname
  by_cases hold : disk.tree (dir.home ++ [name]) = none
  · exact h.named _ name hold hname
  · exact hproper name hold

/-- Of the names of a generation, only these are taken, and by files. -/
structure Descriptor.Sole (dir : Path) (table : String) (g : Nat) (own : List Place) (disk : Disk) : Prop where
  absent : ∀ temporary c, ((numbered dir table g).asTemporary temporary).place c ∉ own →
    disk.tree (((numbered dir table g).asTemporary temporary).place c) = none
  files : ∀ p ∈ own, disk.tree p ≠ some .directory

/-- Work on such a generation leaves all alone that was there, but for its own files. -/
theorem Descriptor.Sole.agrees_of_tends {own : List Place} {disk disk' : Disk} (h : Sole dir table g own disk)
    (htends : Tends dir table g disk disk') : Agrees (fun p => disk.tree p ≠ none ∧ p ∉ own) disk disk' := by
  have hplain : (numbered dir table g).Plain disk := by
    intro c hdirectory
    by_cases hown : (numbered dir table g).place c ∈ own
    · exact h.files _ hown hdirectory
    · have hnone := h.absent true c hown
      exact absurd (hdirectory.symm.trans hnone) (by simp)
  refine (htends.plain hplain).2.mono fun p hp c => ⟨?_, ?_⟩
  · rintro rfl
    exact hp.1 (h.absent true c hp.2)
  · rintro rfl
    exact hp.1 (h.absent false c hp.2)

theorem Descriptor.Sole.existsAt {own : List Place} {disk : Disk} (h : Sole dir table g own disk)
    (htable : ValidTable table) (temporary : Bool) (c : Component)
    (hown : ((numbered dir table g).asTemporary temporary).place c ∉ own) :
    disk.existsAt (((numbered dir table g).asTemporary temporary).pathOf c) = false := by
  have hname := fileName_nameOf ((valid_numbered htable dir g).asTemporary temporary) c
  rw [Bool.eq_false_iff, ne_eq, pathOf_eq, existsAt_join_iff hname]
  rintro ⟨-, -, hnode⟩
  exact hnode (tree_eq_none_iff.mp (h.absent temporary c hown))

namespace Writer

variable {w w' : Writer} {disk disk' : Disk}

/-- A writer at work on a generation that has no other files than its own. -/
structure Alone (dir : Path) (table : String) (g : Nat) (w : Writer) (disk : Disk) : Prop where
  descriptor : w.descriptor = numbered dir table g
  sits : w.Sits disk
  sole : Sole dir table g w.places disk

namespace Alone

theorem files_of_sits (h : w.Sits disk) : ∀ p ∈ w.places, disk.tree p ≠ some .directory := by
  intro p hp
  rw [ne_eq, tree_eq_directory_iff]
  rw [places, List.mem_cons, List.mem_singleton] at hp
  rcases hp with rfl | rfl
  · simp [h.data]
  · simp [h.index]

theorem present (h : w.Alone dir table g disk) : disk.Present dir table g := by
  refine ⟨true, ?_⟩
  have hdata := h.sits.data
  rw [h.descriptor] at hdata
  exact fun hnone => by cases hdata.symm.trans hnone

theorem published_notMem_places (htable : ValidTable table) (h : w.Alone dir table g disk) (c : Component) :
    ((numbered dir table g).asTemporary false).place c ∉ w.places := by
  intro hown
  obtain ⟨c', hc'⟩ := mem_places h.descriptor hown
  exact published_place_ne (valid_numbered htable dir g) rfl c c' hc'

/-- Nothing has the names yet that the table will be published under. -/
theorem tree_published (htable : ValidTable table) (h : w.Alone dir table g disk) (c : Component) :
    disk.tree (w.descriptor.published.place c) = none := by
  rw [h.descriptor]
  exact h.sole.absent false c (h.published_notMem_places htable c)

theorem existsAt_published (htable : ValidTable table) (h : w.Alone dir table g disk) (c : Component) :
    disk.existsAt (w.descriptor.published.pathOf c) = false := by
  rw [h.descriptor]
  exact h.sole.existsAt htable false c (h.published_notMem_places htable c)

/-- Work on other generations leaves the writer alone. -/
theorem of_tends (htable : ValidTable table) (h : w.Alone dir table g disk) {g' : Nat} (hne : g' ≠ g)
    (htends : Tends dir table g' disk disk') : w.Alone dir table g disk' := by
  have hbeside : ∀ temporary c, Beside dir table g' (((numbered dir table g).asTemporary temporary).place c) :=
    beside_numbered htable hne
  have hsits : w.Sits disk' := by
    refine h.sits.goes (.refl w) fun p hp => ?_
    obtain ⟨c, rfl⟩ := mem_places h.descriptor hp
    exact htends.agrees.nodes _ (hbeside true c)
  refine ⟨h.descriptor, hsits, fun temporary c hown => ?_, files_of_sits hsits⟩
  rw [htends.agrees.tree _ (hbeside temporary c)]
  exact h.sole.absent temporary c hown

theorem on_append (h : w.Alone dir table g v.disk) (key : DecoratedKey) (row : Encoding) :
    (Work.on (w.append key row) v).1.2.Alone dir table g (Work.on (w.append key row) v).2.disk := by
  have hstays := stays_append h.sits key row
  have hsame := hstays.within.last_of
  have hplaces : (Work.on (w.append key row) v).1.2.places = w.places := by
    rw [places, places, hstays.goes.descriptor]
  have hsits := h.sits.goes hstays.goes fun p _ => hsame.nodes p
  refine ⟨hstays.goes.descriptor.trans h.descriptor, hsits, fun temporary c hown => ?_, files_of_sits hsits⟩
  rw [hplaces] at hown
  rw [hsame.tree _ hown]
  exact h.sole.absent temporary c hown

theorem on_create (htable : ValidTable table) {keyCount : Nat} {metadata : TableMetadata}
    {partitioner : Partitioner} {config : Config} (hsole : Sole dir table g [] v.disk)
    (hrun : (create (numbered dir table g) keyCount metadata partitioner config).on v = (.ok w, v')) :
    w.Alone dir table g v'.disk := by
  have hd := valid_numbered htable dir g
  obtain ⟨hdescriptor, hsits⟩ := sits_of_on_create hd hrun
  have hmade : (create (numbered dir table g) keyCount metadata partitioner config).Within
      (Touches (· ∈ w.places)) v := by
    refine within_create hd (fun c hc disk disk' hdisk _ => hdisk.mono ?_) _ _ _ _ v
    rintro p rfl
    rw [places, hdescriptor]
    exact List.mem_map_of_mem hc
  rw [Action.Within, hrun] at hmade
  refine ⟨hdescriptor, hsits, fun temporary c hown => ?_, files_of_sits hsits⟩
  rw [hmade.last_of.tree _ hown]
  exact hsole.absent temporary c List.not_mem_nil

end Alone

end Writer

namespace Store

variable {disk disk' : Disk}

/-- The places of the files that the table at hand has so far. -/
def own (s : Store) : List Place := s.writer.elim [] Writer.places

/-- A store that counts on above every generation in its directory. -/
structure Ahead (dir : Path) (table : String) (s : Store) (disk : Disk) : Prop where
  validTable : ValidTable table
  directory : s.dir = dir
  metadata : s.metadata = .new (keyspaceOf dir) table
  fits : s.nextGeneration < Decimal.limit64
  ahead : ∀ g c, disk.Has dir table g c → g < s.nextGeneration
  writing : ∀ w, s.writer = some w → ∃ g < s.nextGeneration, w.Alone dir table g disk

namespace Ahead

theorem nextDescriptor_eq (h : s.Ahead dir table disk) : s.nextDescriptor = numbered dir table s.nextGeneration := by
  rw [nextDescriptor, h.directory, h.metadata]
  rfl

theorem sole_next (h : s.Ahead dir table disk) : Sole dir table s.nextGeneration [] disk := by
  refine ⟨fun temporary c _ => ?_, by simp⟩
  by_contra hpresent
  exact absurd (h.ahead _ c ⟨_, hpresent, tells_nameOf dir h.validTable h.fits temporary c⟩) (Nat.lt_irrefl _)

/-- Work on one generation leaves the store ahead, if it counts on above that one too. -/
theorem advance (h : s.Ahead dir table disk) (htends : Tends dir table g disk disk') (hdir : s'.dir = s.dir)
    (hmetadata : s'.metadata = s.metadata) (hle : s.nextGeneration ≤ s'.nextGeneration)
    (hlt : g < s'.nextGeneration) (hfits : s'.nextGeneration < Decimal.limit64)
    (hwriting : ∀ w, s'.writer = some w → ∃ g' < s'.nextGeneration, w.Alone dir table g' disk') :
    s'.Ahead dir table disk' := by
  refine ⟨h.validTable, hdir.trans h.directory, hmetadata.trans h.metadata, hfits, fun g' c hhas => ?_, hwriting⟩
  by_cases hsame : g' = g
  · exact hsame ▸ hlt
  · rw [htends.has h.validTable (by omega) hsame] at hhas
    have hold := h.ahead g' c hhas
    omega

end Ahead

section Append

variable {w w' : Writer} {v₁ : Volume} {key value : Bytes} {timestamp : Int64}

/-- What appending to a store does, with the generation that it works on. -/
structure Appended (dir : Path) (table : String) (g : Nat) (s : Store) (v : Volume) (s' : Store) (v' : Volume) :
    Prop where
  sole : Sole dir table g s.own v.disk
  along : v.Along (Tends dir table g v.disk) v'
  directory : s'.dir = s.dir
  metadata : s'.metadata = s.metadata
  le : s.nextGeneration ≤ s'.nextGeneration
  lt : g < s'.nextGeneration
  writing : ∀ w, s'.writer = some w → w.Alone dir table g v'.disk
  begun : s.writer = none → g = s.nextGeneration

theorem appended_of_take (htable : ValidTable table) (hsole : Sole dir table g s.own v.disk)
    (htake : Work.on s.takeWriter v = ((.ok w, s'), v₁)) (halong : v.Along (Tends dir table g v.disk) v₁)
    (halone : w.Alone dir table g v₁.disk) (hdirectory : s'.dir = s.dir) (hmetadata : s'.metadata = s.metadata)
    (hle : s.nextGeneration ≤ s'.nextGeneration) (hlt : g < s'.nextGeneration)
    (hbegun : s.writer = none → g = s.nextGeneration) :
    Appended dir table g s v (Work.on (s.append key value timestamp) v).1.2
      (Work.on (s.append key value timestamp) v).2 := by
  let decorated := s'.partitioner.decorate key
  let row := (Row.empty.add valueColumn value timestamp).encode
  have happend := Writer.tends_append htable halone.descriptor halone.sits decorated row
  have halone' := halone.on_append decorated row
  rcases hrun : Work.on (w.append decorated row) v₁ with ⟨⟨result, w'⟩, v'⟩
  rw [Work.Within, hrun] at happend
  rw [hrun] at halone'
  rw [on_append_of_take htake hrun]
  exact {
    sole := hsole
    along := halong.onward happend
    directory := hdirectory
    metadata := hmetadata
    le := hle
    lt := hlt
    writing := by
      rintro w'' ⟨⟩
      exact halone'
    begun := hbegun }

theorem Ahead.exists_appended (h : s.Ahead dir table v.disk) (key value : Bytes) (timestamp : Int64) :
    ∃ g, Appended dir table g s v (Work.on (s.append key value timestamp) v).1.2
      (Work.on (s.append key value timestamp) v).2 := by
  rcases hw : s.writer with - | w
  · have hown : s.own = [] := by rw [own, hw]; rfl
    have hsole := h.sole_next
    have hmade : (Writer.create (numbered dir table s.nextGeneration) expectedKeys s.metadata s.partitioner
        s.config).Within (Tends dir table s.nextGeneration) v := Writer.tends_create h.validTable _ _ _ _ v
    rw [← h.nextDescriptor_eq] at hmade
    refine ⟨s.nextGeneration, ?_⟩
    rcases hcreate : (Writer.create s.nextDescriptor expectedKeys s.metadata s.partitioner s.config).on v
      with ⟨e | w, v₁⟩
    · rw [Action.Within, hcreate] at hmade
      rw [on_append_of_take_error (on_takeWriter_idle hw hcreate)]
      exact {
        sole := hown ▸ hsole
        along := hmade
        directory := rfl
        metadata := rfl
        le := Nat.le_succ _
        lt := Nat.lt_succ_self _
        writing := by
          intro w hsome
          exact absurd (hsome.symm.trans hw) (by simp)
        begun := fun _ => rfl }
    · rw [Action.Within, hcreate] at hmade
      exact appended_of_take h.validTable (hown ▸ hsole) (on_takeWriter_idle hw hcreate) hmade
        (.on_create h.validTable hsole (h.nextDescriptor_eq ▸ hcreate)) rfl rfl (Nat.le_succ _) (Nat.lt_succ_self _)
        fun _ => rfl
  · obtain ⟨g, hlt, halone⟩ := h.writing w hw
    have hown : s.own = w.places := by rw [own, hw]; rfl
    refine ⟨g, appended_of_take h.validTable (hown ▸ halone.sole) (on_takeWriter_writing hw) (.refl _ v) halone rfl
      rfl (Nat.le_refl _) hlt fun hnone => ?_⟩
    rw [hw] at hnone
    cases hnone

end Append

namespace Ahead

theorem settled (h : s.Ahead dir table disk) (htends : Tends dir table g disk disk') (hlt : g < s.nextGeneration)
    (tables : SortedMap Nat Reader) : Ahead dir table { s with tables, writer := none } disk' :=
  h.advance htends rfl rfl (Nat.le_refl _) hlt h.fits fun w hw => by cases hw

/-- A flush works on the generation of the table at hand. -/
theorem on_flush (h : s.Ahead dir table v.disk) {w : Writer} (hw : s.writer = some w) (now : Nat) :
    ∃ g result tables v', Work.on (s.flush now) v = ((result, { s with tables, writer := none }), v') ∧
      g < s.nextGeneration ∧ Sole dir table g s.own v.disk ∧ v.Along (Tends dir table g v.disk) v' := by
  obtain ⟨g, hlt, halone⟩ := h.writing w hw
  have hown : s.own = w.places := by rw [own, hw]; rfl
  have htends := Writer.tends_finish h.validTable halone.descriptor halone.sits now
  have hfinish : ∃ result tables, Work.on (s.flush now) v =
      ((result, { s with tables, writer := none }), ((w.finish now).on v).2) := by
    rcases hrun : (w.finish now).on v with ⟨e | r, v'⟩
    · exact ⟨_, _, on_flush_of_finish_error hw hrun⟩
    · exact ⟨_, _, on_flush_of_finish hw hrun⟩
  obtain ⟨result, tables, hflush⟩ := hfinish
  exact ⟨g, result, tables, _, hflush, hlt, hown ▸ halone.sole, htends⟩

theorem on_flush_idle (hw : s.writer = none) (now : Nat) : Work.on (s.flush now) v = ((.ok none, s), v) := by
  unfold flush
  rw [hw]
  rfl

theorem on_abort (h : s.Ahead dir table v.disk) {w : Writer} (hw : s.writer = some w) :
    ∃ g v', Work.on s.abort v = ((some w.descriptor, { s with writer := none }), v') ∧ g < s.nextGeneration ∧
      v.Along (Tends dir table g v.disk) v' := by
  obtain ⟨g, hlt, halone⟩ := h.writing w hw
  exact ⟨g, (Work.on w.drop v).2, on_abort_of_drop hw rfl, hlt,
    Writer.tends_drop h.validTable halone.descriptor halone.sits⟩

theorem on_abort_idle (hw : s.writer = none) : Work.on s.abort v = ((none, s), v) := by
  unfold abort
  rw [hw]
  rfl

end Ahead

/-- A table that waits for a recovery, other than the one at hand. -/
structure Waiting (dir : Path) (table : String) (s : Store) (d : Descriptor) : Prop where
  directory : d.directory.Shortens dir
  table : d.table = table
  temporary : d.temporary = true
  lt : d.generation < s.nextGeneration
  other : ∀ w, s.writer = some w → w.descriptor.generation ≠ d.generation

theorem Waiting.twin {d : Descriptor} (h : s.Waiting dir table d) (hcurrent : d.isCurrent = true) :
    d.Twin (numbered dir table d.generation) :=
  ⟨h.directory, h.table, rfl, of_decide_eq_true hcurrent, h.temporary⟩

theorem Waiting.generation_ne {d : Descriptor} {w : Writer} {disk : Disk} (h : s.Waiting dir table d)
    (hw : s.writer = some w) (halone : w.Alone dir table g disk) : d.generation ≠ g := by
  have hother := h.other w hw
  rw [halone.descriptor] at hother
  exact hother.symm

/-- A table waits whichever tables are open. -/
theorem Waiting.of_tables {d : Descriptor} (h : s.Waiting dir table d) (tables : SortedMap Nat Reader) :
    Waiting dir table { s with tables } d :=
  ⟨h.directory, h.table, h.temporary, h.lt, h.other⟩

theorem Ahead.waiting_of_mem_unfinished (h : s.Ahead dir table disk) (hproper : disk.Proper dir) {d : Descriptor}
    (hd : d ∈ s.unfinished (s.filesAmong (disk.namesIn dir.home))) : s.Waiting dir table d := by
  simp only [unfinished, List.mem_map, List.mem_filter, Bool.and_eq_true, decide_eq_true_eq] at hd
  obtain ⟨⟨d, c⟩, ⟨hmem, ⟨rfl, htemporary⟩, hwriting⟩, rfl⟩ := hd
  obtain ⟨name, hname, hpath, htable⟩ := mem_filesAmong.mp hmem
  rw [h.directory] at hpath
  rw [h.metadata] at htable
  have hpresent := Disk.mem_namesIn_iff.mp hname
  refine ⟨shortens_of_ofPath? (hproper name hpresent) hpath, htable, htemporary,
    h.ahead _ .data ⟨name, hpresent, d, hpath, htable, rfl⟩, fun w hw hsame => hwriting ?_⟩
  rw [hw, Option.map_some, hsame]

end Store

end SortedTable
