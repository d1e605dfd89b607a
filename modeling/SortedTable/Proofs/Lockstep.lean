import SortedTable.Proofs.Tandem

/-!
# Stores in lockstep

A store that works on a directory with other files in it goes in tandem with the same store in a directory without
them: it opens the same tables, and its calls are answered alike. Main statements: `Reader.tandem_openTable`,
`Recovery.tandem_recoverAndOpen`, `Store.tandem_openAll`, `Store.tandem_append`, `Store.tandem_flush`,
`Store.tandem_recover`, `Store.tandem_scan`.
-/

namespace SortedTable

open Disk

variable {z : Zone} {L L' : Link} {d : Descriptor}

namespace Reader

theorem componentsOn_eq (hd : z.Owns d) {disk disk' : Disk} (h : z.Mirrors L disk disk') :
    d.componentsOn disk = d.componentsOn disk' :=
  List.filter_congr fun c _ => h.existsAt (Zone.covers_pathOf hd c)

theorem tandem_load {α : Type} (hd : z.Owns d) (c : Component) (decode : Bytes → Except DecodeError α) :
    Action.Tandem z L (fun _ => (· = ·)) (load d c decode) (load d c decode) := by
  refine (Action.tandem_find (Zone.covers_pathOf hd c)).op.bind fun L₁ n n' _ hnode => ?_
  refine (((Action.tandem_contents hnode).mapError _).mapError _).bind fun L₂ bytes bytes' _ hbytes => ?_
  subst hbytes
  rcases decode bytes with e | a
  · exact .throw _ _
  · exact .pure rfl

theorem tandem_openTable (hd : z.Owns d) (metadata : TableMetadata) (partitioner : Partitioner) (config : Config)
    (age : Nat) : Action.Tandem z L (Linked z) (openTable d metadata partitioner config age)
      (openTable d metadata partitioner config age) := by
  unfold openTable
  refine .get fun v w hmirrors => ?_
  rw [componentsOn_eq hd hmirrors]
  refine (Action.Tandem.forIn fun c _ L' _ => ?_).bind fun L₁ _ _ _ _ => ?_
  · exact .ite (fun _ => .pure rfl) fun _ => .throw _ _
  refine (tandem_load hd .filter _).bind fun L₂ filter filter' _ hfilter => ?_
  subst hfilter
  refine Action.Tandem.ite_bind (R := fun _ => (· = ·)) (fun _ => tandem_load hd .statistics _) (fun _ => .pure rfl)
    fun L₃ statistics statistics' _ hstatistics => ?_
  subst hstatistics
  obtain ⟨rowSizes, columnCounts⟩ := statistics
  refine (tandem_load hd .primaryIndex _).bind fun L₄ records records' _ hrecords => ?_
  subst hrecords
  refine (SegmentBuilder.tandem_complete _ (Zone.covers_pathOf hd _)).op.bind fun L₅ index index' _ hindex => ?_
  refine (SegmentBuilder.tandem_complete _ (Zone.covers_pathOf hd _)).op.bind fun L₆ data data' hle hdata => .pure ?_
  exact ⟨hd, index', data', hindex.mono hle, hdata, rfl⟩

theorem tandem_scanTable (hd : z.Owns d) :
    Action.Tandem z L (fun _ => (· = ·)) (scanTable d) (scanTable d) := by
  refine (Action.tandem_find (Zone.covers_pathOf hd .data)).op.bind fun L₁ n n' _ hnode => ?_
  cases hnode with
  | directory => exact .throw _ _
  | file hij =>
      refine (Action.tandem_contents (.file hij)).op.bind fun L₂ bytes bytes' _ hbytes => ?_
      subst hbytes
      exact .pure rfl

end Reader

namespace Recovery

theorem tandem_estimateOpen (width : LengthWidth) {n n' : Node} (hnode : n.Linked L n') :
    Action.Tandem z L (fun _ => (· = ·)) (estimateOpen width n) (estimateOpen width n') := by
  cases hnode with
  | directory => exact .throw _ _
  | file hij =>
      refine (Action.tandem_contents (.file hij)).op.bind fun L₁ bytes bytes' _ hbytes => ?_
      subst hbytes
      rcases estimateRows width ⟨bytes, 0⟩ with ⟨e | estimated, cursor⟩
      · exact .throw _ _
      · exact .pure rfl

/-- The same state of an index that is rebuilt. -/
def Indexed (z : Zone) (L : Link) (state state' : IndexWriter × Histogram) : Prop :=
  state.1.Linked z L state'.1 ∧ state.2 = state'.2

theorem tandem_indexRows (partitioner : Partitioner) (headers : List RowHeader)
    {state state' : IndexWriter × Histogram} (h : Indexed z L state state') :
    Work.Tandem z L (Indexed z) (indexRows partitioner headers state) (indexRows partitioner headers state') := by
  refine .foldlM h fun header _ L₁ a b hab => ?_
  refine (IndexWriter.tandem_add hab.1 _ _).bind fun L₂ index index' _ hindex => .pure ⟨hindex, ?_⟩
  dsimp only
  rw [hab.2]

theorem tandem_rebuild (hd : z.Owns d) (partitioner : Partitioner) (config : Config) :
    Action.Tandem z L (fun _ _ _ => True) (rebuild partitioner config d) (rebuild partitioner config d) := by
  unfold rebuild
  rcases config.validate with e | u
  · exact .throw _ _
  refine (Action.tandem_find (Zone.covers_pathOf hd .data)).op.bind fun L₁ n n' _ hnode => ?_
  refine (tandem_estimateOpen _ hnode).bind fun L₂ estimate estimate' hle hestimate => ?_
  subst hestimate
  obtain ⟨estimated, position⟩ := estimate
  refine (Action.tandem_contents (hnode.mono hle)).op.bind fun L₃ bytes bytes' _ hbytes => ?_
  subst hbytes
  refine (IndexWriter.tandem_create hd estimated config).bind fun L₄ index index' _ hindex => ?_
  dsimp only
  rcases (Scanner.start d.lengthWidth bytes).headers with ⟨headers, failure⟩
  have hstart : Indexed z L₄ (index, .rowSizes) (index', .rowSizes) := ⟨hindex, rfl⟩
  refine (Action.Tandem.lift (tandem_indexRows partitioner headers hstart)).bind fun L₅ state state' _ hstate => ?_
  obtain ⟨index, rowSizes⟩ := state
  obtain ⟨index', rowSizes'⟩ := state'
  obtain ⟨hindex, hsizes⟩ := hstate
  dsimp only at hindex hsizes ⊢
  subst hsizes
  have hclose : Action.Tandem z L₅ (fun _ _ _ => True)
      (index.close >>= fun _ => writeStatistics d rowSizes .columnCounts)
      (index'.close >>= fun _ => writeStatistics d rowSizes .columnCounts) :=
    (IndexWriter.tandem_close hindex).bind fun _ _ _ _ _ => Descriptor.tandem_writeStatistics hd _ _
  have hdrop := Action.Tandem.lift (ε := TableError) (IndexWriter.tandem_drop hindex)
  rcases failure with - | e
  · exact hclose
  · cases e with
    | truncatedRow position => exact hclose
    | _ => exact hdrop.bind fun _ _ _ _ _ => .throw _ _

theorem tandem_statisticsReadable (hd : z.Owns d) :
    Action.Tandem z L (fun _ => (· = ·)) (statisticsReadable d) (statisticsReadable d) := by
  refine .get fun v w hmirrors => ?_
  rw [hmirrors.read (Zone.covers_pathOf hd .statistics)]
  split
  · exact .pure rfl
  · exact .pure rfl
  · exact .pure rfl
  · exact .throw _ _

theorem tandem_auxiliaryIntact (hd : z.Owns d) :
    Action.Tandem z L (fun _ => (· = ·)) (auxiliaryIntact d) (auxiliaryIntact d) := by
  refine .get fun v w hmirrors => ?_
  dsimp only
  rw [hmirrors.existsAt (Zone.covers_pathOf hd .primaryIndex), hmirrors.existsAt (Zone.covers_pathOf hd .filter),
    hmirrors.read (Zone.covers_pathOf hd .primaryIndex), hmirrors.read (Zone.covers_pathOf hd .data)]
  refine .ite (fun _ => ?_) fun _ => .pure rfl
  refine (tandem_statisticsReadable hd).bind fun L' readable readable' _ hreadable => ?_
  subst hreadable
  refine .ite (fun _ => ?_) fun _ => .pure rfl
  split
  · exact .pure rfl
  · exact .throw _ _
  · split
    · exact .pure rfl
    · split
      · exact .pure rfl
      · exact .throw _ _
      · exact .pure rfl

theorem tandem_removeIfThere {path : Path} (hpath : z.Covers path) :
    Action.Tandem z L (fun _ _ _ => True) (removeIfThere path) (removeIfThere path) :=
  (Action.tandem_remove hpath).tryCatch fun _ _ _ => .ite (fun _ => .pure trivial) fun _ => .throw _ _

theorem tandem_recoverAndOpen (hd : z.Owns d) (metadata : TableMetadata) (partitioner : Partitioner) (config : Config)
    (age : Nat) :
    Action.Tandem z L (Reader.Linked z)
      (recoverAndOpen d (rebuild partitioner config) metadata partitioner config age)
      (recoverAndOpen d (rebuild partitioner config) metadata partitioner config age) := by
  unfold recoverAndOpen
  refine .ite (fun _ => ?_) fun _ => .throw _ _
  refine .get fun v w hmirrors => ?_
  dsimp only
  rw [hmirrors.existsAt (Zone.covers_pathOf hd .data), hmirrors.existsAt (Zone.covers_pathOf hd.published .data)]
  refine .ite (fun _ => Reader.tandem_openTable hd.published metadata partitioner config age) fun _ => ?_
  refine (tandem_auxiliaryIntact hd).bind fun L₁ intact intact' _ hintact => ?_
  subst hintact
  have hpublish : ∀ L, Action.Tandem z L (Reader.Linked z)
      (d.publish Component.all >>= fun published => Reader.openTable published metadata partitioner config age)
      (d.publish Component.all >>= fun published => Reader.openTable published metadata partitioner config age) := by
    refine fun L => (Descriptor.tandem_publish hd _).bind fun L' published published' _ hpublished => ?_
    obtain ⟨rfl, hpublished⟩ := hpublished
    exact Reader.tandem_openTable hpublished metadata partitioner config age
  refine .ite (fun _ => hpublish L₁) fun _ => ?_
  refine (Action.Tandem.forIn fun c _ L' _ => ?_).bind fun L₂ _ _ _ _ => ?_
  · exact (tandem_removeIfThere (Zone.covers_pathOf hd c)).op.bind fun _ _ _ _ _ => .pure rfl
  · exact (tandem_rebuild hd partitioner config).bind fun L₃ _ _ _ _ => hpublish L₃

end Recovery

/-- The same readers under the same generations. -/
def Reader.AllLinked (z : Zone) (L : Link) (tables tables' : SortedMap Nat Reader) : Prop :=
  List.Forall₂ (fun e e' => e.1 = e'.1 ∧ e.2.Linked z L e'.2) tables.entries tables'.entries

namespace Reader.AllLinked

variable {tables tables' : SortedMap Nat Reader} {r r' : Reader}

theorem mono (h : AllLinked z L tables tables') (hle : L ≤ L') : AllLinked z L' tables tables' :=
  List.Forall₂.imp (fun _ _ he => ⟨he.1, he.2.mono hle⟩) h

theorem insert (h : AllLinked z L tables tables') (generation : Nat) (hr : r.Linked z L r') :
    AllLinked z L (tables.insert generation r) (tables'.insert generation r') := by
  unfold AllLinked SortedMap.insert at *
  dsimp only
  generalize tables.entries = entries, tables'.entries = entries' at h ⊢
  induction h with
  | nil => exact .cons ⟨rfl, hr⟩ .nil
  | @cons e e' rest rest' he hrest ih =>
      unfold SortedMap.insertEntry
      rw [← he.1]
      split
      · exact .cons ⟨rfl, hr⟩ hrest
      · split
        · exact .cons ⟨rfl, hr⟩ (.cons he hrest)
        · exact .cons he ih

theorem get? (h : AllLinked z L tables tables') (generation : Nat) :
    Option.Rel (Reader.Linked z L) (tables.get? generation) (tables'.get? generation) := by
  unfold AllLinked SortedMap.get? at *
  generalize tables.entries = entries, tables'.entries = entries' at h ⊢
  induction h with
  | nil => exact .none
  | @cons e e' rest rest' he hrest ih =>
      unfold SortedMap.lookup
      rw [← he.1]
      split
      · exact .some he.2
      · exact ih

end Reader.AllLinked

/-- The directory is there already. -/
theorem Action.tandem_makeDirectories (z : Zone) (L : Link) :
    Action.Tandem z L (fun _ _ _ => True) (Action.makeDirectories z.dir) (Action.makeDirectories z.dir) := by
  refine .of_runs fun v w hmirrors => ?_
  obtain ⟨names, hlist⟩ := hmirrors.sound.lists
  obtain ⟨names', hlist'⟩ := hmirrors.sound'.lists
  exact ⟨L, _, _, _, _, Action.on_makeDirectories_of_list hlist, Action.on_makeDirectories_of_list hlist',
    .refl z L v.disk, hmirrors, .ok trivial⟩

namespace Store

/-- The same state of a store of the zone, up to the numbers of its files. -/
structure Linked (z : Zone) (L : Link) (s s' : Store) : Prop where
  dir : s.dir = z.dir
  table : s.metadata.name = z.table
  eq : ∃ tables writer, Reader.AllLinked z L s.tables tables ∧ Option.Rel (Writer.Linked z L) s.writer writer ∧
    s' = { s with tables, writer }

variable {s s' : Store} {now : Nat}

theorem Linked.mono (h : s.Linked z L s') (hle : L ≤ L') : s.Linked z L' s' := by
  obtain ⟨tables, writer, htables, hwriter, hs'⟩ := h.eq
  exact ⟨h.dir, h.table, tables, writer, htables.mono hle, Option.Rel.mono (fun _ _ hw => hw.mono hle) hwriter, hs'⟩

theorem Linked.insert (h : s.Linked z L s') (generation : Nat) {r r' : Reader} (hr : r.Linked z L r') :
    Linked z L { s with tables := s.tables.insert generation r }
      { s' with tables := s'.tables.insert generation r' } := by
  obtain ⟨hdir, htable, tables, writer, htables, hwriter, rfl⟩ := h
  exact ⟨hdir, htable, _, writer, htables.insert generation hr, hwriter, rfl⟩

theorem Linked.with_writer (h : s.Linked z L s') {writer writer' : Option Writer}
    (hwriter : Option.Rel (Writer.Linked z L) writer writer') :
    Linked z L { s with writer } { s' with writer := writer' } := by
  obtain ⟨hdir, htable, tables, old, htables, -, rfl⟩ := h
  exact ⟨hdir, htable, tables, writer', htables, hwriter, rfl⟩

theorem Linked.with_next (h : s.Linked z L s') (nextGeneration : Nat) :
    Linked z L { s with nextGeneration } { s' with nextGeneration } := by
  obtain ⟨hdir, htable, tables, writer, htables, hwriter, rfl⟩ := h
  exact ⟨hdir, htable, tables, writer, htables, hwriter, rfl⟩

theorem Linked.writer (h : s.Linked z L s') : Option.Rel (Writer.Linked z L) s.writer s'.writer := by
  obtain ⟨-, -, tables, writer, -, hwriter, rfl⟩ := h
  exact hwriter

theorem Linked.table? (h : s.Linked z L s') (generation : Nat) :
    Option.Rel (Reader.Linked z L) (s.table? generation) (s'.table? generation) := by
  obtain ⟨-, -, tables, writer, htables, -, rfl⟩ := h
  exact htables.get? generation

/-- Other files in the directory are passed over. -/
theorem tandem_listFiles (h : s.Linked z L s') :
    Action.Tandem z L (fun _ files files' => files = files' ∧ ∀ f ∈ files, z.Owns f.descriptor) s.listFiles
      s'.listFiles := by
  obtain ⟨hdir, htable, tables, writer, -, -, rfl⟩ := h
  refine .of_runs fun v w hmirrors => ?_
  have hlists : ∀ {d : Disk}, d.Sound z.dir → d.list s.dir = .ok (d.namesIn z.dir.home) := by
    intro d hsound
    obtain ⟨names, hlist⟩ := hsound.lists
    obtain ⟨-, -, -, rfl⟩ := list_eq_ok hlist
    rw [hdir]
    exact hlist
  refine ⟨L, _, _, _, _, on_listFiles (hlists hmirrors.sound),
    on_listFiles (s := { s with tables, writer }) (hlists hmirrors.sound'), .refl z L v.disk, hmirrors, .ok ⟨?_, ?_⟩⟩
  · exact hmirrors.filesAmong hdir htable
  · intro f hf
    obtain ⟨name, hname, hpath, hnamed⟩ := mem_filesAmong.mp hf
    rw [hdir] at hpath
    have hproper := hmirrors.sound.proper name (mem_namesIn_iff.mp hname)
    exact (Zone.owns_of_ofPath? hproper hpath (hnamed.trans htable)).1

theorem tandem_openFound (h : s.Linked z L s') {f : Found} (hf : z.Owns f.descriptor) :
    Action.Tandem z L (Linked z) (s.openFound now f) (s'.openFound now f) := by
  obtain ⟨hdir, htable, tables, writer, htables, hwriter, rfl⟩ := h
  refine .ite (fun _ => ?_) fun _ => .pure ⟨hdir, htable, tables, writer, htables, hwriter, rfl⟩
  refine ((Reader.tandem_openTable hf _ _ _ _).mapError _).bind fun L' r r' hle hr => .pure ?_
  exact ⟨hdir, htable, _, writer, (htables.mono hle).insert _ hr, Option.Rel.mono (fun _ _ hw => hw.mono hle) hwriter,
    rfl⟩

theorem tandem_openAll (z : Zone) (L : Link) (partitioner : Partitioner) (config : Config) (now : Nat) :
    Action.Tandem z L (Linked z) (openAll z.dir z.table partitioner config now)
      (openAll z.dir z.table partitioner config now) := by
  unfold openAll
  rcases hstart : start z.dir z.table partitioner config with e | s
  · exact .throw _ _
  obtain ⟨-, -, rfl⟩ := (Site.start_eq_ok_iff (a := ⟨z.dir, z.table, partitioner, config⟩)).mp hstart
  have hs : ∀ L, (Site.store ⟨z.dir, z.table, partitioner, config⟩).Linked z L
      (Site.store ⟨z.dir, z.table, partitioner, config⟩) :=
    fun L => ⟨rfl, rfl, .empty, none, List.Forall₂.nil, .none, rfl⟩
  refine ((Action.tandem_makeDirectories z L).mapError _).bind fun L₁ _ _ _ _ => ?_
  refine (tandem_listFiles (hs L₁)).bind fun L₂ files files' _ hfiles => ?_
  obtain ⟨rfl, howns⟩ := hfiles
  exact .foldlM (hs L₂) fun f hf L a b hab => tandem_openFound hab (howns f hf)

/-- The writer at hand is in the same state, or one is made in the same way. -/
theorem tandem_takeWriter (h : s.Linked z L s') :
    Work.Tandem z L (fun L' r r' => Except.Related (Writer.Linked z L') r.1 r'.1 ∧ r.2.Linked z L' r'.2) s.takeWriter
      s'.takeWriter := by
  obtain ⟨hdir, htable, tables, writer, htables, hwriter, rfl⟩ := h
  have hs : Linked z L s { s with tables, writer } := ⟨hdir, htable, tables, writer, htables, hwriter, rfl⟩
  rcases Option.Rel.elim hwriter with ⟨hnone, rfl⟩ | ⟨w, w', hw, rfl, hww⟩
  · unfold takeWriter
    rw [hnone]
    have hd : z.Owns s.nextDescriptor := by
      rw [nextDescriptor, hdir, htable]
      exact z.owns_current _ _ _
    refine Work.Tandem.bind (Writer.tandem_create hd expectedKeys s.metadata s.partitioner s.config)
      fun L' r r' hle hr => .pure ⟨?_, ((hs.mono hle).with_writer .none).with_next _⟩
    cases hr with
    | error e => exact .error _
    | ok hw => exact .ok hw
  · unfold takeWriter
    rw [hw]
    exact .pure ⟨.ok hww, hs⟩

theorem tandem_append (h : s.Linked z L s') (key value : Bytes) (timestamp : Int64) :
    Work.Tandem z L (fun L' r r' => r.1 = r'.1 ∧ r.2.Linked z L' r'.2) (s.append key value timestamp)
      (s'.append key value timestamp) := by
  refine (tandem_takeWriter h).bind fun L₁ taken taken' _ htaken => ?_
  obtain ⟨result, s⟩ := taken
  obtain ⟨result', s'⟩ := taken'
  obtain ⟨hresult, hs⟩ := htaken
  cases hresult with
  | error e => exact .pure ⟨rfl, hs⟩
  | ok hw =>
      have hkey : s'.partitioner.decorate key = s.partitioner.decorate key := by
        obtain ⟨-, -, tables, writer, -, -, rfl⟩ := hs
        rfl
      dsimp only
      rw [hkey]
      refine (Writer.tandem_append hw _ _).bind fun L₂ appended appended' hle happended => .pure ⟨?_, ?_⟩
      · rw [happended.1]
      · exact (hs.mono hle).with_writer (.some happended.2)

theorem tandem_flush (h : s.Linked z L s') (now : Nat) :
    Work.Tandem z L (fun L' r r' => Except.Related (Option.Rel (Reader.Linked z L')) r.1 r'.1 ∧ r.2.Linked z L' r'.2)
      (s.flush now) (s'.flush now) := by
  unfold flush
  rcases Option.Rel.elim h.writer with ⟨hnone, hnone'⟩ | ⟨w, w', hw, hw', hww⟩
  · rw [hnone, hnone']
    exact .pure ⟨.ok .none, h⟩
  · rw [hw, hw']
    refine Work.Tandem.bind (Writer.tandem_finish hww now) fun L' finished finished' hle hfinished => ?_
    have hs := (h.mono hle).with_writer .none
    cases hfinished with
    | error e => exact .pure ⟨.error _, hs⟩
    | @ok r r' hr =>
        have hgeneration : r'.descriptor = r.descriptor := by
          obtain ⟨-, index, data, -, -, rfl⟩ := hr
          rfl
        dsimp only
        rw [hgeneration]
        exact .pure ⟨.ok (.some hr), hs.insert _ hr⟩

theorem tandem_abort (h : s.Linked z L s') :
    Work.Tandem z L (fun L' r r' => r.1 = r'.1 ∧ r.2.Linked z L' r'.2) s.abort s'.abort := by
  unfold abort
  rcases Option.Rel.elim h.writer with ⟨hnone, hnone'⟩ | ⟨w, w', hw, hw', hww⟩
  · rw [hnone, hnone']
    exact .pure ⟨rfl, h⟩
  · rw [hw, hw']
    refine (Writer.tandem_drop hww).bind fun L' _ _ hle _ => .pure ⟨?_, (h.mono hle).with_writer .none⟩
    obtain ⟨-, index, data, -, -, rfl⟩ := hww
    rfl

theorem tandem_recoverAll {ds : List Descriptor} (hds : ∀ d ∈ ds, z.Owns d) (h : s.Linked z L s')
    (recovered : List Nat) (now : Nat) :
    Work.Tandem z L (fun L' r r' => r.1 = r'.1 ∧ r.2.Linked z L' r'.2) (recoverAll now ds recovered s)
      (recoverAll now ds recovered s') := by
  induction ds generalizing s s' L recovered with
  | nil => exact .pure ⟨rfl, h⟩
  | cons d rest ih =>
      obtain ⟨hd, hrest⟩ := List.forall_mem_cons.mp hds
      obtain ⟨hdir, htable, tables, writer, htables, hwriter, rfl⟩ := h
      have hs : Linked z L s { s with tables, writer } := ⟨hdir, htable, tables, writer, htables, hwriter, rfl⟩
      refine Work.Tandem.bind (Recovery.tandem_recoverAndOpen hd s.metadata s.partitioner s.config now)
        fun L' result result' hle hresult => ?_
      cases hresult with
      | error e => exact .pure ⟨rfl, hs.mono hle⟩
      | ok hr => exact ih hrest ((hs.mono hle).insert _ hr) _

theorem Linked.unfinished (h : s.Linked z L s') (files : List Found) : s.unfinished files = s'.unfinished files := by
  have hwriting :
      (s.writer.map fun w => w.descriptor.generation) = s'.writer.map fun w => w.descriptor.generation := by
    rcases Option.Rel.elim h.writer with ⟨hnone, hnone'⟩ | ⟨w, w', hw, hw', hww⟩
    · rw [hnone, hnone']
    · obtain ⟨-, index, data, -, -, rfl⟩ := hww
      rw [hw, hw']
      rfl
  rw [Store.unfinished, Store.unfinished, hwriting]

theorem tandem_recover (h : s.Linked z L s') (now : Nat) :
    Work.Tandem z L (fun L' r r' => r.1 = r'.1 ∧ r.2.Linked z L' r'.2) (s.recover now) (s'.recover now) := by
  refine Work.Tandem.bind (tandem_listFiles h) fun L' result result' hle hresult => ?_
  cases hresult with
  | error e => exact .pure ⟨rfl, h.mono hle⟩
  | @ok files files' hfiles =>
      obtain ⟨rfl, howns⟩ := hfiles
      dsimp only
      rw [h.unfinished files]
      refine tandem_recoverAll (fun d hd => ?_) (h.mono hle) [] now
      obtain ⟨f, hf, rfl⟩ := List.mem_map.mp hd
      exact howns f (List.mem_filter.mp hf).1

theorem tandem_scan (h : s.Linked z L s') (generation : Nat) :
    Action.Tandem z L (fun _ => (· = ·)) (s.scan generation) (s'.scan generation) := by
  unfold scan
  rcases Option.Rel.elim (h.table? generation) with ⟨hnone, hnone'⟩ | ⟨r, r', hr, hr', hrr⟩
  · rw [hnone, hnone']
    exact .throw _ _
  rw [hr, hr']
  obtain ⟨hd, index, data, -, -, rfl⟩ := hrr
  refine ((Reader.tandem_scanTable hd).mapError _).bind fun L₁ scanner scanner' _ hscanner => ?_
  subst hscanner
  dsimp only
  rcases scanner.rows with ⟨rows, failure⟩
  refine (Action.Tandem.ofExcept _).bind fun L₂ values values' _ hvalues => ?_
  subst hvalues
  cases failure with
  | none => exact .pure rfl
  | some e => exact .throw _ _

end Store

end SortedTable
