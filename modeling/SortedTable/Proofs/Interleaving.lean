import SortedTable.Proofs.Lockstep
import SortedTable.Proofs.Shadowing

/-!
# Stores side by side

Any number of stores, one for each table name, work on one directory, and their calls come in any order. What the
calls of one of them give, what they leave of the store, and what the files of its table are in the end, is as if no
other store had been there. Main statements: `Store.Call.tandem_run`, `Store.Apart.call`, `Store.runAll_alone`.
-/

namespace SortedTable

open Descriptor Disk

variable {z : Zone} {L L' K : Link} {d e d' : Disk} {s s' : Store}

/-- Links of different zones do not share files. -/
def Link.Parted (L K : Link) : Prop := ∀ i j k, L i j → ¬ K i k

theorem Link.Parted.symm (h : L.Parted K) : K.Parted L := fun i j k hij hik => h i k j hik hij

/-- Files that are new to a zone are new to all of them. -/
theorem Link.Parted.of_onward (h : L.Parted K) (honward : z.Onward L d L' d')
    (hbound : ∀ i k, K i k → i < d.files.size) : L'.Parted K := by
  intro i j k hij hik
  rcases honward.fresh i j hij with hold | hnew
  · exact h i j k hold hik
  · exact absurd (hbound i k hik) (by omega)

/-- Work in one zone of a directory does not touch another. -/
theorem Zone.Mirrors.of_onward {other : Zone} (h : z.Mirrors K d e) (hother : other.Onward L d L' d')
    (hparted : L.Parted K) (hdir : other.dir = z.dir) (hne : other.table ≠ z.table) : z.Mirrors K d' e := by
  have hnodes : ∀ p, z.Area p → d'.node? p = d.node? p := by
    intro p hp
    refine hother.nodes p fun harea => hne ?_
    rw [Zone.Area, hdir] at harea
    exact harea.eq hp
  refine ⟨fun p hp => ?_, fun i j hij => ?_, h.left, h.right, fun i j hij => ?_, ?_, h.sound'⟩
  · rw [hnodes p hp]
    exact h.nodes p hp
  · rw [hother.others i (h.bound i j hij).1 fun k hik => hparted i k j hik hij]
    exact h.bytes i j hij
  · exact ⟨(h.bound i j hij).1.trans_le hother.size, (h.bound i j hij).2⟩
  · have hsound := h.sound
    rw [← hdir] at hsound ⊢
    exact other.sound_of_nodes hsound hother.nodes

def Segment.unnumbered (s : Segment) : Segment := { s with map := s.map.map fun _ => 0 }

def SegmentedFile.unnumbered (f : SegmentedFile) : SegmentedFile :=
  { f with segments := f.segments.map Segment.unnumbered }

/-- The files that segments are maps of. -/
def SegmentedFile.maps (f : SegmentedFile) : List Nat := f.segments.filterMap (·.map)

/-- A reader without the numbers of its files, and what is in the files. -/
def Reader.seen (disk : Disk) (r : Reader) : Reader × List Bytes :=
  ({ r with index := r.index.unnumbered, data := r.data.unnumbered },
    (r.index.maps ++ r.data.maps).map disk.bytesOf)

/-- A writer without the numbers of its files, and what is in the files. -/
def Writer.seen (disk : Disk) (w : Writer) : Writer × Bytes × Bytes :=
  ({ w with
      index := { w.index with output := { w.index.output with file := 0 } }
      data := { w.data with file := 0 } },
    disk.bytesOf w.index.output.file, disk.bytesOf w.data.file)

/-- A store, its tables and its writer, as far as the numbers of files do not matter. -/
structure Store.Seen where
  settings : Store
  tables : List (Nat × Reader × List Bytes)
  writer : Option (Writer × Bytes × Bytes)

def Store.seen (disk : Disk) (s : Store) : Store.Seen where
  settings := { s with tables := .empty, writer := none }
  tables := s.tables.entries.map fun e => (e.1, e.2.seen disk)
  writer := s.writer.map (·.seen disk)

theorem SegmentedFile.Linked.seen (h : z.Mirrors L d e) {f f' : SegmentedFile} (hf : f.Linked L f') :
    f.unnumbered = f'.unnumbered ∧ f.maps.map d.bytesOf = f'.maps.map e.bytesOf := by
  obtain ⟨segments, hsegments, rfl⟩ := hf
  have hboth : f.segments.map Segment.unnumbered = segments.map Segment.unnumbered ∧
      (f.segments.filterMap (·.map)).map d.bytesOf = (segments.filterMap (·.map)).map e.bytesOf := by
    generalize f.segments = pieces at hsegments ⊢
    induction hsegments with
    | nil => exact ⟨rfl, rfl⟩
    | @cons s s' rest rest' hs hrest ih =>
        obtain ⟨map, hmap, rfl⟩ := hs
        rw [List.map_cons, List.map_cons, List.filterMap_cons, List.filterMap_cons, ih.1]
        unfold Segment.unnumbered
        rcases Option.Rel.elim hmap with ⟨hnone, rfl⟩ | ⟨i, j, hi, rfl, hij⟩
        · rw [hnone]
          exact ⟨rfl, ih.2⟩
        · rw [hi]
          dsimp only
          rw [List.map_cons, List.map_cons, ih.2, h.bytes i j hij]
          exact ⟨rfl, rfl⟩
  unfold unnumbered maps
  exact ⟨by rw [hboth.1], hboth.2⟩

theorem Reader.Linked.seen (h : z.Mirrors L d e) {r r' : Reader} (hr : r.Linked z L r') : r.seen d = r'.seen e := by
  obtain ⟨-, index, data, hindex, hdata, rfl⟩ := hr
  obtain ⟨hindex, hindexBytes⟩ := hindex.seen h
  obtain ⟨hdata, hdataBytes⟩ := hdata.seen h
  unfold Reader.seen
  dsimp only
  rw [List.map_append, List.map_append, hindex, hdata, hindexBytes, hdataBytes]

theorem Writer.Linked.seen (h : z.Mirrors L d e) {w w' : Writer} (hw : w.Linked z L w') : w.seen d = w'.seen e := by
  obtain ⟨-, index, data, hindex, ⟨j, hdata, rfl⟩, rfl⟩ := hw
  obtain ⟨-, output, ⟨i, hoperation, rfl⟩, rfl⟩ := hindex
  unfold Writer.seen
  dsimp only
  rw [h.bytes _ _ hoperation, h.bytes _ _ hdata]

namespace Store

theorem Linked.seen (h : z.Mirrors L d e) (hs : s.Linked z L s') : s.seen d = s'.seen e := by
  obtain ⟨-, -, tables, writer, htables, hwriter, rfl⟩ := hs
  have hseen : (s.tables.entries.map fun e => (e.1, e.2.seen d)) =
      tables.entries.map fun entry => (entry.1, entry.2.seen e) := by
    unfold Reader.AllLinked at htables
    generalize s.tables.entries = entries, tables.entries = entries' at htables ⊢
    induction htables with
    | nil => rfl
    | cons hentry hrest ih => rw [List.map_cons, List.map_cons, ih, hentry.1, hentry.2.seen h]
  have hwriting : s.writer.map (·.seen d) = writer.map (·.seen e) := by
    rcases Option.Rel.elim hwriter with ⟨hnone, rfl⟩ | ⟨w, w', hw, rfl, hww⟩
    · rw [hnone]
      rfl
    · rw [hw, Option.map_some, Option.map_some, hww.seen h]
  unfold Store.seen
  dsimp only
  rw [hseen, hwriting]

/-- What can be asked of a store of a table. -/
inductive Call where
  | open (partitioner : Partitioner) (config : Config) (now : Nat)
  | append (key value : Bytes) (timestamp : Int64)
  | flush (now : Nat)
  | abort
  | recover (now : Nat)
  | scan (generation : Nat)

inductive Answer where
  | closed
  | opened (result : Except StoreError Unit)
  | appended (result : Except StoreError Unit)
  | flushed (result : Except StoreError (Option (Reader × List Bytes)))
  | aborted (given : Option Descriptor)
  | recovered (result : Except StoreError (List Nat))
  | scanned (result : Except StoreError (List (Bytes × Bytes)))

/-- Does what is asked of the store at hand, if there is one. To open a store closes the one at hand. -/
def Call.run (dir : Path) (table : String) : Call → Option Store → Work (Answer × Option Store)
  | .open partitioner config now, s => do
      let _ ← s.elim (pure ()) close
      match ← (openAll dir table partitioner config now).run with
      | .ok s => return (.opened (.ok ()), some s)
      | .error e => return (.opened (.error e), none)
  | _, none => return (.closed, none)
  | .append key value timestamp, some s => do
      let (result, s) ← s.append key value timestamp
      return (.appended result, some s)
  | .flush now, some s => do
      let (result, s) ← s.flush now
      let disk := (← get).disk
      return (.flushed (result.map (·.map (·.seen disk))), some s)
  | .abort, some s => do
      let (given, s) ← s.abort
      return (.aborted given, some s)
  | .recover now, some s => do
      let (result, s) ← s.recover now
      return (.recovered result, some s)
  | .scan generation, some s => do
      let result ← (s.scan generation).run
      return (.scanned result, some s)

/-- What comes of a call: the answer, and what the table's store is then. -/
structure Reply where
  table : String
  answer : Answer
  store : Option Seen

/-- Makes calls of the stores of a directory, one store for each table name. -/
def runAll (dir : Path) : List (String × Call) → (String → Option Store) → Work (List Reply)
  | [], _ => return []
  | (table, call) :: rest, stores => do
      let (answer, s) ← call.run dir table (stores table)
      let disk := (← get).disk
      let replies ← runAll dir rest (Function.update stores table s)
      return ⟨table, answer, s.map (·.seen disk)⟩ :: replies

theorem tandem_close {t t' : Option Store} (h : Option.Rel (Linked z L) t t') :
    Work.Tandem z L (fun _ _ _ => True) (t.elim (pure ()) close) (t'.elim (pure ()) close) := by
  cases h with
  | none => exact .pure trivial
  | some hs => exact (tandem_abort hs).bind fun _ _ _ _ _ => .pure trivial

/-- What a flush gives looks the same on both disks. -/
theorem seen_of_related {x y : Except StoreError (Option Reader)} (h : z.Mirrors L d e)
    (hresult : Except.Related (Option.Rel (Reader.Linked z L)) x y) :
    x.map (·.map (·.seen d)) = y.map (·.map (·.seen e)) := by
  cases hresult with
  | error e => rfl
  | ok hreader =>
      rcases Option.Rel.elim hreader with ⟨rfl, rfl⟩ | ⟨r, r', rfl, rfl, hr⟩
      · rfl
      · change Except.ok (some (r.seen d)) = Except.ok (some (r'.seen e))
        rw [hr.seen h]

theorem Call.tandem_run (call : Call) {t t' : Option Store} (h : Option.Rel (Linked z L) t t') :
    Work.Tandem z L (fun L' r r' => r.1 = r'.1 ∧ Option.Rel (Linked z L') r.2 r'.2) (call.run z.dir z.table t)
      (call.run z.dir z.table t') := by
  cases call with
  | «open» partitioner config now =>
      refine (tandem_close h).bind fun L₁ _ _ _ _ => Work.Tandem.bind (tandem_openAll z L₁ partitioner config now) ?_
      intro L₂ opened opened' _ hopened
      cases hopened with
      | error e => exact .pure ⟨rfl, .none⟩
      | ok hs => exact .pure ⟨rfl, .some hs⟩
  | append key value timestamp =>
      cases h with
      | none => exact .pure ⟨rfl, .none⟩
      | some hs =>
          refine (tandem_append hs key value timestamp).bind fun L' r r' _ hr => .pure ⟨?_, .some hr.2⟩
          rw [hr.1]
  | flush now =>
      cases h with
      | none => exact .pure ⟨rfl, .none⟩
      | some hs =>
          refine (tandem_flush hs now).bind fun L' r r' _ hr => .get fun v w hmirrors => .pure ⟨?_, .some hr.2⟩
          rw [seen_of_related hmirrors hr.1]
  | abort =>
      cases h with
      | none => exact .pure ⟨rfl, .none⟩
      | some hs =>
          refine (tandem_abort hs).bind fun L' r r' _ hr => .pure ⟨?_, .some hr.2⟩
          rw [hr.1]
  | recover now =>
      cases h with
      | none => exact .pure ⟨rfl, .none⟩
      | some hs =>
          refine (tandem_recover hs now).bind fun L' r r' _ hr => .pure ⟨?_, .some hr.2⟩
          rw [hr.1]
  | scan generation =>
      cases h with
      | none => exact .pure ⟨rfl, .none⟩
      | some hs =>
          refine Work.Tandem.bind (tandem_scan hs generation) fun L' r r' hle hr => .pure ⟨?_, .some (hs.mono hle)⟩
          cases hr with
          | error e => rfl
          | ok hrows => rw [hrows]

/-! ### Stores that leave each other alone

Each store is compared with one that works alone on a disk of its own, and whose files have other numbers. A call of
one store keeps the disks of the others in step as long as the numbers of no two stores meet. -/

/-- A store at work in a zone of one disk is in the same state as one on another disk that mirrors the zone. -/
structure Beside (z : Zone) (L : Link) (v : Volume) (t : Option Store) (w : Volume) (t' : Option Store) : Prop where
  mirrors : z.Mirrors L v.disk w.disk
  stores : Option.Rel (Linked z L) t t'

/-- Each of the stores of a directory is in the same state as one that works there alone. -/
structure Apart (dir : Path) (L : String → Link) (v : Volume) (stores : String → Option Store)
    (alone : String → Volume) (lone : String → Option Store) : Prop where
  beside : ∀ z : Zone, z.dir = dir → Beside z (L z.table) v (stores z.table) (alone z.table) (lone z.table)
  parted : ∀ z z' : Zone, z.dir = dir → z'.dir = dir → z.table ≠ z'.table → (L z.table).Parted (L z'.table)

variable {dir : Path} {links : String → Link} {v v' w' : Volume} {stores lone : String → Option Store}
  {alone : String → Volume} {answer answer' : Answer} {t t' : Option Store}

theorem seen_of_rel (h : z.Mirrors L d e) (hstores : Option.Rel (Linked z L) t t') :
    t.map (·.seen d) = t'.map (·.seen e) := by
  rcases Option.Rel.elim hstores with ⟨rfl, rfl⟩ | ⟨s, s', rfl, rfl, hs⟩
  · rfl
  · rw [Option.map_some, Option.map_some, hs.seen h]

/-- A call gives what it gives to the store that works alone, and the others are none the wiser. -/
theorem Apart.call (h : Apart z.dir links v stores alone lone) {call : Call}
    (hrun : Work.on (call.run z.dir z.table (stores z.table)) v = ((answer, t), v'))
    (hrun' : Work.on (call.run z.dir z.table (lone z.table)) (alone z.table) = ((answer', t'), w')) :
    answer = answer' ∧ t.map (·.seen v'.disk) = t'.map (·.seen w'.disk) ∧
      ∃ links', Apart z.dir links' v' (Function.update stores z.table t) (Function.update alone z.table w')
        (Function.update lone z.table t') := by
  have hown := h.beside z rfl
  obtain ⟨L', honward, hmirrors, hanswer, hstores⟩ := call.tandem_run hown.stores v (alone z.table) hown.mirrors
  rw [hrun] at honward hmirrors hanswer hstores
  rw [hrun'] at hmirrors hanswer hstores
  have hparted : ∀ other : Zone, other.dir = z.dir → other.table ≠ z.table → L'.Parted (links other.table) :=
    fun other hdir hne => (h.parted z other rfl hdir hne.symm).of_onward honward fun i k hik =>
      ((h.beside other hdir).mirrors.bound i k hik).1
  refine ⟨hanswer, seen_of_rel hmirrors hstores, Function.update links z.table L', fun other hdir => ?_,
    fun other other' hdir hdir' hne => ?_⟩
  · by_cases htable : other.table = z.table
    · obtain rfl : other = z := Zone.ext hdir htable
      rw [Function.update_self, Function.update_self, Function.update_self, Function.update_self]
      exact ⟨hmirrors, hstores⟩
    · rw [Function.update_of_ne htable, Function.update_of_ne htable, Function.update_of_ne htable,
        Function.update_of_ne htable]
      have hother := h.beside other hdir
      exact ⟨hother.mirrors.of_onward honward (h.parted z other rfl hdir (Ne.symm htable)) hdir.symm (Ne.symm htable),
        hother.stores⟩
  · by_cases htable : other.table = z.table
    · rw [htable] at hne ⊢
      rw [Function.update_self, Function.update_of_ne hne.symm]
      exact hparted other' hdir' hne.symm
    · rw [Function.update_of_ne htable]
      by_cases htable' : other'.table = z.table
      · rw [htable', Function.update_self]
        exact (hparted other hdir htable).symm
      · rw [Function.update_of_ne htable']
        exact h.parted other other' hdir hdir' hne

theorem on_runAll_cons {table : String} {call : Call} {rest : List (String × Call)}
    (hrun : Work.on (call.run dir table (stores table)) v = ((answer, t), v')) :
    Work.on (runAll dir ((table, call) :: rest) stores) v =
      (⟨table, answer, t.map (·.seen v'.disk)⟩ :: (Work.on (runAll dir rest (Function.update stores table t)) v').1,
        (Work.on (runAll dir rest (Function.update stores table t)) v').2) := by
  rw [runAll, Work.on_bind_of hrun]
  rfl

/-- Every call finds its store as it would be without the others. -/
theorem Apart.runAll (h : Apart z.dir links v stores alone lone) {calls : List (String × Call)}
    (hcalls : ∀ c ∈ calls, ∃ other : Zone, other.dir = z.dir ∧ other.table = c.1) (own : String → Option Store)
    (hown : own z.table = lone z.table) :
    (Work.on (Store.runAll z.dir calls stores) v).1.filter (·.table = z.table) =
        (Work.on (Store.runAll z.dir (calls.filter (·.1 = z.table)) own) (alone z.table)).1 ∧
      ∃ L, z.Mirrors L (Work.on (Store.runAll z.dir calls stores) v).2.disk
        (Work.on (Store.runAll z.dir (calls.filter (·.1 = z.table)) own) (alone z.table)).2.disk := by
  induction calls generalizing links v stores alone lone own with
  | nil => exact ⟨rfl, _, (h.beside z rfl).mirrors⟩
  | cons c rest ih =>
      obtain ⟨table, call⟩ := c
      obtain ⟨⟨other, hdir, rfl⟩, hrest⟩ := List.forall_mem_cons.mp hcalls
      rcases hrun : Work.on (call.run z.dir other.table (stores other.table)) v with ⟨⟨answer, t⟩, v'⟩
      rcases hrun' : Work.on (call.run z.dir other.table (lone other.table)) (alone other.table) with
        ⟨⟨answer', t'⟩, w'⟩
      have hnext : answer = answer' ∧ t.map (·.seen v'.disk) = t'.map (·.seen w'.disk) ∧
          ∃ links', Apart z.dir links' v' (Function.update stores other.table t)
            (Function.update alone other.table w') (Function.update lone other.table t') := by
        rw [← hdir] at h hrun hrun' ⊢
        exact h.call hrun hrun'
      obtain ⟨rfl, hseen, links', hnext⟩ := hnext
      rw [on_runAll_cons hrun]
      by_cases htable : other.table = z.table
      -- The store's own call is made where it works alone as well.
      · obtain rfl : other = z := Zone.ext hdir htable
        have halone := ih hnext hrest (Function.update own other.table t')
          (by rw [Function.update_self, Function.update_self])
        rw [Function.update_self] at halone
        rw [← hown] at hrun'
        rw [List.filter_cons_of_pos (by simp), List.filter_cons_of_pos (by simp), on_runAll_cons hrun', hseen]
        exact ⟨congrArg _ halone.1, halone.2⟩
      -- Another store's call is made on its own disk, and there is nothing to do where this one works alone.
      · have halone := ih hnext hrest own (by rw [Function.update_of_ne (Ne.symm htable), hown])
        rw [Function.update_of_ne (Ne.symm htable)] at halone
        rw [List.filter_cons_of_neg (by simpa using htable), List.filter_cons_of_neg (by simpa using htable)]
        exact halone

/-- Every file of a table is the same file. -/
def sameFiles (disk : Disk) (dir : Path) (table : String) : Link :=
  fun i j => i = j ∧ ∃ p, dir.Area table p ∧ disk.node? p = some (.file i)

theorem mirrors_sameFiles (h : v.disk.Sound z.dir) : z.Mirrors (sameFiles v.disk z.dir z.table) v.disk v.disk where
  nodes p hp := by
    rcases hnode : v.disk.node? p with - | n
    · exact .none
    · cases n with
      | directory => exact .some .directory
      | file i => exact .some (.file ⟨rfl, p, hp, hnode⟩)
  bytes i j hij := by rw [hij.1]
  left i j j' hij hij' := hij.1.symm.trans hij'.1
  right i i' j hij hij' := hij.1.trans hij'.1.symm
  bound i j hij := by
    obtain ⟨rfl, p, -, hnode⟩ := hij
    exact ⟨lt_size_of_node? hnode, lt_size_of_node? hnode⟩
  sound := h
  sound' := h

theorem apart_sameFiles (h : v.disk.Sound dir) :
    Apart dir (sameFiles v.disk dir) v (fun _ => none) (fun _ => v) fun _ => none where
  beside := by
    rintro z rfl
    exact ⟨mirrors_sameFiles h, .none⟩
  parted := by
    rintro z z' hz hz' hne i j k ⟨-, p, hp, hnode⟩ ⟨-, q, hq, hnode'⟩
    obtain rfl := place_unique hnode hnode'
    exact hne (hp.eq hq)

section Opening

variable {table : String} {partitioner : Partitioner} {config : Config} {now : Nat}

theorem Call.on_open_ok (hrun : (openAll dir table partitioner config now).on v = (.ok s, v')) :
    Work.on ((Call.open partitioner config now).run dir table none) v = ((.opened (.ok ()), some s), v') := by
  change Work.on (pure () >>= fun _ => (openAll dir table partitioner config now).run >>= _) v = _
  rw [Work.on_bind, Work.on_pure, Work.on_bind_of hrun]
  rfl

theorem Call.on_open_error {e : StoreError}
    (hrun : (openAll dir table partitioner config now).on v = (.error e, v')) :
    Work.on ((Call.open partitioner config now).run dir table none) v = ((.opened (.error e), none), v') := by
  change Work.on (pure () >>= fun _ => (openAll dir table partitioner config now).run >>= _) v = _
  rw [Work.on_bind, Work.on_pure, Work.on_bind_of hrun]
  rfl

theorem Call.on_recover {result : Except StoreError (List Nat)}
    (hrun : Work.on (s.recover now) v = ((result, s'), v')) :
    Work.on ((Call.recover now).run dir table (some s)) v = ((.recovered result, some s'), v') := by
  unfold run
  rw [Work.on_bind_of hrun]
  rfl

/-- A directory that the first store makes might as well have been there. -/
theorem on_openAll_of_made {names : List Bytes} (hmake : (Action.makeDirectories dir).on v = (.ok (), v'))
    (hlist : v'.disk.list dir = .ok names) {s : Store} (hstart : start dir table partitioner config = .ok s) :
    (openAll dir table partitioner config now).on v = (openAll dir table partitioner config now).on v' := by
  have hopen : ∀ {u}, (Action.makeDirectories dir).on u = (.ok (), v') →
      (openAll dir table partitioner config now).on u =
        (s.listFiles >>= fun files => files.foldlM (openFound · now) s).on v' := by
    intro u hmade
    have hmapped : ((Action.makeDirectories dir).mapError fun e =>
        StoreError.during (.creating dir) (.io (.disk e))).on u = (.ok (), v') :=
      Action.on_mapError_eq_ok_iff.mpr hmade
    unfold openAll
    rw [hstart]
    exact Action.on_bind_ok hmapped
  exact (hopen hmake).trans (hopen (Action.on_makeDirectories_of_list hlist)).symm

theorem on_openAll_of_unmade {e : DiskError} (hmake : (Action.makeDirectories dir).on v = (.error e, v')) {s : Store}
    (hstart : start dir table partitioner config = .ok s) :
    (openAll dir table partitioner config now).on v = (.error (.during (.creating dir) (.io (.disk e))), v') := by
  have hmapped : ((Action.makeDirectories dir).mapError fun e =>
      StoreError.during (.creating dir) (.io (.disk e))).on v =
        (.error (.during (.creating dir) (.io (.disk e))), v') := by
    rw [Action.on_mapError, hmake]
    rfl
  unfold openAll
  rw [hstart]
  exact (Action.on_bind_ok (Action.on_pure s v)).trans (Action.on_bind_error hmapped)

end Opening

theorem Call.on_run_none {names : List Bytes} (hmake : (Action.makeDirectories dir).on v = (.ok (), v'))
    (hlist : v'.disk.list dir = .ok names) (table : String) (call : Call) :
    Work.on (call.run dir table none) v = Work.on (call.run dir table none) v' ∨
      ∃ answer, Work.on (call.run dir table none) v = ((answer, none), v) ∧
        Work.on (call.run dir table none) v' = ((answer, none), v') := by
  cases call with
  | «open» partitioner config now =>
      rcases hstart : start dir table partitioner config with e | s
      · have hrefused : ∀ u, (openAll dir table partitioner config now).on u = (.error e, u) := by
          intro u
          unfold openAll
          rw [hstart]
          rfl
        exact .inr ⟨_, on_open_error (hrefused v), on_open_error (hrefused v')⟩
      · have hopen : (openAll dir table partitioner config now).on v =
            (openAll dir table partitioner config now).on v' := on_openAll_of_made hmake hlist hstart
        left
        rcases hrun : (openAll dir table partitioner config now).on v' with ⟨e | s, w⟩
        · rw [on_open_error (hopen.trans hrun), on_open_error hrun]
        · rw [on_open_ok (hopen.trans hrun), on_open_ok hrun]
  | _ => exact .inr ⟨.closed, rfl, rfl⟩

/-- It does not matter whether the directory was there, except for the way to it if no store is ever opened. -/
theorem on_runAll_of_made {names : List Bytes} (hmake : (Action.makeDirectories dir).on v = (.ok (), v'))
    (hlist : v'.disk.list dir = .ok names) (calls : List (String × Call)) :
    (Work.on (runAll dir calls fun _ => none) v).1 = (Work.on (runAll dir calls fun _ => none) v').1 ∧
      ((Work.on (runAll dir calls fun _ => none) v).2 = (Work.on (runAll dir calls fun _ => none) v').2 ∨
        (Work.on (runAll dir calls fun _ => none) v).2 = v ∧
          (Work.on (runAll dir calls fun _ => none) v').2 = v') := by
  induction calls with
  | nil => exact ⟨rfl, .inr ⟨rfl, rfl⟩⟩
  | cons c rest ih =>
      obtain ⟨table, call⟩ := c
      rcases call.on_run_none hmake hlist table with hsame | ⟨answer, hrun, hrun'⟩
      · rcases hrun' : Work.on (call.run dir table none) v' with ⟨⟨answer, t⟩, w⟩
        rw [hrun'] at hsame
        rw [on_runAll_cons hsame, on_runAll_cons hrun']
        exact ⟨rfl, .inl rfl⟩
      · have hnone : Function.update (fun _ : String => (none : Option Store)) table none = fun _ => none :=
          Function.update_eq_self table _
        rw [on_runAll_cons hrun, on_runAll_cons hrun', hnone]
        exact ⟨congrArg (⟨table, answer, none⟩ :: ·) ih.1, ih.2⟩

/-- Stores of different tables in one directory do not interfere. The directory is there or can be made, and the way
to it does not lead through what lies in it under the name of a file of one of the tables. -/
theorem runAll_alone {tables : List String}
    (htables : ∀ table ∈ tables, ValidTable table ∧ ∀ p, dir.Way p → ¬ dir.Area table p)
    (hproper : v.disk.Proper dir) (hmake : (Action.makeDirectories dir).on v = (.ok (), v')) {names : List Bytes}
    (hlist : v'.disk.list dir = .ok names) {calls : List (String × Call)} (hcalls : ∀ c ∈ calls, c.1 ∈ tables)
    {table : String} (htable : table ∈ tables) :
    (Work.on (runAll dir calls fun _ => none) v).1.filter (·.table = table) =
        (Work.on (runAll dir (calls.filter (·.1 = table)) fun _ => none) v).1 ∧
      ∀ p, dir.Area table p → (Work.on (runAll dir calls fun _ => none) v).2.disk.tree p =
        (Work.on (runAll dir (calls.filter (·.1 = table)) fun _ => none) v).2.disk.tree p := by
  have hsound : v'.disk.Sound dir := .of_list hlist ((Action.grows_makeDirectories hmake).proper hproper)
  have hway := Action.within_makeDirectories dir v
  rw [Action.Within, hmake] at hway
  have hclear := (htables table htable).2
  -- Until a store is opened the way to the directory may be missing, but no file of the table is on it.
  have htree : ∀ calls p, dir.Area table p → (Work.on (runAll dir calls fun _ => none) v).2.disk.tree p =
      (Work.on (runAll dir calls fun _ => none) v').2.disk.tree p := by
    intro calls p hp
    rcases (on_runAll_of_made hmake hlist calls).2 with hsame | ⟨hv, hv'⟩
    · rw [hsame]
    · rw [hv, hv', hway.last_of.tree p fun hpasses => hclear p hpasses hp]
  have hzones : ∀ c ∈ calls, ∃ other : Zone, other.dir = dir ∧ other.table = c.1 := by
    intro c hc
    obtain ⟨hvalid, hclear⟩ := htables c.1 (hcalls c hc)
    exact ⟨⟨dir, c.1, hvalid, hclear⟩, rfl, rfl⟩
  obtain ⟨hreplies, L, hmirrors⟩ := Apart.runAll (z := ⟨dir, table, (htables table htable).1, hclear⟩)
    (apart_sameFiles hsound) hzones (fun _ => none) rfl
  refine ⟨?_, fun p hp => ?_⟩
  · rw [(on_runAll_of_made hmake hlist _).1, (on_runAll_of_made hmake hlist _).1]
    exact hreplies
  · calc (Work.on (runAll dir calls fun _ => none) v).2.disk.tree p
        = (Work.on (runAll dir calls fun _ => none) v').2.disk.tree p := htree _ p hp
      _ = (Work.on (runAll dir (calls.filter (·.1 = table)) fun _ => none) v').2.disk.tree p := hmirrors.tree hp
      _ = (Work.on (runAll dir (calls.filter (·.1 = table)) fun _ => none) v).2.disk.tree p := (htree _ p hp).symm

/-- Calls of two stores, one between the other's. -/
def sideCalls : List (String × Call) :=
  [("users", .open .byteOrdered .default 0), ("orders", .open .byteOrdered .default 0),
    ("users", .append [97] [49] 0), ("orders", .append [97] [50] 0), ("users", .flush 0), ("orders", .abort),
    ("users", .scan 1), ("orders", .recover 0), ("orders", .scan 1)]

theorem runAll_alone_users :
    (∀ table ∈ ["users", "orders"], ValidTable table ∧
        ∀ p, usersSite.dir.Way p → ¬ usersSite.dir.Area table p) ∧
      Volume.new.disk.Proper usersSite.dir ∧ (Action.makeDirectories usersSite.dir).on .new = (.ok (), usersVolume) ∧
      usersVolume.disk.list usersSite.dir = .ok [] ∧ (∀ c ∈ sideCalls, c.1 ∈ ["users", "orders"]) ∧
      (Work.on (runAll usersSite.dir sideCalls fun _ => none) .new).1.filter (·.table = "orders") =
        (Work.on (runAll usersSite.dir (sideCalls.filter (·.1 = "orders")) fun _ => none) .new).1 ∧
      ∀ p, usersSite.dir.Area "orders" p →
        (Work.on (runAll usersSite.dir sideCalls fun _ => none) .new).2.disk.tree p =
          (Work.on (runAll usersSite.dir (sideCalls.filter (·.1 = "orders")) fun _ => none) .new).2.disk.tree p := by
  have hvalid : ∀ table ∈ ["users", "orders"], ValidTable table := by decide
  have hdown : ∀ piece ∈ usersSite.dir.leading, Path.isParent piece = false := by decide +kernel
  have htables : ∀ table ∈ ["users", "orders"], ValidTable table ∧
      ∀ p, usersSite.dir.Way p → ¬ usersSite.dir.Area table p :=
    fun table htable => ⟨hvalid table htable, fun p hp => hp.not_area hdown⟩
  have hproper : Volume.new.disk.Proper usersSite.dir := fun _ hpresent => absurd rfl hpresent
  have hmake : (Action.makeDirectories usersSite.dir).on .new = (.ok (), usersVolume) := rfl
  have hlist : usersVolume.disk.list usersSite.dir = .ok [] := rfl
  have hcalls : ∀ c ∈ sideCalls, c.1 ∈ ["users", "orders"] := by
    simp [sideCalls]
  exact ⟨htables, hproper, hmake, hlist, hcalls, runAll_alone htables hproper hmake hlist hcalls (by simp)⟩

/-! ### Ways through the files of a table

The path of a directory can lead through the name of a table's file, and it can be one that is never made. In both
cases what one store has left on the way is met by the next, which has another table. -/

/-- The calls of one store do not give what they give without the others. -/
def Disturbed (dir : Path) (v : Volume) (calls : List (String × Call)) (table : String) : Prop :=
  (Work.on (runAll dir calls fun _ => none) v).1.filter (·.table = table) ≠
    (Work.on (runAll dir (calls.filter (·.1 = table)) fun _ => none) v).1

/-- A way into the place of a table's filter and back. -/
def strayDir : Path := ((usersSite.slot 0).pathOf .filter).join ⟨[Path.point, Path.point]⟩

def straySite (table : String) : Site := ⟨strayDir, table, .byteOrdered, .default⟩

def strayTable : Descriptor := (straySite "users").slot 0

/-- The table is closed and has no rows, and its filter is missing. -/
def strayVolume : Volume :=
  let place := (usersSite.slot 0).place
  let disk := ((Disk.empty.addDirectory usersSite.dir.home).addFile (place .data)).addFile (place .primaryIndex)
  ⟨(disk.addFile (place .statistics)).setContents disk.files.size
    (.ofBytes (Reader.encodeStatistics (.empty [1]) (.empty [1]))), []⟩

/-- The way is made, and looks like the filter. -/
def strayMade : Volume := strayVolume.step (strayVolume.disk.addDirectory ((usersSite.slot 0).place .filter))

theorem makeDirectories_stray : (Action.makeDirectories strayDir).on strayVolume = (.ok (), strayMade) := rfl

def strayNames : List Bytes := [.data, .filter, .primaryIndex, .statistics].map strayTable.nameOf

theorem list_stray : strayMade.disk.list strayDir = .ok strayNames := by decide +kernel

theorem valid_stray : strayTable.Valid := ⟨by decide, rfl⟩

theorem ofPath?_stray (c : Component) : ofPath? (strayDir.join ⟨strayTable.nameOf c⟩) = some (strayTable, c) := by
  have hparent : (strayTable.pathOf c).parent? = some strayDir := by
    cases c <;> decide +kernel
  exact ofPath?_of_parent? (d := strayTable) valid_stray.named (by decide) hparent

theorem mem_filesAmong_stray {s : Store} (hdir : s.dir = strayDir) {f : Found} :
    f ∈ s.filesAmong strayNames ↔ f.descriptor = strayTable ∧ s.metadata.name = "users" := by
  rw [mem_filesAmong, hdir]
  constructor
  · rintro ⟨name, hname, hpath, htable⟩
    obtain ⟨c, -, rfl⟩ := List.mem_map.mp hname
    rw [ofPath?_stray] at hpath
    obtain ⟨hd, -⟩ := Prod.mk.inj (Option.some.inj hpath)
    rw [← hd] at htable
    exact ⟨hd.symm, htable.symm⟩
  · rintro ⟨hd, htable⟩
    refine ⟨strayTable.nameOf f.component, List.mem_map_of_mem ?_, ?_, ?_⟩
    · cases f.component <;> decide
    · rw [ofPath?_stray, hd]
    · rw [hd, htable]
      rfl

theorem on_openAll_stray {table : String} (htable : ValidTable table) {v : Volume}
    (hmake : (Action.makeDirectories strayDir).on v = (.ok (), strayMade)) :
    ∃ s, (openAll strayDir table .byteOrdered .default 0).on v = (.ok s, strayMade) ∧ s.dir = strayDir ∧
      s.metadata.name = table ∧ s.writer = none := by
  have hopenable : (straySite table).store.Openable 0 ((straySite table).store.filesAmong strayNames) strayMade := by
    intro f hf hpublishes
    obtain ⟨hd, -⟩ := (mem_filesAmong_stray rfl).mp hf
    have htemporary : f.descriptor.temporary = true := by
      rw [hd]
      rfl
    simp [Found.publishes, htemporary] at hpublishes
  obtain ⟨s, hfold⟩ := exists_foldlM_openFound_iff.mpr hopenable
  obtain ⟨-, tables, next, rfl, -⟩ := foldlM_openFound_eq_ok hfold
  refine ⟨{ (straySite table).store with tables, nextGeneration := next }, ?_, rfl, rfl, rfl⟩
  have hconfig : Config.default.validate = .ok () := rfl
  have hopened : (openListed id strayDir table .byteOrdered .default 0).on v = (.ok _, strayMade) :=
    (openListed_eq_ok_iff (a := straySite table)).mpr ⟨hconfig, htable, hmake, strayNames, list_stray, hfold⟩
  rw [openListed_id] at hopened
  exact hopened

theorem on_auxiliaryIntact_stray :
    (Recovery.auxiliaryIntact strayTable).on strayMade = (.ok true, strayMade) := by
  have hthere : (strayMade.disk.existsAt (strayTable.pathOf .primaryIndex) &&
      strayMade.disk.existsAt (strayTable.pathOf .filter)) = true := rfl
  have hstatistics : (Recovery.statisticsReadable strayTable).on strayMade = (.ok true, strayMade) :=
    rfl
  have hindex : strayMade.disk.read (strayTable.pathOf .primaryIndex) = .ok [] := rfl
  have hdata : strayMade.disk.read (strayTable.pathOf .data) = .ok [] := rfl
  unfold Recovery.auxiliaryIntact
  rw [Action.on_bind_ok (Action.on_get _)]
  dsimp only
  rw [hthere, hindex, hdata, if_pos rfl, Action.on_bind_ok hstatistics, if_pos rfl]
  dsimp only
  rw [Record.readIndex_nil]
  rfl

/-- The recovery takes the table's filter for complete, and moves away what the path leads through. -/
theorem on_recoverAndOpen_stray (processor : RecoveryProcessor) (metadata : TableMetadata) (partitioner : Partitioner)
    (config : Config) :
    ∃ e v, (Recovery.recoverAndOpen strayTable processor metadata partitioner config 0).on strayMade =
      (.error e, v) ∧ v.disk.list strayDir = .error .notFound := by
  have hhosts : strayMade.disk.Hosts strayTable := by
    intro c
    cases c <;> exact ⟨_, rfl, rfl, rfl, rfl⟩
  obtain ⟨e, v, hpublish, hlost⟩ : ∃ e v, (strayTable.publish Component.all).on strayMade =
      (.error e, v) ∧ v.disk.list strayDir = .error .notFound := ⟨_, _, rfl, by decide +kernel⟩
  refine ⟨e, v, ?_, hlost⟩
  rw [Recovery.on_recoverAndOpen_intact valid_stray hhosts (.inl rfl) on_auxiliaryIntact_stray]
  exact Action.on_bind_error hpublish

theorem on_recover_stray {s : Store} (hdir : s.dir = strayDir) (htable : s.metadata.name = "users")
    (hwriter : s.writer = none) :
    ∃ e v, Work.on (s.recover 0) strayMade = ((.error e, s), v) ∧ v.disk.list strayDir = .error .notFound := by
  have hfiles : s.listFiles.on strayMade = (.ok (s.filesAmong strayNames), strayMade) :=
    on_listFiles (by rw [hdir, list_stray])
  have hunfinished : ∀ d, d ∈ s.unfinished (s.filesAmong strayNames) ↔ d = strayTable := by
    intro d
    rw [unfinished, hwriter, List.mem_map]
    constructor
    · rintro ⟨f, hf, rfl⟩
      exact ((mem_filesAmong_stray hdir).mp (List.mem_filter.mp hf).1).1
    · rintro rfl
      refine ⟨⟨strayTable, .data⟩, List.mem_filter.mpr ⟨?_, rfl⟩, rfl⟩
      exact (mem_filesAmong_stray hdir).mpr ⟨rfl, htable⟩
  obtain ⟨e, v, hrecover, hlost⟩ := on_recoverAndOpen_stray (Recovery.rebuild s.partitioner s.config) s.metadata
    s.partitioner s.config
  refine ⟨.during (.recovering strayTable) (.table e), v, ?_, hlost⟩
  rw [on_recover_of_listed hfiles]
  rcases hds : s.unfinished (s.filesAmong strayNames) with - | ⟨d, rest⟩
  · have hmem := (hunfinished _).mpr rfl
    rw [hds] at hmem
    exact absurd hmem List.not_mem_nil
  · obtain rfl := (hunfinished d).mp (by rw [hds]; exact List.mem_cons_self)
    exact on_recoverAll_cons_error hrecover

theorem proper_stray : strayVolume.disk.Proper strayDir := by
  intro name hname
  have hmade : strayMade.disk.tree (strayDir.home ++ [name]) ≠ none := by
    rw [(Action.grows_makeDirectories makeDirectories_stray).keeps _ hname]
    exact hname
  obtain ⟨-, -, -, hnames⟩ := list_eq_ok list_stray
  have hmem := mem_namesIn_iff.mpr hmade
  rw [← hnames] at hmem
  obtain ⟨c, -, rfl⟩ := List.mem_map.mp hmem
  exact valid_stray.named.fileName_nameOf c

def strayCalls : List (String × Call) :=
  [("orders", .open .byteOrdered .default 0), ("users", .open .byteOrdered .default 0), ("users", .recover 0),
    ("orders", .recover 0)]

/-- What the recovery of one store moves away is on the way to the directory, which the other store does not find any
more. -/
theorem disturbed_stray : Disturbed strayDir strayVolume strayCalls "orders" := by
  intro heq
  have horders : ValidTable "orders" := by decide
  obtain ⟨s, hopen, hdir, hname, -⟩ := on_openAll_stray horders makeDirectories_stray
  obtain ⟨s', hopen', hdir', hname', hwriter'⟩ :=
    on_openAll_stray valid_stray.validTable (Action.on_makeDirectories_of_list list_stray)
  obtain ⟨e, v, hrecover, hlost⟩ := on_recover_stray hdir' hname' hwriter'
  have hmoved : Work.on (s.recover 0) v = ((.error (.io (.disk .notFound)), s), v) :=
    Work.on_bind_of (on_listFiles_error (by rw [hdir, hlost]))
  have halone : Work.on (s.recover 0) strayMade = ((.ok [], s), strayMade) := by
    have hfiles : s.filesAmong strayNames = [] := by
      refine List.eq_nil_iff_forall_not_mem.mpr fun f hf => ?_
      obtain ⟨-, htable⟩ := (mem_filesAmong_stray hdir).mp hf
      exact absurd (hname.symm.trans htable) (by decide)
    rw [on_recover_of_listed (on_listFiles (by rw [hdir, list_stray])), hfiles]
    rfl
  have hown : strayCalls.filter (·.1 = "orders") =
      [("orders", .open .byteOrdered .default 0), ("orders", .recover 0)] := rfl
  have hanswers := congrArg (List.map Reply.answer) heq
  rw [hown, on_runAll_cons (Call.on_open_ok hopen), on_runAll_cons (Call.on_recover halone), strayCalls,
    on_runAll_cons (Call.on_open_ok hopen), on_runAll_cons (Call.on_open_ok hopen'),
    on_runAll_cons (Call.on_recover hrecover), on_runAll_cons (Call.on_recover hmoved)] at hanswers
  cases hanswers

/-- A way that ends below a file, and begins with a directory to make. -/
def blockedDir : Path :=
  ((Path.ofString "new/..").join ((usersSite.slot 0).pathOf .data)).join (Path.ofString "below")

def blockedCalls : List (String × Call) :=
  [("orders", .open .byteOrdered .default 0), ("users", .open .byteOrdered .default 0)]

/-- The directory cannot be made, but the second attempt comes further. -/
theorem disturbed_blocked : Disturbed blockedDir strayVolume blockedCalls "users" := by
  intro heq
  obtain ⟨v, hfirst, hsecond⟩ : ∃ v, (Action.makeDirectories blockedDir).on strayVolume = (.error .alreadyExists, v) ∧
      (Action.makeDirectories blockedDir).on v = (.error .notADirectory, v) := ⟨_, rfl, rfl⟩
  have hconfig : Config.default.validate = .ok () := rfl
  have hstart : ∀ {table}, ValidTable table →
      start blockedDir table .byteOrdered .default = .ok (Site.store ⟨blockedDir, table, .byteOrdered, .default⟩) :=
    fun {table} htable => (Site.start_eq_ok_iff (a := ⟨blockedDir, table, .byteOrdered, .default⟩)).mpr
      ⟨hconfig, htable, rfl⟩
  have husers : ValidTable "users" := valid_stray.validTable
  have horders : ValidTable "orders" := by decide
  have hown : blockedCalls.filter (·.1 = "users") = [("users", .open .byteOrdered .default 0)] := rfl
  have hanswers := congrArg (List.map Reply.answer) heq
  rw [hown, on_runAll_cons (Call.on_open_error (on_openAll_of_unmade hfirst (hstart husers))), blockedCalls,
    on_runAll_cons (Call.on_open_error (on_openAll_of_unmade hfirst (hstart horders))),
    on_runAll_cons (Call.on_open_error (on_openAll_of_unmade hsecond (hstart husers)))] at hanswers
  cases hanswers

/-- Stores of different tables can disturb each other if the way to the directory leads through what lies there under
the name of a file of a table, and if the directory cannot be made. -/
theorem stores_disturbed :
    ValidTable "users" ∧ ValidTable "orders" ∧ strayVolume.disk.Proper strayDir ∧
      (Action.makeDirectories strayDir).on strayVolume = (.ok (), strayMade) ∧
      strayMade.disk.list strayDir = .ok strayNames ∧ Disturbed strayDir strayVolume strayCalls "orders" ∧
      Disturbed blockedDir strayVolume blockedCalls "users" :=
  ⟨valid_stray.validTable, by decide, proper_stray, makeDirectories_stray, list_stray, disturbed_stray,
    disturbed_blocked⟩

end Store

end SortedTable
