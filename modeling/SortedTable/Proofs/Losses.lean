import SortedTable.Proofs.Recovering

/-!
# Tables that lost bytes

The files of a complete table are cut or removed before it is published. What a recovery then publishes is
exactly the rows that still lie wholly within the data file: the other files are taken as they are only if they
were cut to the same rows. Main statements: `eq_dataBytes_of_describesData`, `recover_of_loss`.
-/

namespace SortedTable

open AppendedRow

variable {rows : List AppendedRow}

theorem AppendedRow.take_entries (rows : List AppendedRow) (count : Nat) :
    (entries rows).take count = entries (rows.take count) := by
  apply List.ext_getElem?
  intro i
  rw [List.getElem?_take, getElem?_entries, getElem?_entries, List.getElem?_take]
  by_cases hi : i < count
  · rw [if_pos hi, if_pos hi, List.take_take, Nat.min_eq_left (Nat.le_of_lt hi)]
  · rw [if_neg hi, if_neg hi, Option.map_none]

namespace Recovery

theorem rowEnd?_take {front rest : List AppendedRow} {r : AppendedRow} (hr : r.Fits) {n finish : Nat}
    {key : Bytes}
    (hend : rowEnd? .long ((dataBytes (front ++ r :: rest)).take n) (key, total front) = some finish) :
    finish = total (front ++ [r]) := by
  have hdrop : ((dataBytes (front ++ r :: rest)).take n).drop (total front) =
      (r.bytes ++ dataBytes rest).take (n - total front) := by
    rw [List.drop_take, dataBytes_append, ← length_dataBytes, List.drop_left, dataBytes_cons]
  rw [rowEnd?, hdrop, Option.bind_eq_bind, Option.bind_eq_some_iff] at hend
  obtain ⟨⟨key', size, rest'⟩, hfront, hfinish⟩ := hend
  obtain ⟨rfl, rfl, -⟩ := eq_of_takeRowFront?_take hr hfront
  dsimp only at hfinish
  split at hfinish
  · rw [Int.toNat_natCast] at hfinish
    rw [total_append, total_cons, ← Option.some.inj hfinish]
    rfl
  · simp at hfinish

/-- An index that was cut describes data that was cut only if both were cut to the same rows. -/
theorem eq_dataBytes_of_describesData (hfits : ∀ r ∈ rows, r.Fits) {count n : Nat}
    (h : describesData .long (entries (rows.take count)) ((dataBytes rows).take n) = true) :
    (dataBytes rows).take n = dataBytes (rows.take count) := by
  by_cases hnil : rows.take count = []
  · rw [hnil] at h ⊢
    exact of_decide_eq_true h
  let front := (rows.take count).dropLast
  let last := (rows.take count).getLast hnil
  have hkept : rows.take count = front ++ [last] := (List.dropLast_concat_getLast hnil).symm
  have hrows : rows = front ++ last :: rows.drop count := by
    rw [← List.singleton_append, ← List.append_assoc, ← hkept, List.take_append_drop]
  have hlast : last.Fits := hfits last (List.mem_of_mem_take (List.getLast_mem hnil))
  have hentries : (entries (rows.take count)).getLast? = some (last.key.key, total front) := by
    rw [hkept, entries_append, List.getLast?_concat]
  unfold describesData at h
  rw [hentries] at h
  dsimp only at h
  rw [Bool.and_eq_true, decide_eq_true_iff, decide_eq_true_iff] at h
  have hlength : ((dataBytes rows).take n).length = total (rows.take count) := by
    rw [hkept]
    have hend := h.2
    conv at hend => lhs; arg 2; rw [hrows]
    exact rowEnd?_take hlast hend
  have hprefix : dataBytes (rows.take count) <+: dataBytes rows := by
    conv => rhs; rw [← List.take_append_drop count rows, dataBytes_append]
    exact List.prefix_append _ _
  calc (dataBytes rows).take n
      = (dataBytes rows).take ((dataBytes rows).take n).length :=
        List.prefix_iff_eq_take.mp (List.take_prefix n _)
    _ = (dataBytes rows).take (dataBytes (rows.take count)).length := by rw [hlength, length_dataBytes]
    _ = dataBytes (rows.take count) := (List.prefix_iff_eq_take.mp hprefix).symm

theorem exists_of_intactFiles (hfits : ∀ r ∈ rows, r.Fits)
    (hreadable : ∀ e ∈ entries rows, Record.Readable e) {files : Component → Option Bytes} {n m : Nat}
    (hindex : files .primaryIndex = some ((indexBytes rows).take m))
    (hintact : intactFiles files ((dataBytes rows).take n) = true) :
    ∃ count, (indexBytes rows).take m = indexBytes (rows.take count) ∧
      (dataBytes rows).take n = dataBytes (rows.take count) := by
  unfold intactFiles at hintact
  rw [hindex] at hintact
  rcases hfilter : files .filter with - | stored
  · simp [hfilter] at hintact
  rcases hstatistics : files .statistics with - | statistics
  · simp [hfilter, hstatistics] at hintact
  rcases hread : Record.readIndex ((indexBytes rows).take m) with ⟨records, - | e⟩
  · simp only [hfilter, hstatistics, hread, Bool.and_eq_true] at hintact
    obtain ⟨count, hrecords, hbytes⟩ := Record.readIndex_take hreadable hread
    rw [hrecords, take_entries] at hintact
    rw [take_entries] at hbytes
    exact ⟨count, hbytes, eq_dataBytes_of_describesData hfits hintact.2⟩
  · simp [hfilter, hstatistics, hread] at hintact

/-- What can happen to a file: it stays, it is cut to a length, or it is removed. -/
inductive Damage where
  | none
  | cut (length : Nat)
  | removed
deriving DecidableEq, Repr

namespace Damage

def leaves : Damage → Bytes → Option Bytes
  | none, bytes => some bytes
  | cut length, bytes => some (bytes.take length)
  | removed, _ => Option.none

def inflict (path : Path) : Damage → Action DiskError Unit
  | none => pure ()
  | cut length => Action.change_ (·.truncateFile path length)
  | removed => Action.remove path

end Damage

/-- A table loses some of its bytes. -/
def inflict (d : Descriptor) (damage : Component → Damage) : Action DiskError Unit :=
  Action.forEach (fun c => (damage c).inflict (d.pathOf c)) Component.all

/-- The data and the index can be cut to any length and all files but the data can be removed. -/
structure Loss (damage : Component → Damage) (contents : Component → Bytes) : Prop where
  data : damage .data ≠ .removed
  filter : damage .filter = .none ∨ damage .filter = .removed
  statistics : damage .statistics = .none ∨ damage .statistics = .removed
  length : ∀ c n, damage c = .cut n → n ≤ (contents c).length

variable {d : Descriptor} {v : Volume} {damage : Component → Damage} {contents : Component → Bytes}

theorem Damage.on_inflict {path : Path} {p : Place} {bytes : Bytes} (hreach : v.disk.Reaches path p)
    (htree : v.disk.tree p = some (.file bytes)) {damage : Damage}
    (hcut : ∀ n, damage = .cut n → n ≤ bytes.length ∧ n < Disk.maxOffset) :
    ∃ v', (damage.inflict path).on v = (.ok (), v') ∧
      v'.disk.tree = v.disk.tree.put p ((damage.leaves bytes).map .file) := by
  obtain ⟨id, hnode, hbytes⟩ := Disk.tree_eq_file_iff.mp htree
  cases damage with
  | none => exact ⟨v, rfl, (Tree.put_eq_self htree).symm⟩
  | cut length =>
      obtain ⟨hle, hlt⟩ := hcut length rfl
      have hopen : v.disk.openFile path = .ok id := by
        rw [Disk.openFile, (Disk.find_eq_ok_iff hreach).mpr hnode]
        rfl
      have hlength : (v.disk.contentsOf id).length = bytes.length := by
        rw [← Contents.length_bytes, ← hbytes]
        rfl
      let contents := ((v.disk.contentsOf id).take length).append
        (List.replicate (length - (v.disk.contentsOf id).length) 0)
      have hcontents : contents.bytes = bytes.take length := by
        have hzero : length - (v.disk.contentsOf id).length = 0 := by omega
        rw [Contents.bytes_append, Contents.bytes_take, hzero, List.replicate_zero, List.append_nil, ← hbytes]
        rfl
      have htruncate : v.disk.truncateFile path length = .ok (v.disk.setContents id contents) := by
        rw [Disk.truncateFile, hopen]
        change (if Disk.maxOffset ≤ length then _ else _) = _
        rw [if_neg (Nat.not_le_of_lt hlt)]
        rfl
      refine ⟨v.step (v.disk.setContents id contents), Action.on_change_unit_ok htruncate, ?_⟩
      rw [Volume.disk_step, Disk.tree_setContents hnode, hcontents]
      rfl
  | removed =>
      have hremove := Disk.remove_of_reaches hreach
      rw [hnode] at hremove
      have hremoved : (Action.remove path).on v = (.ok (), v.step (v.disk.erase p)) :=
        Action.on_change_unit_ok hremove
      exact ⟨_, hremoved, Disk.tree_erase hreach.ne_nil⟩

theorem on_inflictEach (hd : d.Valid) {cs : List Component} (hnodup : cs.Nodup) (hhosts : v.disk.Hosts d)
    (hfiles : ∀ c ∈ cs, v.disk.tree (d.place c) = some (.file (contents c)))
    (hcut : ∀ c n, damage c = .cut n → n ≤ (contents c).length ∧ n < Disk.maxOffset) :
    ∃ v', (Action.forEach (fun c => (damage c).inflict (d.pathOf c)) cs).on v = (.ok (), v') ∧
      (∀ c ∈ cs, v'.disk.tree (d.place c) = ((damage c).leaves (contents c)).map .file) ∧
      (∀ p, (∀ c ∈ cs, p ≠ d.place c) → v'.disk.tree p = v.disk.tree p) ∧ v.disk.Keeps v'.disk := by
  induction cs generalizing v with
  | nil => exact ⟨v, rfl, by simp, fun _ _ => rfl, .refl _⟩
  | cons c rest ih =>
      rw [List.nodup_cons] at hnodup
      have hfile := hfiles c List.mem_cons_self
      obtain ⟨v₁, hfirst, htree₁⟩ := Damage.on_inflict (hhosts c) hfile (hcut c)
      have hkeeps₁ : v.disk.Keeps v₁.disk := .of_put htree₁ (by rw [hfile]; simp)
      have hapart : ∀ c' ∈ rest, d.place c' ≠ d.place c :=
        fun c' hc' => Descriptor.place_ne_place hd fun heq => hnodup.1 (heq ▸ hc')
      have hfiles₁ : ∀ c' ∈ rest, v₁.disk.tree (d.place c') = some (.file (contents c')) := by
        intro c' hc'
        rw [htree₁, Tree.put_of_ne (hapart c' hc')]
        exact hfiles c' (List.mem_cons_of_mem _ hc')
      obtain ⟨v', hrest, hleft, helsewhere, hkeeps⟩ := ih hnodup.2 (hhosts.mono hkeeps₁) hfiles₁
      refine ⟨v', ?_, ?_, ?_, hkeeps₁.trans hkeeps⟩
      · rw [Action.forEach, Action.on_bind_ok hfirst, hrest]
      · intro c' hc'
        rcases List.mem_cons.mp hc' with rfl | hc'
        · rw [helsewhere _ fun c'' hc'' => (hapart c'' hc'').symm, htree₁, Tree.put_self]
        · exact hleft c' hc'
      · intro p hp
        rw [helsewhere p fun c' hc' => hp c' (List.mem_cons_of_mem _ hc'), htree₁,
          Tree.put_of_ne (hp c List.mem_cons_self)]

/-- A recovered table of some rows: its data is as it was, and the index has the rows and no others. -/
structure Salvaged (d : Descriptor) (data : Bytes) (rows : List AppendedRow) (r : Reader) (v : Volume) :
    Prop where
  data : v.disk.read (d.published.pathOf .data) = .ok data
  index : v.disk.read (d.published.pathOf .primaryIndex) = .ok (indexBytes rows)
  records : Reader.decodeRecords (indexBytes rows) = .ok (entries rows)
  estimatedKeys : r.estimatedKeys = rows.length
  keyAt : ∀ entry ∈ entries rows, (r.keyAt entry.2).on v = (.ok entry.1, v)
  mayContain : ∀ row ∈ rows, r.mayContain row.key = true

theorem salvaged_of_completed (hd : d.Valid) {data tail : Bytes} {filter : Filter}
    {statistics : Histogram × Histogram} {r : Reader} (hsound : Reader.Sound rows filter statistics)
    (h : Completed d data rows filter statistics r v.disk) (hdata : data = dataBytes rows ++ tail)
    (hadmits : ∀ row ∈ rows, filter.mayContain row.key.key = true) : Salvaged d data rows r v where
  data := h.permanent.reads (h.hosts.published hd) .data
  index := h.permanent.reads (h.hosts.published hd) .primaryIndex
  records := Reader.decodeRecords_indexBytes hsound.keys hsound.total
  estimatedKeys := h.reader.keyCount
  keyAt := by
    intro entry hentry
    obtain ⟨i, hi⟩ := List.getElem?_of_mem hentry
    rw [getElem?_entries, Option.map_eq_some_iff] at hi
    obtain ⟨row, hrow, rfl⟩ := hi
    exact h.reader.on_keyAt hdata hrow (hsound.keys row (List.mem_of_getElem? hrow))
  mayContain := by
    intro row hrow
    rw [Reader.mayContain, h.kept]
    exact hadmits row hrow

variable {t : Writer.Terms} {config : Config}

theorem keys_within (h : Workable t rows v.disk) (n : Nat) :
    ∀ row ∈ within n rows, row.key.key.length ≤ Record.maxShort :=
  fun row hrow => h.keys row ((within_isPrefix n rows).subset hrow)

theorem total_within_lt (h : Workable t rows v.disk) (n : Nat) : total (within n rows) < Disk.maxOffset :=
  Nat.lt_of_le_of_lt (total_le_of_isPrefix (within_isPrefix n rows)) h.total

/-- Files that are not taken as they are are made again of the rows within the data. -/
theorem salvaged_of_broken (h : Workable t rows v.disk) {files : Component → Option Bytes} {n : Nat}
    (hshows : v.disk.Shows t.descriptor files) (hdata : files .data = some ((dataBytes rows).take n))
    (hbroken : intactFiles files ((dataBytes rows).take n) = false) (hconfig : config.validate = .ok ())
    (metadata : TableMetadata) (partitioner : Partitioner) (opening : Config) (age : Nat) :
    ∃ r v', (recoverAndOpen t.descriptor (rebuild partitioner config) metadata partitioner opening
        age).on v = (.ok r, v') ∧
      Salvaged t.descriptor ((dataBytes rows).take n) (within n rows) r v' := by
  obtain ⟨tail, htake, hunfinished⟩ := take_dataBytes (fits_of_total_lt h.keys h.total) n
  have hkeys := keys_within h n
  have htotal := total_within_lt h n
  rw [htake] at hdata hbroken ⊢
  obtain ⟨estimated, r, v', hrun, hcompleted, -⟩ := on_recoverAndOpen_rebuilt h.valid h.temporary h.hosts hshows
    h.free hdata hbroken hkeys htotal hunfinished hconfig metadata partitioner opening age
  exact ⟨r, v', hrun, salvaged_of_completed h.valid (sound_rebuilt hkeys htotal config estimated) hcompleted
    rfl fun _ => mayContain_rebuiltFilter⟩

/-- Files that are taken as they are were cut to the same rows. -/
theorem salvaged_of_intact (h : Workable t rows v.disk) {n m : Nat} (hn : n ≤ total rows)
    (hshows : v.disk.Shows t.descriptor (partly ((dataBytes rows).take n) (some ((indexBytes rows).take m))
      (some (t.contents rows .filter)) (some (t.contents rows .statistics))))
    (hintact : intactFiles (partly ((dataBytes rows).take n) (some ((indexBytes rows).take m))
      (some (t.contents rows .filter)) (some (t.contents rows .statistics))) ((dataBytes rows).take n) = true)
    (metadata : TableMetadata) (partitioner : Partitioner) (opening : Config) (age : Nat) :
    ∃ r v', (recoverAndOpen t.descriptor (rebuild partitioner config) metadata partitioner opening
        age).on v = (.ok r, v') ∧
      Salvaged t.descriptor ((dataBytes rows).take n) (within n rows) r v' := by
  obtain ⟨count, hindex, hdata⟩ := exists_of_intactFiles (fits_of_total_lt h.keys h.total)
    (readable_entries h.keys h.total) rfl hintact
  have hlength : n = total (rows.take count) := by
    have hlengths := congrArg List.length hdata
    rw [List.length_take, length_dataBytes, length_dataBytes, Nat.min_eq_left hn] at hlengths
    exact hlengths
  have hwithin : within n rows = rows.take count := by
    have happend := within_total_append (rows.take count) (rows.drop count)
    rwa [List.take_append_drop, ← hlength] at happend
  have hsound := t.sound h.keys h.total
  have hkept : Reader.Sound (within n rows) (t.filter.insertAll (rows.map (·.key.key))).build
      (Histogram.rowSizes.addAll (rows.map size),
        Histogram.columnCounts.addAll (rows.filterMap (·.columnCount))) :=
    ⟨keys_within h n, total_within_lt h n, hsound.filter, hsound.rowSizes, hsound.columnCounts⟩
  rw [hdata, hindex, ← hwithin] at hshows
  obtain ⟨r, v', hrun, hcompleted, -⟩ := on_recoverAndOpen_sound h.valid h.temporary h.hosts
    (fun c => (hshows c).trans (by cases c <;> rfl)) h.free hkept (rebuild partitioner config) metadata
    partitioner opening age
  refine ⟨r, v', hrun, ?_⟩
  rw [hdata, ← hwithin]
  exact salvaged_of_completed h.valid hkept hcompleted (List.append_nil _).symm
    fun row hrow => t.mayContain ((within_isPrefix n rows).subset hrow)

theorem Loss.exists_data (h : Loss damage contents) :
    ∃ n, n ≤ (contents .data).length ∧
      (damage .data).leaves (contents .data) = some ((contents .data).take n) := by
  rcases hdata : damage .data with - | n | -
  · exact ⟨(contents .data).length, Nat.le_refl _, by rw [List.take_length]; rfl⟩
  · exact ⟨n, h.length .data n hdata, rfl⟩
  · exact absurd hdata h.data

theorem Loss.exists_index (hpresent : damage .primaryIndex ≠ .removed) :
    ∃ n, (damage .primaryIndex).leaves (contents .primaryIndex) = some ((contents .primaryIndex).take n) := by
  rcases hindex : damage .primaryIndex with - | n | -
  · exact ⟨(contents .primaryIndex).length, by rw [List.take_length]; rfl⟩
  · exact ⟨n, rfl⟩
  · exact absurd hindex hpresent

theorem salvaged_of_loss (h : Workable t rows v.disk) (hloss : Loss damage (t.contents rows))
    (hshows : v.disk.Shows t.descriptor fun c => (damage c).leaves (t.contents rows c))
    (hconfig : config.validate = .ok ()) (metadata : TableMetadata) (partitioner : Partitioner)
    (opening : Config) (age : Nat) :
    ∃ data r v', v.disk.read (t.descriptor.pathOf .data) = .ok data ∧ data <+: dataBytes rows ∧
      (recoverAndOpen t.descriptor (rebuild partitioner config) metadata partitioner opening age).on v =
        (.ok r, v') ∧ Salvaged t.descriptor data (within data.length rows) r v' := by
  obtain ⟨n, hle, hdata⟩ := hloss.exists_data
  change n ≤ (dataBytes rows).length at hle
  have hlength : ((dataBytes rows).take n).length = n := by
    rw [List.length_take, Nat.min_eq_left hle]
  suffices hrecover : ∃ r v', (recoverAndOpen t.descriptor (rebuild partitioner config) metadata
      partitioner opening age).on v = (.ok r, v') ∧
        Salvaged t.descriptor ((dataBytes rows).take n) (within n rows) r v' by
    obtain ⟨r, v', hrun, hsalvaged⟩ := hrecover
    refine ⟨(dataBytes rows).take n, r, v', hshows.read_eq_ok h.hosts hdata, List.take_prefix n _, hrun, ?_⟩
    rwa [hlength]
  rcases hintact : intactFiles (fun c => (damage c).leaves (t.contents rows c)) ((dataBytes rows).take n)
  · exact salvaged_of_broken h hshows hdata hintact hconfig metadata partitioner opening age
  -- what is intact is all there
  have hpresent : ∀ c, c = .primaryIndex ∨ c = .filter ∨ c = .statistics → damage c ≠ .removed := by
    intro c hc hremoved
    have hnone : (damage c).leaves (t.contents rows c) = none := by
      rw [hremoved]
      rfl
    rw [intactFiles_eq_false] at hintact
    · simp at hintact
    · rcases hc with rfl | rfl | rfl
      · exact Or.inl hnone
      · exact Or.inr (Or.inl hnone)
      · exact Or.inr (Or.inr hnone)
  obtain ⟨m, hindex⟩ : ∃ m, (damage .primaryIndex).leaves (t.contents rows .primaryIndex) =
      some ((t.contents rows .primaryIndex).take m) := Loss.exists_index (hpresent _ (Or.inl rfl))
  have hfilter : damage .filter = .none :=
    hloss.filter.resolve_right (hpresent _ (Or.inr (Or.inl rfl)))
  have hstatistics : damage .statistics = .none :=
    hloss.statistics.resolve_right (hpresent _ (Or.inr (Or.inr rfl)))
  have hfiles : (fun c => (damage c).leaves (t.contents rows c)) =
      partly ((dataBytes rows).take n) (some ((indexBytes rows).take m)) (some (t.contents rows .filter))
        (some (t.contents rows .statistics)) := by
    funext c
    cases c with
    | data => exact hdata
    | primaryIndex => exact hindex
    | filter => rw [hfilter]; rfl
    | statistics => rw [hstatistics]; rfl
  rw [hfiles] at hshows hintact
  rw [length_dataBytes] at hle
  exact salvaged_of_intact h hle hshows hintact metadata partitioner opening age

open Writer

theorem length_indexBytes_le (rows : List AppendedRow) : (indexBytes rows).length ≤ total rows := by
  have hsizes : ∀ start, ((placedFrom start rows).flatMap fun e => Record.index e.1.key e.2).length ≤
      total rows := by
    induction rows with
    | nil => exact fun _ => Nat.le_refl _
    | cons r rest ih =>
        intro start
        have hrest := ih (start + r.size)
        have hrow : Record.indexSize r.key.key ≤ r.size := Nat.le_add_right _ r.body.length
        rw [placedFrom, List.flatMap_cons, List.length_append, Record.length_index, total_cons]
        exact Nat.add_le_add hrow hrest
  rw [indexBytes, entries, List.flatMap_map]
  exact hsizes 0

theorem Loss.on_inflict (h : Workable t rows v.disk) (hloss : Loss damage (t.contents rows))
    (hshows : v.disk.Shows t.descriptor fun c => some (t.contents rows c)) :
    ∃ v', (inflict t.descriptor damage).on v = (.ok (), v') ∧ Workable t rows v'.disk ∧
      v'.disk.Shows t.descriptor fun c => (damage c).leaves (t.contents rows c) := by
  have hcut : ∀ c n, damage c = .cut n → n ≤ (t.contents rows c).length ∧ n < Disk.maxOffset := by
    intro c n hn
    have hle := hloss.length c n hn
    have htotal := h.total
    refine ⟨hle, ?_⟩
    cases c with
    | data =>
        change n ≤ (dataBytes rows).length at hle
        rw [length_dataBytes] at hle
        omega
    | primaryIndex => exact Nat.lt_of_le_of_lt (Nat.le_trans hle (length_indexBytes_le rows)) htotal
    | filter => rcases hloss.filter with hf | hf <;> simp [hf] at hn
    | statistics => rcases hloss.statistics with hf | hf <;> simp [hf] at hn
  have hnodup : Component.all.Nodup := by decide
  obtain ⟨v', hrun, hleft, helsewhere, hkeeps⟩ :=
    on_inflictEach h.valid hnodup h.hosts (fun c _ => hshows c) hcut
  have hmem : ∀ c, c ∈ Component.all := by
    intro c
    cases c <;> decide
  exact ⟨v', hrun, h.mono hkeeps fun c => helsewhere _ fun c' _ =>
    Descriptor.published_place_ne h.valid h.temporary c c', fun c => hleft c (hmem c)⟩

/-- However a new table loses bytes before it is published, it is recovered. The data is left as it is, and
exactly the rows that lie wholly within it are indexed, each under its key and at its offset. -/
theorem recover_of_loss {w₀ w : Writer} {v₀ v₁ v₂ : Volume} {calls : List Call}
    (hcurrent : t.descriptor.isCurrent = true) (htemporary : t.descriptor.temporary = true)
    (hfresh : t.descriptor.Fresh v₀.disk) (hcreate : t.create.on v₀ = (.ok w₀, v₁))
    (hcalls : Appends w₀ v₁ calls w v₂)
    (htotal : AppendedRow.total (calls.map Call.row) < Disk.maxOffset) :
    ∃ table v₃, w.close.on v₂ = (.ok table, v₃) ∧
      ∀ damage, Loss damage (t.contents (calls.map Call.row)) →
        ∃ lost data, (inflict t.descriptor damage).on v₃ = (.ok (), lost) ∧
          lost.disk.read (t.descriptor.pathOf .data) = .ok data ∧ data <+: dataBytes (calls.map Call.row) ∧
          ∀ config, config.validate = .ok () → ∀ metadata partitioner opening age, ∃ r v',
            (recoverAndOpen t.descriptor (rebuild partitioner config) metadata partitioner opening age).on
              lost = (.ok r, v') ∧
            Salvaged t.descriptor data (within data.length (calls.map Call.row)) r v' := by
  obtain ⟨v₃, hclose, hwork, hshows⟩ :=
    Workable.closes hcurrent htemporary hfresh hcreate hcalls htotal
  refine ⟨w.closed, v₃, hclose, fun damage hloss => ?_⟩
  obtain ⟨lost, hinflict, hwork', hleft⟩ := hloss.on_inflict hwork hshows
  obtain ⟨data, r, v', hread, hprefix, -⟩ :=
    salvaged_of_loss hwork' hloss hleft hwork.config t.metadata t.partitioner t.config 0
  refine ⟨lost, data, hinflict, hread, hprefix, fun config hconfig metadata partitioner opening age => ?_⟩
  obtain ⟨data', r, v', hread', -, hrun, hsalvaged⟩ :=
    salvaged_of_loss hwork' hloss hleft hconfig metadata partitioner opening age
  rw [hread] at hread'
  cases hread'
  exact ⟨r, v', hrun, hsalvaged⟩

/-- The second row loses its last byte, and the index its last record. -/
def Damage.users : Component → Damage
  | .data => .cut 25
  | .primaryIndex => .cut 11
  | _ => .none

theorem recover_of_loss_users :
    ∃ v₁ w v₂ table v₃ lost data r v',
      Terms.users.create.on .new = (.ok (Terms.users.start 0 1), v₁) ∧
        Appends (Terms.users.start 0 1) v₁ Call.users w v₂ ∧ w.close.on v₂ = (.ok table, v₃) ∧
        (inflict Terms.users.descriptor Damage.users).on v₃ = (.ok (), lost) ∧
        (recoverAndOpen Terms.users.descriptor (rebuild .byteOrdered .default) (.new "ks" "users")
          .byteOrdered .default 0).on lost = (.ok r, v') ∧
        data <+: dataBytes (Call.users.map Call.row) ∧
        Salvaged Terms.users.descriptor data (within data.length (Call.users.map Call.row)) r v' := by
  obtain ⟨w, v₂, hcalls⟩ := exists_appends_users Terms.create_users
  obtain ⟨table, v₃, hclose, hrecover⟩ :=
    recover_of_loss rfl rfl Terms.fresh_users Terms.create_users hcalls (by decide)
  have hloss : Loss Damage.users (Terms.users.contents (Call.users.map Call.row)) := by
    refine ⟨by decide, Or.inl rfl, Or.inl rfl, ?_⟩
    intro c n hcut
    cases c
    case data =>
      cases hcut
      decide
    case primaryIndex =>
      cases hcut
      decide
    all_goals simp [Damage.users] at hcut
  obtain ⟨lost, data, hinflict, -, hprefix, hsalvage⟩ := hrecover _ hloss
  obtain ⟨r, v', hrun, hsalvaged⟩ := hsalvage .default rfl (.new "ks" "users") .byteOrdered .default 0
  exact ⟨_, w, v₂, table, v₃, lost, data, r, v', Terms.create_users, hcalls, hclose, hinflict, hrun, hprefix,
    hsalvaged⟩

end Recovery

end SortedTable
