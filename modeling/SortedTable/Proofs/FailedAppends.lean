import SortedTable.Proofs.TornRows

/-!
# Appends that fail

A call that is rejected leaves the table as it is. A call whose encoder gives up does not: what it has written stays
in the data, and the rows of later calls go behind it. So a table gives back the rows of the calls that went well, and
nothing else, if and only if no encoder gave up. Main statement: `scan_of_attempts`.
-/

namespace SortedTable

open AppendedRow

namespace AppendedRow

/-- What a row is known by, whatever its offset is. -/
def keyAndBody (r : AppendedRow) : Bytes × Bytes := (r.key.key, r.body)

theorem map_scannedFrom (start : Nat) (rows : List AppendedRow) :
    (scannedFrom start rows).map (fun row => (row.1.key, row.2)) = rows.map keyAndBody := by
  induction rows generalizing start with
  | nil => rfl
  | cons r rest ih =>
      have hrest := ih (start + r.size)
      rw [List.map_cons, ← hrest]
      rfl

theorem dataBytes_eq_of_map_eq {rows rows' : List AppendedRow} (h : rows.map keyAndBody = rows'.map keyAndBody) :
    dataBytes rows = dataBytes rows' := by
  have hbytes : ∀ rows : List AppendedRow,
      dataBytes rows = (rows.map keyAndBody).flatMap fun e => Record.row e.1 e.2 := by
    intro rows
    rw [List.flatMap_map]
    rfl
  rw [hbytes, hbytes, h]

end AppendedRow

namespace Scanner

/-- The scan gives these rows and nothing else, and ends well. -/
def Yields (s : Scanner) (rows : List AppendedRow) : Prop :=
  s.rows.1.map (fun row => (row.1.key, row.2)) = rows.map keyAndBody ∧ s.rows.2 = none

theorem rows_negative {tail key rest : Bytes} {size : Int}
    (hfront : Record.takeRowFront? .long tail = some (key, size, rest)) (hnegative : size < 0) (position : Nat) :
    (after position tail).rows = ([], some (.io (.decode (.rowSize size)))) := by
  have hpos := Record.length_lt_of_takeRowFront? hfront
  have hstart : position < position + tail.length := by omega
  exact rows_of_readHeader_error (readHeader_of_negative (s := after position tail) hstart hfront hnegative)

/-- A scan gives some rows, and nothing else, from their bytes only. -/
theorem yields_start_iff {rows : List AppendedRow} (hfits : ∀ r ∈ rows, r.Fits) {data : Bytes}
    (hlength : data.length < Disk.maxOffset) : (start .long data).Yields rows ↔ data = dataBytes rows := by
  constructor
  · rintro ⟨hrows, hend⟩
    obtain ⟨whole, tail, rfl, hwhole, hunfinished | ⟨size, hsize, key, rest, hfront⟩⟩ := exists_dataBytes hlength
    · rw [rows_start_append hwhole hunfinished] at hrows hend
      have htail : tail = [] := by
        by_contra hne
        rw [failureAt, if_neg hne] at hend
        cases hend
      rw [map_scannedFrom] at hrows
      rw [htail, List.append_nil, dataBytes_eq_of_map_eq hrows]
    · rw [start_eq_after, rows_dataBytes hwhole, rows_negative hfront hsize] at hend
      cases hend
  · rintro rfl
    rw [Yields, rows_start hfits]
    exact ⟨map_scannedFrom 0 rows, rfl⟩

end Scanner

namespace Writer

/-- A call and what it returned. -/
structure Answer where
  attempt : Attempt
  result : Except TableError Unit

namespace Answer

/-- The call had begun to write when it failed. -/
def Torn (a : Answer) : Prop := ∃ e, a.result = .error (.io e)

/-- The bytes that a call has left in the data. -/
def left : Answer → Bytes
  | ⟨attempt, .ok ()⟩ => attempt.row.bytes
  | ⟨.encoded key row, .error (.io _)⟩ => Recovery.unpatched key.key row.written
  | ⟨.framed key row, .error (.io _)⟩ => Record.short key.key ++ row.written
  | _ => []

def row? : Answer → Option AppendedRow
  | ⟨attempt, .ok ()⟩ => some attempt.row
  | _ => none

end Answer

def leftBytes (log : List Answer) : Bytes := log.flatMap Answer.left

/-- The rows of the calls that went well. -/
def rowsOf (log : List Answer) : List AppendedRow := log.filterMap Answer.row?

/-- A writer and a volume lead to others by some calls, and the caller goes on after those that fail. -/
inductive Attempts : Writer → Volume → List Answer → Writer → Volume → Prop
  | nil (w : Writer) (v : Volume) : Attempts w v [] w v
  | cons {w w' w'' : Writer} {v v' v'' : Volume} {a : Attempt} {result : Except TableError Unit} {log : List Answer}
      (first : Work.on (w.attempt a) v = ((result, w'), v')) (rest : Attempts w' v' log w'' v'') :
      Attempts w v (⟨a, result⟩ :: log) w'' v''

/-- The data of a writer is these bytes, and what comes next goes behind them. -/
structure Grown (d : Descriptor) (bytes : Bytes) (w : Writer) (disk : Disk) : Prop where
  carries : ∃ index, w.Carries d bytes index disk
  atEnd : w.data.position = bytes.length

variable {d : Descriptor} {bytes : Bytes} {w w' : Writer} {v v' : Volume} {a : Attempt}
  {result : Except TableError Unit}

/-- What a call may leave behind: nothing, the whole row, or a part of it. -/
structure Leaves (d : Descriptor) (bytes : Bytes) (a : Answer) (w' : Writer) (v v' : Volume) : Prop where
  grown : w'.Grown d (bytes ++ a.left) v'.disk
  same : v.disk.SameBut [d.place .data, d.place .primaryIndex] v'.disk
  accepted : a.left ≠ [] → a.attempt.key.key.length ≤ Record.maxShort
  torn : a.Torn → a.left ≠ []

theorem bytes_ne_nil (r : AppendedRow) : r.bytes ≠ [] := by
  intro hnil
  have hlength := congrArg List.length hnil
  rw [length_bytes, List.length_nil] at hlength
  exact absurd hlength (Nat.ne_of_gt r.size_pos)

theorem Answer.left_of_rejected {e : TableError} (he : ∀ io, e ≠ .io io) : (⟨a, .error e⟩ : Answer).left = [] := by
  cases e with
  | io io => exact absurd rfl (he io)
  | _ => cases a <;> rfl

theorem Grown.of_stacked {index : Bytes} (hdescriptor : w.descriptor = d) (hindex : w.index.descriptor = d)
    (h : w.Stacked (d.place .data) (d.place .primaryIndex) bytes index v.disk) : w.Grown d bytes v.disk :=
  ⟨⟨index, hdescriptor, hindex, h.dataFile, h.indexFile⟩, h.atEnd⟩

theorem Grown.on_attempt (hd : d.Valid) (h : w.Grown d bytes v.disk) (hframed : a.WellFramed)
    (hrun : Work.on (w.attempt a) v = ((result, w'), v')) : Leaves d bytes ⟨a, result⟩ w' v v' := by
  obtain ⟨index, hcarries⟩ := h.carries
  have hstacked : w.Stacked (d.place .data) (d.place .primaryIndex) bytes index v.disk :=
    ⟨hcarries.data, h.atEnd, hcarries.index⟩
  cases hstacked.on_attempt (Descriptor.place_ne_place hd (by decide)) a hrun with
  | rejected hcheck =>
      have hleft := Answer.left_of_rejected (a := a) hcheck
      refine ⟨?_, .refl _ _, fun hne => absurd hleft hne, fun ⟨io, hresult⟩ => ?_⟩
      · rw [hleft, List.append_nil]
        exact h
      · exact absurd (Except.error.inj hresult) (hcheck io)
  | torn hkey hstacked' hfields hsame hwrote =>
      rename_i e
      have hleft : (⟨a, .error (.io e)⟩ : Answer).left = a.begun := by cases a <;> rfl
      refine ⟨?_, hsame.of_mem (by simp), fun _ => (rejection?_eq_none_iff.mp hkey).2.1, fun _ => ?_⟩
      · rw [hleft]
        exact .of_stacked (hfields ▸ hcarries.descriptor) (hfields ▸ hcarries.indexDescriptor) hstacked'
      · rw [hleft]
        exact hwrote
  | accepted hkey hencodes hindexed =>
      have hleft : (⟨a, .ok ()⟩ : Answer).left = a.written := (a.written_eq_bytes hframed hencodes).symm
      obtain ⟨hstacked', hfields, hsame⟩ := hindexed
      refine ⟨?_, hsame, fun _ => (rejection?_eq_none_iff.mp hkey).2.1, fun ⟨_, hresult⟩ => by cases hresult⟩
      rw [hleft]
      exact .of_stacked (hfields ▸ hcarries.descriptor) (hfields ▸ hcarries.indexDescriptor) hstacked'

/-- A writer after some calls. -/
structure Tried (d : Descriptor) (log : List Answer) (w : Writer) (disk : Disk) : Prop where
  grown : w.Grown d (leftBytes log) disk
  accepted : ∀ a ∈ log, a.left ≠ [] → a.attempt.key.key.length ≤ Record.maxShort
  torn : ∀ a ∈ log, a.Torn → a.left ≠ []

theorem leftBytes_append (log more : List Answer) : leftBytes (log ++ more) = leftBytes log ++ leftBytes more :=
  List.flatMap_append

theorem Tried.attempts (hd : d.Valid) {log more : List Answer} (hruns : Attempts w v more w' v')
    (hframed : ∀ a ∈ more, a.attempt.WellFramed) (h : w.Tried d log v.disk) :
    w'.Tried d (log ++ more) v'.disk ∧ v.disk.SameBut [d.place .data, d.place .primaryIndex] v'.disk := by
  induction hruns generalizing log with
  | nil w v =>
      rw [List.append_nil]
      exact ⟨h, .refl _ _⟩
  | @cons w w₁ _ v v₁ _ a result _ first rest ih =>
      have hleaves := h.grown.on_attempt hd (hframed _ List.mem_cons_self) first
      have hnext : w₁.Tried d (log ++ [⟨a, result⟩]) v₁.disk := by
        refine ⟨?_, fun a' ha' => ?_, fun a' ha' => ?_⟩
        · have hone : leftBytes [⟨a, result⟩] = (⟨a, result⟩ : Answer).left := List.flatMap_singleton _ _
          rw [leftBytes_append, hone]
          exact hleaves.grown
        · rcases List.mem_append.mp ha' with ha' | ha'
          · exact h.accepted a' ha'
          · rw [List.mem_singleton.mp ha']
            exact hleaves.accepted
        · rcases List.mem_append.mp ha' with ha' | ha'
          · exact h.torn a' ha'
          · rw [List.mem_singleton.mp ha']
            exact hleaves.torn
      obtain ⟨hlast, hsame⟩ := ih (fun a' ha' => hframed a' (List.mem_cons_of_mem _ ha')) hnext
      rw [List.append_assoc, List.singleton_append] at hlast
      exact ⟨hlast, hleaves.same.trans hsame⟩

variable {log : List Answer} {disk : Disk}

/-- A call went well, or it left nothing, or it was torn. -/
theorem Answer.cases (a : Answer) : (a.row? = some a.attempt.row ∧ a.left = a.attempt.row.bytes ∧ ¬ a.Torn) ∨
    (a.row? = none ∧ a.left = [] ∧ ¬ a.Torn) ∨ (a.row? = none ∧ a.Torn) := by
  obtain ⟨attempt, e | u⟩ := a
  · cases e with
    | io e => exact Or.inr (Or.inr ⟨rfl, e, rfl⟩)
    | _ =>
        refine Or.inr (Or.inl ⟨rfl, ?_, fun ⟨_, hresult⟩ => by cases hresult⟩)
        cases attempt <;> rfl
  · exact Or.inl ⟨rfl, rfl, fun ⟨_, hresult⟩ => by cases hresult⟩

theorem rowsOf_cons (a : Answer) (log : List Answer) : rowsOf (a :: log) = a.row?.toList ++ rowsOf log := by
  rw [rowsOf, List.filterMap_cons]
  rcases a.row? with - | row <;> rfl

theorem leftBytes_eq_dataBytes (h : ∀ a ∈ log, ¬ a.Torn) : leftBytes log = dataBytes (rowsOf log) := by
  induction log with
  | nil => rfl
  | cons a rest ih =>
      have hrest := ih fun a' ha' => h a' (List.mem_cons_of_mem _ ha')
      rw [leftBytes, List.flatMap_cons, rowsOf_cons, dataBytes_append, ← hrest]
      rcases a.cases with ⟨hrow, hleft, -⟩ | ⟨hrow, hleft, -⟩ | ⟨-, htorn⟩
      · rw [hrow, hleft, Option.toList_some, dataBytes_singleton]
        rfl
      · rw [hrow, hleft]
        rfl
      · exact absurd htorn (h a List.mem_cons_self)

theorem total_rowsOf_le (log : List Answer) : total (rowsOf log) ≤ (leftBytes log).length := by
  induction log with
  | nil => exact Nat.le_refl _
  | cons a rest ih =>
      have hlength : (leftBytes (a :: rest)).length = a.left.length + (leftBytes rest).length := List.length_append
      rw [rowsOf_cons, total_append, hlength]
      rcases a.cases with ⟨hrow, hleft, -⟩ | ⟨hrow, -⟩ | ⟨hrow, -⟩
      · rw [hrow, hleft, length_bytes]
        change a.attempt.row.size + 0 + _ ≤ _
        omega
      · rw [hrow]
        change 0 + _ ≤ _
        omega
      · rw [hrow]
        change 0 + _ ≤ _
        omega

/-- What a torn call has left makes the data longer than the rows are. -/
theorem total_rowsOf_lt (hne : ∀ a ∈ log, a.Torn → a.left ≠ []) {a : Answer} (ha : a ∈ log) (htorn : a.Torn) :
    total (rowsOf log) < (leftBytes log).length := by
  obtain ⟨before, after, rfl⟩ := List.append_of_mem ha
  have hbefore := total_rowsOf_le before
  have hafter := total_rowsOf_le after
  have hleft := List.length_pos_iff.mpr (hne a ha htorn)
  have hrow : a.row? = none := by
    rcases a.cases with ⟨-, -, hnot⟩ | ⟨-, -, hnot⟩ | ⟨hrow, -⟩
    · exact absurd htorn hnot
    · exact absurd htorn hnot
    · exact hrow
  have hlength : (leftBytes (a :: after)).length = a.left.length + (leftBytes after).length := List.length_append
  have hrows : rowsOf (before ++ a :: after) = rowsOf before ++ rowsOf after := by
    rw [rowsOf, List.filterMap_append]
    change rowsOf before ++ rowsOf (a :: after) = _
    rw [rowsOf_cons, hrow]
    rfl
  rw [hrows, total_append, leftBytes_append, List.length_append, hlength]
  omega

theorem leftBytes_eq_dataBytes_iff (hne : ∀ a ∈ log, a.Torn → a.left ≠ []) :
    leftBytes log = dataBytes (rowsOf log) ↔ ∀ a ∈ log, ¬ a.Torn := by
  refine ⟨fun heq a ha htorn => ?_, leftBytes_eq_dataBytes⟩
  have hlt := total_rowsOf_lt hne ha htorn
  rw [heq, length_dataBytes] at hlt
  exact absurd hlt (Nat.lt_irrefl _)

theorem Tried.fits (h : w.Tried d log disk) (hlength : (leftBytes log).length < Disk.maxOffset) :
    ∀ row ∈ rowsOf log, row.Fits := by
  intro row hrow
  obtain ⟨a, ha, hsome⟩ := List.mem_filterMap.mp hrow
  have hle := total_rowsOf_le log
  have hsize : row.size ≤ total (rowsOf log) := by
    obtain ⟨before, after, hsplit⟩ := List.append_of_mem hrow
    rw [hsplit, total_append, total_cons]
    omega
  refine ⟨?_, by omega⟩
  rcases a.cases with ⟨hrow', hleft, -⟩ | ⟨hnone, -⟩ | ⟨hnone, -⟩
  · rw [hsome] at hrow'
    cases hrow'
    have hkey := h.accepted a ha (by rw [hleft]; exact bytes_ne_nil _)
    rcases hattempt : a.attempt <;> rw [hattempt] at hkey <;> exact hkey
  · rw [hsome] at hnone
    cases hnone
  · rw [hsome] at hnone
    cases hnone

/-- A scan ends at the first row whose encoder gave up, and gives none of those behind it. -/
theorem Tried.rows_of_torn (h : w.Tried d log disk) (hlength : (leftBytes log).length < Disk.maxOffset)
    {before after : List Answer} {key : DecoratedKey} {row : Encoding} {e : IoError}
    (hlog : log = before ++ ⟨.encoded key row, .error (.io e)⟩ :: after) (hbefore : ∀ a ∈ before, ¬ a.Torn) :
    (Scanner.start .long (leftBytes log)).rows =
      (scannedFrom 0 (rowsOf before), some (.io (.decode (.rowSize Record.rowSizePlaceholder)))) := by
  have hmem : ⟨.encoded key row, .error (.io e)⟩ ∈ log := by
    rw [hlog]
    simp
  have hkey := h.accepted _ hmem (h.torn _ hmem ⟨e, rfl⟩)
  have hfits : ∀ r ∈ rowsOf before, r.Fits := by
    intro r hr
    refine h.fits hlength r ?_
    rw [hlog, rowsOf, List.filterMap_append]
    exact List.mem_append_left _ hr
  have hbytes : leftBytes log =
      dataBytes (rowsOf before) ++ (Recovery.unpatched key.key row.written ++ leftBytes after) := by
    rw [hlog, leftBytes_append, leftBytes_eq_dataBytes hbefore]
    rfl
  have hfront : ∃ rest, Record.takeRowFront? .long (Recovery.unpatched key.key row.written ++ leftBytes after) =
      some (key.key, Record.rowSizePlaceholder, rest) := by
    have happend : Recovery.unpatched key.key row.written ++ leftBytes after =
        Recovery.unpatched key.key (row.written ++ leftBytes after) := List.append_assoc _ _ _
    rw [happend]
    refine Recovery.takeRowFront?_unpatched hkey (List.prefix_refl _) ?_
    have hwidth : LengthWidth.long.bytes = Record.rowSizeBytes := rfl
    rw [Recovery.unpatched, Recovery.frontSize, Record.rowSize, hwidth]
    simp only [List.length_append, Record.length_short, BigEndian.length_encodeInt]
    omega
  obtain ⟨rest, hfront⟩ := hfront
  rw [hbytes, Scanner.start_eq_after, Scanner.rows_dataBytes hfits, Scanner.rows_negative hfront (by decide),
    List.append_nil]

theorem tried_of_attempts {t : Terms} {w₀ : Writer} {v₀ v₁ v₂ : Volume} (hcurrent : t.descriptor.isCurrent = true)
    (hcreate : t.create.on v₀ = (.ok w₀, v₁)) (hruns : Attempts w₀ v₁ log w v₂)
    (hframed : ∀ a ∈ log, a.attempt.WellFramed) :
    t.descriptor.Valid ∧ w.Tried t.descriptor log v₂.disk ∧
      v₂.disk.Reaches (t.descriptor.pathOf .data) (t.descriptor.place .data) ∧
      v₂.disk.Reaches (t.descriptor.pathOf .primaryIndex) (t.descriptor.place .primaryIndex) ∧
      v₀.disk.Frame (· ∉ t.places) v₂.disk := by
  obtain ⟨hd, hwrote, hindex, hdata, hcreated, -⟩ := Terms.wrote_create hcreate (of_decide_eq_true hcurrent)
  have hstart : w₀.Tried t.descriptor [] v₁.disk :=
    ⟨⟨⟨_, hwrote.carries⟩, hwrote.dataEnd⟩, by simp, by simp⟩
  obtain ⟨htried, hsame⟩ := hstart.attempts hd hruns hframed
  have hframe := hcreated.trans (hsame.frame fun _ => id)
  exact ⟨hd, htried, hdata.mono hframe.keeps, hindex.mono hframe.keeps, hframe⟩

theorem Carries.shows_of_finish {data index : Bytes} (hd : d.Valid) (h : w.Carries d data index v.disk)
    (hdata : v.disk.Reaches (d.pathOf .data) (d.place .data))
    (hindex : v.disk.Reaches (d.pathOf .primaryIndex) (d.place .primaryIndex))
    {age : Nat} {r : Reader} (hrun : (w.finish age).on v = (.ok r, v')) :
    r.descriptor = d.published ∧ v'.disk.Hosts d.published ∧
      v'.disk.Shows d.published fun c => some (w.contents data index c) := by
  obtain ⟨v₁, hpublish, hhosts, hshows, hfree⟩ := h.closed_of_finish hd hdata hindex hrun
  obtain ⟨indexFile, dataFile, v₂, hpublish', -, -, hshows', hhosts', -⟩ :=
    h.on_publish_closed hd hhosts hshows hfree age
  rw [hpublish] at hpublish'
  cases hpublish'
  exact ⟨congrArg Descriptor.published h.descriptor, hhosts', hshows'⟩

/-- The table of some calls gives back the rows of those that went well, and nothing else, if and only if none of them
was torn. If the first torn one was encoded on the way, the scan gives the rows before it, and fails there. -/
theorem scan_of_attempts {t : Terms} {w₀ : Writer} {v₀ v₁ v₂ : Volume} (hcurrent : t.descriptor.isCurrent = true)
    (hcreate : t.create.on v₀ = (.ok w₀, v₁)) (hruns : Attempts w₀ v₁ log w v₂)
    (hframed : ∀ a ∈ log, a.attempt.WellFramed) (hlength : (leftBytes log).length < Disk.maxOffset) (age : Nat) :
    ((∀ c, (v₂.disk.create (t.descriptor.pathOf c)).isOk = true ∧
        (v₂.disk.create (t.descriptor.published.pathOf c)).isOk = true) →
      ∃ r v₃, (w.finish age).on v₂ = (.ok r, v₃)) ∧
    ∀ r v₃, (w.finish age).on v₂ = (.ok r, v₃) →
      v₃.disk.read (t.descriptor.published.pathOf .data) = .ok (leftBytes log) ∧
      ∃ scanner, r.scanner.on v₃ = (.ok scanner, v₃) ∧
        (scanner.Yields (rowsOf log) ↔ ∀ a ∈ log, ¬ a.Torn) ∧
        ∀ before key row e after, log = before ++ ⟨.encoded key row, .error (.io e)⟩ :: after →
          (∀ a ∈ before, ¬ a.Torn) →
          scanner.rows =
            (scannedFrom 0 (rowsOf before), some (.io (.decode (.rowSize Record.rowSizePlaceholder)))) := by
  obtain ⟨hd, htried, hdata, hindex, -⟩ := tried_of_attempts hcurrent hcreate hruns hframed
  obtain ⟨index, hcarries⟩ := htried.grown.carries
  refine ⟨fun hnames => hcarries.finish_of_create hd hnames age, fun r v₃ hfinish => ?_⟩
  obtain ⟨hdescriptor, hhosts, hshows⟩ := hcarries.shows_of_finish hd hdata hindex hfinish
  refine ⟨hshows.read_eq_ok hhosts rfl, Scanner.start .long (leftBytes log), ?_, ?_, ?_⟩
  · rw [Reader.scanner, hdescriptor]
    exact Reader.on_scanTable hd.published (hhosts .data) (hshows .data)
  · rw [Scanner.yields_start_iff (htried.fits hlength) hlength, leftBytes_eq_dataBytes_iff htried.torn]
  · intro before key row e after hlog hbefore
    exact htried.rows_of_torn hlength hlog hbefore

/-- On a disk that was free for the table, every name of it can be used. -/
theorem Tried.usable {t : Terms} {w₀ : Writer} {v₀ v₁ : Volume} (hcurrent : t.descriptor.isCurrent = true)
    (htemporary : t.descriptor.temporary = true) (hfresh : t.descriptor.Fresh v₀.disk)
    (hcreate : t.create.on v₀ = (.ok w₀, v₁)) (h : w.Tried t.descriptor log disk)
    (hframe : v₀.disk.Frame (· ∉ t.places) disk) (c : Component) :
    (disk.create (t.descriptor.pathOf c)).isOk = true ∧
      (disk.create (t.descriptor.published.pathOf c)).isOk = true := by
  have hd := (Terms.wrote_create hcreate (of_decide_eq_true hcurrent)).1
  have hhosts₀ := hosts_of_fresh hcurrent hfresh hcreate
  have hhosts := hhosts₀.mono hframe.keeps
  obtain ⟨index, hcarries⟩ := h.grown.carries
  have husable : ∀ {d : Descriptor} {c : Component}, disk.Reaches (d.pathOf c) (d.place c) →
      disk.tree (d.place c) ≠ some .directory → (disk.create (d.pathOf c)).isOk = true := by
    intro d c hreach hfile
    obtain ⟨id, disk', hrun, -⟩ := Disk.create_eq_ok_of_reaches hreach hfile
    rw [hrun]
    rfl
  refine ⟨husable (hhosts c) ?_, husable (hhosts.published hd c) ?_⟩
  · by_cases hplace : t.descriptor.place c ∈ t.places
    · rw [Terms.places, List.mem_cons, List.mem_singleton] at hplace
      rw [ne_eq, Disk.tree_eq_directory_iff]
      rcases hplace with hplace | hplace
      · rw [hplace, hcarries.data.node]
        simp
      · rw [hplace, hcarries.index.output.node]
        simp
    · rw [hframe.tree _ hplace, hfresh.tree_eq_none hhosts₀]
      simp
  · rw [hframe.tree _ (by simp [Terms.places, Descriptor.published_place_ne hd htemporary c])]
    exact hfresh.not_directory hd hhosts₀ c

/-! ### An encoder that gives up between two rows

The row before it is given back. What it has left ends the scan there, and hides the row behind it. -/

def refusedLog : List Answer :=
  [⟨.value (.byteOrdered [97]) [120], .ok ()⟩,
    ⟨.encoded (.byteOrdered [98]) ⟨[[121]], .error (.refused "stopped")⟩,
      .error (.io (.encode (.refused "stopped")))⟩,
    ⟨.value (.byteOrdered [99]) [122], .ok ()⟩]

theorem attempts_refused {v₁ : Volume} (h : Terms.users.create.on .new = (.ok (Terms.users.start 0 1), v₁)) :
    ∃ w v₂, Attempts (Terms.users.start 0 1) v₁ refusedLog w v₂ := by
  obtain ⟨w₁, v₂, hcalls, hkey⟩ := Recovery.appends_user h
  obtain ⟨hd, hwrote, -⟩ := wrote_of_appends rfl h hcalls
  obtain - | ⟨hfirst, hnil⟩ := hcalls
  cases hnil
  have houtcome : (⟨[[121]], .error (.refused "stopped")⟩ : Encoding).outcome = .error (.refused "stopped") := rfl
  obtain ⟨data, v₃, hrefused, hholds, hend, hsame⟩ :=
    on_append_refused hwrote.data hwrote.dataEnd hkey houtcome
  have hne := data_ne_index hd
  have hstacked := hwrote.stacked.of_data hne hholds hend hsame
  have hkey' : ({ w₁ with data } : Writer).rejection? (.byteOrdered [99]) = none := by
    refine rejection?_eq_none_iff.mpr ⟨by decide, by decide, fun last hlast => ?_⟩
    change w₁.lastKey = some last at hlast
    rw [hwrote.lastKey] at hlast
    cases hlast
    decide
  obtain ⟨w₃, v₄, hlast, -⟩ := hstacked.on_attempt_ok hne (a := .value (.byteOrdered [99]) [122]) hkey' trivial
    fun key heq => by cases heq
  exact ⟨w₃, v₄, .cons hfirst (.cons hrefused (.cons hlast (.nil w₃ v₄)))⟩

theorem wellFramed_refused : ∀ a ∈ refusedLog, a.attempt.WellFramed := by
  intro a ha
  simp only [refusedLog, List.mem_cons, List.not_mem_nil, or_false] at ha
  rcases ha with rfl | rfl | rfl <;> trivial

theorem torn_refused : ¬ ∀ a ∈ refusedLog, ¬ a.Torn := by
  intro h
  exact h ⟨.encoded (.byteOrdered [98]) ⟨[[121]], .error (.refused "stopped")⟩,
    .error (.io (.encode (.refused "stopped")))⟩ (by simp [refusedLog]) ⟨_, rfl⟩

theorem scan_of_attempts_users :
    ∃ v₁ w v₂ r v₃ scanner, Terms.users.create.on .new = (.ok (Terms.users.start 0 1), v₁) ∧
      Attempts (Terms.users.start 0 1) v₁ refusedLog w v₂ ∧ (w.finish 0).on v₂ = (.ok r, v₃) ∧
      v₃.disk.read (Terms.users.descriptor.published.pathOf .data) = .ok (leftBytes refusedLog) ∧
      r.scanner.on v₃ = (.ok scanner, v₃) ∧ ¬ scanner.Yields (rowsOf refusedLog) := by
  obtain ⟨w, v₂, hruns⟩ := attempts_refused Terms.create_users
  obtain ⟨-, htried, -, -, hframe⟩ := tried_of_attempts rfl Terms.create_users hruns wellFramed_refused
  obtain ⟨hfinish, hscan⟩ := scan_of_attempts rfl Terms.create_users hruns wellFramed_refused (by decide) 0
  obtain ⟨r, v₃, hrun⟩ := hfinish (htried.usable rfl rfl Terms.fresh_users Terms.create_users hframe)
  obtain ⟨hread, scanner, hscanner, hiff, -⟩ := hscan r v₃ hrun
  exact ⟨_, w, v₂, r, v₃, scanner, Terms.create_users, hruns, hrun, hread, hscanner,
    fun hyields => torn_refused (hiff.mp hyields)⟩

/-- A call that failed takes the row of a later call with it, and leaves an error in its place. -/
theorem refused_row_hides_rest :
    ∃ v₁ w v₂ r v₃ scanner, Terms.users.create.on .new = (.ok (Terms.users.start 0 1), v₁) ∧
      Attempts (Terms.users.start 0 1) v₁ refusedLog w v₂ ∧ (w.finish 0).on v₂ = (.ok r, v₃) ∧
      rowsOf refusedLog = [⟨.byteOrdered [97], [120], none⟩, ⟨.byteOrdered [99], [122], none⟩] ∧
      r.scanner.on v₃ = (.ok scanner, v₃) ∧
      scanner.rows = ([(⟨[97], 0, 1, 12⟩, [120])], some (.io (.decode (.rowSize (-1))))) := by
  obtain ⟨w, v₂, hruns⟩ := attempts_refused Terms.create_users
  obtain ⟨hd, htried, hdata, hindex, hframe⟩ := tried_of_attempts rfl Terms.create_users hruns wellFramed_refused
  obtain ⟨index, hcarries⟩ := htried.grown.carries
  obtain ⟨r, v₃, hrun⟩ := hcarries.finish_of_create hd
    (htried.usable rfl rfl Terms.fresh_users Terms.create_users hframe) 0
  obtain ⟨hdescriptor, hhosts, hshows⟩ := hcarries.shows_of_finish hd hdata hindex hrun
  refine ⟨_, w, v₂, r, v₃, Scanner.start .long (leftBytes refusedLog), Terms.create_users, hruns, hrun, rfl, ?_, ?_⟩
  · rw [Reader.scanner, hdescriptor]
    exact Reader.on_scanTable hd.published (hhosts .data) (hshows .data)
  · have hbefore : ∀ a ∈ [(⟨.value (.byteOrdered [97]) [120], .ok ()⟩ : Answer)], ¬ a.Torn := by
      intro a ha
      rw [List.mem_singleton.mp ha]
      rintro ⟨e, he⟩
      cases he
    exact htried.rows_of_torn (by decide) rfl hbefore

end Writer

end SortedTable
