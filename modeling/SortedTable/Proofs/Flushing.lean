import SortedTable.Proofs.FailedAppends
import SortedTable.Proofs.Tenures

/-!
# What a flush publishes

A store begins a table for the first row that it is asked to append, before it looks at the row. So a flush has
nothing to publish only if no table could be begun, and it publishes an empty table if all rows were refused. What it
publishes is a new table of just the rows that were accepted. Main statement: `flush_publishes_accepted`.
-/

namespace SortedTable

open Descriptor Disk AppendedRow

variable {dir : Path} {table : String} {p : Partitioner} {puts : List Put} {put : Put} {disk disk' : Disk}
  {v v' : Volume}

namespace Writer

variable {w w' : Writer} {result : Except TableError Unit} {e : TableError}

theorem on_create_error {d : Descriptor} {keyCount : Nat} {metadata : TableMetadata} {config : Config}
    (hconfig : config.validate = .ok ()) (htable : ValidTable d.table)
    (hrun : (create d keyCount metadata p config).on v = (.error e, v')) : ∃ x, e = .io (.disk x) := by
  unfold create at hrun
  rw [hconfig] at hrun
  dsimp only at hrun
  rw [if_pos htable] at hrun
  rcases Action.on_bind_eq_error hrun with hindex | ⟨index, v₁, -, hrun⟩
  · rcases Action.on_bind_eq_error hindex with houtput | ⟨output, v₁, -, hpure⟩
    · exact Action.on_op_eq_error houtput
    · cases hpure
  · rcases Action.on_bind_eq_error hrun with hdata | ⟨data, v₂, -, hpure⟩
    · exact Action.on_op_eq_error hdata
    · cases hpure

/-- A put is accepted, or refused before a byte of it is written, or given up for the length of its value. -/
theorem append_cases (hrun : Work.on (w.append (p.decorate put.key) put.content.encode) v = ((result, w'), v')) :
    (result = .ok () ∧ put.value.length ≤ Row.maxInt32) ∨
      (∃ e, result = .error e ∧ (∀ x, e ≠ .io x) ∧ w' = w ∧ v' = v) ∨
        ∃ x : EncodeError, result = .error (.io (.encode x)) := by
  rcases hkey : w.rejection? (p.decorate put.key) with - | e
  · have hresult := result_of_passed (a := .encoded (p.decorate put.key) put.content.encode) hkey (by simp) v
    rw [attempt, hrun, Attempt.verdict] at hresult
    rcases houtcome : put.content.encode.outcome with x | n
    · rw [houtcome] at hresult
      exact .inr (.inr ⟨x, hresult⟩)
    · rw [houtcome] at hresult
      exact .inl ⟨hresult, Put.length_le_of_outcome houtcome⟩
  · rw [on_append_rejected hkey] at hrun
    cases hrun
    exact .inr (.inl ⟨e, rfl, rejection?_ne_io hkey, rfl, rfl⟩)

/-- A writer that has taken these puts and nothing else. -/
structure Took (p : Partitioner) (puts : List Put) (w : Writer) (disk : Disk) : Prop where
  valid : w.descriptor.Valid
  accepts : ∀ c ∈ [Component.data, .primaryIndex], Accepts w.descriptor.directory (w.descriptor.nameOf c)
  wrote : ∃ t : Terms, t.descriptor = w.descriptor ∧ w.Wrote t (puts.map (Put.row p)) disk

namespace Took

theorem of_create {t : Terms} (hcurrent : t.descriptor.version = currentVersion)
    (hrun : t.create.on v = (.ok w, v')) (p : Partitioner) : w.Took p [] v'.disk := by
  obtain ⟨hd, hwrote, hindex, hdata, -⟩ := Terms.wrote_create hrun hcurrent
  have hdescriptor := hwrote.descriptor
  refine ⟨hdescriptor ▸ hd, fun c hc => ?_, t, hdescriptor.symm, hwrote⟩
  rw [hdescriptor]
  simp only [List.mem_cons, List.not_mem_nil, or_false] at hc
  rcases hc with rfl | rfl
  · exact ((reaches_pathOf_iff hd).mp hdata).2
  · exact ((reaches_pathOf_iff hd).mp hindex).2

theorem append (h : w.Took p puts v.disk)
    (hrun : Work.on (w.append (p.decorate put.key) put.content.encode) v = ((.ok (), w'), v')) :
    w'.Took p (puts ++ [put]) v'.disk := by
  obtain ⟨t, hdescriptor, hwrote⟩ := h.wrote
  obtain ⟨hwrote', -⟩ := hwrote.call (hdescriptor ▸ h.valid) (c := put.call p) hrun
  have hsame : w'.descriptor = w.descriptor := hwrote'.descriptor.trans hdescriptor
  have hrows : (puts ++ [put]).map (Put.row p) = puts.map (Put.row p) ++ [(put.call p).row] := by
    rw [List.map_append]
    rfl
  refine ⟨hsame ▸ h.valid, hsame ▸ h.accepts, t, hdescriptor.trans hsame.symm, ?_⟩
  rw [hrows]
  exact hwrote'

theorem of_agrees (h : w.Took p puts disk) (hagrees : Agrees (· ∈ w.places) disk disk') : w.Took p puts disk' := by
  obtain ⟨t, hdescriptor, hwrote⟩ := h.wrote
  have hplace : ∀ c ∈ [Component.data, .primaryIndex], t.descriptor.place c ∈ w.places := by
    intro c hc
    rw [hdescriptor]
    exact List.mem_map_of_mem hc
  exact ⟨h.valid, h.accepts, t, hdescriptor, { hwrote with
    data := hagrees.holds (hplace .data (by decide)) hwrote.data
    index := ⟨hagrees.holds (hplace .primaryIndex (by decide)) hwrote.index.output, hwrote.index.atEnd⟩ }⟩

theorem fits (h : w.Took p puts disk) (hvalues : ∀ put ∈ puts, put.value.length ≤ Row.maxInt32) :
    ∀ row ∈ puts.map (Put.row p), row.Fits := by
  obtain ⟨t, -, hwrote⟩ := h.wrote
  intro row hrow
  obtain ⟨put, hput, rfl⟩ := List.mem_map.mp hrow
  have hkey := (hwrote.accepted _ hrow).2
  rw [Put.key_row] at hkey
  exact Put.fits_row hkey (hvalues put hput)

/-- The directory was there if the table could be finished, since two of its files are made only then. -/
theorem reaches_of_finish (h : w.Took p puts v.disk) {age : Nat} {r : Reader}
    (hrun : (w.finish age).on v = (.ok r, v')) :
    ∀ c ∈ [Component.data, .primaryIndex], v.disk.Reaches (w.descriptor.pathOf c) (w.descriptor.place c) := by
  obtain ⟨t, hdescriptor, hwrote⟩ := h.wrote
  obtain ⟨closed, v₁, hclose, -⟩ := Action.on_bind_eq_ok_iff.mp hrun
  have hcarries := hwrote.carries
  rw [hdescriptor] at hcarries
  obtain ⟨v₂, -, -, hsame, hiff⟩ := hcarries.on_close h.valid
  obtain ⟨-, v₃, hfilter, -⟩ := (hiff closed v₁).mp hclose
  have htouches : Touches (fun _ => True) v.disk v₂.disk := .of_sameBut hsame fun _ _ => trivial
  have hreach := htouches.reaches_iff.mp (Action.on_writeFile_component h.valid hfilter).1
  have hopens := ((reaches_pathOf_iff h.valid).mp hreach).1
  exact fun c hc => (reaches_pathOf_iff h.valid).mpr ⟨hopens, h.accepts c hc⟩

theorem serves_of_finish (h : w.Took p puts v.disk) {age : Nat} {r : Reader}
    (hrun : (w.finish age).on v = (.ok r, v')) :
    r.Serves v'.disk w.descriptor.published (puts.map (Put.row p)) ∧
      ∀ c, v'.disk.existsAt (w.descriptor.published.pathOf c) = true := by
  have hreaches := h.reaches_of_finish hrun
  obtain ⟨t, hdescriptor, hwrote⟩ := h.wrote
  rw [← hdescriptor] at hreaches
  obtain ⟨hserves, hshows, hhosts⟩ := hwrote.serves_of_finish (hdescriptor ▸ h.valid) (hreaches .data (by decide))
    (hreaches .primaryIndex (by decide)) hrun
  rw [← hdescriptor]
  exact ⟨hserves, fun c => by rw [hshows.existsAt hhosts]; rfl⟩

/-- A table whose names can all be used is finished, if no directory has one of its permanent names. -/
theorem finish_of_create (h : w.Took p puts v.disk)
    (hnames : ∀ c, (v.disk.create (w.descriptor.pathOf c)).isOk = true)
    (hfree : ∀ c, v.disk.tree (w.descriptor.published.place c) ≠ some .directory) (age : Nat) :
    ∃ r v', (w.finish age).on v = (.ok r, v') := by
  obtain ⟨t, hdescriptor, hwrote⟩ := h.wrote
  rw [← hdescriptor] at hnames hfree
  have hd : t.descriptor.Valid := hdescriptor ▸ h.valid
  refine hwrote.finish_of_create hd (fun c => ⟨hnames c, ?_⟩) age
  rcases hcreate : v.disk.create (t.descriptor.pathOf c) with e | found
  · have hok := hnames c
    rw [hcreate] at hok
    cases hok
  · have hreach := reaches_published hd (reaches_of_create hd hcreate)
    obtain ⟨id, disk, hmade, -⟩ := create_eq_ok_of_reaches hreach (hfree c)
    rw [hmade]
    rfl

end Took

end Writer

/-- A put that a store was asked to append, and how it answered. -/
structure Ask where
  put : Put
  result : Except StoreError Unit

namespace Ask

/-- No table could be begun for the put. -/
def Unbegun (a : Ask) : Prop := ∃ x : DiskError, a.result = .error (.table (.io (.disk x)))

/-- The row was written in part, because its value is too long. -/
def Torn (a : Ask) : Prop := ∃ x : EncodeError, a.result = .error (.table (.io (.encode x)))

def accepted (asks : List Ask) : List Put := (asks.filter (·.result.isOk)).map (·.put)

theorem accepted_concat (asks : List Ask) (a : Ask) :
    accepted (asks ++ [a]) = accepted asks ++ if a.result.isOk then [a.put] else [] := by
  rw [accepted, List.filter_append, List.map_append]
  rcases hresult : a.result with e | u
  · simp [hresult, Except.isOk, Except.toBool, accepted]
  · simp [hresult, Except.isOk, Except.toBool, accepted]

theorem accepted_of_unbegun {asks : List Ask} (h : ∀ a ∈ asks, a.Unbegun) : accepted asks = [] := by
  rw [accepted, List.map_eq_nil_iff, List.filter_eq_nil_iff]
  intro a ha hok
  obtain ⟨x, hx⟩ := h a ha
  rw [hx] at hok
  cases hok

end Ask

namespace Store

open Ask

variable {s s' s₁ : Store} {w w' : Writer} {v₁ : Volume} {asks : List Ask} {result : Except StoreError Unit}

/-- What a store has at hand when it takes a writer: the one that it had, or a new one. -/
structure Takes (s : Store) (v : Volume) (w : Writer) (s₁ : Store) (v₁ : Volume) : Prop where
  run : Work.on s.takeWriter v = ((.ok w, s₁), v₁)
  config : s₁.config = s.config
  partitioner : s₁.partitioner = s.partitioner
  begun : s.writer = none → w.Took s.partitioner [] v₁.disk
  kept : ∀ x, s.writer = some x → x = w ∧ v₁ = v

theorem takeWriter_cases (hconfig : s.config.validate = .ok ()) (htable : ValidTable s.metadata.name) (v : Volume) :
    (s.writer = none ∧ ∃ (x : DiskError) (v₁ : Volume), Work.on s.takeWriter v =
        ((.error (.table (.io (.disk x))), { s with nextGeneration := s.nextGeneration + 1 }), v₁)) ∨
      ∃ w s₁ v₁, Takes s v w s₁ v₁ := by
  by_cases hw : s.writer = none
  · rcases hcreate : (Writer.create s.nextDescriptor expectedKeys s.metadata s.partitioner s.config).on v
      with ⟨e | w, v₁⟩
    · obtain ⟨x, rfl⟩ := Writer.on_create_error hconfig htable hcreate
      exact .inl ⟨hw, x, v₁, on_takeWriter_idle hw hcreate⟩
    · refine .inr ⟨w, _, v₁, on_takeWriter_idle hw hcreate, rfl, rfl, fun _ => ?_, fun x hx => ?_⟩
      · exact .of_create (t := ⟨s.nextDescriptor, expectedKeys, s.metadata, s.partitioner, s.config⟩) rfl hcreate _
      · rw [hw] at hx
        cases hx
  · obtain ⟨w, hsome⟩ := Option.ne_none_iff_exists'.mp hw
    refine .inr ⟨w, s, v, on_takeWriter_writing hsome, rfl, rfl, fun hnone => absurd hnone hw, fun x hx => ?_⟩
    exact ⟨Option.some.inj (hx.symm.trans hsome), rfl⟩

/-- What a store has at hand between two flushes, by what it was asked to append since the last one. -/
structure Pending (s : Store) (disk : Disk) (asks : List Ask) : Prop where
  config : s.config.validate = .ok ()
  idle : s.writer = none ↔ ∀ a ∈ asks, a.Unbegun
  values : ∀ put ∈ accepted asks, put.value.length ≤ Row.maxInt32
  took : (∀ a ∈ asks, ¬ a.Torn) → ∀ w, s.writer = some w → w.Took s.partitioner (accepted asks) disk

namespace Pending

theorem of_idle (hconfig : s.config.validate = .ok ()) (hw : s.writer = none) (disk : Disk) : s.Pending disk [] where
  config := hconfig
  idle := iff_of_true hw fun _ ha => absurd ha List.not_mem_nil
  values := fun _ hput => absurd hput List.not_mem_nil
  took := fun _ w hsome => by
    rw [hw] at hsome
    cases hsome

/-- The writer stays at hand after an append, so that the table was begun. -/
theorem concat (h : s.Pending disk asks) {a : Ask} (hconfig : s'.config.validate = .ok ()) (hw : s'.writer = some w)
    (hbegun : ¬ a.Unbegun) (hvalue : a.result.isOk = true → a.put.value.length ≤ Row.maxInt32)
    (htook : (∀ b ∈ asks ++ [a], ¬ b.Torn) → w.Took s'.partitioner (accepted (asks ++ [a])) disk') :
    s'.Pending disk' (asks ++ [a]) := by
  refine ⟨hconfig, iff_of_false (by simp [hw]) fun hall => ?_, fun put hput => ?_, fun hwhole x hx => ?_⟩
  · exact hbegun (hall a (List.mem_append_right _ (List.mem_singleton_self a)))
  · rw [accepted_concat, List.mem_append] at hput
    rcases hput with hput | hput
    · exact h.values put hput
    · split at hput
      · rename_i hok
        obtain rfl := List.mem_singleton.mp hput
        exact hvalue hok
      · cases hput
  · obtain rfl := Option.some.inj (hw.symm.trans hx)
    exact htook hwhole

/-- An append that gets a writer: it is accepted, or refused before a byte is written, or given up in its row. -/
theorem on_taken (h : s.Pending v.disk asks) (htakes : Takes s v w s₁ v₁) {given : Except TableError Unit}
    (hrun : Work.on (w.append (s₁.partitioner.decorate put.key) put.content.encode) v₁ = ((given, w'), v')) :
    Pending { s₁ with writer := some w' } v'.disk (asks ++ [⟨put, given.mapError .table⟩]) := by
  have htook : (∀ b ∈ asks ++ [⟨put, given.mapError .table⟩], ¬ b.Torn) →
      w.Took s₁.partitioner (accepted asks) v₁.disk := by
    intro hwhole
    rw [htakes.partitioner]
    rcases hw : s.writer with - | x
    · rw [accepted_of_unbegun (h.idle.mp hw)]
      exact htakes.begun hw
    · obtain ⟨rfl, rfl⟩ := htakes.kept x hw
      exact h.took (fun b hb => hwhole b (List.mem_append_left _ hb)) x hw
  have hconfig : s₁.config.validate = .ok () := htakes.config ▸ h.config
  obtain ⟨rfl, hvalue⟩ | ⟨e, rfl, hrefused, rfl, rfl⟩ | ⟨x, rfl⟩ := Writer.append_cases hrun
  case inl =>
    refine h.concat hconfig rfl (by rintro ⟨x, ⟨⟩⟩) (fun _ => hvalue) fun hwhole => ?_
    rw [accepted_concat]
    exact (htook hwhole).append hrun
  case inr.inl =>
    refine h.concat hconfig rfl ?_ (by rintro ⟨⟩) fun hwhole => ?_
    · rintro ⟨x, hx⟩
      cases hx
      exact hrefused _ rfl
    · rw [accepted_concat]
      exact (List.append_nil (accepted asks)).symm ▸ htook hwhole
  case inr.inr =>
    refine h.concat hconfig rfl (by rintro ⟨_, ⟨⟩⟩) (by rintro ⟨⟩) fun hwhole => ?_
    exact absurd ⟨x, rfl⟩ (hwhole _ (List.mem_append_right _ (List.mem_singleton_self _)))

theorem append (h : s.Pending v.disk asks) (htable : ValidTable s.metadata.name)
    (hrun : Work.on (s.append put.key put.value put.timestamp) v = ((result, s'), v')) :
    s'.Pending v'.disk (asks ++ [⟨put, result⟩]) := by
  obtain ⟨hw, x, v₁, htake⟩ | ⟨w, s₁, v₁, htakes⟩ := takeWriter_cases h.config htable v
  · rw [on_append_of_take_error htake] at hrun
    cases hrun
    have hall : ∀ a ∈ asks ++ [⟨put, .error (.table (.io (.disk x)))⟩], a.Unbegun := by
      intro a ha
      rcases List.mem_append.mp ha with ha | ha
      · exact h.idle.mp hw a ha
      · exact List.mem_singleton.mp ha ▸ ⟨x, rfl⟩
    refine ⟨h.config, iff_of_true hw hall, fun put' hput' => ?_, fun _ w hsome => ?_⟩
    · rw [accepted_of_unbegun hall] at hput'
      cases hput'
    · cases hw.symm.trans hsome
  · rcases hput : Work.on (w.append (s₁.partitioner.decorate put.key) put.content.encode) v₁ with ⟨⟨given, w'⟩, v₂⟩
    rw [on_append_of_take htakes.run hput] at hrun
    cases hrun
    exact h.on_taken htakes hput

/-- What happens to other tables leaves the writer as it is. -/
theorem of_tables (h : s.Pending disk asks) (tables : SortedMap Nat Reader)
    (hagrees : ∀ w, s.writer = some w → Agrees (· ∈ w.places) disk disk') :
    Pending { s with tables } disk' asks where
  config := h.config
  idle := h.idle
  values := h.values
  took := fun hwhole w hw => (h.took hwhole w hw).of_agrees (hagrees w hw)

end Pending

theorem finish_of_on_flush (hw : s.writer = some w) {now : Nat} {r : Reader}
    (hflush : Work.on (s.flush now) v = ((.ok (some r), s'), v')) : (w.finish now).on v = (.ok r, v') ∧
      s' = { s with writer := none, tables := s.tables.insert r.descriptor.generation r } := by
  rcases hfinish : (w.finish now).on v with ⟨e | r', v₁⟩
  · rw [on_flush_of_finish_error hw hfinish] at hflush
    cases hflush
  · rw [on_flush_of_finish hw hfinish] at hflush
    cases hflush
    exact ⟨rfl, rfl⟩

theorem on_flush_eq_none_iff {now : Nat} : (Work.on (s.flush now) v).1.1 = .ok none ↔ s.writer = none := by
  refine ⟨fun hnone => ?_, fun hw => by rw [Ahead.on_flush_idle hw]⟩
  by_contra hne
  obtain ⟨w, hw⟩ := Option.ne_none_iff_exists'.mp hne
  rcases hfinish : (w.finish now).on v with ⟨e | r, v'⟩
  · rw [on_flush_of_finish_error hw hfinish] at hnone
    cases hnone
  · rw [on_flush_of_finish hw hfinish] at hnone
    cases hnone

theorem settled_of_on_flush {now : Nat} {given : Except StoreError (Option Reader)}
    (hflush : Work.on (s.flush now) v = ((given, s'), v')) : ∃ tables, s' = { s with tables, writer := none } := by
  rcases hw : s.writer with - | w
  · rw [Ahead.on_flush_idle hw] at hflush
    cases hflush
    exact ⟨s.tables, by rw [← hw]⟩
  · rcases hfinish : (w.finish now).on v with ⟨e | r, v₁⟩
    · rw [on_flush_of_finish_error hw hfinish] at hflush
      cases hflush
      exact ⟨_, rfl⟩
    · rw [on_flush_of_finish hw hfinish] at hflush
      cases hflush
      exact ⟨_, rfl⟩

theorem settled_of_on_abort {given : Option Descriptor} (habort : Work.on s.abort v = ((given, s'), v')) :
    s' = { s with writer := none } := by
  unfold abort at habort
  rcases hw : s.writer with - | w
  · rw [hw] at habort
    cases habort
    rw [← hw]
  · rw [hw] at habort
    cases habort
    rfl

/-- What a store was asked to append since it was opened, and since it was flushed or given up the last time. Before
it was opened, anything may have happened to the directory. -/
inductive Asked (dir : Path) (table : String) (origin : Volume) : Store → Volume → List Ask → Prop
  | opened {v v' : Volume} {started : List Nat} {partitioner : Partitioner} {config : Config} {now : Nat} {s : Store}
      (before : Relation.ReflTransGen (Turn dir table) ⟨none, origin, []⟩ ⟨none, v, started⟩)
      (run : (openAll dir table partitioner config now).on v = (.ok s, v'))
      (fits : s.nextGeneration < Decimal.limit64) : Asked dir table origin s v' []
  | append {s s' : Store} {v v' : Volume} {asks : List Ask} {put : Put} {result : Except StoreError Unit}
      (before : Asked dir table origin s v asks)
      (run : Work.on (s.append put.key put.value put.timestamp) v = ((result, s'), v'))
      (fits : s'.nextGeneration < Decimal.limit64) : Asked dir table origin s' v' (asks ++ [⟨put, result⟩])
  | flush {s s' : Store} {v v' : Volume} {asks : List Ask} {now : Nat} {result : Except StoreError (Option Reader)}
      (before : Asked dir table origin s v asks) (run : Work.on (s.flush now) v = ((result, s'), v')) :
      Asked dir table origin s' v' []
  | abort {s s' : Store} {v v' : Volume} {asks : List Ask} {given : Option Descriptor}
      (before : Asked dir table origin s v asks) (run : Work.on s.abort v = ((given, s'), v')) :
      Asked dir table origin s' v' []
  | recover {s s' : Store} {v v' : Volume} {asks : List Ask} {now : Nat} {result : Except StoreError (List Nat)}
      (before : Asked dir table origin s v asks) (run : Work.on (s.recover now) v = ((result, s'), v')) :
      Asked dir table origin s' v' asks

/-- Recovering tables that wait leaves the store as it is but for the tables, and the files of its writer too. -/
theorem agrees_recoverAll {started : List Nat} (h : Tenure.Orderly dir table ⟨some s, v, started⟩)
    {ds : List Descriptor} (hds : ∀ d ∈ ds, s.Waiting dir table d) {recovered : List Nat} {now : Nat}
    {given : Except StoreError (List Nat)}
    (hrun : Work.on (recoverAll now ds recovered s) v = ((given, s'), v')) :
    ∃ tables, s' = { s with tables } ∧ ∀ w, s.writer = some w → Agrees (· ∈ w.places) v.disk v'.disk := by
  induction ds generalizing s v recovered with
  | nil =>
      cases hrun
      exact ⟨_, rfl, fun w _ => .refl _ _⟩
  | cons d rest ih =>
      have hd := hds d List.mem_cons_self
      rcases hfirst : (Recovery.recoverAndOpen d (Recovery.rebuild s.partitioner s.config) s.metadata s.partitioner
        s.config now).on v with ⟨first, v₁⟩
      have hone : ∀ w, s.writer = some w → Agrees (· ∈ w.places) v.disk v₁.disk := by
        intro w hw
        obtain ⟨g, -, halone⟩ := (h.ahead s rfl).writing w hw
        have hne := hd.generation_ne hw halone
        refine (h.tends_recoverOne hd hfirst).agrees.mono fun q hq => ?_
        obtain ⟨c, rfl⟩ := Writer.mem_places halone.descriptor hq
        exact beside_numbered (h.ahead s rfl).validTable hne true c
      rcases first with e | r
      · rw [on_recoverAll_cons_error hfirst] at hrun
        cases hrun
        exact ⟨_, rfl, hone⟩
      · rw [on_recoverAll_cons hfirst] at hrun
        obtain ⟨tables, rfl, hrest⟩ := ih (h.on_recoverOne hd hfirst _)
          (fun d' hd' => (hds d' (List.mem_cons_of_mem _ hd')).of_tables _) hrun
        exact ⟨tables, rfl, fun w hw => (hone w hw).trans (hrest w hw)⟩

namespace Asked

variable {origin : Volume}

theorem turns (h : Asked dir table origin s v asks) :
    ∃ started, Relation.ReflTransGen (Turn dir table) ⟨none, origin, []⟩ ⟨some s, v, started⟩ := by
  induction h with
  | opened before run fits => exact ⟨_, before.tail (.opened run fits)⟩
  | append _ run fits ih =>
      obtain ⟨started, hturns⟩ := ih
      exact ⟨_, hturns.tail (.append run fits)⟩
  | flush _ run ih =>
      obtain ⟨started, hturns⟩ := ih
      exact ⟨_, hturns.tail (.flush run)⟩
  | abort _ run ih =>
      obtain ⟨started, hturns⟩ := ih
      exact ⟨_, hturns.tail (.abort run)⟩
  | recover _ run ih =>
      obtain ⟨started, hturns⟩ := ih
      exact ⟨_, hturns.tail (.recover run)⟩

theorem orderly (hproper : origin.disk.Proper dir) (h : Asked dir table origin s v asks) :
    ∃ started, Tenure.Orderly dir table ⟨some s, v, started⟩ := by
  obtain ⟨started, hturns⟩ := h.turns
  exact ⟨started, (Tenure.Orderly.start hproper).turns hturns⟩

theorem pending (hproper : origin.disk.Proper dir) (h : Asked dir table origin s v asks) :
    s.Pending v.disk asks := by
  induction h with
  | opened before run fits =>
      obtain ⟨hconfig, -, -, files, -, hfold⟩ := openAll_eq_ok (a := ⟨dir, table, _, _⟩) run
      obtain ⟨-, tables, next, rfl, -⟩ := foldlM_openFound_eq_ok hfold
      exact .of_idle hconfig rfl _
  | append before run fits ih =>
      obtain ⟨started, horderly⟩ := before.orderly hproper
      have hahead := horderly.ahead _ rfl
      refine ih.append ?_ run
      rw [hahead.metadata]
      exact hahead.validTable
  | flush _ run ih =>
      obtain ⟨tables, rfl⟩ := settled_of_on_flush run
      refine .of_idle ?_ rfl _
      exact ih.config
  | abort _ run ih =>
      obtain rfl := settled_of_on_abort run
      refine .of_idle ?_ rfl _
      exact ih.config
  | recover before run ih =>
      obtain ⟨started, horderly⟩ := before.orderly hproper
      obtain ⟨rfl, rfl⟩ | ⟨ds, hds, hall⟩ := horderly.recover_cases run
      · exact ih
      · obtain ⟨tables, rfl, hagrees⟩ := agrees_recoverAll horderly hds hall
        exact ih.of_tables tables hagrees

end Asked

/-- A flush publishes a new table, opens it, and finds these puts in it and nothing else. -/
structure Flushed (s : Store) (v : Volume) (w : Writer) (puts : List Put) (r : Reader) (s' : Store) (v' : Volume) :
    Prop where
  descriptor : r.descriptor = w.descriptor.published
  absent : ∀ c, v.disk.existsAt (r.descriptor.pathOf c) = false
  present : ∀ c, v'.disk.existsAt (r.descriptor.pathOf c) = true
  opened : s'.table? r.descriptor.generation = some r
  rows : r.GivesBack v' (puts.map (Put.row s.partitioner))
  scan : (s'.scan r.descriptor.generation).on v' = (.ok (puts.map Put.pair), v')

theorem Pending.publishes (h : s.Pending v.disk asks) (hahead : s.Ahead dir table v.disk) (hw : s.writer = some w)
    (hwhole : ∀ a ∈ asks, ¬ a.Torn) {now : Nat} {r : Reader}
    (hflush : Work.on (s.flush now) v = ((.ok (some r), s'), v')) :
    Flushed s v w (accepted asks) r s' v' := by
  have htook := h.took hwhole w hw
  obtain ⟨hfinish, rfl⟩ := finish_of_on_flush hw hflush
  obtain ⟨hserves, hpresent⟩ := htook.serves_of_finish hfinish
  have hfits := htook.fits h.values
  have hopened : (s.tables.insert r.descriptor.generation r).get? r.descriptor.generation = some r := by
    rw [SortedMap.get?_insert, if_pos rfl]
  obtain ⟨g, -, halone⟩ := hahead.writing w hw
  constructor
  case descriptor => exact hserves.descriptor
  case absent =>
    intro c
    rw [hserves.descriptor]
    exact halone.existsAt_published hahead.validTable c
  case present =>
    rw [hserves.descriptor]
    exact hpresent
  case opened => exact hopened
  case rows => exact hserves.givesBack_of_fits htook.valid.published hfits
  case scan =>
    exact on_scan_of_puts hopened (hserves.on_scanner htook.valid.published) hfits h.values

/-- A flush has nothing to publish if and only if no table could be begun since the last one, and then it changes
nothing. Otherwise it publishes a new table of just the rows that were accepted since then, which are none if all were
refused. No row may have been given up for its length, and it takes that the names of the table can be used. -/
theorem flush_publishes_accepted {origin : Volume} (hproper : origin.disk.Proper dir)
    (h : Asked dir table origin s v asks) (now : Nat) :
    ((Work.on (s.flush now) v).1.1 = .ok none ↔ ∀ a ∈ asks, a.Unbegun) ∧
      ((∀ a ∈ asks, a.Unbegun) → Work.on (s.flush now) v = ((.ok none, s), v)) ∧
      ((¬ ∀ a ∈ asks, a.Unbegun) → (∀ a ∈ asks, ¬ a.Torn) → ∃ w, s.writer = some w ∧
        ((∀ c, (v.disk.create (w.descriptor.pathOf c)).isOk = true) →
          ∃ r s' v', Work.on (s.flush now) v = ((.ok (some r), s'), v')) ∧
        ∀ r s' v', Work.on (s.flush now) v = ((.ok (some r), s'), v') →
          Flushed s v w (accepted asks) r s' v') := by
  have hpending := h.pending hproper
  obtain ⟨started, horderly⟩ := h.orderly hproper
  have hahead := horderly.ahead s rfl
  refine ⟨on_flush_eq_none_iff.trans hpending.idle, fun hall => ?_, fun hbegun hwhole => ?_⟩
  · exact Ahead.on_flush_idle (hpending.idle.mpr hall) now
  · obtain ⟨w, hw⟩ := Option.ne_none_iff_exists'.mp fun hidle => hbegun (hpending.idle.mp hidle)
    refine ⟨w, hw, fun hnames => ?_, fun r s' v' => hpending.publishes hahead hw hwhole⟩
    obtain ⟨g, -, halone⟩ := hahead.writing w hw
    obtain ⟨r, v', hfinish⟩ := (hpending.took hwhole w hw).finish_of_create hnames
      (fun c => by rw [halone.tree_published hahead.validTable c]; simp) now
    exact ⟨r, _, v', on_flush_of_finish hw hfinish⟩

theorem vacant_users : usersSite.Vacant 1 usersVolume.disk := by
  refine vacant_of_empty rfl (by decide) listFiles_users (by decide) fun i hi c => ?_
  obtain rfl : i = 0 := by omega
  cases c <;> exact ⟨_, rfl⟩

def usersPut : Put := ⟨[98], [49], 0⟩

def keylessPut : Put := ⟨[], [120], 0⟩

theorem rejection?_keylessPut (w : Writer) (p : Partitioner) :
    w.rejection? (p.decorate keylessPut.key) = some .missingKey := by
  rw [Writer.rejection?, p.key_decorate, if_pos (show keylessPut.key = [] from rfl)]

/-- A put is accepted, and one without a key is refused. -/
theorem asked_users :
    ∃ s v b, Asked usersSite.dir usersSite.table .new s v
        [⟨usersPut, .ok ()⟩, ⟨keylessPut, .error (.table .missingKey)⟩] ∧
      Tracks usersSite 1 usersVolume.disk s v.disk b := by
  have ha := vacant_users
  obtain ⟨w, s, v, htake, htracks⟩ := (Tracks.initial usersSite 1 usersVolume.disk).on_takeWriter ha (by decide)
  obtain ⟨w', hw, hworks, -⟩ := htracks.exists_writer rfl
  obtain rfl : w = w' := Option.some.inj hw
  have hkey : w.rejection? (usersSite.partitioner.decorate usersPut.key) = none := by
    obtain ⟨t, -, hwrote⟩ := hworks.wrote
    refine Writer.rejection?_eq_none_iff.mpr ⟨by decide, by decide, fun last hlast => ?_⟩
    rw [hwrote.lastKey] at hlast
    cases hlast
  obtain ⟨w', v', hput, hworks', hframe⟩ :=
    hworks.on_put (ha.valid 0) rfl hkey (by decide) (by decide)
  have hpartitioner : s.partitioner = usersSite.partitioner := htracks.settings.partitioner
  rw [← hpartitioner] at hput
  have hfits : s.nextGeneration < Decimal.limit64 := by
    have hnext : s.nextGeneration = _ := htracks.next
    rw [hnext]
    decide
  have haccepted := on_append_of_take htake hput
  have hrefused := on_append_of_take (s := { s with writer := some w' }) (on_takeWriter_writing rfl)
    (Writer.on_append_rejected (rejection?_keylessPut w' s.partitioner) keylessPut.content.encode v')
  exact ⟨_, v', _, .append (.append (.opened .refl openAll_users (by decide)) haccepted hfits) hrefused hfits,
    htracks.added ha rfl (by decide) hframe hworks'⟩

theorem flush_publishes_accepted_users :
    ∃ s v r s' v', Disk.Proper usersSite.dir Volume.new.disk ∧
      Asked usersSite.dir usersSite.table .new s v
        [⟨usersPut, .ok ()⟩, ⟨keylessPut, .error (.table .missingKey)⟩] ∧
      Work.on (s.flush 0) v = ((.ok (some r), s'), v') ∧
      (s'.scan r.descriptor.generation).on v' = (.ok [([98], [49])], v') := by
  have hproper : Disk.Proper usersSite.dir Volume.new.disk := fun _ hpresent => absurd rfl hpresent
  obtain ⟨s, v, b, hasked, htracks⟩ := asked_users
  obtain ⟨given, s', v', hflush, -⟩ := htracks.on_flush vacant_users 0
  obtain ⟨hnone, -, hpublished⟩ := flush_publishes_accepted hproper hasked 0
  have hbegun : ¬ ∀ a ∈ [⟨usersPut, .ok ()⟩, ⟨keylessPut, .error (.table .missingKey)⟩], Unbegun a := by
    intro hall
    obtain ⟨x, ⟨⟩⟩ := hall _ List.mem_cons_self
  have hwhole : ∀ a ∈ [⟨usersPut, .ok ()⟩, ⟨keylessPut, .error (.table .missingKey)⟩], ¬ Torn a := by
    intro a ha
    simp only [List.mem_cons, List.not_mem_nil, or_false] at ha
    rcases ha with rfl | rfl <;> rintro ⟨x, ⟨⟩⟩
  rcases given with - | r
  · exact absurd (hnone.mp (congrArg (fun x => x.1.1) hflush)) hbegun
  · obtain ⟨w, -, -, hpublishes⟩ := hpublished hbegun hwhole
    exact ⟨s, v, r, s', v', hproper, hasked, hflush, (hpublishes r s' v' hflush).scan⟩

/-- The table is begun before the row is checked, so a row that is refused leaves a table without rows, and it is
published. -/
theorem refused_row_publishes_empty_table :
    ∃ s v r s' v', Work.on (usersSite.store.append keylessPut.key keylessPut.value keylessPut.timestamp) usersVolume =
        ((.error (.table .missingKey), s), v) ∧
      Asked usersSite.dir usersSite.table .new s v [⟨keylessPut, .error (.table .missingKey)⟩] ∧
      Work.on (s.flush 0) v = ((.ok (some r), s'), v') ∧ r.estimatedKeys = 0 := by
  have ha := vacant_users
  have hproper : Disk.Proper usersSite.dir Volume.new.disk := fun _ hpresent => absurd rfl hpresent
  obtain ⟨w, s, v, htake, htracks⟩ := (Tracks.initial usersSite 1 usersVolume.disk).on_takeWriter ha (by decide)
  have happend : Work.on (usersSite.store.append keylessPut.key keylessPut.value keylessPut.timestamp) usersVolume =
      ((.error (.table .missingKey), { s with writer := some w }), v) :=
    on_append_of_take htake (Writer.on_append_rejected (rejection?_keylessPut w s.partitioner) _ v)
  have hasked : Asked usersSite.dir usersSite.table .new { s with writer := some w } v
      ([] ++ [⟨keylessPut, .error (.table .missingKey)⟩]) := by
    refine .append (.opened .refl openAll_users (by decide)) happend ?_
    rw [htracks.next]
    decide
  obtain ⟨given, s', v', hflush, -⟩ := htracks.on_flush ha 0
  have hpending := hasked.pending hproper
  obtain ⟨started, horderly⟩ := hasked.orderly hproper
  rcases given with - | r
  · have hnone := on_flush_eq_none_iff.mp (congrArg (fun x => x.1.1) hflush)
    cases hnone
  · have hwhole : ∀ a ∈ [⟨keylessPut, .error (.table .missingKey)⟩], ¬ Torn a := by
      intro a ha
      rw [List.mem_singleton.mp ha]
      rintro ⟨x, ⟨⟩⟩
    have hpublishes := hpending.publishes (horderly.ahead _ rfl) rfl hwhole hflush
    exact ⟨_, v, r, s', v', happend, hasked, hflush, hpublishes.rows.estimatedKeys⟩

end Store

end SortedTable
