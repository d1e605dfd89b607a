import Mathlib.Logic.Relation
import SortedTable.Proofs.Ahead

namespace SortedTable

open Descriptor Disk

variable {dir : Path} {table : String} {g : Nat} {s s' : Store} {v v' : Volume}

namespace Store

/-- The generation of the table that was begun between two states of a store, if one was. -/
def begun (s s' : Store) : List Nat :=
  if s.writer.isNone then (s'.writer.map (·.descriptor.generation)).toList else []

theorem mem_begun_iff {n : Nat} :
    n ∈ s.begun s' ↔ s.writer = none ∧ ∃ w, s'.writer = some w ∧ w.descriptor.generation = n := by
  unfold begun
  cases s.writer <;> simp

end Store

/-- A directory over time: the store that is open on it, if one is, and the generations of all tables that were
begun, one after the other. -/
structure Tenure where
  store : Option Store
  volume : Volume
  started : List Nat

open Store in
/-- What happens to a directory that only one store at a time works on. Whatever fails, the store goes on, and one
that could not be opened can be opened again. A generation has 64 bits. -/
inductive Turn (dir : Path) (table : String) : Tenure → Tenure → Prop
  | opened {v v' : Volume} {started : List Nat} {partitioner : Partitioner} {config : Config} {now : Nat} {s : Store}
      (run : (openAll dir table partitioner config now).on v = (.ok s, v'))
      (fits : s.nextGeneration < Decimal.limit64) : Turn dir table ⟨none, v, started⟩ ⟨some s, v', started⟩
  | refused {v v' : Volume} {started : List Nat} {partitioner : Partitioner} {config : Config} {now : Nat}
      {e : StoreError} (run : (openAll dir table partitioner config now).on v = (.error e, v')) :
      Turn dir table ⟨none, v, started⟩ ⟨none, v', started⟩
  | append {s s' : Store} {v v' : Volume} {started : List Nat} {key value : Bytes} {timestamp : Int64}
      {result : Except StoreError Unit} (run : Work.on (s.append key value timestamp) v = ((result, s'), v'))
      (fits : s'.nextGeneration < Decimal.limit64) :
      Turn dir table ⟨some s, v, started⟩ ⟨some s', v', started ++ s.begun s'⟩
  | flush {s s' : Store} {v v' : Volume} {started : List Nat} {now : Nat}
      {result : Except StoreError (Option Reader)} (run : Work.on (s.flush now) v = ((result, s'), v')) :
      Turn dir table ⟨some s, v, started⟩ ⟨some s', v', started⟩
  | abort {s s' : Store} {v v' : Volume} {started : List Nat} {given : Option Descriptor}
      (run : Work.on s.abort v = ((given, s'), v')) : Turn dir table ⟨some s, v, started⟩ ⟨some s', v', started⟩
  | recover {s s' : Store} {v v' : Volume} {started : List Nat} {now : Nat}
      {result : Except StoreError (List Nat)} (run : Work.on (s.recover now) v = ((result, s'), v')) :
      Turn dir table ⟨some s, v, started⟩ ⟨some s', v', started⟩
  | close {s : Store} {v v' : Volume} {started : List Nat} (run : Work.on s.close v = ((), v')) :
      Turn dir table ⟨some s, v, started⟩ ⟨none, v', started⟩

namespace Tenure

/-- What holds of a directory at any time. -/
structure Orderly (dir : Path) (table : String) (t : Tenure) : Prop where
  proper : t.volume.disk.Proper dir
  ascending : t.started.Pairwise (· < ·)
  stored : ∀ g ∈ t.started, t.volume.disk.Has dir table g .data
  ahead : ∀ s, t.store = some s → s.Ahead dir table t.volume.disk

namespace Orderly

variable {started : List Nat}

theorem start (h : v.disk.Proper dir) : Orderly dir table ⟨none, v, []⟩ :=
  ⟨h, .nil, fun g hg => absurd hg List.not_mem_nil, fun s hs => by cases hs⟩

theorem of_tends (h : Orderly dir table ⟨some s, v, started⟩) (htends : Tends dir table g v.disk v'.disk)
    (hg : g < Decimal.limit64) (hahead : s'.Ahead dir table v'.disk) : Orderly dir table ⟨some s', v', started⟩ := by
  have htable := hahead.validTable
  refine ⟨htends.proper htable h.proper, h.ascending, fun n hn => htends.stored htable hg (h.stored n hn), ?_⟩
  rintro s'' ⟨⟩
  exact hahead

theorem closed (h : Orderly dir table ⟨some s, v, started⟩) : Orderly dir table ⟨none, v, started⟩ :=
  ⟨h.proper, h.ascending, h.stored, fun s hs => by cases hs⟩

theorem of_grows {store : Option Store} (h : Orderly dir table ⟨none, v, started⟩) (hgrows : Grows v.disk v'.disk)
    (hahead : ∀ s, store = some s → s.Ahead dir table v'.disk) : Orderly dir table ⟨store, v', started⟩ := by
  refine ⟨hgrows.proper h.proper, h.ascending, fun n hn => ?_, hahead⟩
  obtain ⟨name, hpresent, htells⟩ := h.stored n hn
  refine ⟨name, ?_, htells⟩
  change v'.disk.tree _ ≠ none
  rw [hgrows.keeps _ hpresent]
  exact hpresent

theorem opened (h : Orderly dir table ⟨none, v, started⟩) {partitioner : Partitioner} {config : Config} {now : Nat}
    (hrun : (Store.openAll dir table partitioner config now).on v = (.ok s, v'))
    (hfits : s.nextGeneration < Decimal.limit64) : Orderly dir table ⟨some s, v', started⟩ := by
  have hgrows := Store.within_openAll dir table partitioner config now v
  rw [Action.Within, hrun] at hgrows
  refine h.of_grows hgrows.last_of ?_
  rintro s' ⟨⟩
  obtain ⟨-, htable, -, files, hfiles, hfold⟩ := Store.openAll_eq_ok (a := ⟨dir, table, partitioner, config⟩) hrun
  obtain ⟨-, tables, next, rfl, -, hnext⟩ := Store.foldlM_openFound_eq_ok hfold
  obtain ⟨-, names, hlist, rfl⟩ := Store.listFiles_eq_ok hfiles
  obtain ⟨-, -, -, rfl⟩ := Disk.list_eq_ok hlist
  refine ⟨htable, rfl, rfl, hfits, ?_, fun w hw => by cases hw⟩
  rintro g c ⟨name, hpresent, d, hpath, hd, rfl⟩
  exact hnext ⟨d, c⟩ (Store.mem_filesAmong.mpr ⟨name, Disk.mem_namesIn_iff.mpr hpresent, hpath, hd⟩)

theorem append (h : Orderly dir table ⟨some s, v, started⟩) {key value : Bytes} {timestamp : Int64}
    {result : Except StoreError Unit} (hrun : Work.on (s.append key value timestamp) v = ((result, s'), v'))
    (hfits : s'.nextGeneration < Decimal.limit64) : Orderly dir table ⟨some s', v', started ++ s.begun s'⟩ := by
  have hahead := h.ahead s rfl
  obtain ⟨g, happended⟩ := hahead.exists_appended key value timestamp
  rw [hrun] at happended
  have htends := happended.along.last_of
  have hnext : g < s'.nextGeneration := happended.lt
  have hg := hnext.trans hfits
  have horderly := h.of_tends htends hg (hahead.advance htends happended.directory happended.metadata
    happended.le hnext hfits fun w hw => ⟨g, hnext, happended.writing w hw⟩)
  have hbegun : ∀ n ∈ s.begun s', n = s.nextGeneration ∧ v'.disk.Has dir table n .data := by
    intro n hn
    obtain ⟨hidle, w, hw, rfl⟩ := Store.mem_begun_iff.mp hn
    have halone := happended.writing w hw
    have hgeneration : w.descriptor.generation = g := by
      rw [halone.descriptor]
      rfl
    rw [hgeneration]
    exact ⟨happended.begun hidle, halone.present.stored hahead.validTable hg⟩
  refine ⟨horderly.proper, List.pairwise_append.mpr ⟨h.ascending, ?_, fun n hn m hm => ?_⟩, fun n hn => ?_,
    horderly.ahead⟩
  · unfold Store.begun
    split
    · cases s'.writer <;> simp
    · simp
  · rw [(hbegun m hm).1]
    exact hahead.ahead n .data (h.stored n hn)
  · rcases List.mem_append.mp hn with hn | hn
    · exact horderly.stored n hn
    · exact (hbegun n hn).2

theorem settled (h : Orderly dir table ⟨some s, v, started⟩) (htends : Tends dir table g v.disk v'.disk)
    (hlt : g < s.nextGeneration) (tables : SortedMap Nat Reader) :
    Orderly dir table ⟨some { s with tables, writer := none }, v', started⟩ := by
  have hahead := h.ahead s rfl
  exact h.of_tends htends (hlt.trans hahead.fits) (hahead.settled htends hlt tables)

theorem flush (h : Orderly dir table ⟨some s, v, started⟩) {now : Nat} {result : Except StoreError (Option Reader)}
    (hrun : Work.on (s.flush now) v = ((result, s'), v')) : Orderly dir table ⟨some s', v', started⟩ := by
  rcases hw : s.writer with - | w
  · rw [Store.Ahead.on_flush_idle hw] at hrun
    cases hrun
    exact h
  · obtain ⟨g, given, tables, v₁, hflush, hlt, -, halong⟩ := (h.ahead s rfl).on_flush hw now
    rw [hflush] at hrun
    cases hrun
    exact h.settled halong.last_of hlt tables

theorem abort (h : Orderly dir table ⟨some s, v, started⟩) {given : Option Descriptor}
    (hrun : Work.on s.abort v = ((given, s'), v')) : Orderly dir table ⟨some s', v', started⟩ := by
  rcases hw : s.writer with - | w
  · rw [Store.Ahead.on_abort_idle hw] at hrun
    cases hrun
    exact h
  · obtain ⟨g, v₁, habort, hlt, halong⟩ := (h.ahead s rfl).on_abort hw
    rw [habort] at hrun
    cases hrun
    exact h.settled halong.last_of hlt s.tables

theorem tends_recoverOne (h : Orderly dir table ⟨some s, v, started⟩) {d : Descriptor} (hd : s.Waiting dir table d)
    {now : Nat} {result : Except TableError Reader}
    (hrun : (Recovery.recoverAndOpen d (Recovery.rebuild s.partitioner s.config) s.metadata s.partitioner
      s.config now).on v = (result, v')) : Tends dir table d.generation v.disk v'.disk := by
  have halong := Recovery.tends_recoverAndOpen (h.ahead s rfl).validTable hd.twin
    (Recovery.confined_rebuild s.partitioner s.config d) s.metadata s.partitioner s.config now v
  rw [Action.Within, hrun] at halong
  exact halong.last_of

theorem on_recoverOne (h : Orderly dir table ⟨some s, v, started⟩) {d : Descriptor} (hd : s.Waiting dir table d)
    {now : Nat} {result : Except TableError Reader}
    (hrun : (Recovery.recoverAndOpen d (Recovery.rebuild s.partitioner s.config) s.metadata s.partitioner
      s.config now).on v = (result, v')) (tables : SortedMap Nat Reader) :
    Orderly dir table ⟨some { s with tables }, v', started⟩ := by
  have hahead := h.ahead s rfl
  have htends := h.tends_recoverOne hd hrun
  refine h.of_tends htends (hd.lt.trans hahead.fits)
    (hahead.advance htends rfl rfl (Nat.le_refl _) hd.lt hahead.fits ?_)
  intro w hw
  obtain ⟨g, hlt, halone⟩ := hahead.writing w hw
  exact ⟨g, hlt, halone.of_tends hahead.validTable (hd.generation_ne hw halone) htends⟩

theorem on_recoverAll (h : Orderly dir table ⟨some s, v, started⟩) {ds : List Descriptor}
    (hds : ∀ d ∈ ds, s.Waiting dir table d) {recovered : List Nat} {now : Nat}
    {result : Except StoreError (List Nat)}
    (hrun : Work.on (Store.recoverAll now ds recovered s) v = ((result, s'), v')) :
    Orderly dir table ⟨some s', v', started⟩ := by
  induction ds generalizing s v recovered with
  | nil =>
      cases hrun
      exact h
  | cons d rest ih =>
      have hd := hds d List.mem_cons_self
      rcases hfirst : (Recovery.recoverAndOpen d (Recovery.rebuild s.partitioner s.config) s.metadata s.partitioner
        s.config now).on v with ⟨e | r, v₁⟩
      · rw [Store.on_recoverAll_cons_error hfirst] at hrun
        cases hrun
        exact h.on_recoverOne hd hfirst _
      · rw [Store.on_recoverAll_cons hfirst] at hrun
        exact ih (h.on_recoverOne hd hfirst _)
          (fun d' hd' => (hds d' (List.mem_cons_of_mem _ hd')).of_tables _) hrun

/-- A recovery stops at the names in the directory, or it takes up tables that wait. -/
theorem recover_cases (h : Orderly dir table ⟨some s, v, started⟩) {now : Nat} {result : Except StoreError (List Nat)}
    (hrun : Work.on (s.recover now) v = ((result, s'), v')) : (s' = s ∧ v' = v) ∨
      ∃ ds, (∀ d ∈ ds, s.Waiting dir table d) ∧ Work.on (Store.recoverAll now ds [] s) v = ((result, s'), v') := by
  have hahead := h.ahead s rfl
  rcases hlist : s.listFiles.on v with ⟨e | files, v₁⟩
  · have hsame := (Store.looks_listFiles s).eq hlist
    unfold Store.recover at hrun
    rw [Work.on_bind_of hlist] at hrun
    cases hrun
    exact .inl ⟨rfl, hsame⟩
  · obtain ⟨rfl, names, hnames, rfl⟩ := Store.listFiles_eq_ok hlist
    obtain ⟨-, -, -, rfl⟩ := Disk.list_eq_ok hnames
    rw [Store.on_recover_of_listed hlist, hahead.directory] at hrun
    exact .inr ⟨_, fun d hd => hahead.waiting_of_mem_unfinished h.proper hd, hrun⟩

theorem recover (h : Orderly dir table ⟨some s, v, started⟩) {now : Nat} {result : Except StoreError (List Nat)}
    (hrun : Work.on (s.recover now) v = ((result, s'), v')) : Orderly dir table ⟨some s', v', started⟩ := by
  obtain ⟨rfl, rfl⟩ | ⟨ds, hds, hall⟩ := h.recover_cases hrun
  · exact h
  · exact h.on_recoverAll hds hall

/-- Nothing that happens to a directory ends its order. -/
theorem turn {t t' : Tenure} (h : Orderly dir table t) (hturn : Turn dir table t t') : Orderly dir table t' := by
  cases hturn with
  | opened run fits => exact h.opened run fits
  | @refused v v' _ partitioner config now _ run =>
      have hgrows := Store.within_openAll dir table partitioner config now v
      rw [Action.Within, run] at hgrows
      exact h.of_grows hgrows.last_of fun s hs => by cases hs
  | append run fits => exact h.append run fits
  | flush run => exact h.flush run
  | abort run => exact h.abort run
  | recover run => exact h.recover run
  | @close s v v' _ run =>
      rcases habort : Work.on s.abort v with ⟨⟨given, s'⟩, v₁⟩
      rw [Store.on_close_of_abort habort] at run
      cases run
      exact (h.abort habort).closed

theorem turns {t t' : Tenure} (h : Orderly dir table t) (hturns : Relation.ReflTransGen (Turn dir table) t t') :
    Orderly dir table t' := by
  induction hturns with
  | refl => exact h
  | tail _ hturn ih => exact ih.turn hturn

end Orderly

end Tenure

namespace Store

/-- No generation is used twice. However a directory is used by one store after the other, an open store counts on
above the generation of everything in it that is named for one of its tables, and of all tables that were begun,
whose generations ascend. So the names are free that a new table will get, and those that the table at hand will be
published under; and neither appending nor flushing changes or removes anything that was there, on any disk that
it passes, but for the two files of the table at hand. -/
theorem generation_never_reused {t : Tenure} (hproper : v.disk.Proper dir)
    (hturns : Relation.ReflTransGen (Turn dir table) ⟨none, v, []⟩ t) :
    t.started.Pairwise (· < ·) ∧ ∀ s, t.store = some s →
      (∀ name d c, t.volume.disk.tree (dir.home ++ [name]) ≠ none → ofPath? (dir.join ⟨name⟩) = some (d, c) →
        d.table = table → d.generation < s.nextGeneration) ∧
      (∀ g ∈ t.started, g < s.nextGeneration) ∧
      (s.writer = none → ∀ temporary c,
        t.volume.disk.existsAt ((s.nextDescriptor.asTemporary temporary).pathOf c) = false) ∧
      (∀ w, s.writer = some w → ∀ c, t.volume.disk.existsAt (w.descriptor.published.pathOf c) = false) ∧
      (∀ key value timestamp, Work.Within (Agrees fun p => t.volume.disk.tree p ≠ none ∧ p ∉ s.own)
        (s.append key value timestamp) t.volume) ∧
      ∀ now, Work.Within (Agrees fun p => t.volume.disk.tree p ≠ none ∧ p ∉ s.own) (s.flush now) t.volume := by
  have hstart : Tenure.Orderly dir table ⟨none, v, []⟩ :=
    ⟨hproper, .nil, fun g hg => absurd hg List.not_mem_nil, fun s hs => by cases hs⟩
  have h := hstart.turns hturns
  refine ⟨h.ascending, fun s hs => ?_⟩
  have hahead := h.ahead s hs
  refine ⟨?_, fun g hg => hahead.ahead g .data (h.stored g hg), fun _ temporary c => ?_, fun w hw c => ?_, ?_, ?_⟩
  · intro name d c hpresent hpath hd
    exact hahead.ahead _ c ⟨name, hpresent, d, hpath, hd, rfl⟩
  · rw [hahead.nextDescriptor_eq]
    exact hahead.sole_next.existsAt hahead.validTable temporary c List.not_mem_nil
  · obtain ⟨g, -, halone⟩ := hahead.writing w hw
    rw [halone.descriptor]
    refine halone.sole.existsAt hahead.validTable false c fun hown => ?_
    obtain ⟨c', hc'⟩ := Writer.mem_places halone.descriptor hown
    exact published_place_ne (valid_numbered hahead.validTable dir g) rfl c c' hc'
  · intro key value timestamp
    obtain ⟨g, happended⟩ := hahead.exists_appended key value timestamp
    exact Volume.Along.mono happended.along fun _ => happended.sole.agrees_of_tends
  · intro now
    rcases hw : s.writer with - | w
    · rw [Work.Within, Ahead.on_flush_idle hw]
      exact .refl _ _
    · obtain ⟨g, result, tables, v', hflush, -, hsole, halong⟩ := hahead.on_flush hw now
      rw [Work.Within, hflush]
      exact Volume.Along.mono halong fun _ => hsole.agrees_of_tends

/-- An append to a store without a table at hand begins the next one, whatever becomes of the row. -/
theorem begun_of_on_append {w : Writer} {v₁ : Volume} {key value : Bytes} {timestamp : Int64}
    {result : Except StoreError Unit} (hvalid : s.nextDescriptor.Valid) (hidle : s.writer = none)
    (hcreate : (Writer.create s.nextDescriptor expectedKeys s.metadata s.partitioner s.config).on v = (.ok w, v₁))
    (hrun : Work.on (s.append key value timestamp) v = ((result, s'), v')) :
    s.begun s' = [s.nextDescriptor.generation] := by
  obtain ⟨hdescriptor, hsits⟩ := Writer.sits_of_on_create hvalid hcreate
  have hgoes := (Writer.stays_append hsits (s.partitioner.decorate key)
    (Row.empty.add valueColumn value timestamp).encode).goes
  rcases hrow : Work.on (w.append (s.partitioner.decorate key) (Row.empty.add valueColumn value timestamp).encode) v₁
    with ⟨⟨accepted, w'⟩, v₂⟩
  rw [hrow] at hgoes
  rw [on_append_of_take (on_takeWriter_idle hidle hcreate) hrow] at hrun
  cases hrun
  rw [begun, if_pos (by rw [hidle]; rfl)]
  exact congrArg (fun d => [d.generation]) (hgoes.descriptor.trans hdescriptor)

/-- A table is begun and given up, and the store is opened again. -/
theorem turns_users :
    ∃ s v, Relation.ReflTransGen (Turn usersSite.dir usersSite.table) ⟨none, .new, []⟩ ⟨some s, v, [1]⟩ ∧
      s.nextDescriptor = usersSite.slot 1 ∧ s.writer = none := by
  have hnames : ∀ i < 2, ∀ c, ∃ found, usersVolume.disk.create ((usersSite.slot i).pathOf c) = .ok found := by
    intro i hi c
    obtain rfl | rfl : i = 0 ∨ i = 1 := by omega
    · cases c <;> exact ⟨_, rfl⟩
    · cases c <;> exact ⟨_, rfl⟩
  have ha := vacant_of_empty rfl (by decide) listFiles_users (by decide) hnames
  have hvalue : (⟨[98], [49], 0⟩ : Put).value.length ≤ Row.maxInt32 := by decide
  obtain ⟨result, s₁, v₁, b, happend, htracks, hused, -⟩ :=
    (Tracks.initial usersSite 2 usersVolume.disk).on_append ha (by decide) hvalue (by decide)
  have hbegun : usersSite.store.begun s₁ = [1] := by
    obtain ⟨w, v, hcreate⟩ : ∃ w v, (Writer.create usersSite.store.nextDescriptor expectedKeys usersSite.metadata
        usersSite.partitioner usersSite.config).on usersVolume = (.ok w, v) := ⟨_, _, rfl⟩
    exact begun_of_on_append (ha.valid 0) rfl hcreate happend
  obtain ⟨given, s₂, v₂, habort, hsettled⟩ := htracks.on_abort ha
  obtain ⟨s₃, hopen, hagain⟩ := hsettled.on_openAll ha (hsettled.idle_of_writing rfl) 5
  have hnext : b.settled.used = 1 := by
    rw [Ledger.used_settled, hused]
    rfl
  refine ⟨s₃, v₂, ?_, ?_, hagain.idle_of_writing rfl⟩
  · have hfirst : Turn usersSite.dir usersSite.table ⟨none, .new, []⟩ ⟨some usersSite.store, usersVolume, []⟩ :=
      .opened openAll_users (by decide)
    have hsecond : Turn usersSite.dir usersSite.table ⟨some usersSite.store, usersVolume, []⟩ ⟨some s₁, v₁, [1]⟩ := by
      rw [← hbegun]
      refine .append happend ?_
      rw [htracks.next, hused]
      decide
    have hthird : Turn usersSite.dir usersSite.table ⟨some s₁, v₁, [1]⟩ ⟨none, v₂, [1]⟩ :=
      .close (on_close_of_abort habort)
    have hfourth : Turn usersSite.dir usersSite.table ⟨none, v₂, [1]⟩ ⟨some s₃, v₂, [1]⟩ := by
      refine .opened hopen ?_
      rw [hagain.next, hnext]
      decide
    exact .tail (.tail (.tail (.single hfirst) hsecond) hthird) hfourth
  · rw [hagain.nextDescriptor_eq, hnext]

theorem generation_never_reused_users :
    ∃ s v, Disk.Proper usersSite.dir Volume.new.disk ∧
      Relation.ReflTransGen (Turn usersSite.dir usersSite.table) ⟨none, .new, []⟩ ⟨some s, v, [1]⟩ ∧
      s.nextDescriptor = usersSite.slot 1 ∧
      ∀ temporary c, v.disk.existsAt (((usersSite.slot 1).asTemporary temporary).pathOf c) = false := by
  obtain ⟨s, v, hturns, hnext, hidle⟩ := turns_users
  have hproper : Disk.Proper usersSite.dir Volume.new.disk := fun _ hpresent => absurd rfl hpresent
  obtain ⟨-, hstore⟩ := generation_never_reused hproper hturns
  obtain ⟨-, -, hfree, -⟩ := hstore s rfl
  rw [hnext] at hfree
  exact ⟨s, v, hproper, hturns, hnext, hfree hidle⟩

end Store

end SortedTable
