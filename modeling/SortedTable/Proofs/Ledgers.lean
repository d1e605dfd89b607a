import SortedTable.Proofs.Keeping
import SortedTable.Proofs.Puts
import SortedTable.Proofs.Sites

/-!
# What a store has accepted

A ledger lists what a store has accepted, table by table. The disk, the readers, the writer and the counter of
the store keep in step with it, whatever is asked of the store. Main statements: one for each operation, as
`Tracks.on_append` and `Tracks.on_recover`.
-/

namespace SortedTable

open AppendedRow Writer

/-- What a store has put into the tables that it is done with, and into the one that it is writing. -/
structure Ledger where
  closed : List (List Put)
  writing : Option (List Put)

namespace Ledger

def tables (b : Ledger) : List (List Put) := b.closed ++ b.writing.toList

def puts (b : Ledger) : List Put := b.tables.flatten

def used (b : Ledger) : Nat := b.tables.length

/-- The same tables, with one that is being written. -/
def begun (b : Ledger) : Ledger := ⟨b.closed, some (b.writing.getD [])⟩

def added (b : Ledger) (put : Put) : Ledger := ⟨b.closed, some (b.writing.getD [] ++ [put])⟩

/-- The same tables, with none that is being written. -/
def settled (b : Ledger) : Ledger := ⟨b.tables, none⟩

variable (b : Ledger)

@[simp]
theorem tables_settled : b.settled.tables = b.tables := List.append_nil _

@[simp]
theorem puts_settled : b.settled.puts = b.puts := by rw [puts, tables_settled, puts]

@[simp]
theorem used_settled : b.settled.used = b.used := by rw [used, tables_settled, used]

theorem used_begun : b.begun.used = b.closed.length + 1 := by
  simp [used, tables, begun]

theorem used_added (put : Put) : (b.added put).used = b.closed.length + 1 := by
  simp [used, tables, added]

@[simp]
theorem puts_begun : b.begun.puts = b.puts := by
  obtain ⟨closed, - | writing⟩ := b <;> simp [puts, tables, begun]

@[simp]
theorem puts_added (put : Put) : (b.added put).puts = b.puts ++ [put] := by
  obtain ⟨closed, - | writing⟩ := b <;> simp [puts, tables, added]

end Ledger

namespace Store

variable {s s' : Store} {w w' : Writer} {v v' v₁ : Volume} {key value : Bytes} {timestamp : Int64} {now : Nat}

theorem on_takeWriter_idle (hw : s.writer = none) {result : Except TableError Writer}
    (hcreate : (Writer.create s.nextDescriptor expectedKeys s.metadata s.partitioner s.config).on v = (result, v₁)) :
    Work.on s.takeWriter v =
      ((result.mapError .table, { s with nextGeneration := s.nextGeneration + 1 }), v₁) := by
  unfold takeWriter
  rw [hw]
  exact Work.on_bind_of hcreate

theorem on_takeWriter_writing (hw : s.writer = some w) : Work.on s.takeWriter v = ((.ok w, s), v) := by
  unfold takeWriter
  rw [hw]
  rfl

theorem on_append_of_take (htake : Work.on s.takeWriter v = ((.ok w, s'), v₁)) {result : Except TableError Unit}
    (hrun : Work.on (w.append (s'.partitioner.decorate key) (Row.empty.add valueColumn value timestamp).encode) v₁ =
      ((result, w'), v')) :
    Work.on (s.append key value timestamp) v = ((result.mapError .table, { s' with writer := some w' }), v') := by
  unfold append
  rw [Work.on_bind_of htake]
  exact Work.on_bind_of hrun

theorem on_append_of_take_error {e : StoreError} (htake : Work.on s.takeWriter v = ((.error e, s'), v₁)) :
    Work.on (s.append key value timestamp) v = ((.error e, s'), v₁) := by
  unfold append
  exact Work.on_bind_of htake

theorem on_flush_of_finish (hw : s.writer = some w) {r : Reader}
    (hfinish : (w.finish now).on v = (.ok r, v')) : Work.on (s.flush now) v =
      ((.ok (some r), { s with writer := none, tables := s.tables.insert r.descriptor.generation r }), v') := by
  unfold flush
  rw [hw]
  exact Work.on_bind_of hfinish

theorem on_flush_of_finish_error (hw : s.writer = some w) {e : TableError}
    (hfinish : (w.finish now).on v = (.error e, v')) :
    Work.on (s.flush now) v = ((.error (.table e), { s with writer := none }), v') := by
  unfold flush
  rw [hw]
  exact Work.on_bind_of hfinish

theorem on_abort_of_drop (hw : s.writer = some w) (hdrop : Work.on w.drop v = ((), v')) :
    Work.on s.abort v = ((some w.descriptor, { s with writer := none }), v') := by
  unfold abort
  rw [hw]
  exact Work.on_bind_of hdrop

end Store

/-- A store with the settings of a site. -/
structure Store.Of (s : Store) (a : Site) : Prop where
  dir : s.dir = a.dir
  metadata : s.metadata = a.metadata
  partitioner : s.partitioner = a.partitioner
  config : s.config = a.config

theorem Store.Of.change {s : Store} {a : Site} (h : s.Of a) (tables : SortedMap Nat Reader)
    (writer : Option Writer) (nextGeneration : Nat) : Store.Of { s with tables, writer, nextGeneration } a :=
  ⟨h.dir, h.metadata, h.partitioner, h.config⟩

/-- The writer of a store, and what was put into its table. -/
inductive Busy (d : Descriptor) (p : Partitioner) (disk : Disk) : Option Writer → Option (List Put) → Prop
  | idle : Busy d p disk none none
  | writing {w : Writer} {puts : List Put} (works : Works d w disk (puts.map (Put.row p)) none)
      (unpublished : disk.tree (d.published.place .data) = none) : Busy d p disk (some w) (some puts)

theorem Busy.of_frame {d : Descriptor} {p : Partitioner} {disk disk' : Disk} {w : Option Writer}
    {puts : Option (List Put)} {outside : Place → Prop} (h : Busy d p disk w puts)
    (hframe : disk.Frame outside disk') (hspared : d.Spared outside) : Busy d p disk' w puts := by
  cases h with
  | idle => exact .idle
  | writing works unpublished =>
      refine .writing (works.of_frame hframe hspared) ?_
      rw [hframe.tree _ (hspared .data).2, unpublished]

/-- A store and a disk that are in step with a ledger. The disk was vacant before the first table was begun. -/
structure Tracks (a : Site) (bound : Nat) (origin : Disk) (s : Store) (disk : Disk) (b : Ledger) : Prop where
  settings : s.Of a
  frame : origin.Frame (a.Beyond b.used) disk
  within : b.used ≤ bound
  next : s.nextGeneration = b.used + 1
  kept : ∀ i puts, b.closed[i]? = some puts →
    Kept (a.slot i) (puts.map (Put.row a.partitioner)) [] disk (s.tables.get? (i + 1))
  opened : ∀ generation, (s.tables.get? generation).isSome = true →
    ∃ i < b.closed.length, generation = i + 1
  busy : Busy (a.slot b.closed.length) a.partitioner disk s.writer b.writing
  values : ∀ put ∈ b.puts, put.value.length ≤ Row.maxInt32

/-- The readers of all tables that are done with are open. -/
def Ledger.Open (b : Ledger) (s : Store) : Prop :=
  ∀ i < b.closed.length, (s.tables.get? (i + 1)).isSome = true

variable {a : Site} {bound : Nat} {origin : Disk} {s : Store} {v : Volume} {b : Ledger}

theorem Disk.Frame.beyond {disk disk' : Disk} {n m k : Nat} (h : origin.Frame (a.Beyond n) disk)
    (hframe : disk.Frame (a.slot k).Apart disk') (hk : k < m) (hle : n ≤ m) :
    origin.Frame (a.Beyond m) disk' :=
  (h.mono fun _ hp => hp.mono hle).trans (hframe.mono fun _ hp => hp k hk)

namespace Tracks

theorem nextDescriptor_eq (h : Tracks a bound origin s v.disk b) : s.nextDescriptor = a.slot b.used := by
  rw [Store.nextDescriptor, h.settings.dir, h.settings.metadata, h.next]
  rfl

/-- The table that is begun next has no file. -/
theorem stands_next (ha : a.Vacant bound origin) (h : Tracks a bound origin s v.disk b) (hroom : b.used < bound) :
    Stands (a.slot b.used) v.disk .bare := by
  have hnone := ha.tree_place_of_frame h.frame (Nat.le_refl b.used) hroom
  refine ⟨ha.hosts_of_frame h.frame hroom, fun c => ?_, hnone true, trivial⟩
  have hfile : v.disk.tree ((a.slot b.used).published.place c) = none := hnone false c
  simp [hfile]

theorem writing_of_idle (h : Tracks a bound origin s v.disk b) (hw : s.writer = none) : b.writing = none := by
  have hbusy := h.busy
  rw [hw] at hbusy
  generalize hwriting : b.writing = writing at hbusy
  cases hbusy
  rfl

theorem idle_of_writing (h : Tracks a bound origin s v.disk b) (hb : b.writing = none) : s.writer = none := by
  have hbusy := h.busy
  rw [hb] at hbusy
  generalize s.writer = writer at hbusy ⊢
  cases hbusy
  rfl

theorem on_create (ha : a.Vacant bound origin) (h : Tracks a bound origin s v.disk b) (hw : s.writer = none)
    (hroom : b.used < bound) :
    ∃ w v', (Writer.create s.nextDescriptor Store.expectedKeys s.metadata s.partitioner s.config).on v =
        (.ok w, v') ∧
      Tracks a bound origin { s with nextGeneration := s.nextGeneration + 1, writer := some w } v'.disk
        b.begun := by
  have hwriting := h.writing_of_idle hw
  have hused : b.used = b.closed.length := by simp [Ledger.used, Ledger.tables, hwriting]
  have hbegun := b.used_begun
  have hbare := h.stands_next ha hroom
  have hconfig : s.config.validate = .ok () := by
    rw [h.settings.config]
    exact ha.config
  obtain ⟨w, v', hcreate, hworks, hframe⟩ := hbare.on_create (ha.valid _) rfl Store.expectedKeys s.metadata
    s.partitioner hconfig
  have hapart : v.disk.Frame (a.slot b.used).Apart v'.disk := hframe.mono fun _ hp => hp.outside
  have hpublished : v'.disk.tree ((a.slot b.used).published.place .data) = none := by
    rw [hframe.tree _ (Descriptor.outside_published_place (ha.valid _) rfl _)]
    exact ha.tree_place_of_frame h.frame (Nat.le_refl _) hroom false .data
  refine ⟨w, v', by rwa [h.nextDescriptor_eq], ?_⟩
  exact {
    settings := h.settings.change _ _ _
    frame := h.frame.beyond hapart (by omega) (by omega)
    within := by omega
    next := by
      change s.nextGeneration + 1 = _
      rw [h.next, hbegun, hused]
    kept := by
      intro i puts hputs
      have hi : i < b.closed.length := (List.getElem?_eq_some_iff.mp hputs).1
      exact (h.kept i puts hputs).of_frame hapart (Site.spared_slot ha.validTable (by omega))
    opened := h.opened
    busy := by
      change Busy (a.slot b.closed.length) _ _ (some w) (some (b.writing.getD []))
      rw [hwriting, ← hused]
      exact .writing hworks hpublished
    values := by
      rw [Ledger.puts_begun]
      exact h.values }

theorem on_takeWriter (ha : a.Vacant bound origin) (h : Tracks a bound origin s v.disk b)
    (hroom : b.used < bound) :
    ∃ w s' v', Work.on s.takeWriter v = ((.ok w, s'), v') ∧
      Tracks a bound origin { s' with writer := some w } v'.disk b.begun := by
  rcases hw : s.writer with - | w
  · obtain ⟨w, v', hcreate, htracks⟩ := h.on_create ha hw hroom
    exact ⟨w, _, v', Store.on_takeWriter_idle hw hcreate, htracks⟩
  · have hsame : { s with writer := some w } = s := by rw [← hw]
    have hbegun : b.begun = b := by
      have hbusy := h.busy
      rw [hw] at hbusy
      obtain ⟨closed, writing⟩ := b
      cases hbusy
      rfl
    refine ⟨w, s, v, Store.on_takeWriter_writing hw, ?_⟩
    rw [hsame, hbegun]
    exact h

theorem exists_writer (h : Tracks a bound origin s v.disk b) {puts : List Put} (hb : b.writing = some puts) :
    ∃ w, s.writer = some w ∧
      Works (a.slot b.closed.length) w v.disk (puts.map (Put.row a.partitioner)) none ∧
      v.disk.tree ((a.slot b.closed.length).published.place .data) = none := by
  have hbusy := h.busy
  rw [hb] at hbusy
  generalize hw : s.writer = writer at hbusy
  cases hbusy with
  | writing works unpublished => exact ⟨_, rfl, works, unpublished⟩

end Tracks

theorem Writer.on_append_rejected {w : Writer} {key : DecoratedKey} {e : TableError}
    (h : w.rejection? key = some e) (row : Encoding) (v : Volume) :
    Work.on (w.append key row) v = ((.error e, w), v) :=
  on_attempt_rejected (a := .encoded key row) h v

theorem Works.on_put {d : Descriptor} {p : Partitioner} {w : Writer} {puts : List Put} (hd : d.Valid)
    (htemporary : d.temporary = true) (h : Works d w v.disk (puts.map (Put.row p)) none) {put : Put}
    (hkey : w.rejection? (p.decorate put.key) = none) (hvalue : put.value.length ≤ Row.maxInt32)
    (hsize : AppendedRow.total ((puts ++ [put]).map (Put.row p)) < Disk.maxOffset) :
    ∃ w' v', Work.on (w.append (p.decorate put.key) put.content.encode) v = ((.ok (), w'), v') ∧
      Works d w' v'.disk ((puts ++ [put]).map (Put.row p)) none ∧ v.disk.Frame d.Outside v'.disk := by
  have hrows : (puts ++ [put]).map (Put.row p) = puts.map (Put.row p) ++ [(put.call p).row] := by
    rw [List.map_append]
    rfl
  obtain ⟨t, rfl, hwrote⟩ := h.wrote
  obtain ⟨w', v', hrun, hwrote', -⟩ :=
    hwrote.on_call (c := put.call p) hd hkey ⟨1, Put.outcome_content hvalue⟩
  have hroom : w'.filePointer < Disk.maxOffset := by
    rwa [filePointer, hwrote'.dataEnd, length_dataBytes, ← hrows]
  obtain ⟨hworks, hframe⟩ := h.on_call hd htemporary hrun hroom
  rw [← hrows] at hworks
  exact ⟨w', v', hrun, hworks, hframe⟩

namespace Tracks

theorem added (ha : a.Vacant bound origin) (h : Tracks a bound origin s v.disk b) {w : Writer}
    {puts : List Put} (hb : b.writing = some puts) {put : Put} (hvalue : put.value.length ≤ Row.maxInt32)
    {disk : Disk} (hframe : v.disk.Frame (a.slot b.closed.length).Outside disk)
    (hworks : Works (a.slot b.closed.length) w disk ((puts ++ [put]).map (Put.row a.partitioner)) none) :
    Tracks a bound origin { s with writer := some w } disk (b.added put) := by
  have hapart : v.disk.Frame (a.slot b.closed.length).Apart disk := hframe.mono fun _ hp => hp.outside
  have hused : b.used = b.closed.length + 1 := by simp [Ledger.used, Ledger.tables, hb]
  have hadded := b.used_added put
  obtain ⟨-, -, -, hunpublished⟩ := h.exists_writer hb
  exact {
    settings := h.settings.change _ _ _
    frame := h.frame.beyond hapart (by omega) (by omega)
    within := by
      have hwithin := h.within
      omega
    next := by
      rw [hadded, ← hused]
      exact h.next
    kept := by
      intro i puts hputs
      have hi : i < b.closed.length := (List.getElem?_eq_some_iff.mp hputs).1
      exact (h.kept i puts hputs).of_frame hapart (Site.spared_slot ha.validTable (by omega))
    opened := h.opened
    busy := by
      have hwriting : (b.added put).writing = some (puts ++ [put]) := by rw [Ledger.added, hb, Option.getD_some]
      rw [hwriting]
      refine .writing hworks ?_
      have hplace := Descriptor.outside_published_place (ha.valid b.closed.length) rfl .data
      exact (hframe.tree _ hplace).trans hunpublished
    values := by
      intro put' hput'
      rw [Ledger.puts_added, List.mem_append, List.mem_singleton] at hput'
      rcases hput' with hput' | rfl
      · exact h.values put' hput'
      · exact hvalue }

/-- A put that is accepted comes last. One that is refused changes no table, but a table may have been begun
for it. -/
theorem on_append (ha : a.Vacant bound origin) (h : Tracks a bound origin s v.disk b) (hroom : b.used < bound)
    {put : Put} (hvalue : put.value.length ≤ Row.maxInt32)
    (hsize : total ((b.puts ++ [put]).map (Put.row a.partitioner)) < Disk.maxOffset) :
    ∃ result s' v' b', Work.on (s.append put.key put.value put.timestamp) v = ((result, s'), v') ∧
      Tracks a bound origin s' v'.disk b' ∧ b'.used = b.closed.length + 1 ∧
      b'.puts = b.puts ++ if result.isOk then [put] else [] := by
  obtain ⟨w, s₁, v₁, htake, htracks⟩ := h.on_takeWriter ha hroom
  have hb : b.begun.writing = some (b.writing.getD []) := rfl
  obtain ⟨w', hw, hworks, -⟩ := htracks.exists_writer hb
  obtain rfl : w = w' := Option.some.inj hw
  have hpartitioner : s₁.partitioner = a.partitioner := htracks.settings.partitioner
  have happend : ∀ {result : Except TableError Unit} {w' : Writer} {v' : Volume},
      Work.on (w.append (a.partitioner.decorate put.key) put.content.encode) v₁ = ((result, w'), v') →
        Work.on (s.append put.key put.value put.timestamp) v =
          ((result.mapError .table, { s₁ with writer := some w' }), v') := by
    intro result w' v' hrun
    rw [← hpartitioner] at hrun
    exact Store.on_append_of_take htake hrun
  rcases hkey : w.rejection? (a.partitioner.decorate put.key) with - | e
  · have hfits : total (((b.writing.getD []) ++ [put]).map (Put.row a.partitioner)) < Disk.maxOffset := by
      have hputs : b.puts = b.closed.flatten ++ b.writing.getD [] := by
        rw [← b.puts_begun, Ledger.puts, Ledger.tables, hb]
        simp [Ledger.begun]
      rw [hputs, List.append_assoc, List.map_append, total_append] at hsize
      omega
    obtain ⟨w', v', hrun, hworks', hframe⟩ := hworks.on_put (ha.valid _) rfl hkey hvalue hfits
    refine ⟨_, _, v', b.begun.added put, happend hrun, htracks.added ha hb hvalue hframe hworks',
      Ledger.used_added _ _, ?_⟩
    rw [Ledger.puts_added, Ledger.puts_begun]
    rfl
  · refine ⟨_, _, v₁, b.begun, happend (on_append_rejected hkey _ _), htracks, Ledger.used_begun _, ?_⟩
    rw [Ledger.puts_begun]
    exact (List.append_nil _).symm

theorem settle (ha : a.Vacant bound origin) (h : Tracks a bound origin s v.disk b) {puts : List Put}
    (hb : b.writing = some puts) {s' : Store} (hof : s'.Of a) (hnext : s'.nextGeneration = s.nextGeneration)
    (hidle : s'.writer = none) {table : Option Reader}
    (htables : ∀ g, s'.tables.get? g = if g = b.closed.length + 1 then table else s.tables.get? g) {disk : Disk}
    (hframe : v.disk.Frame (a.slot b.closed.length).Apart disk)
    (hkept : Kept (a.slot b.closed.length) (puts.map (Put.row a.partitioner)) [] disk table) :
    Tracks a bound origin s' disk b.settled := by
  have hclosed : b.settled.closed = b.closed ++ [puts] := by
    rw [Ledger.settled, Ledger.tables, hb]
    rfl
  have hlength : b.settled.closed.length = b.closed.length + 1 := by simp [hclosed]
  have hused : b.used = b.closed.length + 1 := by simp [Ledger.used, Ledger.tables, hb]
  exact {
    settings := hof
    frame := by
      rw [Ledger.used_settled]
      exact h.frame.beyond hframe (by omega) (Nat.le_refl _)
    within := by
      rw [Ledger.used_settled]
      exact h.within
    next := by rw [hnext, Ledger.used_settled, h.next]
    kept := by
      intro i puts' hputs'
      have hi : i < b.closed.length + 1 := hlength ▸ (List.getElem?_eq_some_iff.mp hputs').1
      rw [hclosed] at hputs'
      rw [htables]
      rcases Nat.lt_succ_iff_lt_or_eq.mp hi with hi | rfl
      · rw [List.getElem?_append_left hi] at hputs'
        rw [if_neg (by omega)]
        exact (h.kept i puts' hputs').of_frame hframe (Site.spared_slot ha.validTable (by omega))
      · rw [List.getElem?_concat_length] at hputs'
        cases hputs'
        rw [if_pos rfl]
        exact hkept
    opened := by
      intro generation hopen
      rw [htables] at hopen
      rw [hlength]
      split at hopen
      · rename_i hlast
        exact ⟨b.closed.length, by omega, hlast⟩
      · obtain ⟨i, hi, hgeneration⟩ := h.opened generation hopen
        exact ⟨i, by omega, hgeneration⟩
    busy := by
      rw [hidle]
      exact .idle
    values := by
      rw [Ledger.puts_settled]
      exact h.values }

theorem settled_of_idle (h : Tracks a bound origin s v.disk b) (hw : s.writer = none) : b.settled = b := by
  have hwriting := h.writing_of_idle hw
  obtain ⟨closed, writing⟩ := b
  cases hwriting
  rw [Ledger.settled, Ledger.tables]
  exact congrArg (Ledger.mk · none) (List.append_nil closed)

theorem writing_of_writer (h : Tracks a bound origin s v.disk b) {w : Writer} (hw : s.writer = some w) :
    ∃ puts, b.writing = some puts := by
  have hbusy := h.busy
  rw [hw] at hbusy
  generalize b.writing = writing at hbusy ⊢
  cases hbusy
  exact ⟨_, rfl⟩

/-- A table that is given up waits for a recovery. -/
theorem on_abort (ha : a.Vacant bound origin) (h : Tracks a bound origin s v.disk b) :
    ∃ d s' v', Work.on s.abort v = ((d, s'), v') ∧ Tracks a bound origin s' v'.disk b.settled := by
  rcases hw : s.writer with - | w
  · rw [h.settled_of_idle hw]
    exact ⟨none, s, v, by rw [Store.abort, hw]; rfl, h⟩
  · obtain ⟨puts, hb⟩ := h.writing_of_writer hw
    obtain ⟨w', hw', hworks, hunpublished⟩ := h.exists_writer hb
    obtain rfl : w = w' := Option.some.inj (hw.symm.trans hw')
    obtain ⟨v', hdrop, hstands, hframe⟩ := hworks.on_drop (ha.valid _) rfl
    have hclosed : s.tables.get? (b.closed.length + 1) = none := by
      by_contra hopen
      obtain ⟨i, hi, hlast⟩ := h.opened _ (Option.isSome_iff_ne_none.mpr hopen)
      omega
    refine ⟨_, { s with writer := none }, v', Store.on_abort_of_drop hw hdrop,
      h.settle ha hb (h.settings.change s.tables none s.nextGeneration) rfl rfl (fun g => ?_)
        (hframe.mono fun _ hp => hp.outside) (hstands.pending ?_)⟩
    · split
      · rename_i hlast
        rw [hlast, hclosed]
      · rfl
    · rw [hframe.tree _ (Descriptor.outside_published_place (ha.valid _) rfl _), hunpublished]

/-- A table that is flushed is published and open. -/
theorem on_flush (ha : a.Vacant bound origin) (h : Tracks a bound origin s v.disk b) (now : Nat) :
    ∃ r s' v', Work.on (s.flush now) v = ((.ok r, s'), v') ∧ Tracks a bound origin s' v'.disk b.settled ∧
      (b.Open s → b.settled.Open s') := by
  rcases hw : s.writer with - | w
  · rw [h.settled_of_idle hw]
    exact ⟨none, s, v, by rw [Store.flush, hw]; rfl, h, id⟩
  · obtain ⟨puts, hb⟩ := h.writing_of_writer hw
    obtain ⟨w', hw', hworks, -⟩ := h.exists_writer hb
    obtain rfl : w = w' := Option.some.inj (hw.symm.trans hw')
    obtain ⟨r, v', hfinish, hname, hkept, hframe⟩ := hworks.on_finish (ha.valid _) rfl now
    have hgeneration : r.descriptor.generation = b.closed.length + 1 := by rw [hname]; rfl
    have hinsert : ∀ g, (s.tables.insert r.descriptor.generation r).get? g =
        if g = b.closed.length + 1 then some r else s.tables.get? g := by
      intro g
      rw [SortedMap.get?_insert, hgeneration]
    refine ⟨_, _, v', Store.on_flush_of_finish hw hfinish, h.settle ha hb
      (h.settings.change (s.tables.insert r.descriptor.generation r) none s.nextGeneration) rfl rfl hinsert hframe
      hkept, fun hopen i hi => ?_⟩
    have hlength : b.settled.closed.length = b.closed.length + 1 := by
      simp [Ledger.settled, Ledger.tables, hb]
    change ((s.tables.insert r.descriptor.generation r).get? (i + 1)).isSome = true
    rw [hinsert]
    split
    · rfl
    · exact hopen i (by omega)

end Tracks

end SortedTable
