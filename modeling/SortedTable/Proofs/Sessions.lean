import Mathlib.Data.List.Sort
import SortedTable.Proofs.Restoring

/-!
# Sessions

What a store has accepted comes out of it again, in the order in which it was appended, whatever else is asked
of the store in between: tables may be flushed, given up and recovered, and the store may be closed and opened
again. Main statement: `Store.scanAll_after_session`.
-/

namespace SortedTable

open AppendedRow

namespace Store

/-- What can be asked of a store. Some requests come with the time. -/
inductive Request where
  | append (put : Put)
  | flush (now : Nat)
  | abort
  | recover (now : Nat)
  | reopen (now : Nat)

def Request.puts : Request → List Put
  | append put => [put]
  | _ => []

/-- Meets a request, and gives what the store has accepted. A put that is refused does not end the session; any
other failure does. -/
def meet (s : Store) : Request → Action StoreError (Store × List Put)
  | .append put => do
      let (result, s) ← (s.append put.key put.value put.timestamp : Work _)
      return (s, if result.isOk then [put] else [])
  | .flush now => do
      let (result, s) ← (s.flush now : Work _)
      let _ ← MonadExcept.ofExcept result
      return (s, [])
  | .abort => do
      let (_, s) ← (s.abort : Work _)
      return (s, [])
  | .recover now => do
      let (result, s) ← (s.recover now : Work _)
      let _ ← MonadExcept.ofExcept result
      return (s, [])
  | .reopen now => do
      (s.close : Work _)
      let s ← openAll s.dir s.metadata.name s.partitioner s.config now
      return (s, [])

def session (s : Store) : List Request → Action StoreError (Store × List Put)
  | [] => return (s, [])
  | request :: rest => do
      let (s, accepted) ← s.meet request
      let (s, more) ← s.session rest
      return (s, accepted ++ more)

theorem on_close_of_abort {s s' : Store} {v v' : Volume} {given : Option Descriptor}
    (habort : Work.on s.abort v = ((given, s'), v')) : Work.on s.close v = ((), v') := by
  unfold close
  rw [Work.on_bind_of habort, Work.on_pure]

theorem on_session_cons {s s₁ s₂ : Store} {v v₁ v₂ : Volume} {request : Request} {rest : List Request}
    {accepted more : List Put} (hfirst : (s.meet request).on v = (.ok (s₁, accepted), v₁))
    (hrest : (s₁.session rest).on v₁ = (.ok (s₂, more), v₂)) :
    (s.session (request :: rest)).on v = (.ok (s₂, accepted ++ more), v₂) := by
  rw [session, Action.on_bind_ok hfirst]
  exact Action.on_bind_ok hrest

/-- The keys and the values of all tables, in ascending order of generation. -/
def scanAll (s : Store) : Action StoreError (List (Bytes × Bytes)) := do
  let tables ← s.tables.keys.mapM s.scan
  return tables.flatten

end Store

open Store

variable {a : Site} {bound : Nat} {origin : Disk} {s s' : Store} {v v' : Volume} {b : Ledger} {now : Nat}

theorem Action.on_mapM {ε α β : Type} {f : α → Action ε β} {g : α → β} {xs : List α} {v : Volume}
    (h : ∀ x ∈ xs, (f x).on v = (.ok (g x), v)) : Action.on (xs.mapM f) v = (.ok (xs.map g), v) := by
  induction xs with
  | nil => rfl
  | cons x rest ih =>
      rw [List.mapM_cons, Action.on_bind_ok (h x List.mem_cons_self),
        Action.on_bind_ok (ih fun y hy => h y (List.mem_cons_of_mem _ hy)), Action.on_pure, List.map_cons]

namespace Tracks

/-- A session goes on after each request, in step with a ledger that has what was accepted at its end. -/
theorem on_meet (ha : a.Vacant bound origin) (h : Tracks a bound origin s v.disk b) (request : Request)
    (hroom : b.used + request.puts.length ≤ bound)
    (hvalues : ∀ put ∈ request.puts, put.value.length ≤ Row.maxInt32)
    (hsize : total ((b.puts ++ request.puts).map (Put.row a.partitioner)) < Disk.maxOffset) :
    ∃ s' accepted v' b', (s.meet request).on v = (.ok (s', accepted), v') ∧
      Tracks a bound origin s' v'.disk b' ∧ b'.used ≤ b.used + request.puts.length ∧
      b'.puts = b.puts ++ accepted ∧ (accepted = request.puts ∨ accepted = []) := by
  have hused : b.settled.used ≤ b.used := by rw [Ledger.used_settled]
  have hputs : b.settled.puts = b.puts ++ [] := by rw [Ledger.puts_settled, List.append_nil]
  cases request with
  | append put =>
      obtain ⟨result, s', v', b', hrun, htracks, hused', hputs'⟩ :=
        h.on_append ha hroom (hvalues put (List.mem_singleton_self put)) hsize
      have hle := closed_le_used b
      refine ⟨s', if result.isOk then [put] else [], v', b', ?_, htracks, ?_, hputs', ?_⟩
      · exact Action.on_bind_ok (Action.on_lift_of hrun)
      · change b'.used ≤ b.used + 1
        omega
      · cases result with
        | ok _ => exact Or.inl rfl
        | error _ => exact Or.inr rfl
  | flush now =>
      obtain ⟨r, s', v', hrun, htracks, -⟩ := h.on_flush ha now
      exact ⟨s', [], v', b.settled, Action.on_bind_ok (Action.on_lift_of hrun), htracks, hused, hputs, Or.inr rfl⟩
  | abort =>
      obtain ⟨d, s', v', hrun, htracks⟩ := h.on_abort ha
      exact ⟨s', [], v', b.settled, Action.on_bind_ok (Action.on_lift_of hrun), htracks, hused, hputs, Or.inr rfl⟩
  | recover now =>
      obtain ⟨generations, s', v', hrun, htracks, -⟩ := h.on_recover ha now
      exact ⟨s', [], v', b, Action.on_bind_ok (Action.on_lift_of hrun), htracks, Nat.le_refl _,
        (List.append_nil _).symm, Or.inr rfl⟩
  | reopen now =>
      obtain ⟨d, s₁, v₁, habort, hsettled⟩ := h.on_abort ha
      obtain ⟨s', hopen, htracks⟩ := hsettled.on_openAll ha (hsettled.idle_of_writing rfl) now
      refine ⟨s', [], v₁, b.settled, ?_, htracks, hused, hputs, Or.inr rfl⟩
      have hagain : (openAll s.dir s.metadata.name s.partitioner s.config now).on v₁ = (.ok s', v₁) := by
        rw [h.settings.dir, h.settings.metadata, h.settings.partitioner, h.settings.config]
        exact hopen
      exact (Action.on_bind_ok (Action.on_lift_of (on_close_of_abort habort))).trans (Action.on_bind_ok hagain)

theorem on_session (ha : a.Vacant bound origin) {requests : List Request}
    (h : Tracks a bound origin s v.disk b) (hroom : b.used + (requests.flatMap Request.puts).length ≤ bound)
    (hvalues : ∀ put ∈ requests.flatMap Request.puts, put.value.length ≤ Row.maxInt32)
    (hsize : total ((b.puts ++ requests.flatMap Request.puts).map (Put.row a.partitioner)) < Disk.maxOffset) :
    ∃ s' accepted v' b', (s.session requests).on v = (.ok (s', accepted), v') ∧
      Tracks a bound origin s' v'.disk b' ∧ b'.puts = b.puts ++ accepted := by
  induction requests generalizing s v b with
  | nil => exact ⟨s, [], v, b, rfl, h, (List.append_nil _).symm⟩
  | cons request rest ih =>
      rw [List.flatMap_cons] at hroom hvalues hsize
      rw [List.length_append] at hroom
      rw [List.map_append, List.map_append, total_append, total_append] at hsize
      have hfirst : total ((b.puts ++ request.puts).map (Put.row a.partitioner)) < Disk.maxOffset := by
        rw [List.map_append, total_append]
        omega
      obtain ⟨s₁, accepted, v₁, b₁, hrun, htracks, hused, hputs, haccepted⟩ := h.on_meet ha request (by omega)
        (fun put hput => hvalues put (List.mem_append_left _ hput)) hfirst
      have hgrown : total (b₁.puts.map (Put.row a.partitioner)) ≤
          total (b.puts.map (Put.row a.partitioner)) + total (request.puts.map (Put.row a.partitioner)) := by
        rw [hputs, List.map_append, total_append]
        rcases haccepted with rfl | rfl
        · exact Nat.le_refl _
        · exact Nat.add_le_add_left (Nat.zero_le _) _
      have hrest : total ((b₁.puts ++ rest.flatMap Request.puts).map (Put.row a.partitioner)) <
          Disk.maxOffset := by
        rw [List.map_append, total_append]
        omega
      obtain ⟨s', more, v', b', hrun', htracks', hputs'⟩ :=
        ih htracks (by omega) (fun put hput => hvalues put (List.mem_append_right _ hput)) hrest
      exact ⟨s', accepted ++ more, v', b', on_session_cons hrun hrun', htracks',
        by rw [hputs', hputs, List.append_assoc]⟩

theorem keys_of_open (h : Tracks a bound origin s v.disk b) (hopen : b.Open s) :
    s.tables.keys = (List.range b.closed.length).map (· + 1) := by
  have hascending : s.tables.keys.Pairwise (· < ·) := List.pairwise_map.mpr s.tables.ascending
  have hrange : ((List.range b.closed.length).map (· + 1)).Pairwise (· < ·) :=
    List.pairwise_map.mpr (List.pairwise_lt_range.imp Nat.succ_lt_succ)
  refine hascending.eq_of_mem_iff hrange fun g => ?_
  rw [SortedMap.mem_keys_iff, List.mem_map]
  constructor
  · intro hsome
    obtain ⟨i, hi, rfl⟩ := h.opened g hsome
    exact ⟨i, List.mem_range.mpr hi, rfl⟩
  · rintro ⟨i, hi, rfl⟩
    exact hopen i (List.mem_range.mp hi)

theorem on_scan (ha : a.Vacant bound origin) (h : Tracks a bound origin s v.disk b) {i : Nat}
    {puts : List Put} (hputs : b.closed[i]? = some puts) (hopen : (s.tables.get? (i + 1)).isSome = true) :
    (s.scan (i + 1)).on v = (.ok (puts.map Put.pair), v) := by
  have hvalues : ∀ put ∈ puts, put.value.length ≤ Row.maxInt32 := fun put hput =>
    h.values put (List.mem_flatten.mpr ⟨puts, List.mem_append_left _ (List.mem_of_getElem? hputs), hput⟩)
  have hkept := h.kept i puts hputs
  obtain ⟨r, hr⟩ := Option.isSome_iff_exists.mp hopen
  rw [hr] at hkept
  have hscanner := hkept.on_scanner (ha.valid i)
  rw [List.append_nil] at hscanner
  exact on_scan_of_puts hr hscanner hkept.fits hvalues

/-- Where all tables are open, they have what was accepted, in the same order. -/
theorem on_scanAll (ha : a.Vacant bound origin) (h : Tracks a bound origin s v.disk b) (hopen : b.Open s)
    (hwriting : b.writing = none) : s.scanAll.on v = (.ok (b.puts.map Put.pair), v) := by
  have hscans : ∀ g ∈ s.tables.keys, (s.scan g).on v = (.ok ((b.closed[g - 1]?.getD []).map Put.pair), v) := by
    intro g hg
    rw [h.keys_of_open hopen, List.mem_map] at hg
    obtain ⟨i, hi, rfl⟩ := hg
    have hi := List.mem_range.mp hi
    rw [Nat.add_sub_cancel, List.getElem?_eq_getElem hi]
    exact h.on_scan ha (List.getElem?_eq_getElem hi) (hopen i hi)
  have htables : s.tables.keys.map (fun g => (b.closed[g - 1]?.getD []).map Put.pair) =
      b.closed.map (List.map Put.pair) := by
    rw [h.keys_of_open hopen, List.map_map]
    apply List.ext_getElem
    · simp
    · intro i hi _
      rw [List.length_map, List.length_range] at hi
      simp [List.getElem?_eq_getElem hi]
  have hclosed : b.puts = b.closed.flatten := by simp [Ledger.puts, Ledger.tables, hwriting]
  unfold scanAll
  rw [Action.on_bind_ok (Action.on_mapM hscans), htables, Action.on_pure, hclosed, List.map_flatten]

/-- A recovery and a flush, in either order, leave all tables published and open. -/
theorem on_finish (ha : a.Vacant bound origin) (h : Tracks a bound origin s v.disk b) {finish : List Request}
    {now₁ now₂ : Nat}
    (hfinish : finish = [.recover now₁, .flush now₂] ∨ finish = [.flush now₁, .recover now₂]) :
    ∃ s' v', (s.session finish).on v = (.ok (s', []), v') ∧ Tracks a bound origin s' v'.disk b.settled ∧
      b.settled.Open s' := by
  rcases hfinish with rfl | rfl
  · obtain ⟨generations, s₁, v₁, hrecover, htracks, hopen⟩ := h.on_recover ha now₁
    obtain ⟨r, s₂, v₂, hflush, htracks', hopen'⟩ := htracks.on_flush ha now₂
    have hfirst : (s.meet (.recover now₁)).on v = (.ok (s₁, []), v₁) :=
      Action.on_bind_ok (Action.on_lift_of hrecover)
    have hsecond : (s₁.meet (.flush now₂)).on v₁ = (.ok (s₂, []), v₂) :=
      Action.on_bind_ok (Action.on_lift_of hflush)
    have hlast : (s₁.session [.flush now₂]).on v₁ = (.ok (s₂, []), v₂) := on_session_cons hsecond rfl
    exact ⟨s₂, v₂, on_session_cons hfirst hlast, htracks', hopen' hopen⟩
  · obtain ⟨r, s₁, v₁, hflush, htracks, -⟩ := h.on_flush ha now₁
    obtain ⟨generations, s₂, v₂, hrecover, htracks', hopen⟩ := htracks.on_recover ha now₂
    have hfirst : (s.meet (.flush now₁)).on v = (.ok (s₁, []), v₁) :=
      Action.on_bind_ok (Action.on_lift_of hflush)
    have hsecond : (s₁.meet (.recover now₂)).on v₁ = (.ok (s₂, []), v₂) :=
      Action.on_bind_ok (Action.on_lift_of hrecover)
    have hlast : (s₁.session [.recover now₂]).on v₁ = (.ok (s₂, []), v₂) := on_session_cons hsecond rfl
    exact ⟨s₂, v₂, on_session_cons hfirst hlast, htracks', hopen⟩

end Tracks

theorem Tracks.initial (a : Site) (bound : Nat) (origin : Disk) :
    Tracks a bound origin a.store origin ⟨[], none⟩ where
  settings := ⟨rfl, rfl, rfl, rfl⟩
  frame := .refl _ _
  within := Nat.zero_le _
  next := rfl
  kept := by simp
  opened := by
    intro g hopen
    cases hopen
  busy := .idle
  values := by simp [Ledger.puts, Ledger.tables]

namespace Store

theorem openFound_eq_ok {f : Found} (hrun : (s.openFound now f).on v = (.ok s', v')) :
    v' = v ∧ ∃ tables, s' =
      { s with tables, nextGeneration := max s.nextGeneration (f.descriptor.generation + 1) } := by
  unfold openFound at hrun
  split at hrun
  · rw [Action.on_bind_eq_ok_iff] at hrun
    obtain ⟨r, v₁, hopen, hpure⟩ := hrun
    rw [Action.on_mapError_eq_ok_iff] at hopen
    cases hpure
    exact ⟨(Reader.looks_openTable _ _ _ _ _).eq hopen, _, rfl⟩
  · cases hrun
    exact ⟨rfl, _, rfl⟩

/-- A store that has taken note of some files counts on above all of them. -/
theorem foldlM_openFound_eq_ok {files : List Found}
    (hrun : Action.on (files.foldlM (openFound · now) s) v = (.ok s', v')) :
    v' = v ∧ ∃ tables next, s' = { s with tables, nextGeneration := next } ∧ s.nextGeneration ≤ next ∧
      ∀ f ∈ files, f.descriptor.generation < next := by
  induction files generalizing s v with
  | nil =>
      cases hrun
      exact ⟨rfl, _, _, rfl, Nat.le_refl _, by simp⟩
  | cons f rest ih =>
      rw [List.foldlM_cons, Action.on_bind_eq_ok_iff] at hrun
      obtain ⟨s₁, v₁, hfirst, hrest⟩ := hrun
      obtain ⟨rfl, tables, rfl⟩ := openFound_eq_ok hfirst
      obtain ⟨hvolume, tables', next, rfl, hle, hrest⟩ := ih hrest
      dsimp only at hle
      refine ⟨hvolume, tables', next, rfl, by omega, fun f' hf' => ?_⟩
      rcases List.mem_cons.mp hf' with rfl | hf'
      · omega
      · exact hrest f' hf'

/-- A store is opened on what its directory lists, once it has been made. -/
theorem openAll_eq_ok {v₀ : Volume}
    (hopen : (openAll a.dir a.table a.partitioner a.config now).on v₀ = (.ok s, v)) :
    a.config.validate = .ok () ∧ Descriptor.ValidTable a.table ∧
      (Action.makeDirectories a.dir).on v₀ = (.ok (), v) ∧
      ∃ files, a.store.listFiles.on v = (.ok files, v) ∧
        Action.on (files.foldlM (openFound · now) a.store) v = (.ok s, v) := by
  unfold openAll at hopen
  rcases hstart : start a.dir a.table a.partitioner a.config with e | s₀
  · rw [hstart] at hopen
    cases hopen
  obtain ⟨hconfig, htable, rfl⟩ := Site.start_eq_ok_iff.mp hstart
  rw [hstart] at hopen
  have hopen : Action.on (do
      (Action.makeDirectories a.dir).mapError fun e => StoreError.during (.creating a.dir) (.io (.disk e))
      (← a.store.listFiles).foldlM (openFound · now) a.store) v₀ = (.ok s, v) := hopen
  rw [Action.on_bind_eq_ok_iff] at hopen
  obtain ⟨u, v₁, hmake, hopen⟩ := hopen
  rw [Action.on_mapError_eq_ok_iff] at hmake
  rw [Action.on_bind_eq_ok_iff] at hopen
  obtain ⟨files, v₂, hfiles, hfold⟩ := hopen
  obtain ⟨rfl, -⟩ := foldlM_openFound_eq_ok hfold
  obtain ⟨rfl, -⟩ := listFiles_eq_ok hfiles
  exact ⟨hconfig, htable, hmake, files, hfiles, hfold⟩

/-- A store that is opened on a directory without a file of its tables has no table. -/
theorem eq_store_of_openAll {v₀ : Volume}
    (hopen : (openAll a.dir a.table a.partitioner a.config now).on v₀ = (.ok s, v))
    (hempty : s.listFiles.on v = (.ok [], v)) :
    a.config.validate = .ok () ∧ Descriptor.ValidTable a.table ∧ s = a.store := by
  obtain ⟨hconfig, htable, -, files, hfiles, hfold⟩ := openAll_eq_ok hopen
  obtain ⟨-, tables, next, rfl, -⟩ := foldlM_openFound_eq_ok hfold
  have hsame : a.store.listFiles.on v = (.ok [], v) := hempty
  rw [hfiles] at hsame
  cases hsame
  cases hfold
  exact ⟨hconfig, htable, rfl⟩

/-- The directory that a store without tables was opened on is vacant, if the names can be used that the store
will need. -/
theorem vacant_of_empty (hconfig : a.config.validate = .ok ()) (htable : Descriptor.ValidTable a.table)
    (hempty : a.store.listFiles.on v = (.ok [], v)) (hnumbered : bound < Decimal.limit64)
    (hnames : ∀ i < bound, ∀ c, ∃ found, v.disk.create ((a.slot i).pathOf c) = .ok found) :
    a.Vacant bound v.disk := by
  obtain ⟨-, names, hlist, hnone⟩ := listFiles_eq_ok hempty
  obtain ⟨-, -, -, rfl⟩ := Disk.list_eq_ok hlist
  refine ⟨hconfig, htable, hnumbered, ⟨_, hlist⟩, fun i hi c => ?_, fun name d c hpresent hpath hd => ?_⟩
  · obtain ⟨found, hcreate⟩ := hnames i hi c
    exact Disk.reaches_of_create ⟨htable, rfl⟩ hcreate
  · have hmem : (⟨d, c⟩ : Found) ∈ a.store.filesAmong (v.disk.namesIn a.dir.home) :=
      mem_filesAmong.mpr ⟨name, Disk.mem_namesIn_iff.mpr hpresent, hpath, hd⟩
    change _ ∈ a.store.filesAmong (v.disk.namesIn a.store.dir.home) at hmem
    rw [← hnone] at hmem
    cases hmem

/-- A store loses and doubles nothing. Whatever is asked of it after it was opened on a directory without a file
of its tables, the session does not fail; once it is recovered and flushed, its tables hold exactly the puts that
it has accepted, in the order in which they were appended; and another recovery finds nothing to do. -/
theorem scanAll_after_session {s₀ : Store} {v₀ v₁ : Volume} {requests : List Request}
    (hopen : (openAll a.dir a.table a.partitioner a.config now).on v₀ = (.ok s₀, v₁))
    (hempty : s₀.listFiles.on v₁ = (.ok [], v₁))
    (hvalues : ∀ put ∈ requests.flatMap Request.puts, put.value.length ≤ Row.maxInt32)
    (hsize : total ((requests.flatMap Request.puts).map (Put.row a.partitioner)) < Disk.maxOffset)
    (hnames : ∀ i < (requests.flatMap Request.puts).length, ∀ c,
      ∃ found, v₁.disk.create ((a.slot i).pathOf c) = .ok found) :
    ∃ s v accepted, (s₀.session requests).on v₁ = (.ok (s, accepted), v) ∧
      ∀ now₁ now₂ finish,
        (finish = [.recover now₁, .flush now₂] ∨ finish = [.flush now₁, .recover now₂]) →
          ∃ s' v', (s.session finish).on v = (.ok (s', []), v') ∧
            s'.scanAll.on v' = (.ok (accepted.map Put.pair), v') ∧
            ∀ now, Work.on (s'.recover now) v' = ((.ok [], s'), v') := by
  obtain ⟨hconfig, htable, rfl⟩ := eq_store_of_openAll hopen hempty
  have hlength := length_le_total ((requests.flatMap Request.puts).map (Put.row a.partitioner))
  rw [List.length_map] at hlength
  have hlimit : Disk.maxOffset < Decimal.limit64 := by decide
  have ha := vacant_of_empty hconfig htable hempty (by omega) hnames
  have hroom : Ledger.used ⟨[], none⟩ + (requests.flatMap Request.puts).length ≤
      (requests.flatMap Request.puts).length := Nat.le_of_eq (Nat.zero_add _)
  obtain ⟨s, accepted, v, b, hrun, htracks, hputs⟩ := (Tracks.initial a _ v₁.disk).on_session ha hroom hvalues hsize
  refine ⟨s, v, accepted, hrun, fun now₁ now₂ finish hfinish => ?_⟩
  obtain ⟨s', v', hsession, htracks', hopen'⟩ := htracks.on_finish ha hfinish
  refine ⟨s', v', hsession, ?_, fun now => htracks'.on_recover_open ha hopen' now⟩
  have haccepted : b.settled.puts = accepted := by rw [Ledger.puts_settled, hputs]; rfl
  rw [htracks'.on_scanAll ha hopen' rfl, haccepted]

/-- The second put is refused, because its key comes before that of the first. -/
def usersRequests : List Request :=
  [.append ⟨[98], [49], 0⟩, .append ⟨[97], [50], 0⟩, .abort, .append ⟨[97], [51], 0⟩, .reopen 5]

theorem filesAmong_nil (s : Store) : s.filesAmong [] = [] := by simp [filesAmong]

theorem listFiles_users : usersSite.store.listFiles.on usersVolume = (.ok [], usersVolume) := by
  have hlist : usersVolume.disk.list usersSite.store.dir = .ok [] := rfl
  rw [on_listFiles hlist, filesAmong_nil]

theorem openAll_users :
    (openAll usersSite.dir usersSite.table usersSite.partitioner usersSite.config 0).on .new =
      (.ok usersSite.store, usersVolume) := by
  have hmake : ((Action.makeDirectories usersSite.dir).mapError fun e =>
      StoreError.during (.creating usersSite.dir) (.io (.disk e))).on .new = (.ok (), usersVolume) := rfl
  unfold openAll
  rw [Site.start_eq_ok_iff.mpr ⟨rfl, by decide, rfl⟩]
  exact (Action.on_bind_ok hmake).trans (Action.on_bind_ok listFiles_users)

theorem scanAll_after_session_users :
    ∃ s v accepted s' v', (openAll usersSite.dir usersSite.table usersSite.partitioner usersSite.config 0).on
        .new = (.ok usersSite.store, usersVolume) ∧
      (usersSite.store.session usersRequests).on usersVolume = (.ok (s, accepted), v) ∧
      (s.session [.recover 8, .flush 9]).on v = (.ok (s', []), v') ∧
      s'.scanAll.on v' = (.ok (accepted.map Put.pair), v') ∧
      Work.on (s'.recover 10) v' = ((.ok [], s'), v') := by
  have hvalues : ∀ put ∈ usersRequests.flatMap Request.puts, put.value.length ≤ Row.maxInt32 := by decide
  have hnames : ∀ i < 3, ∀ c, ∃ found, usersVolume.disk.create ((usersSite.slot i).pathOf c) = .ok found := by
    intro i hi c
    obtain rfl | rfl | rfl : i = 0 ∨ i = 1 ∨ i = 2 := by omega
    · cases c <;> exact ⟨_, rfl⟩
    · cases c <;> exact ⟨_, rfl⟩
    · cases c <;> exact ⟨_, rfl⟩
  obtain ⟨s, v, accepted, hsession, hfinish⟩ := scanAll_after_session openAll_users
    listFiles_users hvalues (by decide) hnames
  obtain ⟨s', v', hlast, hscan, hrecover⟩ := hfinish 8 9 _ (Or.inl rfl)
  exact ⟨s, v, accepted, s', v', openAll_users, hsession, hlast, hscan, hrecover 10⟩

end Store

end SortedTable
