import SortedTable.Proofs.Ledgers

namespace SortedTable

open AppendedRow

variable {a : Site} {bound : Nat} {origin : Disk} {s s' : Store} {v v' : Volume} {b : Ledger} {now : Nat}

namespace Tracks

theorem closed_le_used (b : Ledger) : b.closed.length ≤ b.used := by
  rw [Ledger.used, Ledger.tables, List.length_append]
  exact Nat.le_add_right _ _

theorem on_listFiles (ha : a.Vacant bound origin) (h : Tracks a bound origin s v.disk b) :
    s.listFiles.on v = (.ok (s.filesAmong (v.disk.namesIn a.dir.home)), v) := by
  apply Store.on_listFiles
  rw [h.settings.dir]
  exact ha.list_of_frame h.frame

theorem on_recoverOne (ha : a.Vacant bound origin) (h : Tracks a bound origin s v.disk b) {i : Nat}
    (hi : i < b.closed.length) {d : Descriptor} (htwin : d.Twin (a.slot i)) (now : Nat) :
    ∃ r v', (Recovery.recoverAndOpen d (Recovery.rebuild s.partitioner s.config) s.metadata s.partitioner
        s.config now).on v = (.ok r, v') ∧
      Tracks a bound origin { s with tables := s.tables.insert d.generation r } v'.disk b := by
  have hle := closed_le_used b
  have hconfig : s.config.validate = .ok () := by
    rw [h.settings.config]
    exact ha.config
  have hgeneration : d.generation = i + 1 := htwin.generation
  have hwithin := h.within
  have hhosts := htwin.hosts (ha.valid i) (ha.hosts_of_frame h.frame (by omega))
  obtain ⟨r, v', hrun, hkept, hframe⟩ := (h.kept i _ (List.getElem?_eq_getElem hi)).on_recover (ha.valid i) rfl
    htwin hhosts hconfig s.metadata s.partitioner s.config now
  refine ⟨r, v', hrun, ?_⟩
  exact {
    settings := h.settings.change _ _ _
    frame := h.frame.beyond hframe (by omega) (Nat.le_refl _)
    within := h.within
    next := h.next
    kept := by
      intro j puts hputs
      change Kept _ _ _ _ ((s.tables.insert d.generation r).get? (j + 1))
      rw [SortedMap.get?_insert, hgeneration]
      by_cases hj : j = i
      · subst hj
        rw [List.getElem?_eq_getElem hi] at hputs
        cases hputs
        rw [if_pos rfl]
        exact hkept
      · rw [if_neg (by omega)]
        exact (h.kept j puts hputs).of_frame hframe (Site.spared_slot ha.validTable (Ne.symm hj))
    opened := by
      intro generation hopen
      rcases (SortedMap.isSome_get?_insert _ _ _ _).mp hopen with hsame | hold
      · exact ⟨i, hi, hsame.trans hgeneration⟩
      · exact h.opened generation hold
    busy := h.busy.of_frame hframe (Site.spared_slot ha.validTable (by omega))
    values := h.values }

/-- Each table of the list is open afterwards, and no reader is lost. -/
theorem on_recoverAll (ha : a.Vacant bound origin) (now : Nat) (ds : List Descriptor) (recovered : List Nat)
    (hds : ∀ d ∈ ds, ∃ i < b.closed.length, d.Twin (a.slot i)) (h : Tracks a bound origin s v.disk b) :
    ∃ generations s' v', Work.on (Store.recoverAll now ds recovered s) v = ((.ok generations, s'), v') ∧
      Tracks a bound origin s' v'.disk b ∧
      (∀ g, (s.tables.get? g).isSome = true → (s'.tables.get? g).isSome = true) ∧
      ∀ d ∈ ds, (s'.tables.get? d.generation).isSome = true := by
  induction ds generalizing s v recovered with
  | nil => exact ⟨recovered, s, v, rfl, h, fun _ hg => hg, by simp⟩
  | cons d rest ih =>
      obtain ⟨i, hi, htwin⟩ := hds d List.mem_cons_self
      obtain ⟨r, v₁, hrun, htracks⟩ := h.on_recoverOne ha hi htwin now
      obtain ⟨generations, s', v', hrest, htracks', hkept, hopen⟩ :=
        ih (recovered ++ [d.generation]) (fun d' hd' => hds d' (List.mem_cons_of_mem _ hd')) htracks
      have hinsert : ∀ g, g = d.generation ∨ (s.tables.get? g).isSome = true → (s'.tables.get? g).isSome = true :=
        fun g hg => hkept g ((SortedMap.isSome_get?_insert _ _ _ _).mpr hg)
      refine ⟨generations, s', v', ?_, htracks', fun g hg => hinsert g (Or.inr hg), fun d' hd' => ?_⟩
      · rw [Store.on_recoverAll_cons hrun, hrest]
      · rcases List.mem_cons.mp hd' with rfl | hd'
        · exact hinsert _ (Or.inl rfl)
        · exact hopen d' hd'

theorem generation_of_writer (h : Tracks a bound origin s v.disk b) {w : Writer} (hw : s.writer = some w) :
    w.descriptor.generation = b.closed.length + 1 := by
  obtain ⟨puts, hb⟩ := h.writing_of_writer hw
  obtain ⟨w', hw', hworks, -⟩ := h.exists_writer hb
  obtain rfl : w = w' := Option.some.inj (hw.symm.trans hw')
  obtain ⟨t, ht, hwrote⟩ := hworks.wrote
  rw [hwrote.descriptor, ht]
  rfl

/-- The tables that are left to recover are those that the store is done with and that are not open. -/
theorem mem_unfinished_iff (ha : a.Vacant bound origin) (h : Tracks a bound origin s v.disk b) {d : Descriptor} :
    d ∈ s.unfinished (s.filesAmong (v.disk.namesIn a.dir.home)) ↔
      ⟨d, .data⟩ ∈ s.filesAmong (v.disk.namesIn a.dir.home) ∧
        ∃ i < b.closed.length, d.Twin (a.slot i) ∧ s.tables.get? (i + 1) = none := by
  have hle := closed_le_used b
  have hwithin := h.within
  simp only [Store.unfinished, List.mem_map, List.mem_filter, Bool.and_eq_true, decide_eq_true_eq]
  constructor
  · rintro ⟨⟨d, c⟩, ⟨hmem, ⟨rfl, htemporary⟩, hwriting⟩, rfl⟩
    obtain ⟨i, hi, temporary, htwin, hpresent⟩ := ha.twin_of_mem_filesAmong h.frame hwithin h.settings.dir
      (by rw [h.settings.metadata]; rfl) hmem
    obtain rfl : temporary = true := htwin.temporary.symm.trans htemporary
    have hgeneration : d.generation = i + 1 := htwin.generation
    have hclosed : i < b.closed.length := by
      rcases hw : s.writer with - | w
      · have hwriting := h.writing_of_idle hw
        simpa [Ledger.used, Ledger.tables, hwriting] using hi
      · obtain ⟨puts, hb⟩ := h.writing_of_writer hw
        have hused : b.used = b.closed.length + 1 := by simp [Ledger.used, Ledger.tables, hb]
        rw [hw, Option.map_some, h.generation_of_writer hw, ne_eq, Option.some.injEq, hgeneration] at hwriting
        omega
    exact ⟨hmem, i, hclosed, htwin, (h.kept i _ (List.getElem?_eq_getElem hclosed)).tree_temporary.mp hpresent⟩
  · rintro ⟨hmem, i, hi, htwin, -⟩
    refine ⟨⟨d, .data⟩, ⟨hmem, ⟨rfl, htwin.temporary⟩, ?_⟩, rfl⟩
    have hgeneration : d.generation = i + 1 := htwin.generation
    rcases hw : s.writer with - | w
    · simp
    · rw [Option.map_some, h.generation_of_writer hw, ne_eq, Option.some.injEq, hgeneration]
      omega

/-- After a recovery all tables are open that the store is done with. -/
theorem on_recover (ha : a.Vacant bound origin) (h : Tracks a bound origin s v.disk b) (now : Nat) :
    ∃ generations s' v', Work.on (s.recover now) v = ((.ok generations, s'), v') ∧
      Tracks a bound origin s' v'.disk b ∧ b.Open s' := by
  have hle := closed_le_used b
  have hwithin := h.within
  obtain ⟨generations, s', v', hrun, htracks, hkept, hopen⟩ := h.on_recoverAll ha now
    (s.unfinished (s.filesAmong (v.disk.namesIn a.dir.home))) [] fun d hd => by
      obtain ⟨-, i, hi, htwin, -⟩ := (h.mem_unfinished_iff ha).mp hd
      exact ⟨i, hi, htwin⟩
  refine ⟨generations, s', v', ?_, htracks, fun i hi => ?_⟩
  · rw [Store.on_recover_of_listed (h.on_listFiles ha), hrun]
  · rcases htable : s.tables.get? (i + 1) with - | r
    · have hpresent := (h.kept i _ (List.getElem?_eq_getElem hi)).tree_temporary.mpr htable
      obtain ⟨d, htwin, hmem⟩ := ha.exists_mem_filesAmong (by omega) h.settings.dir
        (by rw [h.settings.metadata]; rfl) true hpresent
      have hrecovered := hopen d ((h.mem_unfinished_iff ha).mpr ⟨hmem, i, hi, htwin, htable⟩)
      rwa [htwin.generation] at hrecovered
    · exact hkept _ (by rw [htable]; rfl)

/-- There is nothing to recover where all tables are open that the store is done with. -/
theorem on_recover_open (ha : a.Vacant bound origin) (h : Tracks a bound origin s v.disk b) (hopen : b.Open s)
    (now : Nat) : Work.on (s.recover now) v = ((.ok [], s), v) := by
  have hnil : s.unfinished (s.filesAmong (v.disk.namesIn a.dir.home)) = [] := by
    rw [List.eq_nil_iff_forall_not_mem]
    intro d hd
    obtain ⟨-, i, hi, -, hclosed⟩ := (h.mem_unfinished_iff ha).mp hd
    have hsome := hopen i hi
    rw [hclosed] at hsome
    cases hsome
  rw [Store.on_recover_of_listed (h.on_listFiles ha), hnil]
  rfl

end Tracks

theorem Site.start_eq_ok_iff :
    Store.start a.dir a.table a.partitioner a.config = .ok s ↔
      a.config.validate = .ok () ∧ Descriptor.ValidTable a.table ∧ s = a.store := by
  unfold Store.start
  rcases a.config.validate with e | u
  · constructor
    · intro h
      cases h
    · rintro ⟨h, -⟩
      cases h
  · by_cases htable : Descriptor.ValidTable a.table
    · simp only [htable, true_and]
      exact ⟨fun h => (Except.ok.inj h).symm, fun h => congrArg Except.ok h.symm⟩
    · simp only [htable, false_and, and_false, iff_false]
      intro h
      cases h

/-- A store has taken note of a file. -/
def Store.Knows (s : Store) (f : Store.Found) : Prop :=
  f.descriptor.generation < s.nextGeneration ∧
    (f.component = .data → f.descriptor.temporary = false →
      (s.tables.get? f.descriptor.generation).isSome = true)

/-- A store that is being opened on the tables that were done with. -/
structure Opening (a : Site) (closed : List (List Put)) (disk : Disk) (s : Store) : Prop where
  settings : s.Of a
  idle : s.writer = none
  next_pos : 0 < s.nextGeneration
  next_le : s.nextGeneration ≤ closed.length + 1
  kept : ∀ generation r, s.tables.get? generation = some r →
    ∃ i puts, closed[i]? = some puts ∧ generation = i + 1 ∧
      Kept (a.slot i) (puts.map (Put.row a.partitioner)) [] disk (some r)

/-- A file of one of the tables that were done with. -/
def Opening.File (a : Site) (closed : List (List Put)) (disk : Disk) (f : Store.Found) : Prop :=
  ∃ i < closed.length, ∃ temporary, f.descriptor.Twin ((a.slot i).asTemporary temporary) ∧
    disk.tree (((a.slot i).asTemporary temporary).place f.component) ≠ none

namespace Opening

variable {closed : List (List Put)}

theorem store (a : Site) (closed : List (List Put)) (disk : Disk) : Opening a closed disk a.store :=
  ⟨⟨rfl, rfl, rfl, rfl⟩, rfl, Nat.one_pos, Nat.le_add_left 1 _, fun _ _ hget => by cases hget⟩

theorem noted (h : Opening a closed v.disk s) {generation : Nat} (hle : generation ≤ closed.length) :
    Opening a closed v.disk { s with nextGeneration := max s.nextGeneration (generation + 1) } where
  settings := h.settings.change _ _ _
  idle := h.idle
  next_pos := Nat.lt_of_lt_of_le h.next_pos (Nat.le_max_left _ _)
  next_le := Nat.max_le.mpr ⟨h.next_le, Nat.succ_le_succ hle⟩
  kept := h.kept

theorem opened (h : Opening a closed v.disk s) {i : Nat} {puts : List Put} (hputs : closed[i]? = some puts)
    {r : Reader} (hkept : Kept (a.slot i) (puts.map (Put.row a.partitioner)) [] v.disk (some r)) {generation : Nat}
    (hgeneration : generation = i + 1) :
    Opening a closed v.disk { s with tables := s.tables.insert generation r } where
  settings := h.settings.change _ _ _
  idle := h.idle
  next_pos := h.next_pos
  next_le := h.next_le
  kept := by
    intro g r' hget
    have hinsert := SortedMap.get?_insert s.tables generation r g
    by_cases hsame : g = generation
    · rw [if_pos hsame] at hinsert
      cases hinsert.symm.trans hget
      exact ⟨i, puts, hputs, hsame.trans hgeneration, hkept⟩
    · rw [if_neg hsame] at hinsert
      exact h.kept g r' (hinsert.symm.trans hget)

theorem on_openFound (htable : Descriptor.ValidTable a.table) (h : Opening a closed v.disk s)
    (hclosed : ∀ i puts, closed[i]? = some puts →
      v.disk.Hosts (a.slot i) ∧ ∃ table, Kept (a.slot i) (puts.map (Put.row a.partitioner)) [] v.disk table)
    {f : Store.Found} (hf : File a closed v.disk f) (now : Nat) :
    ∃ s', (s.openFound now f).on v = (.ok s', v) ∧ Opening a closed v.disk s' ∧ s'.Knows f ∧
      ∀ f', s.Knows f' → s'.Knows f' := by
  obtain ⟨i, hi, temporary, htwin, hpresent⟩ := hf
  have hgeneration : f.descriptor.generation = i + 1 := htwin.generation
  have hnoted := h.noted (by omega : f.descriptor.generation ≤ closed.length)
  have hcounted : f.descriptor.generation < max s.nextGeneration (f.descriptor.generation + 1) :=
    Nat.le_max_right _ _
  have hbelow : ∀ g, g < s.nextGeneration → g < max s.nextGeneration (f.descriptor.generation + 1) :=
    fun g hg => Nat.lt_of_lt_of_le hg (Nat.le_max_left _ _)
  unfold Store.openFound
  by_cases hdata : f.component = .data ∧ f.descriptor.temporary = false
  · obtain rfl : temporary = false := htwin.temporary.symm.trans hdata.2
    obtain ⟨hhosts, table, hkept⟩ := hclosed i _ (List.getElem?_eq_getElem hi)
    have hvalid : (a.slot i).Valid := ⟨htable, rfl⟩
    rw [hdata.1] at hpresent
    obtain ⟨r₀, rfl⟩ := Option.isSome_iff_exists.mp (hkept.tree_published.mp hpresent)
    obtain ⟨r, hrun, hopened⟩ :=
      hkept.on_openTable htwin (htwin.hosts hvalid.published (hhosts.published hvalid)) s.metadata s.partitioner
        s.config now
    refine ⟨_, ?_, hnoted.opened (List.getElem?_eq_getElem hi) hopened hgeneration, ⟨hcounted, fun _ _ => ?_⟩,
      fun f' hf' => ⟨hbelow _ hf'.1, fun hc ht => ?_⟩⟩
    · rw [if_pos (by simp [hdata])]
      exact Action.on_bind_ok (Action.on_mapError_eq_ok_iff.mpr hrun)
    · exact (SortedMap.isSome_get?_insert _ _ _ _).mpr (Or.inl rfl)
    · exact (SortedMap.isSome_get?_insert _ _ _ _).mpr (Or.inr (hf'.2 hc ht))
  · refine ⟨_, ?_, hnoted, ⟨hcounted, fun hc ht => absurd ⟨hc, ht⟩ hdata⟩,
      fun f' hf' => ⟨hbelow _ hf'.1, hf'.2⟩⟩
    rw [if_neg (by simpa using hdata)]
    rfl

theorem on_foldlM (htable : Descriptor.ValidTable a.table) (h : Opening a closed v.disk s)
    (hclosed : ∀ i puts, closed[i]? = some puts →
      v.disk.Hosts (a.slot i) ∧ ∃ table, Kept (a.slot i) (puts.map (Put.row a.partitioner)) [] v.disk table)
    {files : List Store.Found} (hfiles : ∀ f ∈ files, File a closed v.disk f) (now : Nat) :
    ∃ s', Action.on (files.foldlM (Store.openFound · now) s) v = (.ok s', v) ∧ Opening a closed v.disk s' ∧
      (∀ f ∈ files, s'.Knows f) ∧ ∀ f', s.Knows f' → s'.Knows f' := by
  induction files generalizing s with
  | nil => exact ⟨s, rfl, h, by simp, fun _ hf' => hf'⟩
  | cons f rest ih =>
      obtain ⟨s₁, hrun, hopening, hknows, hkeeps⟩ :=
        h.on_openFound htable hclosed (hfiles f List.mem_cons_self) now
      obtain ⟨s', hrest, hopening', hknows', hkeeps'⟩ :=
        ih hopening fun f' hf' => hfiles f' (List.mem_cons_of_mem _ hf')
      refine ⟨s', ?_, hopening', fun f' hf' => ?_, fun f' hf' => hkeeps' f' (hkeeps f' hf')⟩
      · rw [List.foldlM_cons, Action.on_bind_ok hrun, hrest]
      · rcases List.mem_cons.mp hf' with rfl | hf'
        · exact hkeeps' _ hknows
        · exact hknows' f' hf'

end Opening

namespace Tracks

/-- A store has found the data of a table under its temporary or its permanent name. -/
def Finds (s : Store) (i : Nat) (temporary : Bool) : Prop :=
  i + 1 < s.nextGeneration ∧ (temporary = false → (s.tables.get? (i + 1)).isSome = true)

theorem finds_of_knows (ha : a.Vacant bound origin) {disk : Disk}
    (hknows : ∀ f ∈ a.store.filesAmong (disk.namesIn a.dir.home), s.Knows f) {i : Nat} (hi : i < bound)
    (temporary : Bool) (hpresent : disk.tree (((a.slot i).asTemporary temporary).place .data) ≠ none) :
    Finds s i temporary := by
  obtain ⟨d, htwin, hmem⟩ := ha.exists_mem_filesAmong hi (s := a.store) rfl rfl temporary hpresent
  obtain ⟨hcounted, hopened⟩ := hknows _ hmem
  have hgeneration : d.generation = i + 1 := htwin.generation
  rw [hgeneration] at hcounted hopened
  exact ⟨hcounted, fun hpermanent => hopened rfl (htwin.temporary.trans hpermanent)⟩

/-- A store that has found the data of all tables is in step with the ledger. -/
theorem of_opening (h : Tracks a bound origin s v.disk b) (hidle : s.writer = none)
    (hopening : Opening a b.closed v.disk s')
    (hfinds : ∀ i < b.closed.length, ∀ temporary,
      v.disk.tree (((a.slot i).asTemporary temporary).place .data) ≠ none → Finds s' i temporary) :
    Tracks a bound origin s' v.disk b where
  settings := hopening.settings
  frame := h.frame
  within := h.within
  next := by
    have hwriting := h.writing_of_idle hidle
    have hused : b.used = b.closed.length := by simp [Ledger.used, Ledger.tables, hwriting]
    have hnext := hopening.next_le
    have hpos := hopening.next_pos
    rcases Nat.eq_zero_or_pos b.closed.length with hzero | hlast
    · omega
    · -- the last table has its data under one of its names
      obtain ⟨i, hi⟩ : ∃ i, b.closed.length = i + 1 := ⟨b.closed.length - 1, by omega⟩
      have hkept := h.kept i _ (List.getElem?_eq_getElem (by omega))
      have hcounted : i + 1 < s'.nextGeneration := by
        rcases htable : s.tables.get? (i + 1) with - | r
        · exact (hfinds i (by omega) true (hkept.tree_temporary.mpr htable)).1
        · exact (hfinds i (by omega) false (hkept.tree_published.mpr (by rw [htable]; rfl))).1
      omega
  kept := by
    intro i puts hputs
    have hi : i < b.closed.length := (List.getElem?_eq_some_iff.mp hputs).1
    have hkept := h.kept i puts hputs
    rcases htable : s'.tables.get? (i + 1) with - | r
    · rcases hold : s.tables.get? (i + 1) with - | r₀
      · rwa [hold] at hkept
      · have hpublished := hkept.tree_published.mpr (by rw [hold]; rfl)
        have hsome := (hfinds i hi false hpublished).2 rfl
        rw [htable] at hsome
        cases hsome
    · obtain ⟨j, puts', hputs', hj, hopened⟩ := hopening.kept _ r htable
      obtain rfl : i = j := by omega
      rw [hputs] at hputs'
      cases hputs'
      exact hopened
  opened := by
    intro generation hopen
    obtain ⟨r, hr⟩ := Option.isSome_iff_exists.mp hopen
    obtain ⟨i, puts, hputs, hgeneration, -⟩ := hopening.kept generation r hr
    exact ⟨i, (List.getElem?_eq_some_iff.mp hputs).1, hgeneration⟩
  busy := by
    rw [hopening.idle, h.writing_of_idle hidle]
    exact .idle
  values := h.values

/-- A store that is opened again knows all tables that are done with, and has open what is published. -/
theorem on_openAll (ha : a.Vacant bound origin) (h : Tracks a bound origin s v.disk b)
    (hidle : s.writer = none) (now : Nat) :
    ∃ s', (Store.openAll a.dir a.table a.partitioner a.config now).on v = (.ok s', v) ∧
      Tracks a bound origin s' v.disk b := by
  have hused : b.used = b.closed.length := by simp [Ledger.used, Ledger.tables, h.writing_of_idle hidle]
  have hwithin := h.within
  have hlist := ha.list_of_frame h.frame
  have hfiles : ∀ f ∈ a.store.filesAmong (v.disk.namesIn a.dir.home), Opening.File a b.closed v.disk f := by
    intro f hf
    have htwin := ha.twin_of_mem_filesAmong h.frame hwithin (s := a.store) rfl rfl hf
    rwa [hused] at htwin
  have hclosed : ∀ i puts, b.closed[i]? = some puts → v.disk.Hosts (a.slot i) ∧
      ∃ table, Kept (a.slot i) (puts.map (Put.row a.partitioner)) [] v.disk table := by
    intro i puts hputs
    have hi := (List.getElem?_eq_some_iff.mp hputs).1
    exact ⟨ha.hosts_of_frame h.frame (by omega), _, h.kept i puts hputs⟩
  obtain ⟨s', hfold, hopening, hknows, -⟩ :=
    (Opening.store a b.closed v.disk).on_foldlM ha.validTable hclosed hfiles now
  refine ⟨s', ?_, h.of_opening hidle hopening fun i hi => finds_of_knows ha hknows (by omega)⟩
  have hstart : Store.start a.dir a.table a.partitioner a.config = .ok a.store :=
    Site.start_eq_ok_iff.mpr ⟨ha.config, ha.validTable, rfl⟩
  have hmake : ((Action.makeDirectories a.dir).mapError fun e =>
      StoreError.during (.creating a.dir) (.io (.disk e))).on v = (.ok (), v) :=
    Action.on_mapError_eq_ok_iff.mpr (Action.on_makeDirectories_of_list hlist)
  have hlisted : a.store.listFiles.on v = (.ok (a.store.filesAmong (v.disk.namesIn a.dir.home)), v) :=
    Store.on_listFiles hlist
  unfold Store.openAll
  rw [hstart]
  exact (Action.on_bind_ok hmake).trans ((Action.on_bind_ok hlisted).trans hfold)

end Tracks

end SortedTable
