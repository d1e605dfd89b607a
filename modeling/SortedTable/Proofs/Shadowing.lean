import SortedTable.Proofs.Sessions

/-!
# Published tables of one generation

A store keeps its tables by their generation, and a generation may be there in more than one version. Then the table
that the directory lists last hides the others. So the published tables are all open, and the order of the listing
does not matter, if and only if no two of them share a generation. Main statement: `open_holds_all_iff`.
-/

namespace SortedTable.Store

/-- Opens a store on a directory that lists its names in this order. -/
def openListed (order : List Bytes → List Bytes) (dir : Path) (table : String) (partitioner : Partitioner)
    (config : Config) (now : Nat) : Action StoreError Store := do
  let s ← MonadExcept.ofExcept (start dir table partitioner config)
  (Action.makeDirectories dir).mapError fun e =>
    .during (.creating dir) (.io (.disk e))
  let names ← (Action.look (·.list s.dir)).mapError fun e => .io (.disk e)
  (s.filesAmong (order names)).foldlM (openFound · now) s

theorem openListed_id (dir : Path) (table : String) (partitioner : Partitioner) (config : Config) (now : Nat) :
    openListed id dir table partitioner config now = openAll dir table partitioner config now := by
  unfold openListed openAll listFiles
  simp only [bind_assoc, pure_bind, id]

/-- The file is the data of a published table. -/
def Found.publishes (f : Found) : Bool := f.component = .data && !f.descriptor.temporary

def Found.publishesAs (generation : Nat) (f : Found) : Bool :=
  f.publishes && f.descriptor.generation = generation

variable {s s' : Store} {v v' : Volume} {now : Nat} {files : List Found} {f : Found}

theorem on_openFound_publishes (h : f.publishes = true) {r : Reader}
    (hopen : (Reader.openTable f.descriptor s.metadata s.partitioner s.config now).on v = (.ok r, v)) :
    (s.openFound now f).on v = (.ok { s with
      tables := s.tables.insert f.descriptor.generation r
      nextGeneration := max s.nextGeneration (f.descriptor.generation + 1) }, v) := by
  have hcond : f.component = .data ∧ (!f.descriptor.temporary) = true := by simpa [Found.publishes] using h
  unfold openFound
  dsimp only
  rw [if_pos hcond]
  exact Action.on_bind_ok (Action.on_mapError_eq_ok_iff.mpr hopen)

theorem on_openFound_other (h : f.publishes = false) :
    (s.openFound now f).on v =
      (.ok { s with nextGeneration := max s.nextGeneration (f.descriptor.generation + 1) }, v) := by
  have hcond : ¬ (f.component = .data ∧ (!f.descriptor.temporary) = true) := by
    rw [← Bool.and_eq_true_iff.trans (and_congr_left fun _ => decide_eq_true_iff), Bool.not_eq_true]
    exact h
  unfold openFound
  dsimp only
  rw [if_neg hcond]
  rfl

theorem exists_of_openFound (h : f.publishes = true) (hrun : (s.openFound now f).on v = (.ok s', v')) :
    ∃ r, (Reader.openTable f.descriptor s.metadata s.partitioner s.config now).on v = (.ok r, v) := by
  have hcond : f.component = .data ∧ (!f.descriptor.temporary) = true := by simpa [Found.publishes] using h
  unfold openFound at hrun
  dsimp only at hrun
  rw [if_pos hcond, Action.on_bind_eq_ok_iff] at hrun
  obtain ⟨r, v₁, hopen, -⟩ := hrun
  rw [Action.on_mapError_eq_ok_iff] at hopen
  obtain rfl := (Reader.looks_openTable _ _ _ _ _).eq hopen
  exact ⟨r, hopen⟩

/-- Every published table among the files can be opened. -/
def Openable (s : Store) (now : Nat) (files : List Found) (v : Volume) : Prop :=
  ∀ f ∈ files, f.publishes = true →
    ∃ r, (Reader.openTable f.descriptor s.metadata s.partitioner s.config now).on v = (.ok r, v)

/-- The store is opened if all its tables are, in whatever order they come. -/
theorem exists_foldlM_openFound_iff :
    (∃ s', Action.on (files.foldlM (openFound · now) s) v = (.ok s', v)) ↔ s.Openable now files v := by
  induction files generalizing s with
  | nil => exact ⟨fun _ => by simp [Openable], fun _ => ⟨s, rfl⟩⟩
  | cons f rest ih =>
      rw [Openable, List.forall_mem_cons]
      constructor
      · rintro ⟨s', hrun⟩
        rw [List.foldlM_cons, Action.on_bind_eq_ok_iff] at hrun
        obtain ⟨s₁, v₁, hfirst, hrest⟩ := hrun
        obtain ⟨rfl, tables, rfl⟩ := openFound_eq_ok hfirst
        have hopenable := ih.mp ⟨s', hrest⟩
        exact ⟨fun hf => exists_of_openFound hf hfirst, hopenable⟩
      · rintro ⟨hfirst, hrest⟩
        rw [List.foldlM_cons]
        rcases hf : f.publishes with - | -
        · rw [Action.on_bind_ok (on_openFound_other hf)]
          exact ih.mpr hrest
        · obtain ⟨r, hopen⟩ := hfirst hf
          rw [Action.on_bind_ok (on_openFound_publishes hf hopen)]
          exact ih.mpr hrest

/-- Of the published tables of one generation, the last one among the files is held. -/
theorem get?_of_foldlM_openFound (hrun : Action.on (files.foldlM (openFound · now) s) v = (.ok s', v'))
    (generation : Nat) :
    match (files.filter (Found.publishesAs generation)).getLast? with
    | none => s'.tables.get? generation = s.tables.get? generation
    | some f => ∃ r, (Reader.openTable f.descriptor s.metadata s.partitioner s.config now).on v = (.ok r, v) ∧
        s'.tables.get? generation = some r := by
  induction files generalizing s with
  | nil =>
      cases hrun
      rfl
  | cons f rest ih =>
      rw [List.foldlM_cons] at hrun
      rcases hf : f.publishes with - | -
      · have hskip : f.publishesAs generation = false := by rw [Found.publishesAs, hf, Bool.false_and]
        rw [Action.on_bind_ok (on_openFound_other hf)] at hrun
        have hrest := ih hrun
        rw [List.filter_cons_of_neg (by simp [hskip])]
        exact hrest
      · obtain ⟨s₁, v₁, hfirst, -⟩ := Action.on_bind_eq_ok_iff.mp hrun
        obtain ⟨r, hopen⟩ := exists_of_openFound hf hfirst
        rw [Action.on_bind_ok (on_openFound_publishes hf hopen)] at hrun
        have hrest := ih hrun
        dsimp only at hrest
        rw [SortedMap.get?_insert] at hrest
        by_cases hgeneration : f.descriptor.generation = generation
        · have hkeep : f.publishesAs generation = true := by simp [Found.publishesAs, hf, hgeneration]
          rw [List.filter_cons_of_pos hkeep, List.getLast?_cons]
          rcases hlast : (rest.filter (Found.publishesAs generation)).getLast? with - | last
          · rw [hlast, if_pos hgeneration.symm] at hrest
            exact ⟨r, hopen, hrest⟩
          · rw [hlast] at hrest
            exact hrest
        · have hskip : f.publishesAs generation = false := by simp [Found.publishesAs, hgeneration]
          rw [List.filter_cons_of_neg (by simp [hskip])]
          rw [if_neg (Ne.symm hgeneration)] at hrest
          exact hrest

theorem Found.before_iff {a b : Found} :
    a.before b = true ↔ a.descriptor.generation < b.descriptor.generation ∨
      a.descriptor.generation = b.descriptor.generation ∧ a.component.rank ≤ b.component.rank := by
  simp [before]

theorem Found.before_trans (a b c : Found) (hab : a.before b = true) (hbc : b.before c = true) :
    a.before c = true := by
  rw [before_iff] at hab hbc ⊢
  omega

theorem Found.before_total (a b : Found) : (a.before b || b.before a) = true := by
  rw [Bool.or_eq_true, before_iff, before_iff]
  omega

theorem Found.publishesAs_iff {generation : Nat} :
    f.publishesAs generation = true ↔
      f.component = .data ∧ f.descriptor.temporary = false ∧ f.descriptor.generation = generation := by
  simp [publishesAs, publishes, and_assoc]

/-- The table's files among some names, in the order of the names. -/
def listed (s : Store) (names : List Bytes) : List Found :=
  names.filterMap fun name =>
    match Descriptor.ofPath? (s.dir.join ⟨name⟩) with
    | some (d, c) => if d.table = s.metadata.name then some ⟨d, c⟩ else none
    | none => none

/-- Sorting keeps the order of the published tables of one generation. -/
theorem filter_filesAmong (s : Store) (names : List Bytes) (generation : Nat) :
    (s.filesAmong names).filter (Found.publishesAs generation) =
      (s.listed names).filter (Found.publishesAs generation) := by
  have htied : ((s.listed names).filter (Found.publishesAs generation)).Pairwise fun a b => a.before b = true := by
    refine List.pairwise_of_forall_mem_list fun a ha b hb => Found.before_iff.mpr (.inr ?_)
    obtain ⟨hcomponent, -, hgeneration⟩ := Found.publishesAs_iff.mp (List.mem_filter.mp ha).2
    obtain ⟨hcomponent', -, hgeneration'⟩ := Found.publishesAs_iff.mp (List.mem_filter.mp hb).2
    exact ⟨hgeneration.trans hgeneration'.symm, by rw [hcomponent, hcomponent']⟩
  have hsub := (List.sublist_mergeSort Found.before_trans Found.before_total htied List.filter_sublist).filter
    (Found.publishesAs generation)
  simp only [List.filter_filter, Bool.and_self] at hsub
  refine (hsub.eq_of_length ?_).symm
  exact (((s.listed names).mergeSort_perm Found.before).filter _).length_eq.symm

theorem listed_concat {names : List Bytes} {name : Bytes} {d : Descriptor} {c : Component}
    (hname : Descriptor.ofPath? (s.dir.join ⟨name⟩) = some (d, c)) (htable : d.table = s.metadata.name) :
    s.listed (names ++ [name]) = s.listed names ++ [⟨d, c⟩] := by
  have hone : s.listed [name] = [⟨d, c⟩] := by
    rw [listed, List.filterMap_cons, hname]
    dsimp only
    rw [if_pos htable]
    rfl
  rw [listed, List.filterMap_append]
  exact congrArg (s.listed names ++ ·) hone

/-- A name in the directory is that of the data of this published table. -/
def Publishes (dir : Path) (table : String) (names : List Bytes) (d : Descriptor) : Prop :=
  ∃ name ∈ names, Descriptor.ofPath? (dir.join ⟨name⟩) = some (d, .data) ∧ d.table = table ∧ d.temporary = false

/-- No two published tables share a generation. -/
def OnePerGeneration (dir : Path) (table : String) (names : List Bytes) : Prop :=
  ∀ d d', Publishes dir table names d → Publishes dir table names d' → d.generation = d'.generation → d = d'

variable {order : List Bytes → List Bytes} {names : List Bytes} {v₀ : Volume} {a : Site} {generation : Nat}

theorem mem_filter_listed :
    f ∈ (a.store.listed names).filter (Found.publishesAs generation) ↔
      f.component = .data ∧ Publishes a.dir a.table names f.descriptor ∧ f.descriptor.generation = generation := by
  have hlisted : f ∈ a.store.listed names ↔ f ∈ a.store.filesAmong names :=
    (List.mergeSort_perm (a.store.listed names) Found.before).mem_iff.symm
  rw [List.mem_filter, hlisted, mem_filesAmong, Found.publishesAs_iff]
  obtain ⟨d, c⟩ := f
  constructor
  · rintro ⟨⟨name, hname, hpath, htable⟩, rfl, htemporary, hgeneration⟩
    exact ⟨rfl, ⟨name, hname, hpath, htable, htemporary⟩, hgeneration⟩
  · rintro ⟨rfl, ⟨name, hname, hpath, htable, htemporary⟩, hgeneration⟩
    exact ⟨⟨name, hname, hpath, htable⟩, rfl, htemporary, hgeneration⟩

theorem Publishes.of_perm {names' : List Bytes} (h : names'.Perm names) {d : Descriptor}
    (hd : Publishes a.dir a.table names' d) : Publishes a.dir a.table names d := by
  obtain ⟨name, hname, hrest⟩ := hd
  exact ⟨name, h.mem_iff.mp hname, hrest⟩

/-- A store is opened in any order of the listing if its directory can be made and listed, and its tables opened. -/
theorem openListed_eq_ok_iff :
    (openListed order a.dir a.table a.partitioner a.config now).on v₀ = (.ok s, v) ↔
      a.config.validate = .ok () ∧ Descriptor.ValidTable a.table ∧
        (Action.makeDirectories a.dir).on v₀ = (.ok (), v) ∧ ∃ names, v.disk.list a.dir = .ok names ∧
          Action.on ((a.store.filesAmong (order names)).foldlM (openFound · now) a.store) v = (.ok s, v) := by
  rcases hstart : start a.dir a.table a.partitioner a.config with e | s₀
  · constructor
    · intro hopen
      unfold openListed at hopen
      rw [hstart] at hopen
      cases hopen
    · rintro ⟨hconfig, htable, -⟩
      rw [Site.start_eq_ok_iff.mpr ⟨hconfig, htable, rfl⟩] at hstart
      cases hstart
  obtain ⟨hconfig, htable, rfl⟩ := Site.start_eq_ok_iff.mp hstart
  have hopened : openListed order a.dir a.table a.partitioner a.config now = (do
      (Action.makeDirectories a.dir).mapError fun e => StoreError.during (.creating a.dir) (.io (.disk e))
      let names ← (Action.look (·.list a.dir)).mapError fun e => StoreError.io (.disk e)
      (a.store.filesAmong (order names)).foldlM (openFound · now) a.store) := by
    unfold openListed
    rw [hstart]
    rfl
  rw [hopened]
  simp only [Action.on_bind_eq_ok_iff, Action.on_mapError_eq_ok_iff, Action.on_look, Prod.mk.injEq]
  constructor
  · rintro ⟨u, v₁, hmake, names, v₂, ⟨hlist, rfl⟩, hfold⟩
    obtain ⟨rfl, -⟩ := foldlM_openFound_eq_ok hfold
    exact ⟨hconfig, htable, hmake, names, hlist, hfold⟩
  · rintro ⟨-, -, hmake, names, hlist, hfold⟩
    exact ⟨(), v, hmake, names, v, ⟨hlist, rfl⟩, hfold⟩

/-- Which orders there are does not matter for whether the store is opened. -/
theorem exists_openListed {order' : List Bytes → List Bytes} (horder : ∀ names, (order names).Perm names)
    (horder' : ∀ names, (order' names).Perm names)
    (hopen : (openListed order a.dir a.table a.partitioner a.config now).on v₀ = (.ok s, v)) :
    ∃ s', (openListed order' a.dir a.table a.partitioner a.config now).on v₀ = (.ok s', v) := by
  obtain ⟨hconfig, htable, hmake, names, hlist, hfold⟩ := openListed_eq_ok_iff.mp hopen
  have hopenable := exists_foldlM_openFound_iff.mp ⟨s, hfold⟩
  have hfiles : ∀ f ∈ a.store.filesAmong (order' names), f ∈ a.store.filesAmong (order names) := by
    intro f hf
    obtain ⟨name, hname, hrest⟩ := mem_filesAmong.mp hf
    exact mem_filesAmong.mpr ⟨name, (horder names).mem_iff.mpr ((horder' names).mem_iff.mp hname), hrest⟩
  obtain ⟨s', hfold'⟩ := exists_foldlM_openFound_iff.mpr fun f hf hpublishes => hopenable f (hfiles f hf) hpublishes
  exact ⟨s', openListed_eq_ok_iff.mpr ⟨hconfig, htable, hmake, names, hlist, hfold'⟩⟩

/-- The reader of a generation is that of the published table which the directory lists last. -/
theorem table?_of_openListed (hlist : v.disk.list a.dir = .ok names)
    (hopen : (openListed order a.dir a.table a.partitioner a.config now).on v₀ = (.ok s, v)) (generation : Nat) :
    match ((a.store.listed (order names)).filter (Found.publishesAs generation)).getLast? with
    | none => s.table? generation = none
    | some f => ∃ r, (Reader.openTable f.descriptor a.metadata a.partitioner a.config now).on v = (.ok r, v) ∧
        s.table? generation = some r := by
  obtain ⟨-, -, -, names', hlist', hfold⟩ := openListed_eq_ok_iff.mp hopen
  rw [hlist] at hlist'
  cases hlist'
  have hlast := get?_of_foldlM_openFound hfold generation
  rw [filter_filesAmong] at hlast
  exact hlast

/-- The order in which one name comes last. -/
def listedLast (name : Bytes) (names : List Bytes) : List Bytes :=
  if name ∈ names then names.erase name ++ [name] else names

theorem listedLast_perm (name : Bytes) (names : List Bytes) : (listedLast name names).Perm names := by
  unfold listedLast
  split
  · rename_i hmem
    exact (List.perm_append_singleton name (names.erase name)).trans (List.perm_cons_erase hmem).symm
  · exact .refl _

/-- The table that is listed last is held. -/
theorem table?_of_listedLast {d : Descriptor} {name : Bytes} (hlist : v.disk.list a.dir = .ok names)
    (hname : name ∈ names) (hpath : Descriptor.ofPath? (a.dir.join ⟨name⟩) = some (d, .data))
    (htable : d.table = a.table) (htemporary : d.temporary = false)
    (hopen : (openListed (listedLast name) a.dir a.table a.partitioner a.config now).on v₀ = (.ok s, v)) :
    ∃ r, s.table? d.generation = some r ∧ r.descriptor = d := by
  have hlast := table?_of_openListed hlist hopen d.generation
  have hpublishes : Found.publishesAs d.generation ⟨d, .data⟩ = true :=
    Found.publishesAs_iff.mpr ⟨rfl, htemporary, rfl⟩
  rw [listedLast, if_pos hname, listed_concat (s := a.store) hpath htable, List.filter_append,
    List.filter_cons_of_pos hpublishes, List.filter_nil, List.getLast?_concat] at hlast
  obtain ⟨r, hrun, hheld⟩ := hlast
  exact ⟨r, hheld, (Reader.openTable_eq_ok hrun).2.1⟩

/-- The readers of a store that was opened are those of published tables. -/
theorem publishes_of_table? (horder : ∀ names, (order names).Perm names) (hlist : v.disk.list a.dir = .ok names)
    (hopen : (openListed order a.dir a.table a.partitioner a.config now).on v₀ = (.ok s, v)) {r : Reader}
    (hr : s.table? generation = some r) :
    Publishes a.dir a.table names r.descriptor ∧ r.descriptor.generation = generation ∧
      (Reader.openTable r.descriptor a.metadata a.partitioner a.config now).on v = (.ok r, v) := by
  have hlast := table?_of_openListed hlist hopen generation
  rcases hfound : ((a.store.listed (order names)).filter (Found.publishesAs generation)).getLast? with - | f
  · rw [hfound] at hlast
    rw [hlast] at hr
    cases hr
  · rw [hfound] at hlast
    obtain ⟨r', hrun, hr'⟩ := hlast
    rw [hr] at hr'
    cases hr'
    obtain ⟨-, hpublishes, hgeneration⟩ := mem_filter_listed.mp (List.mem_of_getLast? hfound)
    obtain ⟨-, hdescriptor, -⟩ := Reader.openTable_eq_ok hrun
    rw [hdescriptor]
    exact ⟨hpublishes.of_perm (horder names), hgeneration, hrun⟩

/-- Of the generation of each published table a store that was opened has a reader. -/
theorem exists_table?_of_publishes (horder : ∀ names, (order names).Perm names)
    (hlist : v.disk.list a.dir = .ok names)
    (hopen : (openListed order a.dir a.table a.partitioner a.config now).on v₀ = (.ok s, v)) {d : Descriptor}
    (hd : Publishes a.dir a.table names d) : ∃ r, s.table? d.generation = some r := by
  have hmem : (⟨d, .data⟩ : Found) ∈ (a.store.listed (order names)).filter (Found.publishesAs d.generation) :=
    mem_filter_listed.mpr ⟨rfl, hd.of_perm (horder names).symm, rfl⟩
  have hlast := table?_of_openListed hlist hopen d.generation
  rw [List.getLast?_eq_some_getLast (List.ne_nil_of_mem hmem)] at hlast
  obtain ⟨r, -, hr⟩ := hlast
  exact ⟨r, hr⟩

/-- Published tables that are all held have generations of their own. -/
theorem onePerGeneration_of_held
    (hall : ∀ d, Publishes a.dir a.table names d → ∃ r, s.table? d.generation = some r ∧ r.descriptor = d) :
    OnePerGeneration a.dir a.table names := by
  intro d d' hd hd' heq
  obtain ⟨r, hr, hdescriptor⟩ := hall d hd
  obtain ⟨r', hr', hdescriptor'⟩ := hall d' hd'
  rw [← heq, hr] at hr'
  cases hr'
  exact hdescriptor.symm.trans hdescriptor'

/-- Where no two published tables share a generation, the order of the listing leaves no choice of a reader. -/
theorem table?_eq_of_onePerGeneration (hone : OnePerGeneration a.dir a.table names) {order' : List Bytes → List Bytes}
    {s' : Store} (horder : ∀ names, (order names).Perm names) (horder' : ∀ names, (order' names).Perm names)
    (hlist : v.disk.list a.dir = .ok names)
    (hopen : (openListed order a.dir a.table a.partitioner a.config now).on v₀ = (.ok s, v))
    (hopen' : (openListed order' a.dir a.table a.partitioner a.config now).on v₀ = (.ok s', v)) {r : Reader}
    (hr : s.table? generation = some r) : s'.table? generation = some r := by
  obtain ⟨hpublishes, rfl, hrun⟩ := publishes_of_table? horder hlist hopen hr
  obtain ⟨r', hr'⟩ := exists_table?_of_publishes horder' hlist hopen' hpublishes
  obtain ⟨hpublishes', hgeneration', hrun'⟩ := publishes_of_table? horder' hlist hopen' hr'
  rw [hone _ _ hpublishes' hpublishes hgeneration', hrun] at hrun'
  cases hrun'
  exact hr'

/-- A store that is opened holds readers of published tables only, one for each generation, and which one of a
generation it is, the order of the listing decides. So it holds all of them, and the same in whatever order they are
listed, if and only if no two share a generation. -/
theorem open_holds_all_iff (horder : ∀ names, (order names).Perm names)
    (hopen : (openListed order a.dir a.table a.partitioner a.config now).on v₀ = (.ok s, v)) :
    ∃ names, v.disk.list a.dir = .ok names ∧
      (∀ g r, s.table? g = some r → Publishes a.dir a.table names r.descriptor ∧ r.descriptor.generation = g) ∧
      ((∀ d, Publishes a.dir a.table names d → ∃ r, s.table? d.generation = some r ∧ r.descriptor = d) ↔
        OnePerGeneration a.dir a.table names) ∧
      (∀ order', (∀ names, (order' names).Perm names) →
        ∃ s', (openListed order' a.dir a.table a.partitioner a.config now).on v₀ = (.ok s', v)) ∧
      ((∀ order' s', (∀ names, (order' names).Perm names) →
          (openListed order' a.dir a.table a.partitioner a.config now).on v₀ = (.ok s', v) →
            ∀ g, s'.table? g = s.table? g) ↔
        OnePerGeneration a.dir a.table names) := by
  obtain ⟨-, -, -, names, hlist, -⟩ := openListed_eq_ok_iff.mp hopen
  have hevery : ∀ order', (∀ names, (order' names).Perm names) →
      ∃ s', (openListed order' a.dir a.table a.partitioner a.config now).on v₀ = (.ok s', v) :=
    fun order' horder' => exists_openListed horder horder' hopen
  refine ⟨names, hlist, fun g r hr => ?_, ⟨onePerGeneration_of_held, fun hone d hd => ?_⟩, hevery,
    ⟨fun hsame => ?_, fun hone order' s' horder' hopen' g => ?_⟩⟩
  · obtain ⟨hpublishes, hgeneration, -⟩ := publishes_of_table? horder hlist hopen hr
    exact ⟨hpublishes, hgeneration⟩
  · obtain ⟨r, hr⟩ := exists_table?_of_publishes horder hlist hopen hd
    obtain ⟨hpublishes, hgeneration, -⟩ := publishes_of_table? horder hlist hopen hr
    exact ⟨r, hr, hone _ _ hpublishes hd hgeneration⟩
  · -- each of the tables is held in an order that lists it last
    refine onePerGeneration_of_held (s := s) ?_
    rintro d ⟨name, hname, hpath, htable, htemporary⟩
    obtain ⟨s', hopen'⟩ := hevery (listedLast name) (listedLast_perm name)
    rw [← hsame _ s' (listedLast_perm name) hopen']
    exact table?_of_listedLast hlist hname hpath htable htemporary hopen'
  · refine Option.ext fun r => ⟨fun hr' => ?_, fun hr => ?_⟩
    · exact table?_eq_of_onePerGeneration hone horder' horder hlist hopen' hopen hr'
    · exact table?_eq_of_onePerGeneration hone horder horder' hlist hopen hopen' hr

/-! ### A directory with two versions of a table

Both tables are empty and of one generation. Only the one that is listed last is open. -/

/-- The first published table of `users` in a version. -/
def usersIn (version : String) : Descriptor := ⟨usersSite.dir, "ks", "users", 1, version, false⟩

def emptyFilter : Bytes := [0, 0, 0, 1, 0, 0, 0, 1, 0, 0, 0, 0, 0, 0, 0, 0]

/-- Puts a table without rows on a disk. -/
def withTable (disk : Disk) (d : Descriptor) : Disk :=
  let disk := (disk.addFile (d.place .data)).addFile (d.place .primaryIndex)
  (disk.addFile (d.place .filter)).setContents disk.files.size (.ofBytes emptyFilter)

def versionsVolume : Volume :=
  ⟨withTable (withTable (Disk.empty.addDirectory usersSite.dir.home) (usersIn "d")) (usersIn "e"), []⟩

def versionsFiles : Component → Option Bytes
  | .data | .primaryIndex => some []
  | .filter => some emptyFilter
  | .statistics => none

theorem hosts_versions (version : String) (hversion : version = "d" ∨ version = "e") :
    versionsVolume.disk.Hosts (usersIn version) := by
  intro c
  rcases hversion with rfl | rfl <;> cases c <;> exact ⟨_, rfl, rfl, rfl, rfl⟩

theorem shows_versions (version : String) (hversion : version = "d" ∨ version = "e") :
    versionsVolume.disk.Shows (usersIn version) versionsFiles := by
  intro c
  rcases hversion with rfl | rfl <;> cases c <;> rfl

def versionsNames : List Bytes :=
  ["d", "e"].flatMap fun version => [.data, .filter, .primaryIndex].map fun c => (usersIn version).nameOf c

theorem list_versions : versionsVolume.disk.list usersSite.dir = .ok versionsNames := by decide +kernel

theorem parent?_versions : ∀ version ∈ ["d", "e"], ∀ c ∈ [Component.data, .filter, .primaryIndex],
    ((usersIn version).pathOf c).parent? = some usersSite.dir := by
  decide +kernel

theorem ofPath?_versions : ∀ version ∈ ["d", "e"], ∀ c ∈ [Component.data, .filter, .primaryIndex],
    Descriptor.ofPath? (usersSite.dir.join ⟨(usersIn version).nameOf c⟩) = some (usersIn version, c) := by
  intro version hversion c hc
  have hvalid : Descriptor.ValidVersion version := by
    simp only [List.mem_cons, List.not_mem_nil, or_false] at hversion
    rcases hversion with rfl | rfl
    · exact Descriptor.validVersion_of_letter (c := 'd') (by decide) (by decide)
    · exact Descriptor.validVersion_currentVersion
  have htable : Descriptor.ValidTable usersSite.table := by decide
  have hnamed : (usersIn version).Named := ⟨htable, hvalid⟩
  have hgeneration : 1 < Decimal.limit64 := by decide
  have hkeyspace : Descriptor.keyspaceOf usersSite.dir = "ks" := by decide +kernel
  have hread := Descriptor.ofPath?_of_parent? hnamed hgeneration (parent?_versions version hversion c hc)
  rw [hkeyspace] at hread
  exact hread

theorem publishes_versions {version : String} (hversion : version ∈ ["d", "e"]) :
    Publishes usersSite.dir usersSite.table versionsNames (usersIn version) :=
  ⟨(usersIn version).nameOf .data,
    List.mem_flatMap.mpr ⟨version, hversion, List.mem_map_of_mem List.mem_cons_self⟩,
    ofPath?_versions version hversion .data List.mem_cons_self, rfl, rfl⟩

theorem decode_emptyFilter : Filter.decode emptyFilter = .ok (⟨#[0], 1⟩, []) := by decide +kernel

theorem openable_versions {names : List Bytes} (hnames : ∀ name ∈ names, name ∈ versionsNames) :
    usersSite.store.Openable 0 (usersSite.store.filesAmong names) versionsVolume := by
  intro f hf hpublishes
  obtain ⟨name, hname, hpath, -⟩ := mem_filesAmong.mp hf
  obtain ⟨version, hversion, hname⟩ := List.mem_flatMap.mp (hnames name hname)
  obtain ⟨c, hc, rfl⟩ := List.mem_map.mp hname
  have hfound := Option.some.inj (hpath.symm.trans (ofPath?_versions version hversion c hc))
  obtain ⟨hdescriptor, -⟩ := Prod.mk.inj hfound
  have hcases : version = "d" ∨ version = "e" := by simpa using hversion
  have hrecords : Reader.decodeRecords [] = .ok [] := by rw [Reader.decodeRecords, Record.readIndex_nil]
  obtain ⟨indexFile, dataFile, hrun, -⟩ := Reader.on_openTable
    ((shows_versions version hcases).reads (hosts_versions version hcases)) rfl rfl rfl hrecords decode_emptyFilter
    rfl usersSite.metadata usersSite.partitioner usersSite.config 0
  rw [hdescriptor]
  exact ⟨_, hrun⟩

theorem openListed_versions (horder : ∀ names, (order names).Perm names) :
    ∃ s, (openListed order usersSite.dir usersSite.table usersSite.partitioner usersSite.config 0).on
      versionsVolume = (.ok s, versionsVolume) := by
  obtain ⟨s, hfold⟩ := exists_foldlM_openFound_iff.mpr
    (openable_versions fun name hname => (horder versionsNames).mem_iff.mp hname)
  exact ⟨s, openListed_eq_ok_iff.mpr
    ⟨rfl, by decide, Action.on_makeDirectories_of_list list_versions, versionsNames, list_versions, hfold⟩⟩

theorem open_holds_all_iff_versions :
    ∃ s, (openListed id usersSite.dir usersSite.table usersSite.partitioner usersSite.config 0).on versionsVolume =
        (.ok s, versionsVolume) ∧
      ¬ ∀ d, Publishes usersSite.dir usersSite.table versionsNames d →
        ∃ r, s.table? d.generation = some r ∧ r.descriptor = d := by
  have horder : ∀ names : List Bytes, (id names).Perm names := .refl
  obtain ⟨s, hopen⟩ := openListed_versions horder
  obtain ⟨names, hlist, -, hall, -⟩ := open_holds_all_iff horder hopen
  rw [list_versions] at hlist
  cases hlist
  refine ⟨s, hopen, fun hheld => ?_⟩
  have hpublishes : ∀ version ∈ ["d", "e"], Publishes usersSite.dir usersSite.table versionsNames (usersIn version) :=
    fun version => publishes_versions
  have hsame := hall.mp hheld _ _ (hpublishes "d" (by simp)) (hpublishes "e" (by simp)) rfl
  exact absurd hsame (by decide)

/-- Two published tables of one generation are in the directory, and which of them is open depends on the order of the
listing: the other one is hidden, and nothing fails. -/
theorem open_hides_published_version :
    (∀ version ∈ ["d", "e"], Publishes usersSite.dir usersSite.table versionsNames (usersIn version)) ∧
      ∀ version ∈ ["d", "e"], ∃ order s r, (∀ names, (order names).Perm names) ∧
        (openListed order usersSite.dir usersSite.table usersSite.partitioner usersSite.config 0).on versionsVolume =
          (.ok s, versionsVolume) ∧
        s.table? 1 = some r ∧ r.descriptor = usersIn version := by
  refine ⟨fun version => publishes_versions, fun version hversion => ?_⟩
  have hname : (usersIn version).nameOf .data ∈ versionsNames :=
    List.mem_flatMap.mpr ⟨version, hversion, List.mem_map_of_mem List.mem_cons_self⟩
  obtain ⟨s, hopen⟩ := openListed_versions (listedLast_perm ((usersIn version).nameOf .data))
  obtain ⟨r, hr, hdescriptor⟩ := table?_of_listedLast list_versions hname
    (ofPath?_versions version hversion .data List.mem_cons_self) rfl rfl hopen
  exact ⟨_, s, r, listedLast_perm _, hopen, hr, hdescriptor⟩

end SortedTable.Store
