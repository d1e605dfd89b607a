import SortedTable.Proofs.Disk.Running
import SortedTable.Proofs.Parsing
import SortedTable.Store

namespace SortedTable

namespace SortedMap

variable {κ β : Type} [LT κ] [DecidableEq κ]

theorem mem_keys_iff (m : SortedMap κ β) (k : κ) : k ∈ m.keys ↔ (m.get? k).isSome = true := by
  unfold keys get?
  induction m.entries with
  | nil => simp [lookup]
  | cons e rest ih =>
      rw [List.map_cons, List.mem_cons, ih, lookup]
      by_cases hk : e.1 = k
      · simp [hk]
      · rw [if_neg hk]
        simp [Ne.symm hk]

end SortedMap

namespace Path

theorem foldl_enter_append_idle {pieces idle : List Bytes} (h : ∀ piece ∈ idle, isIdle piece = true) :
    (pieces ++ idle).foldl Place.enter [] = pieces.foldl Place.enter [] := by
  rw [List.foldl_append, foldl_enter_of_idle h]

/-- Slashes at the end of a path say nothing. -/
theorem foldl_enter_trimmed (dir : Path) : dir.trimmed.foldl Place.enter [] = dir.home := by
  have hsplit : (dir.bytes.splitOn slash).foldl Place.enter [] = dir.home := by
    rw [home, leading]
    by_cases hempty : dir.bytes = []
    · rw [if_pos hempty, hempty]
      rfl
    rw [if_neg hempty]
    by_cases hlast : dir.bytes.getLast? = some slash
    · rw [if_pos hlast]
      have hdir : dir.bytes.dropLast ++ slash :: [] = dir.bytes := by
        rw [List.getLast?_eq_some_getLast hempty] at hlast
        rw [← Option.some.inj hlast]
        exact List.dropLast_concat_getLast hempty
      conv => lhs; rw [← hdir, List.splitOn_append_cons_self]
      exact foldl_enter_append_idle (by decide)
    · rw [if_neg hlast]
  have htrimmed : dir.trimmed ++ (dir.bytes.splitOn slash).rtakeWhile (· = []) = dir.bytes.splitOn slash :=
    List.rdropWhile_append_rtakeWhile
  rw [← hsplit, ← htrimmed, foldl_enter_append_idle]
  intro piece hpiece
  have hnil := List.mem_rtakeWhile_imp hpiece
  rw [decide_eq_true_iff] at hnil
  rw [hnil]
  rfl

end Path

namespace Disk

variable {disk disk' : Disk} {dir : Path} {names : List Bytes} {p : Place}

theorem mem_namesIn_iff {place : Place} {name : Bytes} :
    name ∈ disk.namesIn place ↔ disk.tree (place ++ [name]) ≠ none := by
  have hne : place ++ [name] ≠ [] := by simp
  have hkey : disk.tree (place ++ [name]) ≠ none ↔ place ++ [name] ∈ disk.nodes.keys := by
    rw [SortedMap.mem_keys_iff, ne_eq, tree_eq_none_iff, node?_of_ne_nil hne, Option.isSome_iff_ne_none]
  rw [hkey, namesIn, List.mem_filterMap]
  constructor
  · rintro ⟨p, hp, hname⟩
    split at hname
    · rename_i hcond
      obtain ⟨hp', rfl⟩ := hcond
      rw [List.getLast?_eq_some_getLast hp'] at hname
      rw [← Option.some.inj hname, List.dropLast_concat_getLast hp']
      exact hp
    · simp at hname
  · intro hmem
    refine ⟨place ++ [name], hmem, ?_⟩
    rw [List.dropLast_concat, List.getLast?_concat, if_pos ⟨hne, rfl⟩]

/-- A place that is walked to is the one that the path names. -/
theorem eq_home_of_follow {e : Entry} (hentry : disk.entry dir = .ok e) (hfollow : disk.follow e = .ok p) :
    p = dir.home := by
  obtain ⟨-, hwalk, -, hpiece, -⟩ := entry_eq_ok_iff.mp hentry
  obtain ⟨-, hplace, -⟩ := step_eq_ok_iff.mp hfollow
  rw [hplace, hpiece, foldlM_step_eq_ok hwalk, ← Path.foldl_enter_trimmed dir]
  by_cases hnil : dir.trimmed = []
  · rw [hnil]
    rfl
  · conv => rhs; rw [← List.dropLast_concat_getLast hnil, List.foldl_append]
    rw [List.getLastD_eq_getLast?, List.getLast?_eq_some_getLast hnil]
    rfl

/-- A directory that can be listed is the one that its path leads to. -/
theorem list_eq_ok (h : disk.list dir = .ok names) :
    dir.bytes ≠ [] ∧ (∃ e, disk.entry dir = .ok e ∧ disk.follow e = .ok dir.home) ∧
      disk.tree dir.home = some .directory ∧ names = disk.namesIn dir.home := by
  unfold list at h
  obtain ⟨e, hentry, h⟩ := Except.bind_eq_ok_iff.mp h
  obtain ⟨place, hfollow, h⟩ := Except.bind_eq_ok_iff.mp h
  obtain ⟨u, hdir, h⟩ := Except.bind_eq_ok_iff.mp h
  obtain ⟨⟨hne, -, -⟩, -⟩ := entry_eq_ok_iff.mp hentry
  obtain rfl := eq_home_of_follow hentry hfollow
  exact ⟨hne, ⟨e, hentry, hfollow⟩, expectDirectory_eq_ok_iff.mp hdir, (Except.ok.inj h).symm⟩

theorem list_of_entry {e : Entry} (hentry : disk.entry dir = .ok e) (hfollow : disk.follow e = .ok dir.home)
    (hdir : disk.tree dir.home = some .directory) : disk.list dir = .ok (disk.namesIn dir.home) := by
  simp only [list, hentry, hfollow, expectDirectory_eq_ok_iff.mpr hdir, bind, Except.bind, pure, Except.pure]

theorem list_mono (hkeeps : disk.Keeps disk') (h : disk.list dir = .ok names) :
    disk'.list dir = .ok (disk'.namesIn dir.home) := by
  obtain ⟨-, ⟨e, hentry, hfollow⟩, hdir, -⟩ := list_eq_ok h
  exact list_of_entry (entry_mono hkeeps hentry) (step_mono hkeeps hfollow) (hkeeps _ hdir)

end Disk

/-- There is nothing to make where a directory can be listed. -/
theorem Action.on_makeDirectories_of_list {v : Volume} {dir : Path} {names : List Bytes}
    (h : v.disk.list dir = .ok names) : (Action.makeDirectories dir).on v = (.ok (), v) := by
  obtain ⟨hne, ⟨e, hentry, hfollow⟩, hdir, -⟩ := Disk.list_eq_ok h
  have hnode := Disk.tree_eq_directory_iff.mp hdir
  have hmake : v.disk.makeDirectory dir = .error .alreadyExists := by
    simp only [Disk.makeDirectory, hentry, hfollow, hnode, bind, Except.bind]
    rfl
  have hfind : v.disk.find dir = .ok .directory := by
    simp only [Disk.find, hentry, hfollow, hnode, bind, Except.bind]
    rfl
  have hthere : v.disk.isDirectory dir = true := by
    rw [Disk.isDirectory, hfind]
  have hensure : (Action.ensureDirectory dir).on v = (.ok (), v) := by
    rw [Action.ensureDirectory, Action.on_tryCatch_error (Action.on_change_unit_error hmake),
      Action.on_bind_ok (Action.on_get v), hthere]
    rfl
  unfold Action.makeDirectories
  cases dir.bytes.length with
  | zero =>
      rw [Action.makeDirectoriesTo, if_pos hne]
      exact hensure
  | succ depth =>
      rw [Action.makeDirectoriesTo, if_pos hne]
      exact Action.on_tryCatch_ok hensure

namespace Store

variable {s : Store} {v : Volume} {names : List Bytes}

theorem mem_filesAmong {f : Found} :
    f ∈ s.filesAmong names ↔
      ∃ name ∈ names, Descriptor.ofPath? (s.dir.join ⟨name⟩) = some (f.descriptor, f.component) ∧
        f.descriptor.table = s.metadata.name := by
  rw [filesAmong, List.mem_mergeSort, List.mem_filterMap]
  refine exists_congr fun name => and_congr_right fun _ => ?_
  rcases Descriptor.ofPath? (s.dir.join ⟨name⟩) with - | ⟨d, c⟩
  · simp
  · by_cases htable : d.table = s.metadata.name
    · simp only [htable, if_true, Option.some.injEq, Prod.mk.injEq]
      constructor
      · rintro rfl
        exact ⟨⟨rfl, rfl⟩, htable⟩
      · rintro ⟨⟨rfl, rfl⟩, -⟩
        rfl
    · simp only [htable, if_false, reduceCtorEq, false_iff, not_and]
      rintro hfound hname
      cases hfound
      exact htable hname

theorem on_listFiles (h : v.disk.list s.dir = .ok names) : s.listFiles.on v = (.ok (s.filesAmong names), v) := by
  have hlook : ((Action.look (·.list s.dir)).mapError fun e => StoreError.io (.disk e)).on v =
      (.ok names, v) := by
    rw [Action.on_mapError_eq_ok_iff, Action.on_look, h]
  rw [listFiles, Action.on_bind_ok hlook, Action.on_pure]

theorem on_listFiles_error {e : DiskError} (h : v.disk.list s.dir = .error e) :
    s.listFiles.on v = (.error (.io (.disk e)), v) := by
  have hlook : ((Action.look (·.list s.dir)).mapError fun e => StoreError.io (.disk e)).on v =
      (.error (.io (.disk e)), v) := by
    rw [Action.on_mapError, Action.on_look, h]
    rfl
  exact Action.on_bind_error hlook

theorem listFiles_eq_ok {v' : Volume} {files : List Found} (h : s.listFiles.on v = (.ok files, v')) :
    v' = v ∧ ∃ names, v.disk.list s.dir = .ok names ∧ files = s.filesAmong names := by
  rw [listFiles, Action.on_bind_eq_ok_iff] at h
  obtain ⟨names, v₁, hlook, hpure⟩ := h
  rw [Action.on_mapError_eq_ok_iff, Action.on_look] at hlook
  obtain ⟨hnames, rfl⟩ := Prod.mk.inj hlook
  cases hpure
  exact ⟨rfl, names, hnames, rfl⟩

variable {now : Nat} {d : Descriptor} {ds : List Descriptor} {recovered : List Nat}

theorem on_recoverAll_cons {r : Reader} {v₁ : Volume}
    (hrun : (Recovery.recoverAndOpen d (Recovery.rebuild s.partitioner s.config) s.metadata s.partitioner
      s.config now).on v = (.ok r, v₁)) :
    Work.on (recoverAll now (d :: ds) recovered s) v =
      Work.on (recoverAll now ds (recovered ++ [d.generation])
        { s with tables := s.tables.insert d.generation r }) v₁ := by
  rw [recoverAll]
  exact Work.on_bind_of hrun

theorem on_recoverAll_cons_error {e : TableError} {v₁ : Volume}
    (hrun : (Recovery.recoverAndOpen d (Recovery.rebuild s.partitioner s.config) s.metadata s.partitioner
      s.config now).on v = (.error e, v₁)) :
    Work.on (recoverAll now (d :: ds) recovered s) v = ((.error (.during (.recovering d) (.table e)), s), v₁) := by
  rw [recoverAll]
  exact Work.on_bind_of hrun

theorem recoverAll_cons_eq_ok {s' : Store} {v' : Volume} {generations : List Nat}
    (hrun : Work.on (recoverAll now (d :: ds) recovered s) v = ((.ok generations, s'), v')) :
    ∃ r v₁, (Recovery.recoverAndOpen d (Recovery.rebuild s.partitioner s.config) s.metadata s.partitioner
        s.config now).on v = (.ok r, v₁) ∧
      Work.on (recoverAll now ds (recovered ++ [d.generation])
        { s with tables := s.tables.insert d.generation r }) v₁ = ((.ok generations, s'), v') := by
  rcases hhead : (Recovery.recoverAndOpen d (Recovery.rebuild s.partitioner s.config) s.metadata s.partitioner
    s.config now).on v with ⟨e | r, v₁⟩
  · rw [on_recoverAll_cons_error hhead] at hrun
    cases hrun
  · rw [on_recoverAll_cons hhead] at hrun
    exact ⟨r, v₁, rfl, hrun⟩

theorem on_recover_of_listed {files : List Found} (h : s.listFiles.on v = (.ok files, v)) :
    Work.on (s.recover now) v = Work.on (recoverAll now (s.unfinished files) [] s) v := by
  unfold recover
  exact Work.on_bind_of h

end Store

end SortedTable
