import SortedTable.Proofs.Moving

/-!
# The paths of one table

The names of a table need not be proper: however a path is cut into pieces, those of one table's files differ in
the last piece alone. So the files of one table never share a place, whatever it is called.
-/

namespace SortedTable

theorem Path.eq_of_bytes_eq {p q : Path} (h : p.bytes = q.bytes) : p = q := congrArg Path.mk h

theorem Path.bytes_join_append (dir : Path) {name : Bytes} (h : name ≠ []) (more : Bytes) :
    (dir.join ⟨name ++ more⟩).bytes = (dir.join ⟨name⟩).bytes ++ more := by
  have habsolute : (⟨name ++ more⟩ : Path).isAbsolute = (⟨name⟩ : Path).isAbsolute := by
    unfold isAbsolute
    rw [List.head?_append_of_ne_nil _ h]
  unfold join
  rw [habsolute]
  split
  · rfl
  · split
    · exact (List.append_assoc _ _ _).symm
    · change dir.bytes ++ slash :: (name ++ more) = dir.bytes ++ slash :: name ++ more
      rw [List.append_assoc, List.cons_append]

theorem Path.home_join {name : Bytes} (h : FileName name) (dir : Path) :
    (dir.join ⟨name⟩).home = dir.home ++ [name] := by
  rw [← foldl_enter_trimmed, trimmed_join h, List.foldl_append]
  change Place.enter dir.home name = _
  rw [Place.enter, h.notIdle, h.notParent]
  rfl

theorem Descriptor.home_pathOf {d : Descriptor} (hd : d.Valid) (c : Component) : (d.pathOf c).home = d.place c :=
  Path.home_join (fileName_nameOf hd c) _

namespace Descriptor

def dash : UInt8 := 0x2d

/-- The paths of a table's files, cut behind their last slash. -/
structure Anchor (d : Descriptor) (dir : Path) (base : Bytes) : Prop where
  pathOf : ∀ c : Component, d.pathOf c = dir.join ⟨base ++ dash :: Bytes.ofString c.suffix⟩
  fileName : ∀ c : Component, FileName (base ++ dash :: Bytes.ofString c.suffix)

/-- The path of a table, without the ends that tell its components. -/
def stem (d : Descriptor) : Bytes := (d.directory.join (Path.ofString d.baseName)).bytes

theorem bytes_pathOf (d : Descriptor) (c : Component) :
    (d.pathOf c).bytes = d.stem ++ dash :: Bytes.ofString c.suffix := by
  have hbase : Bytes.ofString d.baseName ≠ [] := by
    intro hnil
    unfold baseName at hnil
    simp only [Bytes.ofString_append, List.append_eq_nil_iff] at hnil
    exact absurd hnil.1.1.1.1.2 (by decide)
  have hdash : Bytes.ofString "-" = [dash] := by decide
  have hname : Bytes.ofString (d.fileName c) = Bytes.ofString d.baseName ++ dash :: Bytes.ofString c.suffix := by
    rw [fileName, Bytes.ofString_append, Bytes.ofString_append, hdash, List.append_assoc, List.singleton_append]
  change (d.directory.join ⟨Bytes.ofString (d.fileName c)⟩).bytes = _
  rw [hname, Path.bytes_join_append _ hbase]
  rfl

theorem slash_notMem_suffix (c : Component) : Path.slash ∉ dash :: Bytes.ofString c.suffix := by
  cases c <;> decide

theorem anchor (d : Descriptor) :
    d.Anchor ⟨d.stem.rdropWhile (· ≠ Path.slash)⟩ (d.stem.rtakeWhile (· ≠ Path.slash)) := by
  let front := d.stem.rdropWhile (· ≠ Path.slash)
  let back := d.stem.rtakeWhile (· ≠ Path.slash)
  have hstem : front ++ back = d.stem := List.rdropWhile_append_rtakeWhile
  have hfront : front = [] ∨ front.getLast? = some Path.slash := by
    by_cases hnil : front = []
    · exact Or.inl hnil
    · have hlast := List.rdropWhile_last_not _ _ hnil
      rw [decide_eq_true_iff, not_not] at hlast
      exact Or.inr (by rw [List.getLast?_eq_some_getLast hnil, hlast])
  have hback : Path.slash ∉ back := by
    intro hmem
    have hne := List.mem_rtakeWhile_imp hmem
    simp at hne
  have hname : ∀ c : Component, FileName (back ++ dash :: Bytes.ofString c.suffix) := by
    intro c
    refine .of_length ?_ ?_
    · rw [List.mem_append, not_or]
      exact ⟨hback, slash_notMem_suffix c⟩
    · have hsuffix : 3 ≤ (dash :: Bytes.ofString c.suffix).length := by
        cases c <;> decide
      rw [List.length_append]
      omega
  refine ⟨fun c => ?_, hname⟩
  have hbytes : (d.pathOf c).bytes = ((⟨front⟩ : Path).join ⟨back ++ dash :: Bytes.ofString c.suffix⟩).bytes := by
    rw [Path.bytes_join (hname c), if_pos hfront, bytes_pathOf, ← List.append_assoc, hstem]
  exact Path.eq_of_bytes_eq hbytes

theorem exists_anchor (d : Descriptor) : ∃ dir base, d.Anchor dir base := ⟨_, _, d.anchor⟩

theorem rtakeWhile_append {b : UInt8} {more : Bytes} (h : b ∉ more) (bytes : Bytes) :
    (bytes ++ more).rtakeWhile (· ≠ b) = bytes.rtakeWhile (· ≠ b) ++ more := by
  have hmore : ∀ x ∈ more.reverse, decide (x ≠ b) = true := by
    intro x hx
    rw [decide_eq_true_iff]
    exact fun hsame => h (hsame ▸ List.mem_reverse.mp hx)
  rw [List.rtakeWhile, List.reverse_append, List.takeWhile_append_of_pos hmore, List.reverse_append,
    List.reverse_reverse, List.rtakeWhile]

/-- The last piece of a path tells the component. -/
theorem eq_of_suffix_eq {base base' : Bytes} {c c' : Component}
    (h : base ++ dash :: Bytes.ofString c.suffix = base' ++ dash :: Bytes.ofString c'.suffix) : c = c' := by
  have hback : ∀ (base : Bytes) (c : Component),
      (base ++ dash :: Bytes.ofString c.suffix).rtakeWhile (· ≠ dash) = Bytes.ofString c.suffix := by
    intro base c
    have hsuffix : dash ∉ Bytes.ofString c.suffix := by
      cases c <;> decide
    rw [← List.singleton_append, ← List.append_assoc, rtakeWhile_append hsuffix, List.rtakeWhile_concat_neg]
    · rfl
    · simp
  have hsame := congrArg (List.rtakeWhile (· ≠ dash)) h
  rw [hback, hback] at hsame
  revert hsame
  cases c <;> cases c' <;> decide

end Descriptor

namespace Disk

variable {disk disk' : Disk} {dir : Path} {name : Bytes}

theorem reaches_of_find (h : FileName name) {node : Node} (hfind : disk.find (dir.join ⟨name⟩) = .ok node) :
    disk.Reaches (dir.join ⟨name⟩) (dir.home ++ [name]) := by
  unfold find at hfind
  obtain ⟨e, hentry, hfind⟩ := Except.bind_eq_ok_iff.mp hfind
  obtain ⟨p, hfollow, -⟩ := Except.bind_eq_ok_iff.mp hfind
  exact reaches_of_follow h hentry hfollow

theorem existsAt_join_iff (h : FileName name) :
    disk.existsAt (dir.join ⟨name⟩) = true ↔
      disk.Opens dir ∧ Accepts dir name ∧ disk.node? (dir.home ++ [name]) ≠ none := by
  constructor
  · intro hexists
    have hfind : ∃ node, disk.find (dir.join ⟨name⟩) = .ok node := by
      rcases hresult : disk.find (dir.join ⟨name⟩) with e | node
      · rw [existsAt, hresult] at hexists
        cases hexists
      · exact ⟨node, rfl⟩
    obtain ⟨node, hfind⟩ := hfind
    have hreach := reaches_of_find h hfind
    obtain ⟨hopens, haccepts, -⟩ := (reaches_join_iff h).mp hreach
    rw [find_eq_ok_iff hreach] at hfind
    exact ⟨hopens, haccepts, by simp [hfind]⟩
  · rintro ⟨hopens, haccepts, hnode⟩
    rw [existsAt_of_reaches ((reaches_join_iff h).mpr ⟨hopens, haccepts, rfl⟩), Option.isSome_iff_ne_none, ne_eq,
      tree_eq_none_iff]
    exact hnode

end Disk

namespace Descriptor

open Disk

variable {d : Descriptor} {dir dir' : Path} {base base' : Bytes} {disk disk' : Disk} {c c' : Component}

/-- A permanent name that is taken, in a directory that may have been moved away. -/
def Taken (d : Descriptor) (dir : Path) (base : Bytes) (disk : Disk) (c : Component) : Prop :=
  Accepts dir (base ++ dash :: Bytes.ofString c.suffix) ∧ disk.node? (d.published.pathOf c).home ≠ none

namespace Anchor

theorem home (h : d.Anchor dir base) (c : Component) :
    (d.pathOf c).home = dir.home ++ [base ++ dash :: Bytes.ofString c.suffix] := by
  rw [h.pathOf, Path.home_join (h.fileName c)]

theorem existsAt_iff (h : d.Anchor dir base) (c : Component) :
    disk.existsAt (d.pathOf c) = true ↔
      disk.Opens dir ∧ Accepts dir (base ++ dash :: Bytes.ofString c.suffix) ∧
        disk.node? (d.pathOf c).home ≠ none := by
  rw [h.home, h.pathOf, existsAt_join_iff (h.fileName c)]

/-- Files of different components have different places, whatever the tables are. -/
theorem home_ne (h : d.Anchor dir base) {d' : Descriptor} (h' : d'.Anchor dir' base') (hne : c ≠ c') :
    (d.pathOf c).home ≠ (d'.pathOf c').home := by
  intro heq
  have hlast := congrArg List.getLast? heq
  rw [h.home, h'.home, List.getLast?_concat, List.getLast?_concat] at hlast
  exact hne (eq_of_suffix_eq (Option.some.inj hlast))

/-- The renaming of one component leaves the permanent names of the others alone. -/
theorem clear_of_moved (h : d.Anchor dir base) (hp : d.published.Anchor dir' base') (hne : c ≠ c')
    (hmoved : Moved (d.pathOf c).home (d.published.pathOf c).home disk disk') :
    Clear (d.pathOf c).home (d.published.pathOf c).home (d.published.pathOf c').home := by
  have hnew : ¬ (d.published.pathOf c).home <+: (d.published.pathOf c').home := by
    intro hbegins
    refine hp.home_ne hp hne (hbegins.eq_of_length ?_)
    rw [hp.home, hp.home, List.length_append, List.length_append, List.length_singleton, List.length_singleton]
  refine ⟨fun hbegins => ?_, hnew⟩
  rcases hmoved.apart with hsame | ⟨hapart, -⟩
  · rw [hsame] at hbegins
    exact hnew hbegins
  · rw [hp.home c', List.prefix_concat_iff] at hbegins
    rcases hbegins with heq | hbegins
    · exact h.home_ne hp hne (heq.trans (hp.home c').symm)
    · rw [hp.home c] at hapart
      exact hapart (hbegins.trans (List.prefix_append _ _))

theorem rename_eq_ok (h : d.Anchor dir base) (hp : d.published.Anchor dir' base')
    (hrename : disk.rename (d.pathOf c) (d.published.pathOf c) = .ok disk') :
    disk.Opens dir' ∧ d.Taken dir' base' disk' c ∧
      ∀ c', c ≠ c' → disk'.node? (d.published.pathOf c').home = disk.node? (d.published.pathOf c').home := by
  obtain ⟨-, ⟨e, hentry, hfollow⟩, hmoved⟩ := Disk.rename_eq_ok hrename
  rw [hp.pathOf] at hentry
  obtain ⟨hopens, haccepts, -⟩ := (reaches_join_iff (hp.fileName c)).mp
    (reaches_of_follow (hp.fileName c) hentry hfollow)
  exact ⟨hopens, ⟨haccepts, hmoved.new⟩, fun c' hne => hmoved.agrees.nodes _ (h.clear_of_moved hp hne hmoved)⟩

end Anchor

theorem home_ne (d d' : Descriptor) {c c' : Component} (hne : c ≠ c') : (d.pathOf c).home ≠ (d'.pathOf c').home := by
  obtain ⟨dir, base, h⟩ := d.exists_anchor
  obtain ⟨dir', base', h'⟩ := d'.exists_anchor
  exact h.home_ne h' hne

end Descriptor

end SortedTable
