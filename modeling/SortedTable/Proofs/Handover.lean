import SortedTable.Proofs.Reopening
import SortedTable.Proofs.Variants

namespace SortedTable

theorem Action.writeFile_eq_ok {v v' : Volume} {path : Path} {bytes : Bytes}
    (hrun : (Action.writeFile path bytes).on v = (.ok (), v')) :
    v'.disk.tree = v.disk.tree.put path.home (some (.file bytes)) := by
  rw [writeFile, on_bind_eq_ok_iff] at hrun
  obtain ⟨id, v₁, hcreate, hwrite⟩ := hrun
  obtain ⟨disk, hdisk, rfl⟩ := on_change_eq_ok_iff.mp hcreate
  obtain ⟨hnode, -, -, htree⟩ := Disk.create_eq_ok hdisk
  have hempty : disk.bytesOf id = [] := by
    have hitem := htree ▸ Disk.tree_of_node? hnode
    rw [Tree.put_self] at hitem
    exact (Item.file.inj (Option.some.inj hitem)).symm
  rw [on_lift_of (on_write id 0 bytes _)] at hwrite
  cases hwrite
  rw [Volume.disk_step, Volume.disk_step, Disk.tree_write hnode, htree, Tree.put_put_self, hempty]
  simp [Bytes.overlay]

namespace Descriptor

open Disk

variable {d : Descriptor} {v v' : Volume} {c : Component} {cs : List Component} {contents : Component → Bytes}
  {dir' : Path} {base' : Bytes}

/-- A file that has been renamed has its bytes under the new name, and no other name shows anything else. -/
theorem tree_of_on_renameComponent (hp : d.published.Anchor dir' base') {bytes : Bytes}
    (htree : v.disk.tree (d.pathOf c).home = some (.file bytes)) (hrun : (d.renameComponent c).on v = (.ok (), v')) :
    v'.disk.tree (d.published.pathOf c).home = some (.file bytes) ∧
      Accepts dir' (base' ++ dash :: Bytes.ofString c.suffix) ∧
      ∀ p, p ≠ (d.pathOf c).home → p ≠ (d.published.pathOf c).home → v'.disk.tree p = v.disk.tree p := by
  obtain ⟨dir, base, h⟩ := d.exists_anchor
  rcases on_renameComponent_cases d c v with ⟨e, hfailed⟩ | ⟨disk, hrename, hrenamed⟩
  · rw [hfailed] at hrun
    cases hrun
  rw [hrenamed] at hrun
  cases hrun
  obtain ⟨id, hnode, hbytes⟩ := tree_eq_file_iff.mp htree
  obtain ⟨-, -, hmoved⟩ := Disk.rename_eq_ok hrename
  obtain ⟨hnew, hagrees⟩ := hmoved.file id hnode
  obtain ⟨-, ⟨haccepts, -⟩, -⟩ := h.rename_eq_ok hp hrename
  refine ⟨?_, haccepts, fun p hold hnew => hagrees.tree p ⟨hold, hnew⟩⟩
  rw [Volume.disk_step]
  exact tree_eq_file_iff.mpr ⟨id, hnew, (bytesOf_rename hrename id).trans hbytes⟩

theorem tree_of_on_renameAll (hp : d.published.Anchor dir' base') (hnodup : cs.Nodup)
    (hfiles : ∀ c ∈ cs, v.disk.tree (d.pathOf c).home = some (.file (contents c)))
    (hrun : (Action.forEach d.renameComponent cs).on v = (.ok (), v')) :
    (∀ c ∈ cs, v'.disk.tree (d.published.pathOf c).home = some (.file (contents c)) ∧
        Accepts dir' (base' ++ dash :: Bytes.ofString c.suffix)) ∧
      ∀ c, c ∉ cs → v'.disk.tree (d.published.pathOf c).home = v.disk.tree (d.published.pathOf c).home := by
  induction cs generalizing v with
  | nil =>
      cases hrun
      exact ⟨by simp, fun _ _ => rfl⟩
  | cons c rest ih =>
      rw [List.nodup_cons] at hnodup
      rw [Action.forEach, Action.on_bind_eq_ok_iff] at hrun
      obtain ⟨u, v₁, hfirst, hrest⟩ := hrun
      obtain ⟨hnew, haccepts, hothers⟩ := tree_of_on_renameComponent hp (hfiles c List.mem_cons_self) hfirst
      -- The first file has left its own name and taken the new one, and no other component has either of them.
      have hfiles₁ : ∀ c' ∈ rest, v₁.disk.tree (d.pathOf c').home = some (.file (contents c')) := by
        intro c' hc'
        have hne : c' ≠ c := fun heq => hnodup.1 (heq ▸ hc')
        rw [hothers _ (d.home_ne d hne) (d.home_ne d.published hne)]
        exact hfiles c' (List.mem_cons_of_mem _ hc')
      obtain ⟨hnames, hkept⟩ := ih hnodup.2 hfiles₁ hrest
      refine ⟨fun c' hc' => ?_, fun c' hc' => ?_⟩
      · rcases List.mem_cons.mp hc' with rfl | hc'
        · exact ⟨(hkept c' hnodup.1).trans hnew, haccepts⟩
        · exact hnames c' hc'
      · rw [List.mem_cons, not_or] at hc'
        rw [hkept c' hc'.2, hothers _ (d.published.home_ne d hc'.1) (d.published.home_ne d.published hc'.1)]

/-- Once all files of a table have been renamed, they are read under the new names, if one of them can be found. -/
theorem reads_of_on_publish {published : Descriptor}
    (hfiles : ∀ c, v.disk.tree (d.pathOf c).home = some (.file (contents c)))
    (hrun : (d.publish Component.all).on v = (.ok published, v')) {node : Node}
    (hfind : v'.disk.find (d.published.pathOf .data) = .ok node) :
    v'.disk.Reads d.published fun c => some (contents c) := by
  rw [on_publish_eq, Action.on_bind_eq_ok_iff] at hrun
  obtain ⟨u, v₁, hrename, hpure⟩ := hrun
  cases hpure
  obtain ⟨dir', base', hp⟩ := d.published.exists_anchor
  obtain ⟨hnames, -⟩ := tree_of_on_renameAll hp nodup_renameOrder_all (fun c _ => hfiles c) hrename
  have hexists : v'.disk.existsAt (d.published.pathOf .data) = true := by
    rw [existsAt, hfind]
    rfl
  have hopens := ((hp.existsAt_iff .data).mp hexists).1
  intro c
  obtain ⟨htree, haccepts⟩ := hnames c (mem_renameOrder_all c)
  rw [hp.home] at htree
  rw [hp.pathOf]
  exact (read_eq_ok_iff ((reaches_join_iff (hp.fileName c)).mpr ⟨hopens, haccepts, rfl⟩)).mpr htree

end Descriptor

theorem SegmentBuilder.find_of_complete {b : SegmentBuilder} {v v' : Volume} {path : Path} {f : SegmentedFile}
    (hrun : (b.complete path).on v = (.ok f, v')) : ∃ node, v.disk.find path = .ok node := by
  rw [complete, Action.on_bind_eq_ok_iff] at hrun
  obtain ⟨node, v₁, hfind, -⟩ := hrun
  rw [Action.on_find] at hfind
  exact ⟨node, (Prod.mk.inj hfind).1⟩

namespace Writer

variable {d : Descriptor} {data index : Bytes} {w : Writer} {v v' : Volume} {r : Reader} {age : Nat}

theorem Stacked.tree_of_close
    (h : w.Stacked (d.pathOf .data).home (d.pathOf .primaryIndex).home data index v.disk) (hd : w.descriptor = d)
    (hindexed : w.index.descriptor = d) {table : ClosedTable} (hrun : w.close.on v = (.ok table, v')) :
    table = w.closed ∧ ∀ c, v'.disk.tree (d.pathOf c).home = some (.file (w.contents data index c)) := by
  have hne : ∀ {c c' : Component}, c ≠ c' → (d.pathOf c).home ≠ (d.pathOf c').home := d.home_ne d
  obtain ⟨v₁, hdata, hindex, -, hclose⟩ := on_close_of_holds (hne (by decide)) hd hindexed h.dataFile h.indexFile
  obtain ⟨rfl, v₂, hfilter, hstatistics⟩ := (hclose table v').mp hrun
  refine ⟨rfl, fun c => ?_⟩
  rw [Action.writeFile_eq_ok hstatistics, Action.writeFile_eq_ok hfilter]
  cases c with
  | data => rw [Tree.put_of_ne (hne (by decide)), Tree.put_of_ne (hne (by decide)), hdata, contents]
  | primaryIndex => rw [Tree.put_of_ne (hne (by decide)), Tree.put_of_ne (hne (by decide)), hindex, contents]
  | filter => rw [Tree.put_of_ne (hne (by decide)), Tree.put_self]
  | statistics => rw [Tree.put_self]

/-- A finished table is read under its permanent names, and the reader that comes with it shows its two files. -/
theorem Stacked.reads_of_finish
    (h : w.Stacked (d.pathOf .data).home (d.pathOf .primaryIndex).home data index v.disk) (hd : w.descriptor = d)
    (hindexed : w.index.descriptor = d) (hrun : (w.finish age).on v = (.ok r, v')) :
    v'.disk.Reads d.published (fun c => some (w.contents data index c)) ∧
      ∃ indexFile dataFile, r = w.publishedReader indexFile dataFile age ∧ indexFile.Shows v'.disk index ∧
        dataFile.Shows v'.disk data := by
  rw [finish, Action.on_bind_eq_ok_iff] at hrun
  obtain ⟨table, v₁, hclose, hpublish⟩ := hrun
  obtain ⟨rfl, hfiles⟩ := h.tree_of_close hd hindexed hclose
  obtain ⟨indexFile, dataFile, rfl, hindexRun, hdataRun⟩ := reader_of_publish hpublish
  rw [ClosedTable.publish, Action.on_bind_eq_ok_iff] at hpublish
  obtain ⟨published, v₂, hrename, hrest⟩ := hpublish
  have hlooks : v' = v₂ := by
    simp only [Action.on_bind_eq_ok_iff, Action.on_op_eq_ok_iff] at hrest
    obtain ⟨f, v₃, hfirst, f', v₄, hsecond, hpure⟩ := hrest
    cases hpure
    rw [(Reader.looks_complete _ _).eq hsecond, (Reader.looks_complete _ _).eq hfirst]
  subst hlooks
  rw [hd] at hindexRun hdataRun
  rw [closed, hd] at hrename
  obtain ⟨node, hfind⟩ := SegmentBuilder.find_of_complete hdataRun
  have hreads := Descriptor.reads_of_on_publish hfiles hrename hfind
  obtain ⟨indexFile', hindexRun', -, hindexShows⟩ :=
    w.index.segments.on_complete_of_read (hreads.read_eq_ok (c := .primaryIndex) rfl)
  obtain ⟨dataFile', hdataRun', -, hdataShows⟩ :=
    w.segments.on_complete_of_read (hreads.read_eq_ok (c := .data) rfl)
  rw [hindexRun] at hindexRun'
  rw [hdataRun] at hdataRun'
  cases hindexRun'
  cases hdataRun'
  exact ⟨hreads, indexFile, dataFile, rfl, hindexShows, hdataShows⟩

end Writer

end SortedTable
