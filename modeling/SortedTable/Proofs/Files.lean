import SortedTable.Proofs.Disk.Running
import SortedTable.Proofs.Naming
import SortedTable.Publication

namespace SortedTable

namespace Action

variable {v v' : Volume} {path : Path} {p : Place} {bytes : Bytes}

theorem on_writeFile (h : v.disk.Reaches path p) (hfile : v.disk.tree p ≠ some .directory)
    (bytes : Bytes) :
    ∃ v', (Action.writeFile path bytes).on v = (.ok (), v') ∧
      v'.disk.tree = v.disk.tree.put p (some (.file bytes)) ∧
      ∀ q, q ≠ p → v'.disk.node? q = v.disk.node? q := by
  obtain ⟨id, disk, hcreate, hnode, hnodes, htree⟩ := Disk.create_eq_ok_of_reaches h hfile
  refine ⟨(v.step disk).step (disk.write id 0 bytes), ?_, ?_, hnodes⟩
  · have hmake : (Action.create path).on v = (.ok id, v.step disk) := on_change_ok hcreate
    rw [writeFile, on_bind_ok hmake]
    exact on_lift_of (on_write id 0 bytes _)
  · have hempty : disk.bytesOf id = [] := by
      have hitem := htree ▸ Disk.tree_of_node? hnode
      rw [Tree.put_self] at hitem
      exact (Item.file.inj (Option.some.inj hitem)).symm
    rw [Volume.disk_step, Disk.tree_write hnode, htree, Tree.put_put_self, hempty]
    simp [Bytes.overlay]

theorem on_writeFile_both {path' : Path} {q : Place} (hne : p ≠ q) (h : v.disk.Reaches path p)
    (hfile : v.disk.tree p ≠ some .directory) (h' : v.disk.Reaches path' q)
    (hfile' : v.disk.tree q ≠ some .directory) (bytes bytes' : Bytes) :
    ∃ v₁ v', (Action.writeFile path bytes).on v = (.ok (), v₁) ∧ (Action.writeFile path' bytes').on v₁ = (.ok (), v') ∧
      v'.disk.tree = (v.disk.tree.put p (some (.file bytes))).put q (some (.file bytes')) ∧
      v.disk.Frame (fun r => r ≠ p ∧ r ≠ q) v'.disk := by
  obtain ⟨v₁, hrun, htree, hnodes⟩ := on_writeFile h hfile bytes
  have hframe : v.disk.Frame (· ≠ p) v₁.disk := .of_put htree hnodes hfile
  have hfree : v₁.disk.tree q ≠ some .directory := by
    rw [hframe.tree q hne.symm]
    exact hfile'
  obtain ⟨v', hrun', htree', hnodes'⟩ := on_writeFile (h'.mono hframe.keeps) hfree bytes'
  have hframe' : v₁.disk.Frame (· ≠ q) v'.disk := .of_put htree' hnodes' hfree
  exact ⟨v₁, v', hrun, hrun', by rw [htree', htree],
    (hframe.mono fun _ hr => hr.1).trans (hframe'.mono fun _ hr => hr.2)⟩

theorem create_of_on_writeFile (hrun : (Action.writeFile path bytes).on v = (.ok (), v')) :
    ∃ found, v.disk.create path = .ok found := by
  rw [writeFile, on_bind_eq_ok_iff] at hrun
  obtain ⟨id, v₁, hcreate, -⟩ := hrun
  obtain ⟨disk, hdisk, -⟩ := on_change_eq_ok_iff.mp hcreate
  exact ⟨_, hdisk⟩

theorem on_writeFile_component {d : Descriptor} {c : Component} (hd : d.Valid)
    (hrun : (Action.writeFile (d.pathOf c) bytes).on v = (.ok (), v')) :
    v.disk.Reaches (d.pathOf c) (d.place c) ∧ v.disk.tree (d.place c) ≠ some .directory ∧
      v'.disk.tree = v.disk.tree.put (d.place c) (some (.file bytes)) ∧
      ∀ q, q ≠ d.place c → v'.disk.node? q = v.disk.node? q := by
  obtain ⟨found, hcreate⟩ := create_of_on_writeFile hrun
  have hreach := Disk.reaches_of_create hd hcreate
  have hfile := Disk.not_directory_of_create_eq_ok hreach hcreate
  obtain ⟨v'', hrun', htree⟩ := on_writeFile hreach hfile bytes
  rw [hrun] at hrun'
  cases hrun'
  exact ⟨hreach, hfile, htree⟩

end Action

namespace Disk

variable {disk disk' : Disk} {d : Descriptor} {files : Component → Option Bytes}

/-- The names of all components can be used. -/
def Hosts (disk : Disk) (d : Descriptor) : Prop := ∀ c, disk.Reaches (d.pathOf c) (d.place c)

theorem Hosts.mono (h : disk.Hosts d) (hkeeps : disk.Keeps disk') : disk'.Hosts d :=
  fun c => (h c).mono hkeeps

theorem Hosts.published (hd : d.Valid) (h : disk.Hosts d) : disk.Hosts d.published :=
  fun c => reaches_published hd (h c)

/-- The files under the names of a table are these, and no directory has such a name. -/
def Shows (disk : Disk) (d : Descriptor) (files : Component → Option Bytes) : Prop :=
  ∀ c, disk.tree (d.place c) = (files c).map .file

/-- What is read under the names of a table. -/
def Reads (disk : Disk) (d : Descriptor) (files : Component → Option Bytes) : Prop :=
  ∀ c, disk.read (d.pathOf c) = match files c with
    | none => .error .notFound
    | some bytes => .ok bytes

theorem Shows.not_directory (h : disk.Shows d files) (c : Component) :
    disk.tree (d.place c) ≠ some .directory := by
  rw [h c]
  rcases files c with - | bytes <;> simp

theorem Shows.reads (h : disk.Shows d files) (hhosts : disk.Hosts d) : disk.Reads d files := by
  intro c
  rw [read_of_reaches (hhosts c), h c]
  rcases files c with - | bytes <;> rfl

theorem Reads.read_eq_ok (h : disk.Reads d files) {c : Component} {bytes : Bytes} (hfile : files c = some bytes) :
    disk.read (d.pathOf c) = .ok bytes := by
  rw [h c, hfile]

theorem Shows.read_eq_ok (h : disk.Shows d files) (hhosts : disk.Hosts d) {c : Component} {bytes : Bytes}
    (hfile : files c = some bytes) : disk.read (d.pathOf c) = .ok bytes :=
  (h.reads hhosts).read_eq_ok hfile

theorem Reads.existsAt (h : disk.Reads d files) (c : Component) :
    disk.existsAt (d.pathOf c) = (files c).isSome := by
  rcases hfile : files c with - | bytes
  · have hread := h c
    rw [hfile] at hread
    exact existsAt_of_read_notFound hread
  · obtain ⟨id, hfind, -⟩ := find_of_read (h.read_eq_ok hfile)
    rw [Disk.existsAt, hfind]
    rfl

theorem Shows.existsAt (h : disk.Shows d files) (hhosts : disk.Hosts d) (c : Component) :
    disk.existsAt (d.pathOf c) = (files c).isSome := by
  rw [existsAt_of_reaches (hhosts c), h c, Option.isSome_map]

theorem Shows.of_tree_eq (h : disk.Shows d files)
    (htree : ∀ c, disk'.tree (d.place c) = disk.tree (d.place c)) : disk'.Shows d files :=
  fun c => (htree c).trans (h c)

end Disk

namespace Descriptor

open Disk

variable {d : Descriptor} {v v' : Volume} {c : Component}

/-- A place that has none of the table's names as they are. -/
def Outside (d : Descriptor) (p : Place) : Prop := ∀ c, p ≠ d.place c

/-- A place that has none of the table's names, neither temporary nor permanent. -/
def Apart (d : Descriptor) (p : Place) : Prop := ∀ c, p ≠ d.place c ∧ p ≠ d.published.place c

/-- No name of the table is changed where nothing changes at these places. -/
def Spared (d : Descriptor) (outside : Place → Prop) : Prop :=
  ∀ c, outside (d.place c) ∧ outside (d.published.place c)

theorem Apart.outside {p : Place} (h : d.Apart p) : d.Outside p := fun c => (h c).1

theorem outside_published_place (hd : d.Valid) (htemporary : d.temporary = true) (c : Component) :
    d.Outside (d.published.place c) :=
  published_place_ne hd htemporary c

def renamed (d : Descriptor) (t : Tree) (c : Component) : Tree :=
  (t.put (d.place c) none).put (d.published.place c) (t (d.place c))

theorem renamed_elsewhere {p : Place} (h : p ≠ d.place c) (h' : p ≠ d.published.place c) (t : Tree) :
    d.renamed t c p = t p := by
  rw [renamed, Tree.put_of_ne h', Tree.put_of_ne h]

theorem keeps_renamed {disk disk' : Disk} {bytes : Bytes}
    (htree : disk.tree (d.place c) = some (.file bytes))
    (hfile : disk.tree (d.published.place c) ≠ some .directory)
    (h : disk'.tree = d.renamed disk.tree c) : disk.Keeps disk' := by
  intro p hp
  have hne : p ≠ d.place c := by
    rintro rfl
    rw [htree] at hp
    simp at hp
  have hne' : p ≠ d.published.place c := by
    rintro rfl
    exact hfile hp
  rw [h, renamed_elsewhere hne hne', hp]

theorem on_renameComponent (hd : d.Valid) {bytes : Bytes}
    (hreach : v.disk.Reaches (d.pathOf c) (d.place c))
    (htree : v.disk.tree (d.place c) = some (.file bytes))
    (hfile : v.disk.tree (d.published.place c) ≠ some .directory) :
    ∃ v', (d.renameComponent c).on v = (.ok (), v') ∧ v'.disk.tree = d.renamed v.disk.tree c ∧
      v.disk.Frame d.Apart v'.disk := by
  obtain ⟨id, hnode, hbytes⟩ := tree_eq_file_iff.mp htree
  have hreach' := reaches_published hd hreach
  have hlength : (d.place c).length = (d.published.place c).length := by
    rw [length_place, length_place]
    rfl
  have hrename := rename_of_reaches hreach hreach' hnode hlength
  by_cases hsame : d.place c = d.published.place c
  · rw [if_pos hsame] at hrename
    refine ⟨v.step v.disk, ?_, ?_, .refl _ _⟩
    · rw [renameComponent, Action.on_mapError_eq_ok_iff]
      exact Action.on_change_unit_ok hrename
    · rw [Volume.disk_step, renamed, ← hsame, Tree.put_put_self, Tree.put_eq_self rfl]
  · rw [if_neg hsame, if_neg hfile] at hrename
    have hmoved : (v.disk.moveNode (d.place c) (d.published.place c)).tree = d.renamed v.disk.tree c := by
      rw [renamed, tree_moveNode (place_ne_nil _ _) hnode, hbytes, htree]
    refine ⟨v.step (v.disk.moveNode (d.place c) (d.published.place c)), ?_, hmoved, ?_, ?_, ?_⟩
    · rw [renameComponent, Action.on_mapError_eq_ok_iff]
      exact Action.on_change_unit_ok hrename
    · intro p hp
      rw [Volume.disk_step, hmoved, renamed_elsewhere (hp c).1 (hp c).2]
    · exact keeps_renamed htree hfile hmoved
    · intro p hp
      rw [Volume.disk_step, node?_moveNode (place_ne_nil _ _) (place_ne_nil _ _) hnode, if_neg (hp c).2,
        if_neg (hp c).1]

theorem not_directory_of_on_renameComponent (hd : d.Valid) {bytes : Bytes}
    (hreach : v.disk.Reaches (d.pathOf c) (d.place c))
    (htree : v.disk.tree (d.place c) = some (.file bytes))
    (hrun : (d.renameComponent c).on v = (.ok (), v')) :
    v.disk.tree (d.published.place c) ≠ some .directory := by
  intro hdir
  obtain ⟨id, hnode, -⟩ := tree_eq_file_iff.mp htree
  have hlength : (d.place c).length = (d.published.place c).length := by
    rw [length_place, length_place]
    rfl
  have hrename := rename_of_reaches hreach (reaches_published hd hreach) hnode hlength
  have hne : d.place c ≠ d.published.place c := by
    intro hsame
    rw [← hsame, htree] at hdir
    simp at hdir
  rw [if_neg hne, if_pos hdir] at hrename
  rw [renameComponent, Action.on_mapError_eq_ok_iff] at hrun
  rw [Action.rename, Action.on_change_unit_error hrename] at hrun
  simp at hrun

theorem renamed_of_ne (hd : d.Valid) {c' : Component} (hne : c' ≠ c) (t : Tree) (temporary : Bool) :
    d.renamed t c ((d.asTemporary temporary).place c') = t ((d.asTemporary temporary).place c') := by
  have hpermanent : (d.asTemporary temporary).place c' ≠ d.published.place c :=
    fun heq => hne ((place_inj hd temporary false).mp heq).2
  have htemporary : (d.asTemporary temporary).place c' ≠ d.place c :=
    fun heq => hne ((place_inj hd temporary d.temporary).mp heq).2
  rw [renamed, Tree.put_of_ne hpermanent, Tree.put_of_ne htemporary]

theorem renamed_published (t : Tree) : d.renamed t c (d.published.place c) = t (d.place c) :=
  Tree.put_self

theorem renamed_temporary (hd : d.Valid) (htemporary : d.temporary = true) (t : Tree) :
    d.renamed t c (d.place c) = none := by
  have hne : d.place c ≠ d.published.place c := (published_place_ne hd htemporary c c).symm
  rw [renamed, Tree.put_of_ne hne, Tree.put_self]

theorem on_publish_eq (components : List Component) (v : Volume) :
    (d.publish components).on v =
      Action.on (Action.forEach d.renameComponent (renameOrder components) >>= fun _ =>
        pure d.published) v := by
  unfold publish
  have hforIn := Action.on_forIn d.renameComponent (renameOrder components) v
  rcases h : (Action.forEach d.renameComponent (renameOrder components)).on v with ⟨result, v'⟩
  rw [h] at hforIn
  cases result with
  | error e => rw [Action.on_bind_error h, Action.on_bind_error hforIn]
  | ok u => rw [Action.on_bind_ok h, Action.on_bind_ok hforIn]

section RenameAll

variable {cs : List Component}

theorem foldl_renamed_of_notMem (hd : d.Valid) (hc : c ∉ cs) (t : Tree) (temporary : Bool) :
    cs.foldl d.renamed t ((d.asTemporary temporary).place c) = t ((d.asTemporary temporary).place c) := by
  induction cs generalizing t with
  | nil => rfl
  | cons c' rest ih =>
      rw [List.mem_cons, not_or] at hc
      rw [List.foldl_cons, ih hc.2, renamed_of_ne hd hc.1]

theorem foldl_renamed_published (hd : d.Valid) (hnodup : cs.Nodup) (hc : c ∈ cs) (t : Tree) :
    cs.foldl d.renamed t (d.published.place c) = t (d.place c) := by
  induction cs generalizing t with
  | nil => simp at hc
  | cons c' rest ih =>
      rw [List.nodup_cons] at hnodup
      rw [List.foldl_cons]
      rcases List.mem_cons.mp hc with rfl | hc
      · have hrest := foldl_renamed_of_notMem hd hnodup.1 (d.renamed t c) false
        exact hrest.trans (renamed_published t)
      · have hne : c ≠ c' := fun heq => hnodup.1 (heq ▸ hc)
        rw [ih hnodup.2 hc]
        exact renamed_of_ne hd hne t d.temporary

theorem foldl_renamed_temporary (hd : d.Valid) (htemporary : d.temporary = true) (hnodup : cs.Nodup)
    (hc : c ∈ cs) (t : Tree) : cs.foldl d.renamed t (d.place c) = none := by
  induction cs generalizing t with
  | nil => simp at hc
  | cons c' rest ih =>
      rw [List.nodup_cons] at hnodup
      rw [List.foldl_cons]
      rcases List.mem_cons.mp hc with rfl | hc
      · have hrest := foldl_renamed_of_notMem hd hnodup.1 (d.renamed t c) d.temporary
        exact hrest.trans (renamed_temporary hd htemporary t)
      · exact ih hnodup.2 hc _

theorem foldl_renamed_elsewhere {p : Place} (h : ∀ c, p ≠ d.place c ∧ p ≠ d.published.place c)
    (t : Tree) : cs.foldl d.renamed t p = t p := by
  induction cs generalizing t with
  | nil => rfl
  | cons c' rest ih => rw [List.foldl_cons, ih, renamed_elsewhere (h c').1 (h c').2]

theorem tree_of_renamed (hd : d.Valid) (hc : c ∉ cs) {disk disk' : Disk}
    (htree : disk'.tree = d.renamed disk.tree c) {c' : Component} (hc' : c' ∈ cs) :
    disk'.tree (d.place c') = disk.tree (d.place c') ∧
      disk'.tree (d.published.place c') = disk.tree (d.published.place c') := by
  have hne : c' ≠ c := fun heq => hc (heq ▸ hc')
  rw [htree]
  exact ⟨renamed_of_ne hd hne _ d.temporary, renamed_of_ne hd hne _ false⟩

theorem on_renameAll (hd : d.Valid) (hnodup : cs.Nodup) (hhosts : v.disk.Hosts d)
    (hfiles : ∀ c ∈ cs, ∃ bytes, v.disk.tree (d.place c) = some (.file bytes))
    (hfree : ∀ c ∈ cs, v.disk.tree (d.published.place c) ≠ some .directory) :
    ∃ v', (Action.forEach d.renameComponent cs).on v = (.ok (), v') ∧
      v'.disk.tree = cs.foldl d.renamed v.disk.tree ∧ v.disk.Frame d.Apart v'.disk := by
  induction cs generalizing v with
  | nil => exact ⟨v, rfl, rfl, .refl _ _⟩
  | cons c rest ih =>
      rw [List.nodup_cons] at hnodup
      obtain ⟨bytes, hbytes⟩ := hfiles c List.mem_cons_self
      have hnot := hfree c List.mem_cons_self
      obtain ⟨v₁, hrun, htree, hframe⟩ := on_renameComponent hd (hhosts c) hbytes hnot
      have hother : ∀ c' ∈ rest, v₁.disk.tree (d.place c') = v.disk.tree (d.place c') ∧
          v₁.disk.tree (d.published.place c') = v.disk.tree (d.published.place c') :=
        fun _ => tree_of_renamed hd hnodup.1 htree
      have hfiles' : ∀ c' ∈ rest, ∃ bytes, v₁.disk.tree (d.place c') = some (.file bytes) := by
        intro c' hc'
        rw [(hother c' hc').1]
        exact hfiles c' (List.mem_cons_of_mem _ hc')
      have hfree' : ∀ c' ∈ rest, v₁.disk.tree (d.published.place c') ≠ some .directory := by
        intro c' hc'
        rw [(hother c' hc').2]
        exact hfree c' (List.mem_cons_of_mem _ hc')
      obtain ⟨v', hrun', htree', hframe'⟩ := ih hnodup.2 (hhosts.mono hframe.keeps) hfiles' hfree'
      refine ⟨v', ?_, ?_, hframe.trans hframe'⟩
      · rw [Action.forEach, Action.on_bind_ok hrun, hrun']
      · rw [htree', htree, List.foldl_cons]

theorem not_directory_of_on_renameAll (hd : d.Valid) (hnodup : cs.Nodup) (hhosts : v.disk.Hosts d)
    (hfiles : ∀ c ∈ cs, ∃ bytes, v.disk.tree (d.place c) = some (.file bytes))
    (hrun : (Action.forEach d.renameComponent cs).on v = (.ok (), v')) :
    ∀ c ∈ cs, v.disk.tree (d.published.place c) ≠ some .directory := by
  induction cs generalizing v with
  | nil => simp
  | cons c rest ih =>
      rw [List.nodup_cons] at hnodup
      rw [Action.forEach, Action.on_bind_eq_ok_iff] at hrun
      obtain ⟨u, v₁, hfirst, hrest⟩ := hrun
      obtain ⟨bytes, hbytes⟩ := hfiles c List.mem_cons_self
      have hnot := not_directory_of_on_renameComponent hd (hhosts c) hbytes hfirst
      obtain ⟨v₂, hfirst', htree, hframe⟩ := on_renameComponent hd (hhosts c) hbytes hnot
      rw [hfirst] at hfirst'
      cases hfirst'
      have hother : ∀ c' ∈ rest, v₁.disk.tree (d.place c') = v.disk.tree (d.place c') ∧
          v₁.disk.tree (d.published.place c') = v.disk.tree (d.published.place c') :=
        fun _ => tree_of_renamed hd hnodup.1 htree
      have hfiles' : ∀ c' ∈ rest, ∃ bytes, v₁.disk.tree (d.place c') = some (.file bytes) := by
        intro c' hc'
        rw [(hother c' hc').1]
        exact hfiles c' (List.mem_cons_of_mem _ hc')
      have hothers := ih hnodup.2 (hhosts.mono hframe.keeps) hfiles' hrest
      intro c' hc'
      rcases List.mem_cons.mp hc' with rfl | hc'
      · exact hnot
      · rw [← (hother c' hc').2]
        exact hothers c' hc'

end RenameAll

theorem renameOrder_all : renameOrder Component.all = [.primaryIndex, .filter, .statistics, .data] := rfl

theorem mem_renameOrder_all (c : Component) : c ∈ renameOrder Component.all := by
  rw [renameOrder_all]
  cases c <;> decide

theorem nodup_renameOrder_all : (renameOrder Component.all).Nodup := by
  rw [renameOrder_all]
  decide

theorem on_publish (hd : d.Valid) {contents : Component → Bytes} (hhosts : v.disk.Hosts d)
    (hshows : v.disk.Shows d fun c => some (contents c))
    (hfree : ∀ c, v.disk.tree (d.published.place c) ≠ some .directory) :
    ∃ v', (d.publish Component.all).on v = (.ok d.published, v') ∧
      v'.disk.Shows d.published (fun c => some (contents c)) ∧
      (d.temporary = true → v'.disk.Shows d fun _ => none) ∧ v.disk.Frame d.Apart v'.disk := by
  obtain ⟨v', hrun, htree, hframe⟩ := on_renameAll hd nodup_renameOrder_all hhosts
    (fun c _ => ⟨contents c, hshows c⟩) (fun c _ => hfree c)
  refine ⟨v', ?_, ?_, ?_, hframe⟩
  · rw [on_publish_eq, Action.on_bind_ok hrun, Action.on_pure]
  · intro c
    rw [htree, foldl_renamed_published hd nodup_renameOrder_all (mem_renameOrder_all c)]
    exact hshows c
  · intro htemporary c
    rw [htree]
    exact foldl_renamed_temporary hd htemporary nodup_renameOrder_all (mem_renameOrder_all c) _

theorem not_directory_of_on_publish (hd : d.Valid) {contents : Component → Bytes}
    (hhosts : v.disk.Hosts d) (hshows : v.disk.Shows d fun c => some (contents c))
    {published : Descriptor} (hrun : (d.publish Component.all).on v = (.ok published, v')) (c : Component) :
    v.disk.tree (d.published.place c) ≠ some .directory := by
  rw [on_publish_eq, Action.on_bind_eq_ok_iff] at hrun
  obtain ⟨u, v₁, hrename, -⟩ := hrun
  exact not_directory_of_on_renameAll hd nodup_renameOrder_all hhosts
    (fun c _ => ⟨contents c, hshows c⟩) hrename c (mem_renameOrder_all c)

theorem on_publish_missing (hd : d.Valid) (hhosts : v.disk.Hosts d)
    (hmissing : v.disk.tree (d.place .primaryIndex) = none) :
    ∃ e, (d.publish Component.all).on v = (.error e, v) := by
  have hrename := rename_of_missing (hhosts .primaryIndex) (hhosts.published hd .primaryIndex)
    (tree_eq_none_iff.mp hmissing)
  have hchange : (Action.rename (d.pathOf .primaryIndex) (d.published.pathOf .primaryIndex)).on v =
      (.error .notFound, v) := Action.on_change_unit_error hrename
  have hfirst : (d.renameComponent .primaryIndex).on v =
      (.error (.rename (d.pathOf .primaryIndex) (d.published.pathOf .primaryIndex) .notFound), v) := by
    rw [renameComponent, Action.on_mapError, hchange]
    rfl
  refine ⟨.rename (d.pathOf .primaryIndex) (d.published.pathOf .primaryIndex) .notFound, ?_⟩
  rw [on_publish_eq, renameOrder_all, Action.forEach]
  exact Action.on_bind_error (Action.on_bind_error hfirst)

end Descriptor

end SortedTable
