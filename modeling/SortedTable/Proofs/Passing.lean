import Mathlib.Order.Defs.Unbundled
import SortedTable.Proofs.Disk.Outputs
import SortedTable.Proofs.Listing

/-!
# What an action passes on its way

An action takes a volume from disk to disk, one file operation after the other, and a crash leaves one of these
disks. What holds of all of them is put together from the operations: `Action.Within.bind` for what is said of
each disk against the first one. An operation that makes or removes a file changes the disk at the place that
its path names, and nowhere else: `Disk.touches_create`, `Disk.touches_remove`.
-/

namespace SortedTable

/-- The volume has come from another by file operations, and the disk after each of them is such. -/
def Volume.Along (v : Volume) (P : Disk → Prop) (v' : Volume) : Prop :=
  ∃ passed, v'.disks = passed ++ v.disks ∧ ∀ disk ∈ passed, P disk

namespace Volume.Along

variable {P Q : Disk → Prop} {v v' v'' : Volume} {disk : Disk}

theorem refl (P : Disk → Prop) (v : Volume) : v.Along P v := ⟨[], rfl, by simp⟩

theorem step (h : P disk) : v.Along P (v.step disk) := ⟨[disk], rfl, by simpa using h⟩

theorem trans (h : v.Along P v') (h' : v'.Along P v'') : v.Along P v'' := by
  obtain ⟨passed, hdisks, hpassed⟩ := h
  obtain ⟨passed', hdisks', hpassed'⟩ := h'
  refine ⟨passed' ++ passed, by rw [hdisks', hdisks, List.append_assoc], fun disk hdisk => ?_⟩
  rcases List.mem_append.mp hdisk with hdisk | hdisk
  · exact hpassed' disk hdisk
  · exact hpassed disk hdisk

theorem mono (h : v.Along P v') (himp : ∀ disk, P disk → Q disk) : v.Along Q v' := by
  obtain ⟨passed, hdisks, hpassed⟩ := h
  exact ⟨passed, hdisks, fun disk hdisk => himp disk (hpassed disk hdisk)⟩

theorem last (h : v.Along P v') (hfirst : P v.disk) : P v'.disk := by
  obtain ⟨passed, hdisks, hpassed⟩ := h
  cases passed with
  | nil =>
      have hdisk : v'.disk = v.disk := (List.cons.inj hdisks).1
      rw [hdisk]
      exact hfirst
  | cons disk rest =>
      have hdisk : v'.disk = disk := (List.cons.inj hdisks).1
      rw [hdisk]
      exact hpassed disk List.mem_cons_self

variable {R : Disk → Disk → Prop} [IsPreorder Disk R]

theorem last_of (h : v.Along (R v.disk) v') : R v.disk v'.disk := h.last (refl_of R v.disk)

/-- What is said of each disk against the first one goes on after a part of the way. -/
theorem onward (h : v.Along (R v.disk) v') (h' : v'.Along (R v'.disk) v'') : v.Along (R v.disk) v'' :=
  h.trans (h'.mono fun _ hdisk => trans_of R h.last_of hdisk)

end Volume.Along

/-- Every disk that the work passes is in a relation to the one it begins on. -/
def Work.Within {α : Type} (R : Disk → Disk → Prop) (work : Work α) (v : Volume) : Prop :=
  v.Along (R v.disk) (Work.on work v).2

namespace Work.Within

variable {α β : Type} {R : Disk → Disk → Prop} [IsPreorder Disk R] {work : Work α} {next : α → Work β}
  {v : Volume}

theorem pure (R : Disk → Disk → Prop) (a : α) (v : Volume) : Within R (Pure.pure a : Work α) v := .refl _ _

omit [IsPreorder Disk R] in
theorem mono {S : Disk → Disk → Prop} (h : Within R work v) (himp : ∀ disk, R v.disk disk → S v.disk disk) :
    Within S work v :=
  Volume.Along.mono h himp

theorem bind (h : Within R work v) (hnext : Within R (next (Work.on work v).1) (Work.on work v).2) :
    Within R (work >>= next) v := by
  rw [Within, on_bind]
  exact h.onward hnext

end Work.Within

theorem Action.along_bind {α β ε : Type} {P : Disk → Prop} {action : Action ε α} {next : α → Action ε β} {v : Volume}
    (h : v.Along P (action.on v).2)
    (hnext : ∀ a v', action.on v = (.ok a, v') → v'.Along P ((next a).on v').2) :
    v.Along P (Action.on (action >>= next) v).2 := by
  rcases hrun : action.on v with ⟨e | a, v'⟩
  · rw [on_bind_error hrun]
    rw [hrun] at h
    exact h
  · rw [on_bind_ok hrun]
    rw [hrun] at h
    exact h.trans (hnext a v' hrun)

theorem Action.along_of_looks {α ε : Type} {P : Disk → Prop} {action : Action ε α} {v : Volume}
    (h : action.Looks) : v.Along P (action.on v).2 := by
  rw [h v]
  exact .refl _ _

/-- Every disk that the action passes is in a relation to the one it begins on. -/
def Action.Within {ε α : Type} (R : Disk → Disk → Prop) (action : Action ε α) (v : Volume) : Prop :=
  v.Along (R v.disk) (action.on v).2

namespace Action.Within

variable {α β ε ε' : Type} {R : Disk → Disk → Prop} {action : Action ε α} {v : Volume}

theorem mapError (h : Within R action v) (f : ε → ε') : Within R (action.mapError f) v := h

theorem op {action : Action DiskError α} (h : Within R action v) : Within R action.op v := h

theorem of_looks (h : action.Looks) (R : Disk → Disk → Prop) : Within R action v := along_of_looks h

theorem lift {work : Work α} (h : Work.Within R work v) : Within R (liftM work : Action ε α) v := h

theorem mono {S : Disk → Disk → Prop} (h : Within R action v) (himp : ∀ disk, R v.disk disk → S v.disk disk) :
    Within S action v :=
  Volume.Along.mono h himp

theorem change {f : Disk → Except DiskError (α × Disk)}
    (h : ∀ a disk, f v.disk = .ok (a, disk) → R v.disk disk) : Within R (Action.change f) v := by
  rw [Within]
  rcases hrun : f v.disk with e | ⟨a, disk⟩
  · rw [on_change_error hrun]
    exact .refl _ _
  · rw [on_change_ok hrun]
    exact .step (h a disk hrun)

theorem change_ {f : Disk → Except DiskError Disk} (h : ∀ disk, f v.disk = .ok disk → R v.disk disk) :
    Within R (Action.change_ f) v := by
  refine change fun a disk hrun => h disk ?_
  rcases hf : f v.disk with e | disk'
  · rw [hf] at hrun
    cases hrun
  · rw [hf] at hrun
    cases hrun
    rfl

variable [IsPreorder Disk R]

theorem bind {next : α → Action ε β} (h : Within R action v)
    (hnext : ∀ a v', action.on v = (.ok a, v') → Within R (next a) v') : Within R (action >>= next) v := by
  refine along_bind h fun a v' hrun => ?_
  rw [Within, hrun] at h
  exact Volume.Along.mono (hnext a v' hrun) fun disk hdisk => trans_of R h.last_of hdisk

theorem tryCatch {handle : ε → Action ε α} (h : Within R action v)
    (hhandle : ∀ e v', action.on v = (.error e, v') → Within R (handle e) v') :
    Within R (MonadExcept.tryCatch action handle) v := by
  rw [Within] at h ⊢
  rcases hrun : action.on v with ⟨e | a, v'⟩
  · rw [on_tryCatch_error hrun]
    rw [hrun] at h
    exact h.onward (hhandle e v' hrun)
  · rw [on_tryCatch_ok hrun]
    rw [hrun] at h
    exact h

theorem forEach {γ : Type} {f : γ → Action ε Unit} {cs : List γ} (h : ∀ c ∈ cs, ∀ v, Within R (f c) v)
    (v : Volume) : Within R (Action.forEach f cs) v := by
  induction cs generalizing v with
  | nil => exact .refl _ _
  | cons c rest ih =>
      rw [Action.forEach]
      exact bind (h c List.mem_cons_self v) fun _ v' _ =>
        ih (fun c' hc' => h c' (List.mem_cons_of_mem _ hc')) v'

end Action.Within

namespace Disk

variable {d d' d'' : Disk} {path : Path} {p : Place} {id : Nat}

theorem home_of_reaches (h : d.Reaches path p) : path.home = p := by
  obtain ⟨e, hentry, -, -, hfollow⟩ := h
  exact (eq_home_of_follow hentry hfollow).symm

/-- Nothing has changed at these places. -/
structure Agrees (outside : Place → Prop) (d d' : Disk) : Prop where
  tree : ∀ p, outside p → d'.tree p = d.tree p
  nodes : ∀ p, outside p → d'.node? p = d.node? p

namespace Agrees

variable {outside fewer : Place → Prop}

theorem refl (outside : Place → Prop) (d : Disk) : Agrees outside d d := ⟨fun _ _ => rfl, fun _ _ => rfl⟩

theorem trans (h : Agrees outside d d') (h' : Agrees outside d' d'') : Agrees outside d d'' :=
  ⟨fun p hp => (h'.tree p hp).trans (h.tree p hp), fun p hp => (h'.nodes p hp).trans (h.nodes p hp)⟩

theorem mono (h : Agrees outside d d') (himp : ∀ p, fewer p → outside p) : Agrees fewer d d' :=
  ⟨fun p hp => h.tree p (himp p hp), fun p hp => h.nodes p (himp p hp)⟩

theorem bytesOf (h : Agrees outside d d') (hp : outside p) (hnode : d.node? p = some (.file id)) :
    d'.bytesOf id = d.bytesOf id := by
  have htree := h.tree p hp
  rw [tree_of_node? hnode, tree_of_node? ((h.nodes p hp).trans hnode)] at htree
  exact Item.file.inj (Option.some.inj htree)

theorem holds (h : Agrees outside d d') {o : Output} {bytes : Bytes} (hp : outside p) (hholds : o.Holds d p bytes) :
    o.Holds d' p bytes := by
  have hbytes : d'.bytesOf o.file = d.bytesOf o.file := h.bytesOf hp hholds.node
  refine ⟨(h.nodes p hp).trans hholds.node, ?_, ?_⟩
  · rw [hbytes]
    exact hholds.flushed_le
  · rw [Output.image, hbytes]
    exact hholds.image

instance : IsPreorder Disk (Agrees outside) where
  refl := refl outside
  trans _ _ _ := trans

end Agrees

/-- Files may have come, changed or gone at these places. All else is as it was, with all directories. -/
structure Touches (inside : Place → Prop) (d d' : Disk) : Prop extends Frame (fun p => ¬ inside p) d d' where
  kept : d'.Keeps d

namespace Touches

variable {inside more : Place → Prop}

theorem refl (inside : Place → Prop) (d : Disk) : Touches inside d d := ⟨.refl _ d, .refl d⟩

theorem trans (h : Touches inside d d') (h' : Touches inside d' d'') : Touches inside d d'' :=
  ⟨h.toFrame.trans h'.toFrame, h'.kept.trans h.kept⟩

theorem mono (h : Touches inside d d') (himp : ∀ p, inside p → more p) : Touches more d d' :=
  ⟨h.toFrame.mono fun p hp hin => hp (himp p hin), h.kept⟩

theorem agrees (h : Touches inside d d') : Agrees (fun p => ¬ inside p) d d' := ⟨h.tree, h.nodes⟩

instance : IsPreorder Disk (Touches inside) where
  refl := refl inside
  trans _ _ _ := trans

theorem of_put {item : Option Item} (htree : d'.tree = d.tree.put p item)
    (hnodes : ∀ q, q ≠ p → d'.node? q = d.node? q) (hold : d.tree p ≠ some .directory)
    (hnew : item ≠ some .directory) : Touches (· = p) d d' := by
  refine ⟨.of_put htree hnodes hold, fun q hq => ?_⟩
  have hne : q ≠ p := by
    rintro rfl
    rw [htree, Tree.put_self] at hq
    exact hnew hq
  rw [htree, Tree.put_of_ne hne] at hq
  exact hq

theorem of_sameBut {places : List Place} (h : SameBut places d d') (hin : ∀ p ∈ places, inside p) :
    Touches inside d d' := by
  refine ⟨h.frame fun p hp hmem => hp (hin p hmem), fun q hq => ?_⟩
  rw [tree_eq_directory_iff] at hq ⊢
  rw [← h.nodes q, hq]

theorem reaches_iff (h : Touches inside d d') : d'.Reaches path p ↔ d.Reaches path p :=
  ⟨.mono h.kept, .mono h.keeps⟩

end Touches

instance {places : List Place} : IsPreorder Disk (SameBut places) where
  refl := SameBut.refl places
  trans _ _ _ := SameBut.trans

theorem create_eq_ok (h : d.create path = .ok (id, d')) :
    d'.node? path.home = some (.file id) ∧ (∀ q, q ≠ path.home → d'.node? q = d.node? q) ∧
      d.tree path.home ≠ some .directory ∧ d'.tree = d.tree.put path.home (some (.file [])) := by
  unfold create at h
  obtain ⟨e, hentry, h⟩ := Except.bind_eq_ok_iff.mp h
  split at h
  · cases h
  obtain ⟨place, hfollow, h⟩ := Except.bind_eq_ok_iff.mp h
  obtain rfl := eq_home_of_follow hentry hfollow
  rcases hnode : d.node? path.home with - | node
  · have hne := ne_nil_of_node?_eq_none hnode
    rw [hnode] at h
    cases h
    refine ⟨by rw [node?_addFile hne, if_pos rfl], fun q hq => by rw [node?_addFile hne, if_neg hq], ?_,
      tree_addFile hne⟩
    rw [ne_eq, tree_eq_directory_iff, hnode]
    simp
  · rw [hnode] at h
    cases node with
    | directory => cases h
    | file id' =>
        cases h
        refine ⟨hnode, fun _ _ => rfl, ?_, tree_setContents hnode .empty⟩
        rw [ne_eq, tree_eq_directory_iff, hnode]
        simp

theorem touches_create (h : d.create path = .ok (id, d')) : Touches (· = path.home) d d' := by
  obtain ⟨-, hnodes, hold, htree⟩ := create_eq_ok h
  exact .of_put htree hnodes hold (by simp)

theorem remove_eq_ok (h : d.remove path = .ok d') :
    (∃ id, d.node? path.home = some (.file id)) ∧ d' = d.erase path.home := by
  unfold remove at h
  obtain ⟨e, hentry, h⟩ := Except.bind_eq_ok_iff.mp h
  obtain ⟨place, hfollow, h⟩ := Except.bind_eq_ok_iff.mp h
  obtain rfl := eq_home_of_follow hentry hfollow
  rcases hnode : d.node? path.home with - | node
  · rw [hnode] at h
    cases h
  · rw [hnode] at h
    cases node with
    | directory => cases h
    | file id =>
        dsimp only at h
        split at h
        · cases h
        · exact ⟨⟨id, rfl⟩, (Except.ok.inj h).symm⟩

theorem touches_remove (h : d.remove path = .ok d') : Touches (· = path.home) d d' := by
  obtain ⟨⟨id, hnode⟩, rfl⟩ := remove_eq_ok h
  have hne := ne_nil_of_node?_eq_file hnode
  refine .of_put (tree_erase hne) (fun q hq => by rw [node?_erase hne, if_neg hq]) ?_ (by simp)
  rw [ne_eq, tree_eq_directory_iff, hnode]
  simp

end Disk

end SortedTable
