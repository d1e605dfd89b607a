import Mathlib.Data.List.Sort
import SortedTable.Proofs.Moving
import SortedTable.Proofs.Zones

/-!
# Mirrored zones

Two disks mirror a zone if it looks the same on both: where there is a directory on one there is a directory on the
other, and where there is a file there is a file of the same bytes, although it may go by another number. A file
operation on a path of the zone fails with the same error on both, or it succeeds on both and they mirror the zone
again, and nothing has changed outside the zone but what the files of the zone hold. Main statements:
`Zone.Mirrors.create`, `Zone.Mirrors.remove`, `Zone.Mirrors.rename`, `Zone.Mirrors.filesAmong`.
-/

namespace SortedTable

/-- Two computations fail with the same error, or succeed with results that are so related. -/
inductive Except.Related {ε α β : Type} (R : α → β → Prop) : Except ε α → Except ε β → Prop
  | error (e : ε) : Related R (.error e) (.error e)
  | ok {a : α} {b : β} (h : R a b) : Related R (.ok a) (.ok b)

namespace Except.Related

variable {ε α α' β β' : Type} {R : α → β → Prop} {S : α' → β' → Prop} {x : Except ε α} {y : Except ε β}

theorem bind {f : α → Except ε α'} {g : β → Except ε β'} (h : Related R x y)
    (hnext : ∀ a b, R a b → Related S (f a) (g b)) : Related S (x >>= f) (y >>= g) := by
  cases h with
  | error e => exact .error e
  | ok hab => exact hnext _ _ hab

theorem ite {x' : Except ε α} {y' : Except ε β} {c c' : Prop} [Decidable c] [Decidable c'] (hc : c ↔ c')
    (h : c → Related R x y) (h' : ¬ c → Related R x' y') :
    Related R (if c then x else x') (if c' then y else y') := by
  by_cases hholds : c
  · rw [if_pos hholds, if_pos (hc.mp hholds)]
    exact h hholds
  · rw [if_neg hholds, if_neg (mt hc.mpr hholds)]
    exact h' hholds

theorem elim (h : Related R x y) : (∃ e, x = .error e ∧ y = .error e) ∨ ∃ a b, x = .ok a ∧ y = .ok b ∧ R a b := by
  cases h with
  | error e => exact .inl ⟨e, rfl, rfl⟩
  | ok hab => exact .inr ⟨_, _, rfl, rfl, hab⟩

theorem of_eq {x y : Except ε α} (h : x = y) : Related (· = ·) x y := by
  subst h
  cases x with
  | error e => exact .error e
  | ok a => exact .ok rfl

end Except.Related

theorem Option.Rel.mono {α β : Type} {R S : α → β → Prop} (himp : ∀ a b, R a b → S a b) {a : Option α} {b : Option β}
    (h : Option.Rel R a b) : Option.Rel S a b := by
  cases h with
  | none => exact .none
  | some hab => exact .some (himp _ _ hab)

theorem Option.Rel.elim {α β : Type} {R : α → β → Prop} {x : Option α} {y : Option β} (h : Option.Rel R x y) :
    (x = none ∧ y = none) ∨ ∃ a b, x = some a ∧ y = some b ∧ R a b := by
  cases h with
  | none => exact .inl ⟨rfl, rfl⟩
  | some hab => exact .inr ⟨_, _, rfl, rfl, hab⟩

/-- Which file of one disk is which file of another. -/
abbrev Link := Nat → Nat → Prop

inductive Node.Linked (L : Link) : Node → Node → Prop
  | directory : Linked L .directory .directory
  | file {i j : Nat} (h : L i j) : Linked L (.file i) (.file j)

theorem Node.Linked.mono {L L' : Link} (hle : ∀ i j, L i j → L' i j) {n n' : Node} (h : n.Linked L n') :
    n.Linked L' n' := by
  cases h with
  | directory => exact .directory
  | file h => exact .file (hle _ _ h)

/-- Two files are linked beside the others. -/
def Link.add (L : Link) (i j : Nat) : Link := fun k l => L k l ∨ k = i ∧ l = j

namespace Disk

variable {d d' : Disk} {dir path : Path} {p q : Place} {pieces : List Bytes} {piece : Bytes}

theorem step_congr (h : d'.node? p = d.node? p) (piece : Bytes) : d'.step p piece = d.step p piece := by
  unfold step expectDirectory
  rw [h]

theorem foldlM_step_congr
    (h : ∀ ps, ps <+: pieces → d'.node? (ps.foldl Place.enter p) = d.node? (ps.foldl Place.enter p)) :
    pieces.foldlM d'.step p = pieces.foldlM d.step p := by
  induction pieces generalizing p with
  | nil => rfl
  | cons piece rest ih =>
      have hfirst : d'.node? p = d.node? p := h [] List.nil_prefix
      rw [List.foldlM_cons, List.foldlM_cons, step_congr hfirst]
      rcases hstep : d.step p piece with e | q
      · rfl
      · obtain ⟨-, rfl, -⟩ := step_eq_ok_iff.mp hstep
        exact ih fun ps hps => h (piece :: ps) (List.cons_prefix_cons.mpr ⟨rfl, hps⟩)

/-- Whether there is a path is up to the places before its last piece. -/
theorem entry_congr (h : ∀ ps, ps <+: path.trimmed.dropLast →
    d'.node? (ps.foldl Place.enter []) = d.node? (ps.foldl Place.enter [])) : d'.entry path = d.entry path := by
  have hwalk : path.trimmed.dropLast.foldlM d'.step [] = path.trimmed.dropLast.foldlM d.step [] :=
    foldlM_step_congr h
  have hend : ∀ directory, path.trimmed.dropLast.foldlM d.step [] = .ok directory →
      d'.expectDirectory directory = d.expectDirectory directory := by
    intro directory hdirectory
    rw [foldlM_step_eq_ok hdirectory]
    unfold expectDirectory
    rw [h _ List.prefix_rfl]
  unfold entry
  split
  · rfl
  split
  · rfl
  split
  · rfl
  change (path.trimmed.dropLast.foldlM d'.step [] >>= fun directory => d'.expectDirectory directory >>= fun _ => _) =
    (path.trimmed.dropLast.foldlM d.step [] >>= fun directory => d.expectDirectory directory >>= fun _ => _)
  rw [hwalk]
  rcases hdirectory : path.trimmed.dropLast.foldlM d.step [] with e | directory
  · rfl
  · change (d'.expectDirectory directory >>= fun _ => _) = (d.expectDirectory directory >>= fun _ => _)
    rw [hend directory hdirectory]

theorem directory_of_foldlM_step (h : pieces.foldlM d.step p = .ok q) (hq : d.node? q = some .directory) :
    ∀ ps, ps <+: pieces → d.node? (ps.foldl Place.enter p) = some .directory := by
  induction pieces generalizing p with
  | nil =>
      intro ps hps
      obtain rfl := List.prefix_nil.mp hps
      cases h
      exact hq
  | cons piece rest ih =>
      rw [List.foldlM_cons] at h
      obtain ⟨next, hstep, hrest⟩ := Except.bind_eq_ok_iff.mp h
      obtain ⟨hdir, rfl, -⟩ := step_eq_ok_iff.mp hstep
      intro ps hps
      cases ps with
      | nil => exact tree_eq_directory_iff.mp hdir
      | cons piece' rest' =>
          obtain ⟨rfl, hrest'⟩ := List.cons_prefix_cons.mp hps
          exact ih hrest rest' hrest'

/-- The directory can be listed, and all its names are single pieces of a path. -/
structure Sound (dir : Path) (d : Disk) : Prop where
  way : ∀ p, dir.Way p → d.node? p = some .directory
  lists : ∃ names, d.list dir = .ok names
  proper : d.Proper dir

theorem Sound.of_list {names : List Bytes} (hlist : d.list dir = .ok names) (hproper : d.Proper dir) :
    d.Sound dir := by
  obtain ⟨-, ⟨e, hentry, hfollow⟩, hhome, -⟩ := list_eq_ok hlist
  obtain ⟨-, hwalk, -, hpiece, -⟩ := entry_eq_ok_iff.mp hentry
  refine ⟨fun p hp => ?_, ⟨names, hlist⟩, hproper⟩
  obtain ⟨ps, hps, rfl⟩ := Path.way_iff.mp hp
  by_cases hnil : dir.trimmed = []
  · rw [hnil, List.prefix_nil] at hps
    rw [hps]
    rfl
  · have hwhole : dir.trimmed.foldlM d.step [] = .ok dir.home := by
      conv => lhs; rw [← List.dropLast_concat_getLast hnil, List.foldlM_append, hwalk]
      rw [follow, hpiece, List.getLastD_eq_getLast?, List.getLast?_eq_some_getLast hnil] at hfollow
      change (d.step e.directory _ >>= fun q => .ok q) = _
      rw [← hfollow]
      exact bind_pure _
    exact directory_of_foldlM_step hwhole (tree_eq_directory_iff.mp hhome) ps hps

theorem Sound.of_way (h : d.Sound dir) (hway : ∀ p, dir.Way p → d'.node? p = d.node? p) (hproper : d'.Proper dir) :
    d'.Sound dir := by
  obtain ⟨names, hlist⟩ := h.lists
  obtain ⟨-, ⟨e, hentry, hfollow⟩, -, -⟩ := list_eq_ok hlist
  have hpasses : ∀ ps, ps <+: dir.trimmed.dropLast → dir.Way (ps.foldl Place.enter []) :=
    fun ps hps => Path.way_iff.mpr ⟨ps, hps.trans (List.dropLast_prefix _), rfl⟩
  have hentry' : d'.entry dir = .ok e := by
    rw [entry_congr fun ps hps => hway _ (hpasses ps hps), hentry]
  have hfollow' : d'.follow e = .ok dir.home := by
    obtain ⟨-, hwalk, -⟩ := entry_eq_ok_iff.mp hentry
    have hdirectory := hpasses _ List.prefix_rfl
    rw [← foldlM_step_eq_ok hwalk] at hdirectory
    rw [follow, step_congr (hway _ hdirectory)]
    exact hfollow
  have hhome : d'.node? dir.home = some .directory := by
    rw [hway _ dir.way_home, h.way _ dir.way_home]
  exact ⟨fun p hp => (hway p hp).trans (h.way p hp),
    ⟨_, list_of_entry hentry' hfollow' (tree_eq_directory_iff.mpr hhome)⟩, hproper⟩

theorem contentsOf_eq_of_bytesOf {e : Disk} {i j : Nat} (h : d.bytesOf i = e.bytesOf j) :
    d.contentsOf i = e.contentsOf j :=
  Contents.ext_bytes h

theorem bytesOf_of_size_le {id : Nat} (h : d.files.size ≤ id) : d.bytesOf id = [] := by
  unfold bytesOf contentsOf
  rw [Array.getD_eq_getD_getElem?, Array.getElem?_eq_none h]
  rfl

theorem size_setContents (id : Nat) (contents : Contents) :
    (d.setContents id contents).files.size = d.files.size := by
  simp [setContents]

theorem size_addFile (p : Place) : (d.addFile p).files.size = d.files.size + 1 := by
  simp [addFile]

end Disk

namespace Zone

open Disk

/-- What becomes of a disk by work in the zone, the files of which are linked: it has changed in the zone and in these
files only, and only new files are new to the zone. -/
structure Onward (z : Zone) (L : Link) (d : Disk) (L' : Link) (d' : Disk) : Prop where
  le : ∀ i j, L i j → L' i j
  fresh : ∀ i j, L' i j → L i j ∨ d.files.size ≤ i
  size : d.files.size ≤ d'.files.size
  nodes : ∀ p, ¬ z.Area p → d'.node? p = d.node? p
  others : ∀ i, i < d.files.size → (∀ j, ¬ L i j) → d'.bytesOf i = d.bytesOf i

/-- The zone looks the same on two disks, up to the numbers of the files. -/
structure Mirrors (z : Zone) (L : Link) (d e : Disk) : Prop where
  nodes : ∀ p, z.Area p → Option.Rel (Node.Linked L) (d.node? p) (e.node? p)
  bytes : ∀ i j, L i j → d.bytesOf i = e.bytesOf j
  left : ∀ i j j', L i j → L i j' → j = j'
  right : ∀ i i' j, L i j → L i' j → i = i'
  bound : ∀ i j, L i j → i < d.files.size ∧ j < e.files.size
  sound : d.Sound z.dir
  sound' : e.Sound z.dir

variable {z : Zone} {L L' L'' : Link} {d d' d'' e e' : Disk} {path source target : Path} {p q : Place} {i j : Nat}

namespace Onward

theorem refl (z : Zone) (L : Link) (d : Disk) : z.Onward L d L d :=
  ⟨fun _ _ => id, fun _ _ => .inl, Nat.le_refl _, fun _ _ => rfl, fun _ _ _ => rfl⟩

theorem trans (h : z.Onward L d L' d') (h' : z.Onward L' d' L'' d'') : z.Onward L d L'' d'' := by
  refine ⟨fun i j hij => h'.le i j (h.le i j hij), fun i j hij => ?_, h.size.trans h'.size,
    fun p hp => (h'.nodes p hp).trans (h.nodes p hp), fun i hi hother => ?_⟩
  · rcases h'.fresh i j hij with hold | hnew
    · exact h.fresh i j hold
    · exact .inr (h.size.trans hnew)
  · have hother' : ∀ j, ¬ L' i j := by
      intro j hij
      rcases h.fresh i j hij with hold | hnew
      · exact hother j hold
      · omega
    rw [h'.others i (hi.trans_le h.size) hother', h.others i hi hother]

end Onward

/-- What holds of the directory is up to what is outside the zone, and to the names in it. -/
theorem sound_of_nodes (h : d.Sound z.dir) (hnodes : ∀ p, ¬ z.Area p → d'.node? p = d.node? p) : d'.Sound z.dir := by
  refine h.of_way (fun p hp => hnodes p (z.clear p hp)) fun name hpresent => ?_
  by_cases harea : z.Area (z.dir.home ++ [name])
  · exact harea.fileName
  · rw [tree_ne_none_iff, hnodes _ harea, ← tree_ne_none_iff] at hpresent
    exact h.proper name hpresent

/-- The mirror goes on if what has changed are the nodes in the zone. -/
theorem Mirrors.renode (h : z.Mirrors L d e) (hfiles : d'.files = d.files) (hfiles' : e'.files = e.files)
    (hout : ∀ p, ¬ z.Area p → d'.node? p = d.node? p) (hout' : ∀ p, ¬ z.Area p → e'.node? p = e.node? p)
    (hin : ∀ p, z.Area p → Option.Rel (Node.Linked L) (d'.node? p) (e'.node? p)) :
    z.Onward L d L d' ∧ z.Mirrors L d' e' := by
  refine ⟨⟨fun _ _ => id, fun _ _ => .inl, (congrArg Array.size hfiles).ge, hout,
    fun i _ _ => bytesOf_of_files hfiles i⟩, hin, fun i j hij => ?_, h.left, h.right, fun i j hij => ?_,
    sound_of_nodes h.sound hout, sound_of_nodes h.sound' hout'⟩
  · rw [bytesOf_of_files hfiles, bytesOf_of_files hfiles', h.bytes i j hij]
  · rw [hfiles, hfiles']
    exact h.bound i j hij

/-- The mirror goes on if a file gets the same contents on both disks. -/
theorem Mirrors.setContents (h : z.Mirrors L d e) (hij : L i j) (contents : Contents) :
    z.Onward L d L (d.setContents i contents) ∧
      z.Mirrors L (d.setContents i contents) (e.setContents j contents) := by
  obtain ⟨hi, hj⟩ := h.bound i j hij
  refine ⟨⟨fun _ _ => id, fun _ _ => .inl, (size_setContents i contents).ge, fun _ _ => rfl, fun k _ hk => ?_⟩,
    h.nodes, fun k l hkl => ?_, h.left, h.right, fun k l hkl => ?_, sound_of_nodes h.sound fun _ _ => rfl,
    sound_of_nodes h.sound' fun _ _ => rfl⟩
  · refine bytesOf_setContents_of_ne ?_ contents
    rintro rfl
    exact hk j hij
  · by_cases hk : i = k
    · subst hk
      obtain rfl := h.left _ _ _ hij hkl
      rw [bytesOf_setContents_self hi, bytesOf_setContents_self hj]
    · have hl : j ≠ l := by
        rintro rfl
        exact hk (h.right _ _ _ hij hkl)
      rw [bytesOf_setContents_of_ne hk, bytesOf_setContents_of_ne hl, h.bytes k l hkl]
  · rw [size_setContents, size_setContents]
    exact h.bound k l hkl

theorem Mirrors.write (h : z.Mirrors L d e) (hij : L i j) (position : Nat) (bytes : Bytes) :
    z.Onward L d L (d.write i position bytes) ∧
      z.Mirrors L (d.write i position bytes) (e.write j position bytes) := by
  unfold Disk.write
  rw [← contentsOf_eq_of_bytesOf (h.bytes i j hij)]
  exact h.setContents hij _

/-- A path of the zone leads to the same place in it on both disks, or fails for the same reason. -/
theorem Mirrors.entry (h : z.Mirrors L d e) (hpath : z.Covers path) :
    Except.Related (fun a b => a = b ∧ Except.Related (fun p q => p = q ∧ z.Area p) (d.follow a) (e.follow b))
      (d.entry path) (e.entry path) := by
  have hsame : ∀ p, z.dir.Way p → d.node? p = e.node? p :=
    fun p hp => (h.sound.way p hp).trans (h.sound'.way p hp).symm
  have hentry : d.entry path = e.entry path := entry_congr fun ps hps => hsame _ (hpath.way ps hps)
  rcases hfound : e.entry path with error | entry
  · rw [hentry, hfound]
    exact .error error
  · rw [hentry, hfound]
    have hfollow : d.follow entry = e.follow entry := by
      obtain ⟨-, hwalk, -⟩ := entry_eq_ok_iff.mp hfound
      have hdirectory := hpath.way _ List.prefix_rfl
      rw [← foldlM_step_eq_ok hwalk] at hdirectory
      exact step_congr (hsame _ hdirectory) _
    refine .ok ⟨rfl, ?_⟩
    rcases hplace : e.follow entry with error | place
    · rw [hfollow, hplace]
      exact .error error
    · rw [hfollow, hplace]
      obtain rfl := eq_home_of_follow hfound hplace
      exact .ok ⟨rfl, hpath.area⟩

theorem Mirrors.find (h : z.Mirrors L d e) (hpath : z.Covers path) :
    Except.Related (Node.Linked L) (d.find path) (e.find path) := by
  unfold Disk.find
  refine (h.entry hpath).bind ?_
  rintro entry _ ⟨rfl, hfollow⟩
  refine hfollow.bind ?_
  rintro place _ ⟨rfl, harea⟩
  rcases Option.Rel.elim (h.nodes place harea) with ⟨hd, he⟩ | ⟨n, n', hd, he, hnode⟩
  · rw [hd, he]
    exact .error _
  · rw [hd, he]
    cases hnode with
    | directory => exact .ok .directory
    | file hij =>
        dsimp only
        split
        · exact .error _
        · exact .ok (.file hij)

theorem Mirrors.existsAt (h : z.Mirrors L d e) (hpath : z.Covers path) : d.existsAt path = e.existsAt path := by
  unfold Disk.existsAt
  rcases (h.find hpath).elim with ⟨error, hd, he⟩ | ⟨n, n', hd, he, -⟩
  · rw [hd, he]
  · rw [hd, he]
    rfl

theorem Mirrors.contents (h : z.Mirrors L d e) {n n' : Node} (hnode : n.Linked L n') :
    d.contents n = e.contents n' := by
  cases hnode with
  | directory => rfl
  | file hij => exact congrArg Except.ok (h.bytes _ _ hij)

theorem Mirrors.tree (h : z.Mirrors L d e) (hp : z.Area p) : d.tree p = e.tree p := by
  unfold Disk.tree
  rcases Option.Rel.elim (h.nodes p hp) with ⟨hd, he⟩ | ⟨n, n', hd, he, hnode⟩
  · rw [hd, he]
    rfl
  · rw [hd, he, Option.map_some, Option.map_some]
    cases hnode with
    | directory => rfl
    | file hij => exact congrArg (some ∘ Item.file) (h.bytes _ _ hij)

theorem Mirrors.length (h : z.Mirrors L d e) {n n' : Node} (hnode : n.Linked L n') : d.length n = e.length n' := by
  cases hnode with
  | directory => rfl
  | file hij => exact congrArg Contents.length (contentsOf_eq_of_bytesOf (h.bytes _ _ hij))

theorem Mirrors.read (h : z.Mirrors L d e) (hpath : z.Covers path) : d.read path = e.read path := by
  unfold Disk.read
  rcases (h.find hpath).elim with ⟨error, hd, he⟩ | ⟨n, n', hd, he, hnode⟩
  · rw [hd, he]
    rfl
  · rw [hd, he]
    exact h.contents hnode

theorem Mirrors.addFile (h : z.Mirrors L d e) (hp : z.Area p) :
    z.Onward L d (L.add d.files.size e.files.size) (d.addFile p) ∧
      z.Mirrors (L.add d.files.size e.files.size) (d.addFile p) (e.addFile p) := by
  have hne := hp.ne_nil
  have hout : ∀ d : Disk, ∀ q, ¬ z.Area q → (d.addFile p).node? q = d.node? q := by
    intro d q hq
    rw [node?_addFile hne, if_neg]
    rintro rfl
    exact hq hp
  refine ⟨⟨fun i j => .inl, fun i j hij => ?_, ?_, hout d, fun i _ _ => bytesOf_addFile p i⟩, fun q hq => ?_,
    fun i j hij => ?_, fun i j j' hij hij' => ?_, fun i i' j hij hij' => ?_, fun i j hij => ?_,
    sound_of_nodes h.sound (hout d), sound_of_nodes h.sound' (hout e)⟩
  · exact hij.imp_right fun hnew => hnew.1.ge
  · rw [size_addFile]
    exact Nat.le_succ _
  · rw [node?_addFile hne, node?_addFile hne]
    by_cases hqp : q = p
    · rw [if_pos hqp, if_pos hqp]
      exact .some (.file (.inr ⟨rfl, rfl⟩))
    · rw [if_neg hqp, if_neg hqp]
      exact Option.Rel.mono (fun _ _ hnode => hnode.mono fun _ _ => .inl) (h.nodes q hq)
  · rw [bytesOf_addFile, bytesOf_addFile]
    rcases hij with hij | ⟨rfl, rfl⟩
    · exact h.bytes i j hij
    · rw [bytesOf_of_size_le (Nat.le_refl _), bytesOf_of_size_le (Nat.le_refl _)]
  · rcases hij with hij | ⟨rfl, rfl⟩ <;> rcases hij' with hij' | ⟨hi, rfl⟩
    · exact h.left i j j' hij hij'
    · exact absurd (h.bound i j hij).1 (by omega)
    · exact absurd (h.bound _ j' hij').1 (by omega)
    · rfl
  · rcases hij with hij | ⟨rfl, rfl⟩ <;> rcases hij' with hij' | ⟨rfl, hj⟩
    · exact h.right i i' j hij hij'
    · exact absurd (h.bound i j hij).2 (by omega)
    · exact absurd (h.bound i' _ hij').2 (by omega)
    · rfl
  · rw [size_addFile, size_addFile]
    rcases hij with hij | ⟨rfl, rfl⟩
    · have hbound := h.bound i j hij
      omega
    · exact ⟨Nat.lt_succ_self _, Nat.lt_succ_self _⟩

theorem Mirrors.create (h : z.Mirrors L d e) (hpath : z.Covers path) :
    Except.Related (fun made made' => ∃ L', z.Onward L d L' made.2 ∧ z.Mirrors L' made.2 made'.2 ∧ L' made.1 made'.1)
      (d.create path) (e.create path) := by
  unfold Disk.create
  refine (h.entry hpath).bind ?_
  rintro entry _ ⟨rfl, hfollow⟩
  dsimp only
  split
  · exact .error _
  refine hfollow.bind ?_
  rintro place _ ⟨rfl, harea⟩
  rcases Option.Rel.elim (h.nodes place harea) with ⟨hd, he⟩ | ⟨n, n', hd, he, hnode⟩
  · rw [hd, he]
    obtain ⟨honward, hmirrors⟩ := h.addFile harea
    exact .ok ⟨_, honward, hmirrors, .inr ⟨rfl, rfl⟩⟩
  · rw [hd, he]
    cases hnode with
    | directory => exact .error _
    | file hij =>
        obtain ⟨honward, hmirrors⟩ := h.setContents hij .empty
        exact .ok ⟨L, honward, hmirrors, hij⟩

theorem Mirrors.erase (h : z.Mirrors L d e) (hp : z.Area p) :
    z.Onward L d L (d.erase p) ∧ z.Mirrors L (d.erase p) (e.erase p) := by
  have hne := hp.ne_nil
  have hout : ∀ d : Disk, ∀ q, ¬ z.Area q → (d.erase p).node? q = d.node? q := by
    intro d q hq
    rw [node?_erase hne, if_neg]
    rintro rfl
    exact hq hp
  refine h.renode rfl rfl (hout d) (hout e) fun q hq => ?_
  rw [node?_erase hne, node?_erase hne]
  split
  · exact .none
  · exact h.nodes q hq

theorem Mirrors.remove (h : z.Mirrors L d e) (hpath : z.Covers path) :
    Except.Related (fun d' e' => z.Onward L d L d' ∧ z.Mirrors L d' e') (d.remove path) (e.remove path) := by
  unfold Disk.remove
  refine (h.entry hpath).bind ?_
  rintro entry _ ⟨rfl, hfollow⟩
  refine hfollow.bind ?_
  rintro place _ ⟨rfl, harea⟩
  rcases Option.Rel.elim (h.nodes place harea) with ⟨hd, he⟩ | ⟨n, n', hd, he, hnode⟩
  · rw [hd, he]
    exact .error _
  · rw [hd, he]
    cases hnode with
    | directory => exact .error _
    | file hij =>
        dsimp only
        split
        · exact .error _
        · exact .ok (h.erase harea)

/-- The same places of the zone are listed for both disks, in the same order. -/
theorem Mirrors.filter_keys (h : z.Mirrors L d e) {keep : Place → Bool} (hroot : keep [] = false)
    (hkeep : ∀ p, keep p = true → d.node? p ≠ none ∨ e.node? p ≠ none → z.Area p) :
    d.nodes.keys.filter keep = e.nodes.keys.filter keep := by
  have hascending : ∀ d : Disk, (d.nodes.keys.filter keep).Pairwise (· < ·) :=
    fun d => (List.pairwise_map.mpr d.nodes.ascending).filter _
  refine (hascending d).eq_of_mem_iff (hascending e) fun p => ?_
  rw [List.mem_filter, List.mem_filter, SortedMap.mem_keys_iff, SortedMap.mem_keys_iff]
  refine and_congr_left fun hp => ?_
  have hnil : p ≠ [] := by
    rintro rfl
    rw [hroot] at hp
    cases hp
  rw [← node?_of_ne_nil hnil, ← node?_of_ne_nil hnil]
  by_cases hthere : d.node? p ≠ none ∨ e.node? p ≠ none
  · rcases Option.Rel.elim (h.nodes p (hkeep p hp hthere)) with ⟨hd, he⟩ | ⟨n, n', hd, he, -⟩
    · rw [hd, he]
    · rw [hd, he]
      rfl
  · obtain ⟨hd, he⟩ := not_or.mp hthere
    rw [not_not.mp hd, not_not.mp he]

theorem Mirrors.filterMap_keys {β : Type} (h : z.Mirrors L d e) {f : Place → Option β} (hroot : f [] = none)
    (hf : ∀ p, f p ≠ none → d.node? p ≠ none ∨ e.node? p ≠ none → z.Area p) :
    d.nodes.keys.filterMap f = e.nodes.keys.filterMap f := by
  have hfilter : ∀ ps : List Place, ps.filterMap f = (ps.filter fun p => (f p).isSome).filterMap f := by
    intro ps
    rw [List.filterMap_filter]
    congr 1
    funext p
    cases f p <;> rfl
  have hsame : d.nodes.keys.filter (fun p => (f p).isSome) = e.nodes.keys.filter fun p => (f p).isSome :=
    h.filter_keys (by rw [hroot]; rfl) fun p hp => hf p (Option.isSome_iff_ne_none.mp hp)
  calc d.nodes.keys.filterMap f = (d.nodes.keys.filter fun p => (f p).isSome).filterMap f := hfilter _
    _ = (e.nodes.keys.filter fun p => (f p).isSome).filterMap f := by rw [hsame]
    _ = e.nodes.keys.filterMap f := (hfilter _).symm

theorem Mirrors.below (h : z.Mirrors L d e) (hp : z.Area p) : d.below p = e.below p := by
  refine h.filter_keys ?_ fun q hq _ => hp.below (List.isPrefixOf_iff_prefix.mp hq)
  rw [Bool.eq_false_iff, ne_eq, List.isPrefixOf_iff_prefix, List.prefix_nil]
  exact hp.ne_nil

theorem eq_of_namesIn {place : Place} {name : Bytes}
    (h : (if q ≠ [] ∧ q.dropLast = place then q.getLast? else none) = some name) : q = place ++ [name] := by
  split at h
  · rename_i hcond
    obtain ⟨hq, rfl⟩ := hcond
    rw [List.getLast?_eq_some_getLast hq] at h
    rw [← Option.some.inj h, List.dropLast_concat_getLast hq]
  · cases h

theorem Mirrors.namesIn (h : z.Mirrors L d e) (hp : z.Area p) : d.namesIn p = e.namesIn p := by
  refine h.filterMap_keys (by simp) fun q hq _ => ?_
  obtain ⟨name, hname⟩ := Option.ne_none_iff_exists'.mp hq
  rw [eq_of_namesIn hname]
  exact hp.below (List.prefix_append _ _)

/-- A store of the zone finds the same files in both directories. -/
theorem Mirrors.filesAmong (h : z.Mirrors L d e) {s : Store} (hdir : s.dir = z.dir)
    (htable : s.metadata.name = z.table) :
    s.filesAmong (d.namesIn z.dir.home) = s.filesAmong (e.namesIn z.dir.home) := by
  unfold Store.filesAmong Disk.namesIn
  dsimp only
  rw [List.filterMap_filterMap, List.filterMap_filterMap]
  congr 1
  refine h.filterMap_keys (by simp) fun q hq hthere => ?_
  obtain ⟨found, hfound⟩ := Option.ne_none_iff_exists'.mp hq
  obtain ⟨name, hname, hread⟩ := Option.bind_eq_some_iff.mp hfound
  obtain rfl := eq_of_namesIn hname
  have hsingle : FileName name := by
    rcases hthere with hthere | hthere
    · exact h.sound.proper name (tree_ne_none_iff.mpr hthere)
    · exact h.sound'.proper name (tree_ne_none_iff.mpr hthere)
  rcases hpath : Descriptor.ofPath? (s.dir.join ⟨name⟩) with - | ⟨descriptor, c⟩
  · rw [hpath] at hread
    cases hread
  · rw [hpath] at hread
    dsimp only at hread
    split at hread
    · rename_i hname'
      rw [hdir] at hpath
      exact (owns_of_ofPath? hsingle hpath (hname'.trans htable)).2
    · cases hread

theorem Mirrors.moveNode (h : z.Mirrors L d e) (hp : z.Area p) (hq : z.Area q) :
    z.Onward L d L (d.moveNode p q) ∧ z.Mirrors L (d.moveNode p q) (e.moveNode p q) := by
  have hout : ∀ d : Disk, ∀ r, ¬ z.Area r → (d.moveNode p q).node? r = d.node? r := by
    intro d r hr
    refine (agrees_moveNode d p q).nodes r ⟨?_, ?_⟩
    · rintro rfl
      exact hr hp
    · rintro rfl
      exact hr hq
  refine h.renode (files_moveNode _ p q) (files_moveNode _ p q) (hout d) (hout e) fun r hr => ?_
  rcases Option.Rel.elim (h.nodes p hp) with ⟨hd, he⟩ | ⟨n, n', hd, he, hnode⟩
  · rw [node?_of_ne_nil hp.ne_nil] at hd he
    rw [moveNode_of_missing hd, moveNode_of_missing he]
    exact h.nodes r hr
  · rw [node?_moveNode hp.ne_nil hq.ne_nil hd, node?_moveNode hp.ne_nil hq.ne_nil he]
    split
    · exact .some hnode
    · split
      · exact .none
      · exact h.nodes r hr

theorem Mirrors.moveTree (h : z.Mirrors L d e) (hp : z.Area p) (hq : z.Area q) :
    z.Onward L d L (d.moveTree p q) ∧ z.Mirrors L (d.moveTree p q) (e.moveTree p q) := by
  have hall : ∀ ps : List Place, (∀ r ∈ ps, p <+: r) → ∀ d e, z.Mirrors L d e →
      z.Onward L d L (ps.foldl (fun d r => d.moveNode r (q ++ r.drop p.length)) d) ∧
        z.Mirrors L (ps.foldl (fun d r => d.moveNode r (q ++ r.drop p.length)) d)
          (ps.foldl (fun d r => d.moveNode r (q ++ r.drop p.length)) e) := by
    intro ps hps
    induction ps with
    | nil => exact fun d e h => ⟨.refl z L d, h⟩
    | cons r rest ih =>
        intro d e h
        obtain ⟨hr, hrest⟩ := List.forall_mem_cons.mp hps
        obtain ⟨honward, hmoved⟩ := h.moveNode (hp.below hr) (hq.below (List.prefix_append q (r.drop p.length)))
        obtain ⟨honward', hmirrors⟩ := ih hrest _ _ hmoved
        exact ⟨honward.trans honward', hmirrors⟩
  unfold Disk.moveTree
  rw [← h.below hp]
  exact hall _ (fun r hr => List.isPrefixOf_iff_prefix.mp (List.mem_filter.mp hr).2) d e h

theorem Mirrors.replace (h : z.Mirrors L d e) {n n' : Node} (hnode : n.Linked L n') (hp : z.Area p) (hq : z.Area q) :
    Except.Related (fun d' e' => z.Onward L d L d' ∧ z.Mirrors L d' e') (d.replace n p q) (e.replace n' p q) := by
  unfold Disk.replace
  rcases Option.Rel.elim (h.nodes q hq) with ⟨hd, he⟩ | ⟨old, old', hd, he, hold⟩
  · rw [hd, he]
    cases hnode with
    | directory => exact .ok (h.moveTree hp hq)
    | file => exact .ok (h.moveNode hp hq)
  · rw [hd, he]
    cases hnode with
    | directory =>
        cases hold with
        | directory =>
            dsimp only
            rw [h.namesIn hq]
            split
            · exact .error _
            · obtain ⟨honward, herased⟩ := h.erase hq
              obtain ⟨honward', hmoved⟩ := herased.moveTree hp hq
              exact .ok ⟨honward.trans honward', hmoved⟩
        | file => exact .error _
    | file =>
        cases hold with
        | directory => exact .error _
        | file => exact .ok (h.moveNode hp hq)

theorem Mirrors.rename (h : z.Mirrors L d e) (hsource : z.Covers source) (htarget : z.Covers target) :
    Except.Related (fun d' e' => z.Onward L d L d' ∧ z.Mirrors L d' e') (d.rename source target)
      (e.rename source target) := by
  unfold Disk.rename
  refine .ite Iff.rfl (fun _ => .error _) fun _ => ?_
  refine (h.entry hsource).bind ?_
  rintro oldEntry _ ⟨rfl, hold⟩
  refine (h.entry htarget).bind ?_
  rintro newEntry _ ⟨rfl, hnew⟩
  refine .ite Iff.rfl (fun _ => .error _) fun _ => ?_
  refine hold.bind ?_
  rintro p _ ⟨rfl, hp⟩
  rcases Option.Rel.elim (h.nodes p hp) with ⟨hd, he⟩ | ⟨n, n', hd, he, hnode⟩
  · rw [hd, he]
    exact .error _
  · rw [hd, he]
    refine hnew.bind ?_
    rintro q _ ⟨rfl, hq⟩
    have hkind : n ≠ .directory ↔ n' ≠ .directory := by
      cases hnode <;> simp
    refine .ite (and_congr_left' hkind) (fun _ => .error _) fun _ => ?_
    refine .ite Iff.rfl (fun _ => .ok ⟨.refl z L d, h⟩) fun _ => ?_
    refine .ite Iff.rfl (fun _ => .error _) fun _ => ?_
    exact .ite Iff.rfl (fun _ => .error _) fun _ => h.replace hnode hp hq

end Zone

end SortedTable
