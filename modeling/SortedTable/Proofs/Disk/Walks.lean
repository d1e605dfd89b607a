import SortedTable.Proofs.Disk.Trees

/-!
# Walking paths

Which place a path means is decided by its pieces alone; the disk only decides whether the walk
succeeds. So a walk that succeeds once goes on to succeed as long as no directory is lost. Main
statement: `Reaches.mono`.
-/

namespace SortedTable

/-- Where a piece leads from a place, if it can be taken there. -/
def Place.enter (place : Place) (piece : Bytes) : Place :=
  if Path.isIdle piece then place
  else if Path.isParent piece then place.dropLast
  else place ++ [piece]

def Path.trimmed (path : Path) : List Bytes :=
  ((path.bytes.splitOn Path.slash).reverse.dropWhile (· = [])).reverse

namespace Disk

variable {d d' : Disk} {path : Path} {p q : Place}

def Keeps (d d' : Disk) : Prop := ∀ p, d.tree p = some .directory → d'.tree p = some .directory

theorem Keeps.refl (d : Disk) : d.Keeps d := fun _ h => h

theorem Keeps.trans {d'' : Disk} (h : d.Keeps d') (h' : d'.Keeps d'') : d.Keeps d'' :=
  fun p hp => h' p (h p hp)

theorem Keeps.of_put {item : Option Item} (htree : d'.tree = d.tree.put p item)
    (hp : d.tree p ≠ some .directory) : d.Keeps d' := by
  intro q hq
  have hne : q ≠ p := by
    rintro rfl
    exact hp hq
  rw [htree, Tree.put_of_ne hne, hq]

/-- Nothing has changed at these places, and no directory is lost. -/
structure Frame (outside : Place → Prop) (d d' : Disk) : Prop where
  tree : ∀ p, outside p → d'.tree p = d.tree p
  keeps : d.Keeps d'
  nodes : ∀ p, outside p → d'.node? p = d.node? p

namespace Frame

variable {outside : Place → Prop}

theorem refl (outside : Place → Prop) (d : Disk) : Frame outside d d :=
  ⟨fun _ _ => rfl, .refl d, fun _ _ => rfl⟩

theorem trans {d'' : Disk} (h : Frame outside d d') (h' : Frame outside d' d'') : Frame outside d d'' :=
  ⟨fun p hp => (h'.tree p hp).trans (h.tree p hp), h.keeps.trans h'.keeps,
    fun p hp => (h'.nodes p hp).trans (h.nodes p hp)⟩

theorem mono {fewer : Place → Prop} (h : Frame outside d d') (himp : ∀ p, fewer p → outside p) :
    Frame fewer d d' :=
  ⟨fun p hp => h.tree p (himp p hp), h.keeps, fun p hp => h.nodes p (himp p hp)⟩

theorem bytesOf {id : Nat} (h : Frame outside d d') (hp : outside p) (hnode : d.node? p = some (.file id)) :
    d'.bytesOf id = d.bytesOf id := by
  have htree := h.tree p hp
  rw [tree_of_node? hnode, tree_of_node? ((h.nodes p hp).trans hnode)] at htree
  exact Item.file.inj (Option.some.inj htree)

theorem of_put {item : Option Item} (htree : d'.tree = d.tree.put p item)
    (hnodes : ∀ q, q ≠ p → d'.node? q = d.node? q) (hp : d.tree p ≠ some .directory) :
    Frame (· ≠ p) d d' :=
  ⟨fun q hq => by rw [htree, Tree.put_of_ne hq], .of_put htree hp, hnodes⟩

end Frame

theorem expectDirectory_eq_ok_iff :
    d.expectDirectory p = .ok () ↔ d.tree p = some .directory := by
  rw [tree_eq_directory_iff, expectDirectory]
  rcases d.node? p with - | node
  · simp
  · cases node <;> simp

theorem step_eq_ok_iff {piece : Bytes} :
    d.step p piece = .ok q ↔
      d.tree p = some .directory ∧ q = p.enter piece ∧
        (Path.isIdle piece ∨ Path.isParent piece ∨ piece.length ≤ maxName) := by
  unfold step
  rw [Except.bind_unit_eq_ok_iff, expectDirectory_eq_ok_iff, Place.enter]
  refine and_congr_right fun _ => ?_
  by_cases hidle : Path.isIdle piece
  · simp only [hidle, if_true, true_or, and_true, pure, Except.pure, Except.ok.injEq]
    exact eq_comm
  by_cases hparent : Path.isParent piece
  · simp only [hidle, hparent, if_true, if_false, true_or, or_true, and_true, pure, Except.pure, Except.ok.injEq,
      Bool.false_eq_true]
    exact eq_comm
  simp only [hidle, hparent, if_false, Bool.false_eq_true, false_or]
  rw [Except.unless_eq_ok_iff, Nat.not_lt, and_comm]
  simp only [pure, Except.pure, Except.ok.injEq]
  exact and_congr_left fun _ => eq_comm

theorem step_mono {piece : Bytes} (hkeeps : d.Keeps d') (h : d.step p piece = .ok q) :
    d'.step p piece = .ok q := by
  obtain ⟨hdir, hplace, hpiece⟩ := step_eq_ok_iff.mp h
  exact step_eq_ok_iff.mpr ⟨hkeeps p hdir, hplace, hpiece⟩

theorem foldlM_step_eq_ok {pieces : List Bytes} (h : pieces.foldlM d.step p = .ok q) :
    q = pieces.foldl Place.enter p := by
  induction pieces generalizing p with
  | nil => exact (Except.ok.inj h).symm
  | cons piece rest ih =>
      rw [List.foldlM_cons] at h
      obtain ⟨r, hstep, hrest⟩ := Except.bind_eq_ok_iff.mp h
      obtain ⟨-, rfl, -⟩ := step_eq_ok_iff.mp hstep
      exact ih hrest

theorem foldlM_step_mono {pieces : List Bytes} (hkeeps : d.Keeps d')
    (h : pieces.foldlM d.step p = .ok q) : pieces.foldlM d'.step p = .ok q := by
  induction pieces generalizing p with
  | nil => exact h
  | cons piece rest ih =>
      rw [List.foldlM_cons] at h ⊢
      obtain ⟨r, hstep, hrest⟩ := Except.bind_eq_ok_iff.mp h
      exact Except.bind_eq_ok_iff.mpr ⟨r, step_mono hkeeps hstep, ih hrest⟩

theorem entry_eq_ok_iff {e : Entry} :
    d.entry path = .ok e ↔
      (path.bytes ≠ [] ∧ 0 ∉ path.bytes ∧ path.bytes.length ≤ maxPath) ∧
        path.trimmed.dropLast.foldlM d.step [] = .ok e.directory ∧
        d.tree e.directory = some .directory ∧ e.piece = path.trimmed.getLastD [] ∧
        e.directoryOnly = decide (path.trimmed.length < (path.bytes.splitOn Path.slash).length) := by
  unfold entry
  dsimp only
  rw [Except.unless_eq_ok_iff, Except.unless_eq_ok_iff, Except.unless_eq_ok_iff, Except.bind_eq_ok_iff]
  constructor
  · rintro ⟨hempty, hzero, hlong, directory, hwalk, hrest⟩
    obtain ⟨hdir, hpure⟩ := Except.bind_unit_eq_ok_iff.mp hrest
    cases hpure
    exact ⟨⟨hempty, hzero, Nat.le_of_not_lt hlong⟩, hwalk, expectDirectory_eq_ok_iff.mp hdir, rfl, rfl⟩
  · obtain ⟨directory, piece, only⟩ := e
    rintro ⟨⟨hempty, hzero, hlong⟩, hwalk, hdir, rfl, rfl⟩
    exact ⟨hempty, hzero, Nat.not_lt_of_le hlong, directory, hwalk,
      Except.bind_unit_eq_ok_iff.mpr ⟨expectDirectory_eq_ok_iff.mpr hdir, rfl⟩⟩

theorem entry_mono {e : Entry} (hkeeps : d.Keeps d') (h : d.entry path = .ok e) :
    d'.entry path = .ok e := by
  obtain ⟨hbytes, hwalk, hdir, hrest⟩ := entry_eq_ok_iff.mp h
  exact entry_eq_ok_iff.mpr ⟨hbytes, foldlM_step_mono hkeeps hwalk, hkeeps _ hdir, hrest⟩

/-- A path that ends in a name and leads to a place, whether something is there or not. -/
def Reaches (d : Disk) (path : Path) (p : Place) : Prop :=
  ∃ e, d.entry path = .ok e ∧ e.directoryOnly = false ∧ e.isNamed = true ∧ d.follow e = .ok p

theorem Reaches.mono (hkeeps : d.Keeps d') (h : d.Reaches path p) : d'.Reaches path p := by
  obtain ⟨e, hentry, honly, hnamed, hfollow⟩ := h
  exact ⟨e, entry_mono hkeeps hentry, honly, hnamed, step_mono hkeeps hfollow⟩

theorem follow_eq_ok_iff {e : Entry} (hnamed : e.isNamed = true) :
    d.follow e = .ok p ↔
      d.tree e.directory = some .directory ∧ p = e.directory ++ [e.piece] ∧
        e.piece.length ≤ maxName := by
  simp only [Entry.isNamed, Bool.and_eq_true, Bool.not_eq_true'] at hnamed
  rw [follow, step_eq_ok_iff, Place.enter]
  simp [hnamed.1, hnamed.2]

theorem Reaches.ne_nil (h : d.Reaches path p) : p ≠ [] := by
  obtain ⟨e, -, -, hnamed, hfollow⟩ := h
  obtain ⟨-, rfl, -⟩ := (follow_eq_ok_iff hnamed).mp hfollow
  simp

theorem find_of_reaches (h : d.Reaches path p) :
    d.find path = match d.node? p with
      | none => .error .notFound
      | some node => .ok node := by
  obtain ⟨e, hentry, honly, -, hfollow⟩ := h
  simp only [find, hentry, hfollow, bind, Except.bind]
  rcases d.node? p with - | node
  · rfl
  · cases node
    · rfl
    · simp [honly, pure, Except.pure]

theorem find_eq_notFound_iff (h : d.Reaches path p) :
    d.find path = .error .notFound ↔ d.tree p = none := by
  rw [find_of_reaches h, tree_eq_none_iff]
  rcases d.node? p with - | node <;> simp

theorem find_eq_ok_iff (h : d.Reaches path p) {node : Node} :
    d.find path = .ok node ↔ d.node? p = some node := by
  rw [find_of_reaches h]
  rcases d.node? p with - | node' <;> simp

theorem existsAt_of_reaches (h : d.Reaches path p) : d.existsAt path = (d.tree p).isSome := by
  rw [existsAt, find_of_reaches h, tree, Option.isSome_map]
  rcases d.node? p with - | node <;> rfl

theorem read_of_reaches (h : d.Reaches path p) :
    d.read path = match d.tree p with
      | none => .error .notFound
      | some .directory => .error .isADirectory
      | some (.file bytes) => .ok bytes := by
  simp only [read, find_of_reaches h, tree, bind, Except.bind]
  rcases d.node? p with - | node
  · rfl
  · cases node <;> rfl

theorem read_eq_ok_iff (h : d.Reaches path p) {bytes : Bytes} :
    d.read path = .ok bytes ↔ d.tree p = some (.file bytes) := by
  rw [read_of_reaches h]
  rcases d.tree p with - | item
  · simp
  · cases item <;> simp

theorem find_of_read {bytes : Bytes} (h : d.read path = .ok bytes) :
    ∃ id, d.find path = .ok (.file id) ∧ d.bytesOf id = bytes := by
  obtain ⟨node, hfind, hcontents⟩ := Except.bind_eq_ok_iff.mp h
  cases node with
  | directory => cases hcontents
  | file id => exact ⟨id, hfind, Except.ok.inj hcontents⟩

/-- What cannot be read because it is not there cannot be found either. -/
theorem existsAt_of_read_notFound (h : d.read path = .error .notFound) : d.existsAt path = false := by
  rcases hfind : d.find path with e | node
  · rw [existsAt, hfind]
    rfl
  · rw [read, hfind] at h
    cases node with
    | directory => cases h
    | file id => cases h

theorem create_of_reaches (h : d.Reaches path p) :
    d.create path = match d.node? p with
      | some .directory => .error .isADirectory
      | some (.file id) => .ok (id, d.setContents id .empty)
      | none => .ok (d.files.size, d.addFile p) := by
  obtain ⟨e, hentry, honly, -, hfollow⟩ := h
  simp only [create, hentry, hfollow, honly, bind, Except.bind, pure, Except.pure]
  rcases d.node? p with - | node
  · rfl
  · cases node <;> rfl

theorem create_eq_ok_of_reaches (h : d.Reaches path p) (hfile : d.tree p ≠ some .directory) :
    ∃ id d', d.create path = .ok (id, d') ∧ d'.node? p = some (.file id) ∧
      (∀ q, q ≠ p → d'.node? q = d.node? q) ∧ d'.tree = d.tree.put p (some (.file [])) := by
  rw [create_of_reaches h]
  rcases hnode : d.node? p with - | node
  · refine ⟨d.files.size, d.addFile p, rfl, ?_, ?_, tree_addFile h.ne_nil⟩
    · rw [node?_addFile h.ne_nil, if_pos rfl]
    · intro q hq
      rw [node?_addFile h.ne_nil, if_neg hq]
  · cases node with
    | directory => exact absurd (tree_eq_directory_iff.mpr hnode) hfile
    | file id => exact ⟨id, _, rfl, hnode, fun _ _ => rfl, tree_setContents hnode .empty⟩

theorem not_directory_of_create_eq_ok {id : Nat} (h : d.Reaches path p)
    (hcreate : d.create path = .ok (id, d')) : d.tree p ≠ some .directory := by
  intro hdir
  rw [create_of_reaches h, tree_eq_directory_iff.mp hdir] at hcreate
  simp at hcreate

theorem create_spec {id : Nat} (h : d.Reaches path p) (hcreate : d.create path = .ok (id, d')) :
    d'.node? p = some (.file id) ∧ (∀ q, q ≠ p → d'.node? q = d.node? q) ∧
      d'.tree = d.tree.put p (some (.file [])) := by
  obtain ⟨id', d'', hcreate', hspec⟩ :=
    create_eq_ok_of_reaches h (not_directory_of_create_eq_ok h hcreate)
  rw [hcreate] at hcreate'
  cases hcreate'
  exact hspec

theorem remove_of_reaches (h : d.Reaches path p) :
    d.remove path = match d.node? p with
      | none => .error .notFound
      | some .directory => .error .isADirectory
      | some (.file _) => .ok (d.erase p) := by
  obtain ⟨e, hentry, honly, -, hfollow⟩ := h
  simp only [remove, hentry, hfollow, honly, bind, Except.bind]
  rcases d.node? p with - | node
  · rfl
  · cases node <;> rfl

theorem zero_notMem_of_reaches (h : d.Reaches path p) : 0 ∉ path.bytes := by
  obtain ⟨e, hentry, -⟩ := h
  exact (entry_eq_ok_iff.mp hentry).1.2.1

theorem replace_file {id : Nat} :
    d.replace (.file id) p q =
      if d.tree q = some .directory then .error .isADirectory else .ok (d.moveNode p q) := by
  simp only [replace, tree_eq_directory_iff]
  rcases d.node? q with - | node
  · rfl
  · cases node <;> rfl

theorem rename_of_reaches {source target : Path} {id : Nat} (hs : d.Reaches source p)
    (ht : d.Reaches target q) (hnode : d.node? p = some (.file id)) (hlength : p.length = q.length) :
    d.rename source target =
      if p = q then .ok d
      else if d.tree q = some .directory then .error .isADirectory else .ok (d.moveNode p q) := by
  have hzero : 0 ∉ source.bytes ++ target.bytes := by
    rw [List.mem_append]
    rintro (h | h)
    · exact zero_notMem_of_reaches hs h
    · exact zero_notMem_of_reaches ht h
  obtain ⟨e, hentry, honly, hnamed, hfollow⟩ := hs
  obtain ⟨e', hentry', honly', hnamed', hfollow'⟩ := ht
  have hbusy : (!e.isNamed || !e'.isNamed) = false := by rw [hnamed, hnamed']; rfl
  have hslash : (e.directoryOnly || e'.directoryOnly) = false := by rw [honly, honly']; rfl
  unfold rename
  simp only [hzero, hentry, hentry', hbusy, hfollow, hnode, hfollow', hslash, bind, Except.bind,
    if_false, pure, Except.pure, Bool.false_eq_true, and_false]
  by_cases hsame : p = q
  · rw [if_pos hsame, if_pos hsame]
  · have hp : p.isPrefixOf q = false := by
      rw [Bool.eq_false_iff, Ne, List.isPrefixOf_iff_prefix]
      intro hbegins
      exact hsame (hbegins.eq_of_length hlength)
    have hq : q.isPrefixOf p = false := by
      rw [Bool.eq_false_iff, Ne, List.isPrefixOf_iff_prefix]
      intro hbegins
      exact hsame (hbegins.eq_of_length hlength.symm).symm
    rw [if_neg hsame, if_neg hsame, hp, hq, ← replace_file]
    rfl

theorem rename_of_missing {source target : Path} (hs : d.Reaches source p) (ht : d.Reaches target q)
    (hnode : d.node? p = none) : d.rename source target = .error .notFound := by
  have hzero : 0 ∉ source.bytes ++ target.bytes := by
    rw [List.mem_append]
    rintro (h | h)
    · exact zero_notMem_of_reaches hs h
    · exact zero_notMem_of_reaches ht h
  obtain ⟨e, hentry, honly, hnamed, hfollow⟩ := hs
  obtain ⟨e', hentry', honly', hnamed', hfollow'⟩ := ht
  have hbusy : (!e.isNamed || !e'.isNamed) = false := by rw [hnamed, hnamed']; rfl
  unfold rename
  simp only [hzero, hentry, hentry', hbusy, hfollow, hnode, bind, Except.bind, if_false,
    Bool.false_eq_true]
  rfl

end Disk

end SortedTable
