import SortedTable.Disk

/-!
# What a disk shows

A disk is seen from outside as a map from places to directories and files with their bytes. Each
operation on one file changes this view at one place, and a renaming at two. What a path leads to is
decided by the view.
-/

namespace SortedTable

/-- A computation that succeeds has succeeded at every step. -/
theorem Except.bind_eq_ok_iff {ε α β : Type} {x : Except ε α} {f : α → Except ε β} {b : β} :
    x >>= f = .ok b ↔ ∃ a, x = .ok a ∧ f a = .ok b := by
  cases x <;> simp [bind, Except.bind]

theorem Except.bind_unit_eq_ok_iff {ε α : Type} {x : Except ε Unit} {next : Unit → Except ε α} {a : α} :
    x >>= next = .ok a ↔ x = .ok () ∧ next () = .ok a :=
  bind_eq_ok_iff.trans ⟨fun ⟨(), h⟩ => h, fun h => ⟨(), h⟩⟩

/-- A computation that goes on unless a check fails. -/
theorem Except.unless_eq_ok_iff {ε α : Type} {c : Prop} [Decidable c] {e : ε} {next : PUnit → Except ε α} {a : α} :
    (if c then throw e >>= next else next ⟨⟩) = .ok a ↔ ¬ c ∧ next ⟨⟩ = .ok a := by
  by_cases h : c
  · simp [h, bind, Except.bind, throw, throwThe, MonadExceptOf.throw]
  · simp [h]

inductive Item where
  | directory
  | file (bytes : Bytes)
deriving DecidableEq, Repr

/-- All that can be seen on a disk. -/
abbrev Tree := Place → Option Item

def Tree.put (t : Tree) (p : Place) (item : Option Item) : Tree :=
  fun q => if q = p then item else t q

namespace Tree

variable {t : Tree} {p q : Place} {item other : Option Item}

@[simp]
theorem put_self : t.put p item p = item := if_pos rfl

theorem put_of_ne (h : q ≠ p) : t.put p item q = t q := if_neg h

theorem put_put_self : (t.put p item).put p other = t.put p other := by
  funext q
  unfold put
  split <;> rfl

theorem put_eq_self (h : t p = item) : t.put p item = t := by
  funext q
  unfold put
  split
  · rename_i hq
    rw [hq, h]
  · rfl

end Tree

namespace Disk

variable {d : Disk} {p q : Place} {id : Nat}

def itemOf (d : Disk) : Node → Item
  | .directory => .directory
  | .file id => .file (d.bytesOf id)

def tree (d : Disk) : Tree := fun p => (d.node? p).map d.itemOf

theorem tree_of_node? {node : Node} (h : d.node? p = some node) : d.tree p = some (d.itemOf node) := by
  rw [tree, h, Option.map_some]

theorem tree_eq_none_iff : d.tree p = none ↔ d.node? p = none := by
  rw [tree, Option.map_eq_none_iff]

theorem tree_eq_directory_iff : d.tree p = some .directory ↔ d.node? p = some .directory := by
  unfold tree
  rcases d.node? p with - | node
  · simp
  · cases node <;> simp [itemOf]

theorem tree_eq_file_iff {bytes : Bytes} :
    d.tree p = some (.file bytes) ↔ ∃ id, d.node? p = some (.file id) ∧ d.bytesOf id = bytes := by
  unfold tree
  rcases d.node? p with - | node
  · simp
  · cases node <;> simp [itemOf]

theorem node?_of_ne_nil (hp : p ≠ []) : d.node? p = d.nodes.get? p := if_neg hp

theorem ne_nil_of_node?_eq_file (h : d.node? p = some (.file id)) : p ≠ [] := by
  rintro rfl
  simp [node?] at h

theorem ne_nil_of_node?_eq_none (h : d.node? p = none) : p ≠ [] := by
  rintro rfl
  simp [node?] at h

theorem place_unique (hp : d.node? p = some (.file id)) (hq : d.node? q = some (.file id)) : p = q := by
  have hp' := node?_of_ne_nil (d := d) (ne_nil_of_node?_eq_file hp)
  have hq' := node?_of_ne_nil (d := d) (ne_nil_of_node?_eq_file hq)
  exact d.apart p q id (hp' ▸ hp) (hq' ▸ hq)

theorem lt_size_of_node? (h : d.node? p = some (.file id)) : id < d.files.size := by
  have hp := node?_of_ne_nil (d := d) (ne_nil_of_node?_eq_file h)
  exact d.placed p id (hp ▸ h)

theorem node?_addFile (hp : p ≠ []) (q : Place) :
    (d.addFile p).node? q = if q = p then some (.file d.files.size) else d.node? q := by
  by_cases hq : q = []
  · rw [if_neg (by rw [hq]; exact Ne.symm hp)]
    simp [node?, hq]
  · rw [node?_of_ne_nil hq, node?_of_ne_nil hq]
    exact SortedMap.get?_insert _ _ _ _

theorem node?_erase (hp : p ≠ []) (q : Place) :
    (d.erase p).node? q = if q = p then none else d.node? q := by
  by_cases hq : q = []
  · rw [if_neg (by rw [hq]; exact Ne.symm hp)]
    simp [node?, hq]
  · rw [node?_of_ne_nil hq, node?_of_ne_nil hq]
    exact SortedMap.get?_erase _ _ _

theorem moveNode_of_get? {node : Node} (h : d.nodes.get? p = some node) :
    (d.moveNode p q).nodes = (d.nodes.erase p).insert q node ∧ (d.moveNode p q).files = d.files := by
  unfold moveNode
  split
  · rename_i hnone
    rw [h] at hnone
    simp at hnone
  · rename_i node' hnode
    rw [h] at hnode
    cases hnode
    exact ⟨rfl, rfl⟩

theorem node?_moveNode {node : Node} (hp : p ≠ []) (hq : q ≠ []) (h : d.node? p = some node) (r : Place) :
    (d.moveNode p q).node? r = if r = q then some node else if r = p then none else d.node? r := by
  rw [node?_of_ne_nil hp] at h
  have hnodes := (moveNode_of_get? (q := q) h).1
  by_cases hr : r = []
  · rw [if_neg (by rw [hr]; exact Ne.symm hq), if_neg (by rw [hr]; exact Ne.symm hp)]
    simp [node?, hr]
  · rw [node?_of_ne_nil hr, node?_of_ne_nil hr, hnodes, SortedMap.get?_insert,
      SortedMap.get?_erase]

@[simp]
theorem node?_setContents (contents : Contents) (q : Place) :
    (d.setContents id contents).node? q = d.node? q := rfl

theorem bytesOf_addFile (p : Place) (id : Nat) : (d.addFile p).bytesOf id = d.bytesOf id := by
  unfold bytesOf contentsOf addFile
  dsimp only
  simp only [Array.getD_eq_getD_getElem?, Array.getElem?_push]
  split
  · rename_i hid
    rw [hid, Array.getElem?_eq_none (Nat.le_refl _)]
    rfl
  · rfl

theorem bytesOf_moveNode {node : Node} (h : d.nodes.get? p = some node) (id : Nat) :
    (d.moveNode p q).bytesOf id = d.bytesOf id := by
  rw [bytesOf, contentsOf, (moveNode_of_get? h).2]
  rfl

theorem bytesOf_setContents_self (hid : id < d.files.size) (contents : Contents) :
    (d.setContents id contents).bytesOf id = contents.bytes := by
  unfold bytesOf contentsOf setContents
  dsimp only
  rw [Array.getD_eq_getD_getElem?, Array.getElem?_setIfInBounds_self_of_lt hid, Option.getD_some]

theorem bytesOf_setContents_of_ne {other : Nat} (hother : id ≠ other) (contents : Contents) :
    (d.setContents id contents).bytesOf other = d.bytesOf other := by
  unfold bytesOf contentsOf setContents
  dsimp only
  rw [Array.getD_eq_getD_getElem?, Array.getElem?_setIfInBounds_ne hother,
    Array.getD_eq_getD_getElem?]

theorem bytesOf_write_self (hid : id < d.files.size) (position : Nat) (bytes : Bytes) :
    (d.write id position bytes).bytesOf id = (d.bytesOf id).overlay bytes position := by
  rw [write, bytesOf_setContents_self hid, Contents.bytes_overlay]
  rfl

theorem tree_addFile (hp : p ≠ []) : (d.addFile p).tree = d.tree.put p (some (.file [])) := by
  funext q
  unfold tree Tree.put
  rw [node?_addFile hp]
  split
  · have hempty : d.bytesOf d.files.size = [] := by
      unfold bytesOf contentsOf
      rw [Array.getD_eq_getD_getElem?, Array.getElem?_eq_none (Nat.le_refl _)]
      rfl
    rw [Option.map_some, itemOf, bytesOf_addFile, hempty]
  · congr 1
    funext node
    cases node with
    | directory => rfl
    | file id => rw [itemOf, itemOf, bytesOf_addFile]

theorem tree_erase (hp : p ≠ []) : (d.erase p).tree = d.tree.put p none := by
  funext q
  unfold tree Tree.put
  rw [node?_erase hp]
  split <;> rfl

theorem tree_moveNode (hq : q ≠ []) (h : d.node? p = some (.file id)) :
    (d.moveNode p q).tree = (d.tree.put p none).put q (some (.file (d.bytesOf id))) := by
  have hget : d.nodes.get? p = some (.file id) := by
    rw [← node?_of_ne_nil (ne_nil_of_node?_eq_file h), h]
  have hitem : (d.moveNode p q).itemOf = d.itemOf := by
    funext node
    cases node with
    | directory => rfl
    | file id => rw [itemOf, itemOf, bytesOf_moveNode hget]
  funext r
  unfold tree Tree.put
  rw [node?_moveNode (ne_nil_of_node?_eq_file h) hq h, hitem]
  by_cases hr : r = q
  · rw [if_pos hr, if_pos hr]
    rfl
  · rw [if_neg hr, if_neg hr]
    split <;> rfl

theorem tree_setContents (h : d.node? p = some (.file id)) (contents : Contents) :
    (d.setContents id contents).tree = d.tree.put p (some (.file contents.bytes)) := by
  funext q
  unfold Tree.put
  split
  · rename_i hq
    subst hq
    rw [tree, node?_setContents, h, Option.map_some, itemOf,
      bytesOf_setContents_self (lt_size_of_node? h)]
  · rename_i hq
    unfold tree
    rw [node?_setContents]
    rcases hnode : d.node? q with - | node
    · rfl
    · cases node with
      | directory => rfl
      | file other =>
          have hne : id ≠ other := by
            rintro rfl
            exact hq (place_unique hnode h)
          rw [Option.map_some, Option.map_some, itemOf, itemOf, bytesOf_setContents_of_ne hne]

theorem tree_write (h : d.node? p = some (.file id)) (position : Nat) (bytes : Bytes) :
    (d.write id position bytes).tree =
      d.tree.put p (some (.file ((d.bytesOf id).overlay bytes position))) := by
  rw [write, tree_setContents h, Contents.bytes_overlay]
  rfl

end Disk

end SortedTable
