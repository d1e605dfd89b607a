import SortedTable.Proofs.Passing

/-!
# What a renaming moves

A renaming takes a file, or a directory with all below it, to a place that is neither above nor below the old
one. Something is at the new place afterwards, and nothing has changed but at the two places and below them.
Main statement: `rename_eq_ok`.
-/

namespace SortedTable.Disk

variable {d d' : Disk} {p q source target : Place} {node : Node}

theorem moveNode_of_missing (h : d.nodes.get? p = none) (q : Place) : d.moveNode p q = d := by
  unfold moveNode
  split
  · rfl
  · rename_i node hnode
    rw [h] at hnode
    cases hnode

theorem bytesOf_of_files (h : d'.files = d.files) (id : Nat) : d'.bytesOf id = d.bytesOf id := by
  unfold bytesOf contentsOf
  rw [h]

theorem files_moveNode (d : Disk) (p q : Place) : (d.moveNode p q).files = d.files := by
  rcases hget : d.nodes.get? p with - | node
  · rw [moveNode_of_missing hget]
  · exact (moveNode_of_get? hget).2

theorem agrees_moveNode (d : Disk) (p q : Place) : Agrees (fun r => r ≠ p ∧ r ≠ q) d (d.moveNode p q) := by
  rcases hget : d.nodes.get? p with - | node
  · rw [moveNode_of_missing hget]
    exact .refl _ d
  · have hnodes : ∀ r, r ≠ p ∧ r ≠ q → (d.moveNode p q).node? r = d.node? r := by
      rintro r ⟨hrp, hrq⟩
      by_cases hr : r = []
      · rw [hr]
        rfl
      · rw [node?_of_ne_nil hr, node?_of_ne_nil hr, (moveNode_of_get? hget).1, SortedMap.get?_insert, if_neg hrq,
          SortedMap.get?_erase, if_neg hrp]
    have hitem : (d.moveNode p q).itemOf = d.itemOf := by
      funext node
      cases node with
      | directory => rfl
      | file id => rw [itemOf, itemOf, bytesOf_moveNode hget]
    refine ⟨fun r hr => ?_, hnodes⟩
    rw [tree, tree, hnodes r hr, hitem]

theorem node?_moveNode_target (hp : p ≠ []) (hq : q ≠ []) (h : d.node? p = some node) :
    (d.moveNode p q).node? q = some node := by
  rw [node?_moveNode hp hq h, if_pos rfl]

/-- A place that is neither of the two nor below one of them. -/
def Clear (source target r : Place) : Prop := ¬ source <+: r ∧ ¬ target <+: r

section MoveTree

variable {ps : List Place}

theorem agrees_moveAll (hps : ∀ p ∈ ps, source <+: p) :
    Agrees (Clear source target) d
      (ps.foldl (fun d p => d.moveNode p (target ++ p.drop source.length)) d) := by
  induction ps generalizing d with
  | nil => exact .refl _ d
  | cons p rest ih =>
      rw [List.foldl_cons]
      have hfirst : Agrees (Clear source target) d (d.moveNode p (target ++ p.drop source.length)) := by
        refine (agrees_moveNode d p _).mono fun r hr => ⟨?_, ?_⟩
        · rintro rfl
          exact hr.1 (hps r List.mem_cons_self)
        · rintro rfl
          exact hr.2 (List.prefix_append _ _)
      exact hfirst.trans (ih fun p' hp' => hps p' (List.mem_cons_of_mem _ hp'))

/-- What is moved to the target stays there while the rest follows. -/
theorem node?_moveAll_target (hs : source ≠ []) (ht : target ≠ []) (hapart : ¬ source <+: target)
    (hapart' : ¬ target <+: source) (hps : ∀ p ∈ ps, source <+: p)
    (h : (source ∈ ps ∧ d.node? source ≠ none) ∨ d.node? target ≠ none) :
    (ps.foldl (fun d p => d.moveNode p (target ++ p.drop source.length)) d).node? target ≠ none := by
  induction ps generalizing d with
  | nil => simpa using h
  | cons p rest ih =>
      rw [List.foldl_cons]
      refine ih (fun p' hp' => hps p' (List.mem_cons_of_mem _ hp')) ?_
      by_cases hsame : p = source
      · subst hsame
        rw [List.drop_length, List.append_nil]
        right
        rcases hnode : d.node? p with - | node
        · rw [moveNode_of_missing (by rwa [node?_of_ne_nil hs] at hnode)]
          exact h.resolve_left fun hsource => hsource.2 hnode
        · rw [node?_moveNode_target hs ht hnode]
          simp
      · have hbelow := hps p List.mem_cons_self
        have hends := agrees_moveNode d p (target ++ p.drop source.length)
        have hsource : source ≠ p ∧ source ≠ target ++ p.drop source.length := by
          refine ⟨Ne.symm hsame, fun heq => hapart' ?_⟩
          rw [heq]
          exact List.prefix_append _ _
        have htarget : target ≠ p ∧ target ≠ target ++ p.drop source.length := by
          refine ⟨?_, fun heq => ?_⟩
          · rintro rfl
            exact hapart hbelow
          · have hdrop : p.drop source.length = [] := by
              have hlength := congrArg List.length heq
              rw [List.length_append] at hlength
              exact List.length_eq_zero_iff.mp (by omega)
            exact hsame (hbelow.eq_of_length_le (List.drop_eq_nil_iff.mp hdrop)).symm
        rw [hends.nodes _ hsource, hends.nodes _ htarget]
        refine h.imp_left fun ⟨hmem, hnode⟩ => ⟨?_, hnode⟩
        exact (List.mem_cons.mp hmem).resolve_left (Ne.symm hsame)

theorem prefix_of_mem_below (h : p ∈ d.below source) : source <+: p :=
  List.isPrefixOf_iff_prefix.mp (List.mem_filter.mp h).2

theorem agrees_moveTree (d : Disk) (source target : Place) :
    Agrees (Clear source target) d (d.moveTree source target) :=
  agrees_moveAll fun _ => prefix_of_mem_below

theorem node?_moveTree_target (hs : source ≠ []) (ht : target ≠ []) (hapart : ¬ source <+: target)
    (hapart' : ¬ target <+: source) (h : d.node? source ≠ none) :
    (d.moveTree source target).node? target ≠ none := by
  refine node?_moveAll_target hs ht hapart hapart' (fun _ => prefix_of_mem_below) (Or.inl ⟨?_, h⟩)
  rw [below, List.mem_filter, SortedMap.mem_keys_iff, List.isPrefixOf_iff_prefix, Option.isSome_iff_ne_none]
  rw [node?_of_ne_nil hs] at h
  exact ⟨h, List.prefix_rfl⟩

end MoveTree

/-- What a renaming between two places does. -/
structure Moved (source target : Place) (d d' : Disk) : Prop where
  old : d.node? source ≠ none
  new : d'.node? target ≠ none
  apart : source = target ∨ (¬ source <+: target ∧ ¬ target <+: source)
  agrees : Agrees (Clear source target) d d'
  /-- The renaming of a file changes nothing below the two places either. -/
  file : ∀ id, d.node? source = some (.file id) →
    d'.node? target = some (.file id) ∧ Agrees (fun r => r ≠ source ∧ r ≠ target) d d'

theorem Moved.refl (h : d.node? source ≠ none) : Moved source source d d :=
  ⟨h, h, Or.inl rfl, .refl _ d, fun _ hid => ⟨hid, .refl _ d⟩⟩

theorem moved_moveNode {id : Nat} (ht : target ≠ []) (hapart : ¬ source <+: target)
    (hapart' : ¬ target <+: source) (hnode : d.node? source = some (.file id)) :
    Moved source target d (d.moveNode source target) := by
  have hnew := node?_moveNode_target (ne_nil_of_node?_eq_file hnode) ht hnode
  have hagrees := agrees_moveNode d source target
  refine ⟨by simp [hnode], by simp [hnew], Or.inr ⟨hapart, hapart'⟩, hagrees.mono fun r hr => ?_, fun id' hid' => ?_⟩
  · exact ⟨fun h => hr.1 (h ▸ List.prefix_rfl), fun h => hr.2 (h ▸ List.prefix_rfl)⟩
  · exact ⟨hnew.trans (hnode.symm.trans hid'), hagrees⟩

theorem agrees_erase (ht : target ≠ []) : Agrees (Clear source target) d (d.erase target) := by
  have hother : ∀ r, Clear source target r → r ≠ target := by
    rintro r hr rfl
    exact hr.2 List.prefix_rfl
  refine ⟨fun r hr => ?_, fun r hr => ?_⟩
  · rw [tree_erase ht]
    exact Tree.put_of_ne (hother r hr)
  · rw [node?_erase ht, if_neg (hother r hr)]

/-- A directory is moved, once the target is out of the way. -/
theorem moved_moveTree (hs : source ≠ []) (ht : target ≠ []) (hapart : ¬ source <+: target)
    (hapart' : ¬ target <+: source) (hnode : d.node? source = some .directory)
    (hcleared : Agrees (Clear source target) d d') (hkept : d'.node? source ≠ none) :
    Moved source target d (d'.moveTree source target) where
  old := by simp [hnode]
  new := node?_moveTree_target hs ht hapart hapart' hkept
  apart := Or.inr ⟨hapart, hapart'⟩
  agrees := hcleared.trans (agrees_moveTree d' source target)
  file id hid := by
    rw [hnode] at hid
    cases hid

theorem moved_of_replace (hs : source ≠ []) (ht : target ≠ []) (hapart : ¬ source <+: target)
    (hapart' : ¬ target <+: source) (hnode : d.node? source = some node)
    (h : d.replace node source target = .ok d') : Moved source target d d' := by
  cases node with
  | file id =>
      rw [replace_file] at h
      split at h
      · cases h
      · cases h
        exact moved_moveNode ht hapart hapart' hnode
  | directory =>
      simp only [replace] at h
      rcases htarget : d.node? target with - | node'
      · rw [htarget] at h
        cases h
        exact moved_moveTree hs ht hapart hapart' hnode (.refl _ d) (by simp [hnode])
      · rw [htarget] at h
        cases node' with
        | file id => cases h
        | directory =>
            dsimp only at h
            split at h
            · cases h
            · cases h
              have hne : source ≠ target := by
                rintro rfl
                exact hapart List.prefix_rfl
              refine moved_moveTree hs ht hapart hapart' hnode (agrees_erase ht) ?_
              rw [node?_erase ht, if_neg hne, hnode]
              simp

theorem files_moveTree (d : Disk) (source target : Place) : (d.moveTree source target).files = d.files := by
  unfold moveTree
  induction d.below source generalizing d with
  | nil => rfl
  | cons p rest ih => rw [List.foldl_cons, ih, files_moveNode]

theorem files_replace (h : d.replace node source target = .ok d') : d'.files = d.files := by
  unfold replace at h
  split at h
  · cases h
  · cases h
    exact files_moveNode d source target
  · cases h
  · split at h
    · cases h
    · cases h
      exact files_moveTree (d.erase target) source target
  · cases h
    exact files_moveTree d source target

theorem ne_nil_of_follow {e : Entry} (hnamed : e.isNamed = true) (h : d.follow e = .ok p) : p ≠ [] := by
  obtain ⟨-, rfl, -⟩ := (follow_eq_ok_iff hnamed).mp h
  simp

/-- What a renaming has found out before it moves anything. -/
structure Renames (old new : Path) (d d' : Disk) : Prop where
  oldEntry : ∃ e, d.entry old = .ok e ∧ d.follow e = .ok old.home
  newEntry : ∃ e, d.entry new = .ok e ∧ d.follow e = .ok new.home
  source : old.home ≠ []
  target : new.home ≠ []
  result : ∃ node, d.node? old.home = some node ∧ ((old.home = new.home ∧ d' = d) ∨
    (¬ old.home <+: new.home ∧ ¬ new.home <+: old.home ∧ d.replace node old.home new.home = .ok d'))

theorem renames_of_rename {old new : Path} (h : d.rename old new = .ok d') : Renames old new d d' := by
  unfold rename at h
  split at h
  · cases h
  obtain ⟨e, hold, h⟩ := Except.bind_eq_ok_iff.mp h
  obtain ⟨e', hnew, h⟩ := Except.bind_eq_ok_iff.mp h
  split at h
  · cases h
  rename_i hbusy
  simp only [Bool.or_eq_true, Bool.not_eq_true', not_or, Bool.not_eq_false] at hbusy
  obtain ⟨hnamed, hnamed'⟩ := hbusy
  obtain ⟨p, hsource, h⟩ := Except.bind_eq_ok_iff.mp h
  split at h
  · cases h
  rename_i node hnode
  obtain ⟨q, htarget, h⟩ := Except.bind_eq_ok_iff.mp h
  obtain rfl := eq_home_of_follow hold hsource
  obtain rfl := eq_home_of_follow hnew htarget
  refine ⟨⟨e, hold, hsource⟩, ⟨e', hnew, htarget⟩, ne_nil_of_follow hnamed hsource, ne_nil_of_follow hnamed' htarget,
    node, hnode, ?_⟩
  dsimp only at h
  split at h
  · cases h
  split at h
  · rename_i hsame
    cases h
    exact Or.inl ⟨hsame, rfl⟩
  split at h
  · cases h
  rename_i hapart
  split at h
  · cases h
  rename_i hapart'
  rw [List.isPrefixOf_iff_prefix] at hapart hapart'
  exact Or.inr ⟨hapart, hapart', h⟩

theorem rename_eq_ok {old new : Path} (h : d.rename old new = .ok d') :
    (∃ e, d.entry old = .ok e ∧ d.follow e = .ok old.home) ∧
      (∃ e, d.entry new = .ok e ∧ d.follow e = .ok new.home) ∧ Moved old.home new.home d d' := by
  have hrenames := renames_of_rename h
  refine ⟨hrenames.oldEntry, hrenames.newEntry, ?_⟩
  obtain ⟨node, hnode, ⟨hsame, rfl⟩ | ⟨hapart, hapart', hreplace⟩⟩ := hrenames.result
  · rw [← hsame]
    exact .refl (by simp [hnode])
  · exact moved_of_replace hrenames.source hrenames.target hapart hapart' hnode hreplace

/-- A renaming changes no file. -/
theorem bytesOf_rename {old new : Path} (h : d.rename old new = .ok d') (id : Nat) : d'.bytesOf id = d.bytesOf id := by
  obtain ⟨node, -, ⟨-, rfl⟩ | ⟨-, -, hreplace⟩⟩ := (renames_of_rename h).result
  · rfl
  · exact bytesOf_of_files (files_replace hreplace) id

end SortedTable.Disk
