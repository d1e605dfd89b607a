import SortedTable.Proofs.Passing
import SortedTable.Proofs.Sessions

namespace SortedTable

open Disk

namespace Path

theorem fileName_of_mem_foldl_enter {pieces : List Bytes} (hslash : ∀ piece ∈ pieces, slash ∉ piece) {p : Place}
    (hp : ∀ name ∈ p, FileName name) : ∀ name ∈ pieces.foldl Place.enter p, FileName name := by
  induction pieces generalizing p with
  | nil => exact hp
  | cons piece rest ih =>
      rw [List.forall_mem_cons] at hslash
      rw [List.foldl_cons]
      refine ih hslash.2 ?_
      unfold Place.enter
      split
      · exact hp
      · rename_i hidle
        split
        · exact fun name hname => hp name (List.dropLast_subset p hname)
        · rename_i hparent
          intro name hname
          rcases List.mem_append.mp hname with hname | hname
          · exact hp name hname
          · rw [List.mem_singleton] at hname
            subst hname
            exact ⟨hslash.1, Bool.eq_false_iff.mpr hidle, Bool.eq_false_iff.mpr hparent⟩

/-- No way up and nothing idle is left of a path in the place that it names. -/
theorem fileName_of_mem_home {path : Path} {name : Bytes} (h : name ∈ path.home) : FileName name := by
  refine fileName_of_mem_foldl_enter (fun piece hpiece => ?_) (by simp) name h
  unfold leading at hpiece
  split at hpiece
  · exact absurd hpiece List.not_mem_nil
  · split at hpiece
    · exact slash_notMem_of_mem_splitOn hpiece
    · exact slash_notMem_of_mem_splitOn hpiece

end Path

namespace Disk

variable {d d' d'' : Disk} {p : Place} {path : Path}

/-- Something may have come where nothing was, with a name that is a single piece of a path. -/
structure Grows (d d' : Disk) : Prop where
  keeps : ∀ p, d.tree p ≠ none → d'.tree p = d.tree p
  named : ∀ p name, d.tree (p ++ [name]) = none → d'.tree (p ++ [name]) ≠ none → FileName name

namespace Grows

theorem refl (d : Disk) : Grows d d := ⟨fun _ _ => rfl, fun _ _ hnone hsome => absurd hnone hsome⟩

theorem trans (h : Grows d d') (h' : Grows d' d'') : Grows d d'' := by
  refine ⟨fun p hp => ?_, fun p name hnone hsome => ?_⟩
  · have hmiddle := h.keeps p hp
    rw [h'.keeps p (by rwa [hmiddle]), hmiddle]
  · by_cases hmiddle : d'.tree (p ++ [name]) = none
    · exact h'.named p name hmiddle hsome
    · exact h.named p name hnone hmiddle

instance : IsPreorder Disk Grows where
  refl := refl
  trans _ _ _ := trans

end Grows

theorem node?_addDirectory (hp : p ≠ []) (q : Place) :
    (d.addDirectory p).node? q = if q = p then some .directory else d.node? q := by
  by_cases hq : q = []
  · rw [hq, if_neg (Ne.symm hp)]
    rfl
  · rw [node?_of_ne_nil hq, node?_of_ne_nil hq]
    exact SortedMap.get?_insert _ _ _ _

theorem tree_addDirectory (hp : p ≠ []) : (d.addDirectory p).tree = d.tree.put p (some .directory) := by
  have hitem : (d.addDirectory p).itemOf = d.itemOf := rfl
  funext q
  unfold tree Tree.put
  rw [node?_addDirectory hp, hitem]
  split <;> rfl

theorem makeDirectory_eq_ok (h : d.makeDirectory path = .ok d') :
    d.node? path.home = none ∧ d' = d.addDirectory path.home := by
  unfold makeDirectory at h
  obtain ⟨e, hentry, h⟩ := Except.bind_eq_ok_iff.mp h
  obtain ⟨place, hfollow, h⟩ := Except.bind_eq_ok_iff.mp h
  obtain rfl := eq_home_of_follow hentry hfollow
  split at h
  · cases h
  · rename_i hfree
    cases h
    exact ⟨by simpa using hfree, rfl⟩

theorem grows_makeDirectory (h : d.makeDirectory path = .ok d') : Grows d d' := by
  obtain ⟨hnode, rfl⟩ := makeDirectory_eq_ok h
  have hne := ne_nil_of_node?_eq_none hnode
  rw [← tree_eq_none_iff] at hnode
  refine ⟨fun q hq => ?_, fun q name hnone hsome => ?_⟩
  · rw [tree_addDirectory hne, Tree.put_of_ne]
    rintro rfl
    exact hq hnode
  · rw [tree_addDirectory hne] at hsome
    by_cases hq : q ++ [name] = path.home
    · exact Path.fileName_of_mem_home (hq ▸ List.mem_append_right q (List.mem_singleton_self name))
    · rw [Tree.put_of_ne hq] at hsome
      exact absurd hnone hsome

end Disk

namespace Action

theorem within_ensureDirectory (path : Path) (v : Volume) : (ensureDirectory path).Within Grows v := by
  refine .tryCatch (.change_ fun _ h => grows_makeDirectory h) fun e v' _ => .of_looks ?_ _
  refine looks_get.bind fun volume => ?_
  split
  · exact looks_pure _
  · exact looks_throw _

theorem within_makeDirectoriesTo (depth : Nat) (path : Path) (v : Volume) :
    (makeDirectoriesTo depth path).Within Grows v := by
  induction depth generalizing path v with
  | zero =>
      unfold makeDirectoriesTo
      split
      · exact within_ensureDirectory path v
      · exact .refl _ _
  | succ depth ih =>
      unfold makeDirectoriesTo
      split
      · refine .tryCatch (within_ensureDirectory path v) fun e v' _ => ?_
        split
        · exact .bind (ih _ v') fun _ v'' _ => within_ensureDirectory path v''
        · exact .of_looks (looks_throw _) _
      · exact .refl _ _

theorem grows_makeDirectories {dir : Path} {v v' : Volume} {result : Except DiskError Unit}
    (h : (makeDirectories dir).on v = (result, v')) : Grows v.disk v'.disk := by
  have hwithin : (makeDirectories dir).Within Grows v := within_makeDirectoriesTo _ dir v
  rw [Action.Within, h] at hwithin
  exact hwithin.last_of

end Action

namespace Store

variable {now : Nat}

theorem looks_listFiles (s : Store) : s.listFiles.Looks :=
  ((Action.looks_look _).mapError _).bind fun _ => Action.looks_pure _

theorem looks_openFound (s : Store) (f : Found) : (s.openFound now f).Looks := by
  unfold openFound
  split
  · exact ((Reader.looks_openTable _ _ _ _ _).mapError _).bind fun _ => Action.looks_pure _
  · exact Action.looks_pure _

theorem looks_foldlM_openFound (files : List Found) (s : Store) :
    Action.Looks (files.foldlM (openFound · now) s) := by
  induction files generalizing s with
  | nil => exact Action.looks_pure s
  | cons f rest ih =>
      rw [List.foldlM_cons]
      exact (looks_openFound s f).bind ih

/-- Whether a store can be opened or not, its directory and those above it are all that is made. -/
theorem within_openAll (dir : Path) (table : String) (partitioner : Partitioner) (config : Config) (now : Nat)
    (v : Volume) : (openAll dir table partitioner config now).Within Grows v := by
  unfold openAll
  rcases start dir table partitioner config with e | s
  · exact .of_looks (Action.looks_throw e) _
  · refine .bind (.of_looks (Action.looks_pure s) _) fun s v₁ _ => ?_
    refine .bind ((Action.within_makeDirectoriesTo _ dir v₁).mapError _) fun _ v₂ _ => .of_looks ?_ _
    exact (looks_listFiles s).bind fun files => looks_foldlM_openFound files s

end Store

end SortedTable
