import SortedTable.Proofs.Preparing

/-!
# The commit point

A table counts as published once its data file has the permanent name, and the data is renamed last. So a crash,
a failure or a careless recovery leaves no published table without its other files. Main statement:
`committed_along`.
-/

namespace SortedTable

namespace Descriptor

open Disk

variable {d : Descriptor} {dir dir' : Path} {base base' : Bytes} {disk disk' : Disk} {c c' : Component}

/-- If the data has its permanent name, the other files have theirs. -/
def Committed (d : Descriptor) (disk : Disk) : Prop :=
  disk.existsAt (d.published.pathOf .data) = true → ∀ c, disk.existsAt (d.published.pathOf c) = true

def Unpublished (d : Descriptor) (disk : Disk) : Prop := disk.existsAt (d.published.pathOf .data) = false

theorem Unpublished.committed (h : d.Unpublished disk) : d.Committed disk := by
  intro hexists
  rw [h] at hexists
  cases hexists

namespace Anchor

theorem unpublished_of_rename (h : d.Anchor dir base) (hp : d.published.Anchor dir' base') (hc : c ≠ .data)
    (hunpublished : d.Unpublished disk)
    (hrename : disk.rename (d.pathOf c) (d.published.pathOf c) = .ok disk') : d.Unpublished disk' := by
  obtain ⟨hopens, -, hothers⟩ := h.rename_eq_ok hp hrename
  rw [Unpublished, Bool.eq_false_iff, ne_eq, hp.existsAt_iff] at hunpublished ⊢
  rintro ⟨-, haccepts, hnode⟩
  rw [hothers .data hc] at hnode
  exact hunpublished ⟨hopens, haccepts, hnode⟩

end Anchor

theorem on_renameComponent_cases (d : Descriptor) (c : Component) (v : Volume) :
    (∃ e, (d.renameComponent c).on v = (.error e, v)) ∨
      ∃ disk, v.disk.rename (d.pathOf c) (d.published.pathOf c) = .ok disk ∧
        (d.renameComponent c).on v = (.ok (), v.step disk) := by
  rcases hrename : v.disk.rename (d.pathOf c) (d.published.pathOf c) with e | disk
  · refine Or.inl ⟨.rename (d.pathOf c) (d.published.pathOf c) e, ?_⟩
    have hrun : (Action.rename (d.pathOf c) (d.published.pathOf c)).on v = (.error e, v) :=
      Action.on_change_unit_error hrename
    rw [renameComponent, Action.on_mapError, hrun]
    rfl
  · refine Or.inr ⟨disk, rfl, ?_⟩
    rw [renameComponent, Action.on_mapError_eq_ok_iff]
    exact Action.on_change_unit_ok hrename

/-- While the other components are renamed, the data has no permanent name. They keep theirs. -/
theorem along_renameAuxiliary {v : Volume} {cs done : List Component} (h : d.Anchor dir base)
    (hp : d.published.Anchor dir' base') (hdata : .data ∉ cs) (hunpublished : d.Unpublished v.disk)
    (htaken : ∀ c ∈ done, d.Taken dir' base' v.disk c) :
    v.Along d.Unpublished ((Action.forEach d.renameComponent cs).on v).2 ∧
      ∀ u v', (Action.forEach d.renameComponent cs).on v = (.ok u, v') →
        ∀ c ∈ done ++ cs, d.Taken dir' base' v'.disk c := by
  induction cs generalizing v done with
  | nil =>
      refine ⟨.refl _ _, ?_⟩
      rintro u v' ⟨⟩ c hc
      exact htaken c (by simpa using hc)
  | cons c rest ih =>
      rw [List.mem_cons, not_or] at hdata
      rw [Action.forEach]
      rcases on_renameComponent_cases d c v with ⟨e, hrun⟩ | ⟨disk, hrename, hrun⟩
      · rw [Action.on_bind_error hrun]
        refine ⟨.refl _ _, ?_⟩
        rintro u v' ⟨⟩
      · rw [Action.on_bind_ok hrun]
        obtain ⟨-, hnew, hothers⟩ := h.rename_eq_ok hp hrename
        have hstep := h.unpublished_of_rename hp (Ne.symm hdata.1) hunpublished hrename
        have htaken' : ∀ c' ∈ done ++ [c], d.Taken dir' base' disk c' := by
          intro c' hc'
          by_cases hsame : c = c'
          · exact hsame ▸ hnew
          · rw [List.mem_append, List.mem_singleton] at hc'
            obtain ⟨haccepts, hnode⟩ := htaken c' (hc'.resolve_right (Ne.symm hsame))
            exact ⟨haccepts, by rwa [hothers c' hsame]⟩
        obtain ⟨halong, hall⟩ := ih (v := v.step disk) hdata.2 hstep htaken'
        rw [List.append_assoc, List.singleton_append] at hall
        exact ⟨.trans (.step hstep) halong, hall⟩

/-- The data is renamed last. -/
theorem forEach_renameOrder_all (d : Descriptor) :
    Action.forEach d.renameComponent (renameOrder Component.all) =
      Action.forEach d.renameComponent Component.auxiliary >>= fun _ =>
        d.renameComponent .data >>= fun _ => pure () := by
  simp only [renameOrder_all, Component.auxiliary, Action.forEach, bind_assoc, pure_bind]

theorem along_publish {v : Volume} (hunpublished : d.Unpublished v.disk) :
    v.Along d.Committed ((d.publish Component.all).on v).2 := by
  obtain ⟨dir, base, h⟩ := d.exists_anchor
  obtain ⟨dir', base', hp⟩ := d.published.exists_anchor
  have hdata : .data ∉ Component.auxiliary := by decide
  have hnone : ∀ c ∈ ([] : List Component), d.Taken dir' base' v.disk c := by simp
  obtain ⟨halong, htaken⟩ := along_renameAuxiliary h hp hdata hunpublished hnone
  rw [on_publish_eq, forEach_renameOrder_all, bind_assoc]
  refine Action.along_bind (halong.mono fun _ => Unpublished.committed) fun u v₁ hfirst => ?_
  rw [hfirst] at halong
  have htaken₁ := htaken u v₁ hfirst
  rcases on_renameComponent_cases d .data v₁ with ⟨e, hrun⟩ | ⟨disk, hrename, hrun⟩
  · rw [bind_assoc, Action.on_bind_error hrun]
    exact .refl _ _
  · rw [bind_assoc, Action.on_bind_ok hrun]
    obtain ⟨-, hdata, hothers⟩ := h.rename_eq_ok hp hrename
    refine .step fun hexists c => ?_
    obtain ⟨hopens, -⟩ := (hp.existsAt_iff .data).mp hexists
    by_cases hc : Component.data = c
    · exact hc ▸ hexists
    · obtain ⟨haccepts, hnode⟩ := htaken₁ c (by revert hc; cases c <;> decide)
      exact (hp.existsAt_iff c).mpr ⟨hopens, haccepts, by rwa [hothers c hc]⟩

/-- Auxiliary files may come and go under their temporary names before the data is published. -/
theorem unpublished_of_touches (h : disk.Touches d.Auxiliary disk') (hunpublished : d.Unpublished disk) :
    d.Unpublished disk' := by
  obtain ⟨dir, base, hd⟩ := d.exists_anchor
  obtain ⟨dir', base', hp⟩ := d.published.exists_anchor
  rw [Unpublished, Bool.eq_false_iff, ne_eq, hp.existsAt_iff] at hunpublished ⊢
  rintro ⟨hopens, haccepts, hnode⟩
  have hoff : ¬ d.Auxiliary (d.published.pathOf .data).home := by
    rintro ⟨c, hc, heq⟩
    have hne : Component.data ≠ c := by
      rintro rfl
      exact absurd hc (by decide)
    exact hp.home_ne hd hne heq
  rw [h.nodes _ hoff] at hnode
  exact hunpublished ⟨⟨foldlM_step_mono h.kept hopens.1, h.kept _ hopens.2⟩, haccepts, hnode⟩

open Recovery in
/-- Where the data has no permanent name to begin with, it gets one last: on every disk that publication or
recovery passes, and on the one that it ends with or fails on, published data has all other files beside it. -/
theorem committed_along {v : Volume} (h : v.disk.existsAt (d.published.pathOf .data) = false) :
    (∀ (t : ClosedTable) (age : Nat), t.descriptor = d → t.components = Component.all →
      v.Along d.Committed ((t.publish age).on v).2 ∧ d.Committed ((t.publish age).on v).2.disk) ∧
    ∀ (processor : RecoveryProcessor), processor.Confined d →
      ∀ (metadata : TableMetadata) (partitioner : Partitioner) (config : Config) (age : Nat),
        v.Along d.Committed ((recoverAndOpen d processor metadata partitioner config age).on v).2 ∧
        d.Committed ((recoverAndOpen d processor metadata partitioner config age).on v).2.disk := by
  have hunpublished : d.Unpublished v.disk := h
  constructor
  · intro t age hd hcomponents
    have halong : v.Along d.Committed ((t.publish age).on v).2 := by
      rw [ClosedTable.publish, hd, hcomponents]
      refine Action.along_bind (along_publish hunpublished) fun published v₁ _ => ?_
      exact Action.along_of_looks ((Reader.looks_complete _ _).op.bind fun _ =>
        (Reader.looks_complete _ _).op.bind fun _ => Action.looks_pure _)
    exact ⟨halong, halong.last hunpublished.committed⟩
  · intro processor hconfined metadata partitioner config age
    have halong : v.Along d.Committed ((recoverAndOpen d processor metadata partitioner config age).on v).2 := by
      by_cases hcurrent : d.isCurrent = true
      · have hnot : (!v.disk.existsAt (d.pathOf .data) && v.disk.existsAt (d.published.pathOf .data)) = false := by
          rw [h, Bool.and_false]
        rw [on_recoverAndOpen_eq hcurrent hnot]
        have hprepare := Volume.Along.mono (within_prepare hconfined v) fun _ hdisk =>
          unpublished_of_touches hdisk hunpublished
        refine Action.along_bind (hprepare.mono fun _ => Unpublished.committed) fun _ v₁ hrun => ?_
        rw [hrun] at hprepare
        refine Action.along_bind (along_publish (hprepare.last hunpublished)) fun published v₂ _ => ?_
        exact Action.along_of_looks (Reader.looks_openTable _ _ _ _ _)
      · unfold recoverAndOpen
        rw [if_neg hcurrent]
        exact .refl _ _
    exact ⟨halong, halong.last hunpublished.committed⟩

open Recovery Writer in
/-- A table that was begun and never closed: it cannot be published, and is then recovered. -/
theorem committed_along_users :
    ∃ v, Terms.users.create.on .new = (.ok (Terms.users.start 0 1), v) ∧
      v.disk.existsAt (Terms.users.descriptor.published.pathOf .data) = false ∧
      RecoveryProcessor.Confined (rebuild .byteOrdered .default) Terms.users.descriptor ∧
      v.Along Terms.users.descriptor.Committed (((Terms.users.start 0 1).closed.publish 0).on v).2 ∧
      v.Along Terms.users.descriptor.Committed ((recoverAndOpen Terms.users.descriptor
        (rebuild .byteOrdered .default) Terms.users.metadata .byteOrdered .default 0).on v).2 := by
  have hfree : ((Volume.new.step (Disk.empty.addFile (Terms.users.descriptor.place .primaryIndex))).step
      ((Disk.empty.addFile (Terms.users.descriptor.place .primaryIndex)).addFile
        (Terms.users.descriptor.place .data))).disk.existsAt
      (Terms.users.descriptor.published.pathOf .data) = false := rfl
  have hconfined := confined_rebuild .byteOrdered .default Terms.users.descriptor
  obtain ⟨hpublish, hrecover⟩ := committed_along hfree
  exact ⟨_, Terms.create_users, hfree, hconfined, (hpublish (Terms.users.start 0 1).closed 0 rfl rfl).1,
    (hrecover _ hconfined Terms.users.metadata .byteOrdered .default 0).1⟩

end Descriptor

end SortedTable
