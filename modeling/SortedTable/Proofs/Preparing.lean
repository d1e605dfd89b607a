import SortedTable.Proofs.Footprints
import SortedTable.Proofs.Recovering

namespace SortedTable

/-- The places of a table's auxiliary files as they are named. -/
def Descriptor.Auxiliary (d : Descriptor) (p : Place) : Prop :=
  ∃ c ∈ Component.auxiliary, p = (d.pathOf c).home

theorem Descriptor.Auxiliary.of_eq {d : Descriptor} {c : Component} (hc : c ∈ Component.auxiliary) {p : Place}
    (hp : p = (d.pathOf c).home) : d.Auxiliary p := ⟨c, hc, hp⟩

/-- Whatever the processor does, and whether it fails or not, it only makes, changes and removes auxiliary
files of the table under the names that the descriptor gives them. -/
def RecoveryProcessor.Confined (processor : RecoveryProcessor) (d : Descriptor) : Prop :=
  ∀ v, (processor d).Within (Disk.Touches d.Auxiliary) v

namespace Recovery

variable {d : Descriptor} {v : Volume}

theorem looks_estimateOpen (width : LengthWidth) (node : Node) : (estimateOpen width node).Looks := by
  cases node with
  | directory => exact Action.looks_throw _
  | file id =>
      refine (Action.looks_look _).op.bind fun bytes => ?_
      split
      · exact Action.looks_pure _
      · exact Action.looks_throw _

theorem within_indexRow (state : IndexWriter × Histogram) {p : Place}
    (h : v.disk.node? p = some (.file state.1.output.file)) (partitioner : Partitioner) (header : RowHeader) :
    Work.Within (Disk.SameBut [p]) (indexRow partitioner state header) v ∧
      (Work.on (indexRow partitioner state header) v).1.1.output.file = state.1.output.file ∧
      (Work.on (indexRow partitioner state header) v).1.1.descriptor = state.1.descriptor := by
  obtain ⟨hadd, hfields⟩ := IndexWriter.within_add h (partitioner.decorate header.key) header.position
  exact ⟨hadd.bind (.pure _ _ _), hfields⟩

theorem within_indexRows (state : IndexWriter × Histogram) {p : Place}
    (h : v.disk.node? p = some (.file state.1.output.file)) (partitioner : Partitioner)
    (headers : List RowHeader) :
    Work.Within (Disk.SameBut [p]) (indexRows partitioner headers state) v ∧
      (Work.on (indexRows partitioner headers state) v).1.1.output.file = state.1.output.file ∧
      (Work.on (indexRows partitioner headers state) v).1.1.descriptor = state.1.descriptor := by
  induction headers generalizing state v with
  | nil => exact ⟨.refl _ _, rfl, rfl⟩
  | cons header rest ih =>
      obtain ⟨hfirst, hfile, hdescriptor⟩ := within_indexRow state h partitioner header
      have hnode := (hfirst.last_of.nodes p).trans (h.trans (by rw [← hfile]))
      obtain ⟨hrest, hfile', hdescriptor'⟩ := ih (Work.on (indexRow partitioner state header) v).1 hnode
      have hsplit : indexRows partitioner (header :: rest) state =
          indexRow partitioner state header >>= indexRows partitioner rest := by
        rw [indexRows, List.foldlM_cons]
        rfl
      rw [hsplit, Work.on_bind]
      exact ⟨hfirst.bind hrest, hfile'.trans hfile, hdescriptor'.trans hdescriptor⟩

/-- What the end of a rebuild writes: the rest of the index, the filter and the statistics. -/
theorem within_finish {index : IndexWriter} (hindex : index.descriptor = d)
    (h : v.disk.node? (d.pathOf .primaryIndex).home = some (.file index.output.file))
    (rowSizes columnCounts : Histogram) :
    Action.Within (Disk.Touches d.Auxiliary) (do
      let _ ← index.close
      writeStatistics d rowSizes columnCounts) v := by
  refine .bind (IndexWriter.within_close h (fun disk disk' hdisk => ?_) fun disk disk' hdisk => ?_) fun _ v' _ => ?_
  · exact .of_sameBut hdisk fun p hp => .of_eq (c := .primaryIndex) (by decide) (List.mem_singleton.mp hp)
  · rw [hindex] at hdisk
    exact hdisk.mono fun p hp => .of_eq (c := .filter) (by decide) hp
  · exact (Action.within_writeFile _ _).op.mono fun disk hdisk =>
      hdisk.mono fun p hp => .of_eq (c := .statistics) (by decide) hp

theorem confined_rebuild (partitioner : Partitioner) (config : Config) (d : Descriptor) :
    RecoveryProcessor.Confined (rebuild partitioner config) d := by
  intro v
  unfold rebuild
  rcases hconfig : config.validate with e | u
  · exact .of_looks (Action.looks_throw _) _
  dsimp only
  refine .bind (.of_looks (Action.looks_look _).op _) fun node v₁ _ => ?_
  refine .bind (.of_looks (looks_estimateOpen _ _) _) fun estimate v₂ _ => ?_
  refine .bind (.of_looks (Action.looks_look _).op _) fun bytes v₃ _ => ?_
  refine .bind ((IndexWriter.within_create d estimate.1 config).mono fun disk hdisk =>
    hdisk.mono fun p hp => .of_eq (c := .primaryIndex) (by decide) hp) fun index v₄ hcreate => ?_
  obtain ⟨hnode, hdescriptor⟩ := IndexWriter.node?_of_on_create hcreate
  obtain ⟨hrows, hfile, hdescriptor'⟩ :=
    within_indexRows (index, .rowSizes) hnode partitioner (Scanner.start d.lengthWidth bytes).headers.1
  refine .bind (.lift (hrows.mono fun disk hdisk => .of_sameBut hdisk fun p hp =>
    .of_eq (c := .primaryIndex) (by decide) (List.mem_singleton.mp hp))) fun state v₅ hrun => ?_
  have hstate : state = (Work.on (indexRows partitioner (Scanner.start d.lengthWidth bytes).headers.1
      (index, .rowSizes)) v₄).1 := (Except.ok.inj (congrArg Prod.fst hrun)).symm
  have hvolume : v₅ = (Work.on (indexRows partitioner (Scanner.start d.lengthWidth bytes).headers.1
      (index, .rowSizes)) v₄).2 := (congrArg Prod.snd hrun).symm
  have hindex : state.1.descriptor = d := by rw [hstate, hdescriptor', hdescriptor]
  have hnode' : v₅.disk.node? (d.pathOf .primaryIndex).home = some (.file state.1.output.file) := by
    rw [hstate, hvolume, hfile, hrows.last_of.nodes, hnode]
  have hfinish := within_finish hindex hnode' state.2 .columnCounts
  split
  · exact hfinish
  · exact hfinish
  · refine .bind (.lift ((IndexWriter.within_drop hnode').mono fun disk hdisk => .of_sameBut hdisk
      fun p hp => .of_eq (c := .primaryIndex) (by decide) (List.mem_singleton.mp hp))) fun _ _ _ => ?_
    refine .bind (.of_looks (Action.looks_throw _) _) fun _ _ hthrow => ?_
    cases hthrow

theorem looks_statisticsReadable (d : Descriptor) : (statisticsReadable d).Looks := by
  unfold statisticsReadable
  refine Action.looks_get.bind fun volume => ?_
  split
  · exact Action.looks_pure _
  · exact Action.looks_pure _
  · exact Action.looks_pure _
  · exact Action.looks_throw _

theorem looks_auxiliaryIntact (d : Descriptor) : (auxiliaryIntact d).Looks := by
  unfold auxiliaryIntact
  refine Action.looks_get.bind fun volume => ?_
  dsimp only
  refine .ite ?_ (Action.looks_pure _)
  refine (looks_statisticsReadable d).bind fun readable => .ite ?_ (Action.looks_pure _)
  split
  · exact Action.looks_pure _
  · exact Action.looks_throw _
  · split
    · exact Action.looks_pure _
    · split
      · exact Action.looks_pure _
      · exact Action.looks_throw _
      · exact Action.looks_pure _

theorem within_removeIfThere (path : Path) : (removeIfThere path).Within (Disk.Touches (· = path.home)) v := by
  refine .tryCatch (Action.within_remove path) fun e v' _ => ?_
  split
  · exact .refl _ _
  · exact .of_looks (Action.looks_throw _) _

/-- Up to the first renaming, only auxiliary files change. -/
theorem within_prepare {processor : RecoveryProcessor} (h : processor.Confined d) (v : Volume) :
    (prepare d processor).Within (Disk.Touches d.Auxiliary) v := by
  rcases hrun : (auxiliaryIntact d).on v with ⟨e | intact, v'⟩
  · have hsame := (looks_auxiliaryIntact d).eq hrun
    subst hsame
    rw [Action.Within, prepare, Action.on_bind_error hrun]
    exact .refl _ _
  · have hsame := (looks_auxiliaryIntact d).eq hrun
    subst hsame
    cases intact with
    | true =>
        rw [Action.Within, on_prepare_intact hrun]
        exact .refl _ _
    | false =>
        rw [Action.Within, on_prepare_broken hrun]
        refine Action.Within.bind (.forEach (fun c hc v => ?_) _) fun _ v₁ _ => h v₁
        exact (within_removeIfThere _).op.mono fun disk hdisk => hdisk.mono fun p hp => .of_eq hc hp

end Recovery

end SortedTable
