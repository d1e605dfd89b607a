import SortedTable.Proofs.FailedRecoveries
import SortedTable.Proofs.Sites

/-!
# Generations in a directory

The names in a directory tell what generations of a table there are. Work on one generation leaves the names of
all others alone, and the generation is not forgotten as long as its data has one of its two names. Main
statements: `Writer.tends_finish`, `Recovery.tends_recoverAndOpen`, `Tends.has`, `Tends.stored`.
-/

namespace SortedTable

open Disk

variable {dir : Path} {table : String} {name : Bytes} {g g' : Nat} {c c' : Component}

namespace Descriptor

/-- The name is read as that of a component of a table of this generation. -/
def Tells (dir : Path) (table : String) (name : Bytes) (g : Nat) (c : Component) : Prop :=
  ∃ d, ofPath? (dir.join ⟨name⟩) = some (d, c) ∧ d.table = table ∧ d.generation = g

theorem Tells.unique (h : Tells dir table name g c) (h' : Tells dir table name g' c') : g = g' ∧ c = c' := by
  obtain ⟨d, hpath, -, hgeneration⟩ := h
  obtain ⟨d', hpath', -, hgeneration'⟩ := h'
  obtain ⟨rfl, rfl⟩ := Prod.mk.inj (Option.some.inj (hpath.symm.trans hpath'))
  exact ⟨hgeneration.symm.trans hgeneration', rfl⟩

theorem valid_numbered (htable : ValidTable table) (dir : Path) (g : Nat) : (numbered dir table g).Valid :=
  ⟨htable, rfl⟩

theorem tells_nameOf (dir : Path) (htable : ValidTable table) (hg : g < Decimal.limit64) (temporary : Bool)
    (c : Component) : Tells dir table (((numbered dir table g).asTemporary temporary).nameOf c) g c := by
  obtain ⟨d, hpath, htwin⟩ := ofPath?_pathOf ((valid_numbered htable dir g).asTemporary temporary) hg c
  exact ⟨d, hpath, htwin.table, htwin.generation⟩

/-- A place of the directory that is not one of the generation's. -/
def Beside (dir : Path) (table : String) (g : Nat) (p : Place) : Prop :=
  p.length = dir.home.length + 1 ∧ (numbered dir table g).Apart p

theorem beside_or (dir : Path) (table : String) (g : Nat) (name : Bytes) :
    Beside dir table g (dir.home ++ [name]) ∨
      ∃ temporary c, name = ((numbered dir table g).asTemporary temporary).nameOf c := by
  by_cases hapart : (numbered dir table g).Apart (dir.home ++ [name])
  · exact Or.inl ⟨by simp, hapart⟩
  · simp only [Apart, not_forall, not_and_or, not_not] at hapart
    obtain ⟨c, hplace | hplace⟩ := hapart
    · exact Or.inr ⟨true, c, List.singleton_inj.mp (List.append_cancel_left hplace)⟩
    · exact Or.inr ⟨false, c, List.singleton_inj.mp (List.append_cancel_left hplace)⟩

theorem beside_of_tells (htable : ValidTable table) (hg : g < Decimal.limit64) (h : Tells dir table name g' c)
    (hne : g' ≠ g) : Beside dir table g (dir.home ++ [name]) := by
  rcases beside_or dir table g name with hbeside | ⟨temporary, c', rfl⟩
  · exact hbeside
  · exact absurd (h.unique (tells_nameOf dir htable hg temporary c')).1 hne

theorem beside_numbered (htable : ValidTable table) (hne : g ≠ g') (temporary : Bool) (c : Component) :
    Beside dir table g (((numbered dir table g').asTemporary temporary).place c) :=
  ⟨length_place _ _, apart_numbered htable hne temporary c⟩

end Descriptor

open Descriptor

namespace Disk

variable {d d' : Disk} {inside : Place → Prop}

/-- Something in the directory is named for a component of a table of this generation. -/
def Has (dir : Path) (table : String) (g : Nat) (c : Component) (d : Disk) : Prop :=
  ∃ name, d.tree (dir.home ++ [name]) ≠ none ∧ Tells dir table name g c

/-- All names in the directory are single pieces of a path. -/
def Proper (dir : Path) (d : Disk) : Prop := ∀ name, d.tree (dir.home ++ [name]) ≠ none → FileName name

/-- The data of a generation has its temporary or its permanent name. -/
def Present (dir : Path) (table : String) (g : Nat) (d : Disk) : Prop :=
  ∃ temporary, d.node? (((numbered dir table g).asTemporary temporary).place .data) ≠ none

theorem tree_ne_none_iff {p : Place} : d.tree p ≠ none ↔ d.node? p ≠ none := not_congr tree_eq_none_iff

theorem Present.stored (htable : ValidTable table) (hg : g < Decimal.limit64) (h : d.Present dir table g) :
    d.Has dir table g .data := by
  obtain ⟨temporary, hnode⟩ := h
  exact ⟨_, tree_ne_none_iff.mpr hnode, tells_nameOf dir htable hg temporary .data⟩

/-- What work on one generation does to the disk. -/
structure Tends (dir : Path) (table : String) (g : Nat) (d d' : Disk) : Prop where
  agrees : Agrees (Beside dir table g) d d'
  present : d.Present dir table g → d'.Present dir table g
  /-- A directory under one of the names could be moved with all below it. -/
  plain : (numbered dir table g).Plain d →
    (numbered dir table g).Plain d' ∧ Agrees (numbered dir table g).Apart d d'

namespace Tends

theorem refl (dir : Path) (table : String) (g : Nat) (d : Disk) : Tends dir table g d d :=
  ⟨.refl _ d, id, fun hplain => ⟨hplain, .refl _ d⟩⟩

theorem trans {d'' : Disk} (h : Tends dir table g d d') (h' : Tends dir table g d' d'') :
    Tends dir table g d d'' := by
  refine ⟨h.agrees.trans h'.agrees, fun hpresent => h'.present (h.present hpresent), fun hplain => ?_⟩
  obtain ⟨hplain', hagrees⟩ := h.plain hplain
  obtain ⟨hplain'', hagrees'⟩ := h'.plain hplain'
  exact ⟨hplain'', hagrees.trans hagrees'⟩

instance : IsPreorder Disk (Tends dir table g) where
  refl := refl dir table g
  trans _ _ _ := trans

/-- No other generation has come or gone. -/
theorem has (htable : ValidTable table) (hg : g < Decimal.limit64) (h : Tends dir table g d d') (hne : g' ≠ g) :
    d'.Has dir table g' c ↔ d.Has dir table g' c := by
  refine exists_congr fun name => and_congr_left fun htells => ?_
  rw [h.agrees.tree _ (beside_of_tells htable hg htells hne)]

/-- No data is lost, be it of this generation or of another one. -/
theorem stored (htable : ValidTable table) (hg : g < Decimal.limit64) (h : Tends dir table g d d')
    (hstored : d.Has dir table g' .data) : d'.Has dir table g' .data := by
  obtain ⟨name, hnode, htells⟩ := hstored
  rcases beside_or dir table g name with hbeside | ⟨temporary, c, rfl⟩
  · exact ⟨name, by rwa [h.agrees.tree _ hbeside], htells⟩
  · obtain ⟨rfl, rfl⟩ := htells.unique (tells_nameOf dir htable hg temporary c)
    exact (h.present ⟨temporary, tree_ne_none_iff.mp hnode⟩).stored htable hg

theorem proper (htable : ValidTable table) (h : Tends dir table g d d') (hproper : d.Proper dir) :
    d'.Proper dir := by
  intro name hnode
  rcases beside_or dir table g name with hbeside | ⟨temporary, c, rfl⟩
  · rw [h.agrees.tree _ hbeside] at hnode
    exact hproper name hnode
  · exact fileName_nameOf ((valid_numbered htable dir g).asTemporary temporary) c

theorem of_touches (htable : ValidTable table)
    (h : d.Touches (fun p => ∃ c, p = (numbered dir table g).place c) d')
    (hdata : d.node? ((numbered dir table g).place .data) ≠ none →
      d'.node? ((numbered dir table g).place .data) ≠ none) : Tends dir table g d d' := by
  have hd := valid_numbered htable dir g
  have hagrees : Agrees (numbered dir table g).Apart d d' :=
    h.agrees.mono fun p hapart ⟨c, hp⟩ => (hapart c).1 hp
  refine ⟨hagrees.mono fun p hp => hp.2, ?_, fun hplain => ⟨hplain.of_touches h, hagrees⟩⟩
  rintro ⟨temporary, hnode⟩
  cases temporary with
  | true => exact ⟨true, hdata hnode⟩
  | false =>
      refine ⟨false, ?_⟩
      rwa [h.nodes]
      exact fun ⟨c, hc⟩ => published_place_ne hd rfl .data c hc

/-- A file of another component has come or gone. -/
theorem of_touches_other (htable : ValidTable table) (hc : c ≠ .data)
    (h : d.Touches (· = (numbered dir table g).place c) d') : Tends dir table g d d' := by
  refine .of_touches htable (h.mono fun p hp => ⟨c, hp⟩) fun hnode => ?_
  rwa [h.nodes _ (place_ne_place (valid_numbered htable dir g) hc.symm)]

theorem of_sameBut {places : List Place} (htable : ValidTable table) (h : SameBut places d d')
    (hplaces : ∀ p ∈ places, ∃ c, p = (numbered dir table g).place c) : Tends dir table g d d' := by
  refine .of_touches htable (.of_sameBut h hplaces) fun hnode => ?_
  rwa [h.nodes]

end Tends

end Disk

variable {v v' : Volume} {e : Descriptor}

theorem Descriptor.Twin.plain_iff {d d' : Descriptor} (h : d'.Twin d) {disk : Disk} : d'.Plain disk ↔ d.Plain disk :=
  forall_congr' fun c => by rw [h.place]

/-- Renaming a component moves what has its temporary name to its permanent one. -/
theorem Descriptor.tends_renameComponent (htable : ValidTable table) (htwin : e.Twin (numbered dir table g))
    (c : Component) : (e.renameComponent c).Within (Tends dir table g) v := by
  have hd := valid_numbered htable dir g
  have he := htwin.valid hd
  rcases on_renameComponent_cases e c v with ⟨x, hrun⟩ | ⟨disk, hrename, hrun⟩
  · rw [Action.Within, hrun]
    exact .refl _ _
  have hstep : Tends dir table g v.disk disk := by
    obtain ⟨-, -, hmoved⟩ := Disk.rename_eq_ok hrename
    rw [home_pathOf he, home_pathOf he.published, htwin.place, htwin.published.place] at hmoved
    have hclear : ∀ p, p.length = dir.home.length + 1 → p ≠ (numbered dir table g).place c →
        p ≠ (numbered dir table g).published.place c →
        Clear ((numbered dir table g).place c) ((numbered dir table g).published.place c) p := by
      intro p hlength hold hnew
      have hsame : ∀ {q : Place}, q.length = dir.home.length + 1 → q <+: p → p = q :=
        fun hq hbegins => (hbegins.eq_of_length (hq.trans hlength.symm)).symm
      exact ⟨fun hbegins => hold (hsame (length_place _ _) hbegins),
        fun hbegins => hnew (hsame (length_place _ _) hbegins)⟩
    refine ⟨hmoved.agrees.mono fun p hp => hclear p hp.1 (hp.2 c).1 (hp.2 c).2, ?_, fun hplain => ?_⟩
    · rintro ⟨temporary, hnode⟩
      by_cases hc : c = .data
      · subst hc
        exact ⟨false, hmoved.new⟩
      · refine ⟨temporary, ?_⟩
        rwa [hmoved.agrees.nodes _ (hclear _ (length_place _ _) ?_ ?_)]
        · exact fun hp => hc ((place_inj hd temporary true).mp hp).2.symm
        · exact fun hp => hc ((place_inj hd temporary false).mp hp).2.symm
    · rw [← htwin.plain_iff] at hplain
      have hrenamed := renamed_of_on_renameComponent he (hplain c) hrun
      refine ⟨htwin.plain_iff.mp (hplain.of_renamed he htwin.temporary hrenamed), ?_⟩
      exact (Agrees.mk hrenamed.frame.tree hrenamed.frame.nodes).mono fun p hp => htwin.apart_iff.mpr hp
  rw [Action.Within, hrun]
  exact .step hstep

theorem Descriptor.tends_publish (htable : ValidTable table) (htwin : e.Twin (numbered dir table g)) (v : Volume) :
    (e.publish Component.all).Within (Tends dir table g) v := by
  rw [Action.Within, on_publish_eq]
  exact Action.Within.bind (.forEach (fun c _ v => tends_renameComponent htable htwin c) v) fun _ _ _ => .refl _ _

namespace Writer

variable {w : Writer}

theorem mem_places (hd : w.descriptor = numbered dir table g) {p : Place} (hp : p ∈ w.places) :
    ∃ c, p = (numbered dir table g).place c := by
  rw [places, hd, List.mem_cons, List.mem_singleton] at hp
  rcases hp with hp | hp
  · exact ⟨.data, hp⟩
  · exact ⟨.primaryIndex, hp⟩

/-- Starting a writer makes its two files. -/
theorem within_create {R : Disk → Disk → Prop} [IsPreorder Disk R] {d : Descriptor} (hd : d.Valid)
    (hmake : ∀ c ∈ [Component.data, .primaryIndex], ∀ disk disk', Touches (· = d.place c) disk disk' →
      disk'.node? (d.place c) ≠ none → R disk disk')
    (keyCount : Nat) (metadata : TableMetadata) (partitioner : Partitioner) (config : Config) (v : Volume) :
    (create d keyCount metadata partitioner config).Within R v := by
  have hfile : ∀ c ∈ [Component.data, .primaryIndex], ∀ v, (Action.create (d.pathOf c)).Within R v := by
    intro c hc v
    refine .change fun id disk hcreate => ?_
    have htouches := touches_create hcreate
    have hnode := (create_eq_ok hcreate).1
    rw [home_pathOf hd] at htouches hnode
    exact hmake c hc _ _ htouches (by simp [hnode])
  unfold create
  rcases config.validate with x | u
  · exact .of_looks (Action.looks_throw _) _
  dsimp only
  rw [if_pos hd.validTable]
  refine .bind (.bind (.op (.bind (hfile _ (by decide) v) fun _ _ _ => .refl _ _)) fun _ _ _ => .refl _ _)
    fun index v₁ _ => ?_
  exact .bind (.op (.bind (hfile _ (by decide) v₁) fun _ _ _ => .refl _ _)) fun _ _ _ => .refl _ _

theorem tends_create (htable : ValidTable table) (keyCount : Nat) (metadata : TableMetadata)
    (partitioner : Partitioner) (config : Config) (v : Volume) :
    (create (numbered dir table g) keyCount metadata partitioner config).Within (Tends dir table g) v := by
  refine within_create (valid_numbered htable dir g) (fun c _ disk disk' hdisk hnode => ?_) _ _ _ _ v
  refine .of_touches htable (hdisk.mono fun p hp => ⟨c, hp⟩) fun hdata => ?_
  by_cases hc : c = .data
  · exact hc ▸ hnode
  · rwa [hdisk.nodes _ (place_ne_place (valid_numbered htable dir g) (Ne.symm hc))]

/-- A writer that was started has made its two files. -/
theorem sits_of_on_create {d : Descriptor} (hd : d.Valid) {keyCount : Nat} {metadata : TableMetadata}
    {partitioner : Partitioner} {config : Config}
    (hrun : (create d keyCount metadata partitioner config).on v = (.ok w, v')) :
    w.descriptor = d ∧ w.Sits v'.disk := by
  unfold create at hrun
  rcases hconfig : config.validate with x | u
  · rw [hconfig] at hrun
    cases hrun
  rw [hconfig] at hrun
  dsimp only at hrun
  rw [if_pos hd.validTable, Action.on_bind_eq_ok_iff] at hrun
  obtain ⟨index, v₁, hindex, hrun⟩ := hrun
  rw [Action.on_bind_eq_ok_iff] at hrun
  obtain ⟨data, v₂, hdata, hpure⟩ := hrun
  obtain ⟨hnode, hdescriptor⟩ := IndexWriter.node?_of_on_create hindex
  obtain ⟨id, disk, hcreate, rfl, rfl⟩ := Output.create_eq_ok_iff.mp hdata
  obtain ⟨hfile, hothers, -⟩ := create_eq_ok hcreate
  cases hpure
  rw [home_pathOf hd] at hnode hfile hothers
  exact ⟨rfl, hfile, (hothers _ (place_ne_place hd (by decide))).trans hnode, hdescriptor⟩

theorem tends_append (htable : ValidTable table) (hd : w.descriptor = numbered dir table g) (h : w.Sits v.disk)
    (key : DecoratedKey) (row : Encoding) : Work.Within (Tends dir table g) (w.append key row) v :=
  (stays_append h key row).within.mono fun _ hdisk => .of_sameBut htable hdisk fun _ => mem_places hd

theorem tends_drop (htable : ValidTable table) (hd : w.descriptor = numbered dir table g) (h : w.Sits v.disk) :
    Work.Within (Tends dir table g) w.drop v :=
  (within_drop h).mono fun _ hdisk => .of_sameBut htable hdisk fun _ => mem_places hd

theorem tends_close (htable : ValidTable table) (hd : w.descriptor = numbered dir table g) (h : w.Sits v.disk) :
    w.close.Within (Tends dir table g) v := by
  refine within_close (hd ▸ valid_numbered htable dir g) h ?_ ?_
  · exact fun _ _ hdisk => .of_sameBut htable hdisk fun _ => mem_places hd
  · intro c hc _ _ hdisk
    rw [hd] at hdisk
    refine .of_touches_other htable ?_ hdisk
    rintro rfl
    exact absurd hc (by decide)

theorem of_on_close {t : ClosedTable} (hrun : w.close.on v = (.ok t, v')) :
    t.descriptor = w.descriptor ∧ t.components = Component.all := by
  unfold close at hrun
  rw [Action.on_bind_eq_ok_iff] at hrun
  obtain ⟨o, v₁, -, hrun⟩ := hrun
  rw [Action.on_bind_eq_ok_iff] at hrun
  obtain ⟨index, v₂, -, hrun⟩ := hrun
  rw [Action.on_bind_eq_ok_iff] at hrun
  obtain ⟨u, v₃, -, hpure⟩ := hrun
  cases hpure
  exact ⟨rfl, rfl⟩

theorem tends_finish (htable : ValidTable table) (hd : w.descriptor = numbered dir table g) (h : w.Sits v.disk)
    (age : Nat) : (w.finish age).Within (Tends dir table g) v := by
  refine .bind (tends_close htable hd h) fun t v₁ hclose => ?_
  obtain ⟨hdescriptor, hcomponents⟩ := of_on_close hclose
  unfold ClosedTable.publish
  rw [hcomponents, hdescriptor, hd]
  refine .bind (tends_publish htable (.refl _) v₁) fun _ v₂ _ => .of_looks ?_ _
  exact (Reader.looks_complete _ _).op.bind fun _ =>
    (Reader.looks_complete _ _).op.bind fun _ => Action.looks_pure _

end Writer

/-- A recovery concerns one generation only, and keeps its data. -/
theorem Recovery.tends_recoverAndOpen (htable : ValidTable table)
    (htwin : e.isCurrent = true → e.Twin (numbered dir table g)) {processor : RecoveryProcessor}
    (hconfined : processor.Confined e) (metadata : TableMetadata) (partitioner : Partitioner) (config : Config)
    (age : Nat) (v : Volume) :
    (recoverAndOpen e processor metadata partitioner config age).Within (Tends dir table g) v := by
  obtain ⟨-, heq⟩ | ⟨-, -, heq⟩ | ⟨hcurrent, heq⟩ :=
    recoverAndOpen_cases e processor metadata partitioner config age v
  · rw [Action.Within, heq]
    exact .refl _ _
  · rw [Action.Within, heq]
    exact Action.Within.of_looks (Reader.looks_openTable _ _ _ _ _) _
  specialize htwin hcurrent
  have hd := valid_numbered htable dir g
  have he := htwin.valid hd
  rw [Action.Within, heq]
  refine Action.Within.bind ((within_prepare hconfined v).mono fun disk hdisk => ?_) fun _ v₁ _ => ?_
  · have hplaces : ∀ p, e.Auxiliary p → ∃ c, c ≠ .data ∧ p = (numbered dir table g).place c := by
      rintro p ⟨c, hc, rfl⟩
      refine ⟨c, ?_, by rw [home_pathOf he, htwin.place]⟩
      rintro rfl
      exact absurd hc (by decide)
    refine .of_touches htable (hdisk.mono fun p hp => ?_) fun hnode => ?_
    · obtain ⟨c, -, hp⟩ := hplaces p hp
      exact ⟨c, hp⟩
    · rwa [hdisk.nodes]
      intro hdata
      obtain ⟨c, hc, hp⟩ := hplaces _ hdata
      exact place_ne_place hd hc.symm hp
  · exact .bind (tends_publish htable htwin v₁) fun _ _ _ => .of_looks (Reader.looks_openTable _ _ _ _ _) _

end SortedTable
