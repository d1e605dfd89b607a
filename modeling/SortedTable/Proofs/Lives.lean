import SortedTable.Proofs.Honesty

/-!
# Lives of a table

A table is started, written, dropped, closed, published, recovered and opened, and all that again, in any
order. A filter that one writer leaves behind is taken for that of the next one if there is a recovery before
the next one has made its own. Main statement: `honest_of_life`.
-/

namespace SortedTable

open AppendedRow Recovery Writer

/-- What the caller has of a table. -/
inductive Hand where
  | empty
  | writer (w : Writer)
  | table (t : ClosedTable)

namespace Hand

def Idle : Hand → Prop
  | writer _ => False
  | empty | table _ => True

/-- What the caller has when a writer was to be started. A closed table is let go for the writer. -/
def started (hand : Hand) : Except TableError Writer → Hand
  | .ok w => writer w
  | .error _ => hand

def closed : Except TableError ClosedTable → Hand
  | .ok t => table t
  | .error _ => empty

end Hand

structure Session where
  volume : Volume
  hand : Hand

inductive Source where
  | published
  | recovered
  | opened (temporary : Bool)

/-- Whether a reader is made of what lies under the temporary names. -/
def Source.trusts : Source → Bool
  | published => false
  | recovered => true
  | opened temporary => temporary

/-- The start of a writer, or a call that gives a reader if it succeeds. -/
inductive Event where
  | started (before : Volume)
  | returned (source : Source) (before : Volume) (result : Except TableError Reader) (after : Volume)

namespace Event

def Honest (p : Partitioner) : Event → Prop
  | started _ => True
  | returned _ _ result after => ∀ r, result = .ok r → r.Honest p after

/-- A reader is made of what lies under the temporary names only if that is fair. -/
def Fair (d : Descriptor) : Event → Prop
  | started _ => True
  | returned source before result _ => source.trusts = true → result.isOk = true → before.disk.Fair d

/-- A writer starts where no other one has left a filter. -/
def Clean (d : Descriptor) : Event → Prop
  | started before => before.disk.existsAt (d.pathOf .filter) = false
  | returned _ _ _ _ => True

end Event

/-- One call to the library, and what there is to tell of it. A table is in one hand at a time: it is neither
published nor recovered while a writer is at work on it. -/
inductive Step (d : Descriptor) (p : Partitioner) : Session → List Event → Session → Prop
  | start {v v' : Volume} {hand : Hand} {result : Except TableError Writer} {keyCount : Nat}
      {metadata : TableMetadata} {config : Config} (idle : hand.Idle)
      (run : (Writer.create d keyCount metadata p config).on v = (result, v')) :
      Step d p ⟨v, hand⟩ [.started v] ⟨v', hand.started result⟩
  | append {v v' : Volume} {w w' : Writer} {c : Call} (key : c.row.key = p.decorate c.row.key.key)
      (run : Work.on (w.call c) v = ((.ok (), w'), v')) (room : w'.filePointer < Disk.maxOffset) :
      Step d p ⟨v, .writer w⟩ [] ⟨v', .writer w'⟩
  | drop {v v' : Volume} {w : Writer} (run : Work.on w.drop v = ((), v')) :
      Step d p ⟨v, .writer w⟩ [] ⟨v', .empty⟩
  | close {v v' : Volume} {w : Writer} {result : Except TableError ClosedTable}
      (run : w.close.on v = (result, v')) : Step d p ⟨v, .writer w⟩ [] ⟨v', .closed result⟩
  | discard {v : Volume} {t : ClosedTable} : Step d p ⟨v, .table t⟩ [] ⟨v, .empty⟩
  | publish {v v' : Volume} {t : ClosedTable} {age : Nat} {result : Except TableError Reader}
      (run : (t.publish age).on v = (result, v')) :
      Step d p ⟨v, .table t⟩ [.returned .published v result v'] ⟨v', .empty⟩
  | recover {v v' : Volume} {hand : Hand} {metadata : TableMetadata} {config opening : Config} {age : Nat}
      {result : Except TableError Reader} (idle : hand.Idle)
      (run : (recoverAndOpen d (rebuild p config) metadata p opening age).on v = (result, v')) :
      Step d p ⟨v, hand⟩ [.returned .recovered v result v'] ⟨v', hand⟩
  | openTable {v v' : Volume} {hand : Hand} {temporary : Bool} {metadata : TableMetadata} {config : Config}
      {age : Nat} {result : Except TableError Reader}
      (run : (Reader.openTable (d.asTemporary temporary) metadata p config age).on v = (result, v')) :
      Step d p ⟨v, hand⟩ [.returned (.opened temporary) v result v'] ⟨v', hand⟩

inductive Life (d : Descriptor) (p : Partitioner) (v₀ : Volume) : Session → List Event → Prop
  | begin : Life d p v₀ ⟨v₀, .empty⟩ []
  | step {s s' : Session} {es es' : List Event} (life : Life d p v₀ s es) (step : Step d p s es' s') :
      Life d p v₀ s' (es ++ es')

/-- The directory of a table is there, and neither a file of the table nor anything of such a name. -/
structure Descriptor.Unused (d : Descriptor) (disk : Disk) : Prop where
  opens : disk.Opens d.directory
  temporary : ∀ c, disk.find (d.pathOf c) = .error .notFound
  published : ∀ c, disk.find (d.published.pathOf c) = .error .notFound

/-- A session as the library keeps it. While every writer starts where no filter was left, what lies there
between two calls is fair. -/
inductive Sane (d : Descriptor) (clean : Prop) : Session → Prop
  | empty {v : Volume} {shelf : Shelf} (stands : Stands d v.disk shelf) (fair : clean → shelf.Fair) :
      Sane d clean ⟨v, .empty⟩
  | writer {v : Volume} {w : Writer} {rows : List AppendedRow}
      {left : Option (Filter × Histogram × Histogram)} (works : Works d w v.disk rows left)
      (clear : clean → left = none) : Sane d clean ⟨v, .writer w⟩
  | table {v : Volume} {t : Terms} {w : Writer} {rows : List AppendedRow} {disk : Disk} {shelf : Shelf}
      (descriptor : t.descriptor = d) (wrote : w.Wrote t rows disk) (stands : Stands d v.disk shelf)
      (own : shelf = t.shelf rows ∨ shelf = .bare) : Sane d clean ⟨v, .table w.closed⟩

/-- What some calls in a row have to do with the filters that lie under the names of the table. -/
structure Follows (d : Descriptor) (p : Partitioner) (clean : Prop) (s : Session) (es : List Event)
    (s' : Session) : Prop where
  sane : Sane d (clean ∧ ∀ e ∈ es, e.Clean d) s'
  fair_of_honest : (∀ e ∈ es, e.Honest p) → ∀ e ∈ es, e.Fair d
  honest_of_fair : s.volume.disk.Fair d.published → (∀ e ∈ es, e.Fair d) →
    (∀ e ∈ es, e.Honest p) ∧ s'.volume.disk.Fair d.published
  fair_of_clean : clean → (∀ e ∈ es, e.Clean d) → ∀ e ∈ es, e.Fair d

variable {d : Descriptor} {p : Partitioner} {clean clean' : Prop} {v v' : Volume} {hand : Hand}
  {s s' s'' : Session} {es es' : List Event} {shelf : Shelf}

theorem shelf_left_eq_none (h : Stands d v.disk shelf)
    (hfilter : v.disk.existsAt (d.pathOf .filter) = false) : shelf.left = none := by
  rw [h.files.existsAt h.hosts] at hfilter
  cases shelf with
  | full rows filter statistics => cases hfilter
  | bare => rfl
  | data rows => rfl
  | indexed rows => rfl

namespace Sane

theorem mono (h : Sane d clean s) (himp : clean' → clean) : Sane d clean' s := by
  cases h with
  | empty stands fair => exact .empty stands fun hc => fair (himp hc)
  | writer works clear => exact .writer works fun hc => clear (himp hc)
  | table descriptor wrote stands own => exact .table descriptor wrote stands own

theorem hosts (h : Sane d clean s) : s.volume.disk.Hosts d := by
  cases h with
  | empty stands fair => exact stands.hosts
  | writer works clear => exact works.hosts
  | table descriptor wrote stands own => exact stands.hosts

theorem fair_of_own {t : Terms} {rows : List AppendedRow} (h : shelf = t.shelf rows ∨ shelf = .bare) :
    shelf.Fair := by
  rcases h with rfl | rfl
  · exact t.fair_shelf rows
  · trivial

theorem fair (hd : d.Valid) (h : Sane d clean s) (hclean : clean) : s.volume.disk.Fair d := by
  cases h with
  | empty stands fair => exact (stands.fair_iff hd).mpr (fair hclean)
  | writer works clear =>
      refine Disk.fair_of_missing works.hosts (Or.inr ?_)
      rw [works.filterFile, clear hclean]
      rfl
  | table descriptor wrote stands own => exact (stands.fair_iff hd).mpr (fair_of_own own)

/-- Without a writer at work, the session stays sane whatever a recovery makes of what lies there. -/
theorem idle (h : Sane d clean ⟨v, hand⟩) (hidle : hand.Idle) :
    ∃ shelf, Stands d v.disk shelf ∧ (clean → shelf.Fair) ∧
      ∀ v' shelf', Stands d v'.disk shelf' → shelf'.Fair →
        (shelf' = .bare ∨ shelf.left = none ∧ shelf' = shelf.stripped) → Sane d clean ⟨v', hand⟩ := by
  cases h with
  | empty stands fair =>
      exact ⟨_, stands, fair, fun v' shelf' hstands hfair _ => .empty hstands fun _ => hfair⟩
  | writer works clear => exact absurd hidle id
  | table descriptor wrote stands own =>
      refine ⟨_, stands, fun _ => fair_of_own own, fun v' shelf' hstands _ hshelf => ?_⟩
      refine .table descriptor wrote hstands (Or.inr ?_)
      rcases hshelf with hbare | ⟨hleft, hstripped⟩
      · exact hbare
      · rcases own with rfl | rfl
        · cases hleft
        · exact hstripped

end Sane

namespace Follows

theorem refl (h : Sane d clean s) : Follows d p clean s [] s where
  sane := h.mono And.left
  fair_of_honest := fun _ _ he => absurd he List.not_mem_nil
  honest_of_fair := fun hfair _ => ⟨fun _ he => absurd he List.not_mem_nil, hfair⟩
  fair_of_clean := fun _ _ _ he => absurd he List.not_mem_nil

theorem trans (h : Follows d p clean s es s')
    (h' : Follows d p (clean ∧ ∀ e ∈ es, e.Clean d) s' es' s'') : Follows d p clean s (es ++ es') s'' where
  sane := by
    refine h'.sane.mono ?_
    rintro ⟨hclean, hall⟩
    rw [List.forall_mem_append] at hall
    exact ⟨⟨hclean, hall.1⟩, hall.2⟩
  fair_of_honest := by
    simp only [List.forall_mem_append]
    exact fun hall => ⟨h.fair_of_honest hall.1, h'.fair_of_honest hall.2⟩
  honest_of_fair := by
    simp only [List.forall_mem_append]
    intro hpublished hall
    obtain ⟨hhonest, hbetween⟩ := h.honest_of_fair hpublished hall.1
    obtain ⟨hhonest', hafter⟩ := h'.honest_of_fair hbetween hall.2
    exact ⟨⟨hhonest, hhonest'⟩, hafter⟩
  fair_of_clean := by
    simp only [List.forall_mem_append]
    exact fun hclean hall => ⟨h.fair_of_clean hclean hall.1, h'.fair_of_clean ⟨hclean, hall.1⟩ hall.2⟩

theorem of_sameUnder (hd : d.Valid) (hhosts : s.volume.disk.Hosts d) (hsane : Sane d clean s')
    (hsame : s.volume.disk.SameUnder d.published s'.volume.disk) : Follows d p clean s [] s' where
  sane := hsane.mono And.left
  fair_of_honest := fun _ _ he => absurd he List.not_mem_nil
  honest_of_fair := by
    intro hpublished _
    refine ⟨fun _ he => absurd he List.not_mem_nil, ?_⟩
    exact hpublished.of_sameUnder (hhosts.published hd) (hsane.hosts.published hd) hsame
  fair_of_clean := fun _ _ _ he => absurd he List.not_mem_nil

theorem of_returned {source : Source} {result : Except TableError Reader} (hsane : Sane d clean ⟨v', hand⟩)
    (hfair : source.trusts = true → ∀ r, result = .ok r → r.Honest p v' → v.disk.Fair d)
    (hhonest : v.disk.Fair d.published → (source.trusts = true → result.isOk = true → v.disk.Fair d) →
      (∀ r, result = .ok r → r.Honest p v') ∧ v'.disk.Fair d.published)
    (hclean : clean → source.trusts = true → result.isOk = true → v.disk.Fair d) {hand₀ : Hand} :
    Follows d p clean ⟨v, hand₀⟩ [.returned source v result v'] ⟨v', hand⟩ where
  sane := hsane.mono And.left
  fair_of_honest := by
    simp only [List.forall_mem_singleton]
    intro hall htrusts hok
    rcases result with e | r
    · cases hok
    · exact hfair htrusts r rfl (hall r rfl)
  honest_of_fair := by
    simp only [List.forall_mem_singleton]
    exact hhonest
  fair_of_clean := by
    simp only [List.forall_mem_singleton]
    exact fun hc _ => hclean hc

end Follows

section Calls

variable {w w' : Writer} {metadata : TableMetadata} {config opening : Config} {age : Nat}
  {result : Except TableError Reader}

theorem follows_start (hd : d.Valid) (htemporary : d.temporary = true) (h : Sane d clean ⟨v, hand⟩)
    (hidle : hand.Idle) {keyCount : Nat} {result : Except TableError Writer}
    (hrun : (Writer.create d keyCount metadata p config).on v = (result, v')) :
    Follows d p clean ⟨v, hand⟩ [.started v] ⟨v', hand.started result⟩ := by
  have hsame : v.disk.SameUnder d.published v'.disk ∧
      Sane d (clean ∧ v.disk.existsAt (d.pathOf .filter) = false) ⟨v', hand.started result⟩ := by
    rcases hconfig : config.validate with e | u
    · rw [on_create_invalid hconfig] at hrun
      cases hrun
      exact ⟨fun _ => rfl, h.mono And.left⟩
    · obtain ⟨shelf, hstands, -, -⟩ := h.idle hidle
      obtain ⟨w, v₁, hcreate, hworks, hsame⟩ := hstands.on_create hd htemporary keyCount metadata p hconfig
      rw [hrun] at hcreate
      cases hcreate
      exact ⟨hsame.sameUnder_published hd htemporary, .writer hworks fun hc => shelf_left_eq_none hstands hc.2⟩
  refine ⟨?_, ?_, ?_, ?_⟩
  · simp only [List.forall_mem_singleton]
    exact hsame.2
  · simp only [List.forall_mem_singleton]
    exact fun _ => trivial
  · simp only [List.forall_mem_singleton]
    intro hpublished _
    refine ⟨trivial, ?_⟩
    exact hpublished.of_sameUnder (h.hosts.published hd) (hsame.2.hosts.published hd) hsame.1
  · simp only [List.forall_mem_singleton]
    exact fun _ _ => trivial

theorem follows_append (hd : d.Valid) (htemporary : d.temporary = true) (h : Sane d clean ⟨v, .writer w⟩)
    {c : Call} (hrun : Work.on (w.call c) v = ((.ok (), w'), v')) (hroom : w'.filePointer < Disk.maxOffset) :
    Follows d p clean ⟨v, .writer w⟩ [] ⟨v', .writer w'⟩ := by
  cases h with
  | writer works clear =>
      obtain ⟨hworks, hsame⟩ := works.on_call hd htemporary hrun hroom
      exact .of_sameUnder hd works.hosts (.writer hworks clear) (hsame.sameUnder_published hd htemporary)

theorem follows_drop (hd : d.Valid) (htemporary : d.temporary = true) (h : Sane d clean ⟨v, .writer w⟩)
    (hrun : Work.on w.drop v = ((), v')) : Follows d p clean ⟨v, .writer w⟩ [] ⟨v', .empty⟩ := by
  cases h with
  | writer works clear =>
      obtain ⟨v₁, hdrop, hstands, hsame⟩ := works.on_drop hd htemporary
      rw [hrun] at hdrop
      cases hdrop
      refine .of_sameUnder hd works.hosts (.empty hstands fun hc => ?_)
        (hsame.sameUnder_published hd htemporary)
      rw [clear hc]
      trivial

theorem follows_close (hd : d.Valid) (htemporary : d.temporary = true) (h : Sane d clean ⟨v, .writer w⟩)
    {result : Except TableError ClosedTable} (hrun : w.close.on v = (result, v')) :
    Follows d p clean ⟨v, .writer w⟩ [] ⟨v', .closed result⟩ := by
  cases h with
  | writer works clear =>
      obtain ⟨t, v₁, ht, hwrote, hclose, hstands, hsame⟩ := works.on_close hd htemporary
      rw [hrun] at hclose
      cases hclose
      exact .of_sameUnder hd works.hosts (.table ht hwrote hstands (Or.inl rfl))
        (hsame.sameUnder_published hd htemporary)

theorem follows_discard (hd : d.Valid) {t : ClosedTable} (h : Sane d clean ⟨v, .table t⟩) :
    Follows d p clean ⟨v, .table t⟩ [] ⟨v, .empty⟩ := by
  cases h with
  | table descriptor wrote stands own =>
      exact .of_sameUnder hd stands.hosts (.empty stands fun _ => Sane.fair_of_own own) fun _ => rfl

theorem follows_publish (hd : d.Valid) (htemporary : d.temporary = true) {t : ClosedTable}
    (h : Sane d clean ⟨v, .table t⟩) (hrun : (t.publish age).on v = (result, v')) :
    Follows d p clean ⟨v, .table t⟩ [.returned .published v result v'] ⟨v', .empty⟩ := by
  cases h with
  | table descriptor wrote stands own =>
      rcases own with rfl | rfl
      · obtain ⟨hstands, hfair, hhonest⟩ :=
          stands.honest_of_publish (p := p) hd htemporary descriptor wrote hrun
        refine .of_returned (.empty hstands fun _ => trivial) ?_ (fun _ _ => ⟨hhonest, hfair⟩) ?_
        · exact fun htrusts => Bool.noConfusion htrusts
        · exact fun _ htrusts => Bool.noConfusion htrusts
      · obtain ⟨e, hpublish⟩ := stands.on_publish_bare hd (wrote.descriptor.trans descriptor) age
        rw [hrun] at hpublish
        cases hpublish
        refine .of_returned (.empty stands fun _ => trivial) ?_ (fun hpublished _ => ⟨?_, hpublished⟩) ?_
        · exact fun htrusts => Bool.noConfusion htrusts
        · rintro r ⟨⟩
        · exact fun _ htrusts => Bool.noConfusion htrusts

theorem follows_recover (hd : d.Valid) (htemporary : d.temporary = true) (h : Sane d clean ⟨v, hand⟩)
    (hidle : hand.Idle)
    (hrun : (recoverAndOpen d (rebuild p config) metadata p opening age).on v = (result, v')) :
    Follows d p clean ⟨v, hand⟩ [.returned .recovered v result v'] ⟨v', hand⟩ := by
  have hbefore := h.fair hd
  obtain ⟨shelf, hstands, -, hsane⟩ := h.idle hidle
  cases hstands.on_recover hd htemporary hrun with
  | completed stands honest published =>
      refine .of_returned (hsane v' .bare stands trivial (Or.inl rfl)) ?_ ?_ fun hc _ _ => hbefore hc
      · rintro - r ⟨⟩ hhonest
        exact honest.mp hhonest
      · intro _ hfair
        have hthere := hfair rfl rfl
        refine ⟨?_, published.mpr hthere⟩
        rintro r ⟨⟩
        exact honest.mpr hthere
  | opened bare same honest =>
      subst same
      have hmissing : v'.disk.tree (d.place .data) = none := by
        rw [hstands.files, bare]
        rfl
      have hfair : v'.disk.Fair d := Disk.fair_of_missing hstands.hosts (Or.inl hmissing)
      refine .of_returned h (fun _ _ _ _ => hfair) ?_ fun _ _ _ => hfair
      exact fun hpublished _ => ⟨fun r hr => (honest r hr).mpr hpublished, hpublished⟩
  | failed left stands same =>
      refine .of_returned (hsane v' _ stands shelf.fair_stripped (Or.inr ⟨left, rfl⟩)) ?_ ?_ ?_
      · rintro - r ⟨⟩
      · intro hpublished _
        refine ⟨by rintro r ⟨⟩, ?_⟩
        exact hpublished.of_sameUnder (hstands.hosts.published hd) (stands.hosts.published hd) same
      · exact fun _ _ hok => Bool.noConfusion hok

theorem follows_openTable (hd : d.Valid) (htemporary : d.temporary = true) (h : Sane d clean ⟨v, hand⟩)
    {temporary : Bool}
    (hrun : (Reader.openTable (d.asTemporary temporary) metadata p config age).on v = (result, v')) :
    Follows d p clean ⟨v, hand⟩ [.returned (.opened temporary) v result v'] ⟨v', hand⟩ := by
  have hsame := (Reader.looks_openTable _ _ _ _ _).eq hrun
  subst hsame
  have hbefore := h.fair hd
  have hhonest : ∀ r, result = .ok r → (r.Honest p v' ↔ v'.disk.Fair (d.asTemporary temporary)) := by
    rintro r rfl
    exact (Reader.honest_iff_fair hrun).2
  clear hrun
  have hself : d.asTemporary true = d := by
    rw [← htemporary]
    rfl
  cases temporary with
  | true =>
      rw [hself] at hhonest
      refine .of_returned h (fun _ r hr => (hhonest r hr).mp) ?_ fun hc _ _ => hbefore hc
      intro hpublished hfair
      refine ⟨?_, hpublished⟩
      rintro r rfl
      exact (hhonest r rfl).mpr (hfair rfl rfl)
  | false =>
      refine .of_returned h ?_ ?_ ?_
      · exact fun htrusts => Bool.noConfusion htrusts
      · exact fun hpublished _ => ⟨fun r hr => (hhonest r hr).mpr hpublished, hpublished⟩
      · exact fun _ htrusts => Bool.noConfusion htrusts

end Calls

theorem Sane.step (hd : d.Valid) (htemporary : d.temporary = true) (h : Sane d clean s)
    (hstep : Step d p s es s') : Follows d p clean s es s' := by
  cases hstep with
  | start idle run => exact follows_start hd htemporary h idle run
  | append key run room => exact follows_append hd htemporary h run room
  | drop run => exact follows_drop hd htemporary h run
  | close run => exact follows_close hd htemporary h run
  | discard => exact follows_discard hd h
  | publish run => exact follows_publish hd htemporary h run
  | recover idle run => exact follows_recover hd htemporary h idle run
  | openTable run => exact follows_openTable hd htemporary h run

theorem Life.follows {v₀ : Volume} (hd : d.Valid) (htemporary : d.temporary = true)
    (hstart : Sane d True ⟨v₀, .empty⟩) (h : Life d p v₀ s es) :
    Follows d p True ⟨v₀, .empty⟩ es s := by
  induction h with
  | begin => exact .refl hstart
  | step life step ih => exact ih.trans (ih.sane.step hd htemporary step)

namespace Descriptor.Unused

variable {disk : Disk}

theorem hosts (hd : d.Valid) (h : d.Unused disk) : disk.Hosts d :=
  fun c => Disk.reaches_of_find_eq_notFound (fileName_nameOf hd c) h.opens (h.temporary c)

theorem stands (hd : d.Valid) (h : d.Unused disk) : Stands d disk .bare where
  hosts := h.hosts hd
  free := by
    intro c
    rw [(Disk.find_eq_notFound_iff ((h.hosts hd).published hd c)).mp (h.published c)]
    simp
  files := fun c => (Disk.find_eq_notFound_iff (h.hosts hd c)).mp (h.temporary c)
  sound := trivial

theorem fair_published (hd : d.Valid) (h : d.Unused disk) : disk.Fair d.published :=
  Disk.fair_of_missing ((h.hosts hd).published hd)
    (Or.inl ((Disk.find_eq_notFound_iff ((h.hosts hd).published hd .data)).mp (h.published .data)))

end Descriptor.Unused

/-- All readers of a life are honest exactly if none of them is made of a filter under a temporary name that
denies a key of the rows beside it. It never comes to that where every writer starts without a filter that
another one left. -/
theorem honest_of_life {v₀ : Volume} (hd : d.Valid) (htemporary : d.temporary = true)
    (hunused : d.Unused v₀.disk) (hlife : Life d p v₀ s es) :
    ((∀ e ∈ es, e.Honest p) ↔ ∀ e ∈ es, e.Fair d) ∧
      ((∀ e ∈ es, e.Clean d) → ∀ e ∈ es, e.Honest p) := by
  have hfollows := hlife.follows hd htemporary (.empty (hunused.stands hd) fun _ => trivial)
  have hhonest : (∀ e ∈ es, e.Fair d) → ∀ e ∈ es, e.Honest p :=
    fun hall => (hfollows.honest_of_fair (hunused.fair_published hd) hall).1
  exact ⟨⟨hfollows.fair_of_honest, hhonest⟩, fun hclean => hhonest (hfollows.fair_of_clean trivial hclean)⟩

/-! ### Two lives of a small table

In the first the table is published by its writer. In the second it is recovered, with the filter of a writer before. -/

theorem Terms.valid_users : Terms.users.descriptor.Valid := ⟨by decide, rfl⟩

theorem Terms.unused_users : Terms.users.descriptor.Unused Volume.new.disk where
  opens := ⟨rfl, by decide⟩
  temporary := fun c => (Terms.fresh_users c).1
  published := by
    intro c
    cases c <;> rfl

theorem Works.step_user (hd : d.Valid) (htemporary : d.temporary = true) {w : Writer}
    {left : Option (Filter × Histogram × Histogram)} (h : Works d w v.disk [] left) :
    ∃ w' v', Step d .byteOrdered ⟨v, .writer w⟩ [] ⟨v', .writer w'⟩ ∧
      Works d w' v'.disk [Call.user.row] left := by
  obtain ⟨t, rfl, hwrote⟩ := h.wrote
  have hkey : w.rejection? Call.user.row.key = none := by
    refine rejection?_eq_none_iff.mpr ⟨by decide, by decide, fun last hlast => ?_⟩
    rw [hwrote.lastKey] at hlast
    cases hlast
  obtain ⟨w', v', hrun, hwrote', -⟩ := hwrote.on_call hd hkey (List.cons_ne_nil _ _)
  have hroom : w'.filePointer < Disk.maxOffset := by
    rw [filePointer, hwrote'.dataEnd, length_dataBytes]
    decide
  exact ⟨w', v', .append rfl hrun hroom, (h.on_call hd htemporary hrun hroom).1⟩

theorem honest_of_life_users :
    ∃ v r v' s es, Life Terms.users.descriptor .byteOrdered .new s es ∧
      Event.returned .published v (.ok r) v' ∈ es ∧ r.GivesBack v' [Call.user.row] ∧
        r.Honest .byteOrdered v' := by
  have hd := Terms.valid_users
  have hunused := Terms.unused_users
  have hconfig : Config.default.validate = .ok () := rfl
  obtain ⟨w₀, v₁, hcreate, hworks₁, -⟩ :=
    (hunused.stands hd).on_create hd rfl 1 (.new "ks" "users") .byteOrdered hconfig
  obtain ⟨w, v₂, happend, hworks₂⟩ := hworks₁.step_user hd rfl
  obtain ⟨t, v₃, ht, hwrote, hclose, hstands, -⟩ := hworks₂.on_close hd rfl
  obtain ⟨r, v₄, hpublish, -, -, hserves⟩ := hstands.on_publish hd rfl ht hwrote 0
  have hlife := (((Life.begin.step (.start trivial hcreate)).step happend).step (.close hclose)).step
    (.publish hpublish)
  have hreturned : Event.returned .published v₃ (.ok r) v₄ ∈ [] ++ [.started .new] ++ [] ++ [] ++
      [Event.returned .published v₃ (.ok r) v₄] := List.mem_concat_self
  have hclean : ∀ e ∈ [] ++ [.started .new] ++ [] ++ [] ++ [Event.returned .published v₃ (.ok r) v₄],
      e.Clean Terms.users.descriptor := by
    simp only [List.nil_append, List.append_nil, List.singleton_append, List.forall_mem_cons]
    exact ⟨rfl, trivial, fun e he => absurd he List.not_mem_nil⟩
  have hhonest := (honest_of_life hd rfl hunused hlife).2 hclean
  exact ⟨v₃, r, v₄, _, _, hlife, hreturned,
    hserves.givesBack hd.published hworks₂.keys hworks₂.total, hhonest _ hreturned r rfl⟩

/-- A writer that is closed without a row leaves a filter that denies the row of the next writer. -/
theorem recovered_reader_denies_row :
    ∃ v r v' s es, Life Terms.users.descriptor .byteOrdered .new s es ∧
      Event.returned .recovered v (.ok r) v' ∈ es ∧ ¬ r.Honest .byteOrdered v' := by
  have hd := Terms.valid_users
  have hunused := Terms.unused_users
  have hconfig : Config.default.validate = .ok () := rfl
  obtain ⟨w₀, v₁, hcreate₀, hworks₁, -⟩ :=
    (hunused.stands hd).on_create hd rfl 1 (.new "ks" "users") .byteOrdered hconfig
  obtain ⟨t, v₂, -, -, hclose, hstands₂, -⟩ := hworks₁.on_close hd rfl
  obtain ⟨w, v₃, hcreate, hworks₃, -⟩ :=
    hstands₂.on_create hd rfl 1 (.new "ks" "users") .byteOrdered hconfig
  obtain ⟨w', v₄, happend, hworks₄⟩ := hworks₃.step_user hd rfl
  obtain ⟨v₅, hdrop, hstands₅, -⟩ := hworks₄.on_drop hd rfl
  have hunfair : ¬ v₅.disk.Fair Terms.users.descriptor := by
    rw [hstands₅.fair_iff hd]
    intro hfair
    have hdenied : (t.filter.insertAll []).build.mayContain Call.user.row.key.key = false :=
      FilterBuilder.mayContain_sized _ _ _
    have hadmitted := hfair Call.user.row (List.mem_singleton_self _)
    exact Bool.false_ne_true (hdenied.symm.trans hadmitted)
  rcases hrecover : (recoverAndOpen Terms.users.descriptor (rebuild .byteOrdered .default)
    (.new "ks" "users") .byteOrdered .default 0).on v₅ with ⟨result, v₆⟩
  have hlife := ((((((Life.begin.step (.start trivial hcreate₀)).step (.close hclose)).step .discard).step
    (.start trivial hcreate)).step happend).step (.drop hdrop)).step (.recover trivial hrecover)
  cases hstands₅.on_recover hd rfl hrecover with
  | completed stands honest published =>
      refine ⟨v₅, _, v₆, _, _, hlife, List.mem_concat_self, fun hhonest => ?_⟩
      exact hunfair (honest.mp hhonest)
  | opened bare same honest => cases bare
  | failed left stands same => cases left

end SortedTable
