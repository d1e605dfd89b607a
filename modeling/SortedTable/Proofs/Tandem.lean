import SortedTable.Proofs.Mirrors

/-!
# Work in tandem

Work on one disk and work on another go in tandem if, whenever the disks mirror a zone, they mirror it again
afterwards, nothing outside the zone has changed on the first disk, and what the two give is related. The rules here
put that together along a program, from the file operations up to a writer's: two runs of the same program that
differ only in the numbers of their files go in tandem. Main statements: `Work.Tandem.bind`, `Action.Tandem.bind`,
`Writer.tandem_append`, `Writer.tandem_finish`.
-/

namespace SortedTable

open Disk

variable {α α' β β' γ ε ε' : Type} {z : Zone} {L L' : Link}

def Work.Tandem (z : Zone) (L : Link) (R : Link → α → β → Prop) (m : Work α) (m' : Work β) : Prop :=
  ∀ v w : Volume, z.Mirrors L v.disk w.disk → ∃ L', z.Onward L v.disk L' (Work.on m v).2.disk ∧
    z.Mirrors L' (Work.on m v).2.disk (Work.on m' w).2.disk ∧ R L' (Work.on m v).1 (Work.on m' w).1

namespace Work.Tandem

variable {R : Link → α → β → Prop} {S : Link → α' → β' → Prop} {m n : Work α} {m' n' : Work β}

theorem pure {a : α} {b : β} (h : R L a b) : Work.Tandem z L R (Pure.pure a) (Pure.pure b) :=
  fun v _ hmirrors => ⟨L, .refl z L v.disk, hmirrors, h⟩

theorem bind {f : α → Work α'} {f' : β → Work β'} (h : Work.Tandem z L R m m')
    (hnext : ∀ L' a b, L ≤ L' → R L' a b → Work.Tandem z L' S (f a) (f' b)) :
    Work.Tandem z L S (m >>= f) (m' >>= f') := by
  intro v w hmirrors
  obtain ⟨L₁, honward, hmirrors₁, hresult⟩ := h v w hmirrors
  obtain ⟨L₂, honward', hmirrors₂, hresult'⟩ := hnext L₁ _ _ honward.le hresult _ _ hmirrors₁
  exact ⟨L₂, honward.trans honward', hmirrors₂, hresult'⟩

theorem ite {c : Prop} [Decidable c] (h : c → Work.Tandem z L R m m') (h' : ¬ c → Work.Tandem z L R n n') :
    Work.Tandem z L R (if c then m else n) (if c then m' else n') := by
  by_cases hc : c
  · rw [if_pos hc, if_pos hc]
    exact h hc
  · rw [if_neg hc, if_neg hc]
    exact h' hc

/-- Work that looks at the disk first may rely on what the disks have in common. -/
theorem get {f : Volume → Work α} {f' : Volume → Work β}
    (h : ∀ v w : Volume, z.Mirrors L v.disk w.disk → Work.Tandem z L R (f v) (f' w)) :
    Work.Tandem z L R (MonadState.get >>= f) (MonadState.get >>= f') :=
  fun v w hmirrors => h v w hmirrors v w hmirrors

theorem foldlM {f : α → γ → Work α} {f' : β → γ → Work β} {cs : List γ} {a : α} {b : β} (ha : R L a b)
    (h : ∀ c ∈ cs, ∀ L a b, R L a b → Work.Tandem z L R (f a c) (f' b c)) :
    Work.Tandem z L R (cs.foldlM f a) (cs.foldlM f' b) := by
  induction cs generalizing a b L with
  | nil => exact pure ha
  | cons c rest ih =>
      obtain ⟨hc, hrest⟩ := List.forall_mem_cons.mp h
      rw [List.foldlM_cons, List.foldlM_cons]
      exact (hc L a b ha).bind fun L' a' b' _ ha' => ih ha' hrest

end Work.Tandem

theorem Work.tandem_write {i j : Nat} (hij : L i j) (position : Nat) (bytes : Bytes) :
    Work.Tandem z L (fun _ _ _ => True) (Action.write i position bytes) (Action.write j position bytes) := by
  intro v w hmirrors
  obtain ⟨honward, hmirrors'⟩ := hmirrors.write hij position bytes
  exact ⟨L, honward, hmirrors', trivial⟩

/-- The two actions fail with the same error, or what they give is related. -/
def Action.Tandem (z : Zone) (L : Link) (R : Link → α → β → Prop) (m : Action ε α) (m' : Action ε β) : Prop :=
  Work.Tandem z L (fun L' => Except.Related (R L')) m.run m'.run

namespace Action.Tandem

variable {R : Link → α → β → Prop} {S : Link → α' → β' → Prop} {m n : Action ε α} {m' n' : Action ε β}

theorem of_runs (h : ∀ v w : Volume, z.Mirrors L v.disk w.disk → ∃ L' r r' v' w', m.on v = (r, v') ∧
      m'.on w = (r', w') ∧ z.Onward L v.disk L' v'.disk ∧ z.Mirrors L' v'.disk w'.disk ∧
        Except.Related (R L') r r') : Action.Tandem z L R m m' := by
  intro v w hmirrors
  obtain ⟨L', r, r', v', w', hv, hw, honward, hmirrors', hresult⟩ := h v w hmirrors
  have hrun : Work.on m.run v = (r, v') := hv
  have hrun' : Work.on m'.run w = (r', w') := hw
  rw [hrun, hrun']
  exact ⟨L', honward, hmirrors', hresult⟩

theorem pure {a : α} {b : β} (h : R L a b) : Action.Tandem z L R (Pure.pure a : Action ε α) (Pure.pure b) :=
  Work.Tandem.pure (.ok h)

theorem throw (R : Link → α → β → Prop) (e : ε) :
    Action.Tandem z L R (MonadExcept.throw e : Action ε α) (MonadExcept.throw e) :=
  Work.Tandem.pure (.error e)

theorem bind {f : α → Action ε α'} {f' : β → Action ε β'} (h : Action.Tandem z L R m m')
    (hnext : ∀ L' a b, L ≤ L' → R L' a b → Action.Tandem z L' S (f a) (f' b)) :
    Action.Tandem z L S (m >>= f) (m' >>= f') := by
  change Work.Tandem z L _ (m.run >>= ExceptT.bindCont f) (m'.run >>= ExceptT.bindCont f')
  refine Work.Tandem.bind h fun L' result result' hle hresult => ?_
  cases hresult with
  | error e => exact Work.Tandem.pure (.error e)
  | ok hab => exact hnext L' _ _ hle hab

theorem mapError (h : Action.Tandem z L R m m') (f : ε → ε') :
    Action.Tandem z L R (m.mapError f) (m'.mapError f) := by
  change Work.Tandem z L _ (m.run >>= fun result => Pure.pure (result.mapError f))
    (m'.run >>= fun result => Pure.pure (result.mapError f))
  refine Work.Tandem.bind h fun L' result result' _ hresult => ?_
  cases hresult with
  | error e => exact Work.Tandem.pure (.error (f e))
  | ok hab => exact Work.Tandem.pure (.ok hab)

theorem op {m : Action DiskError α} {m' : Action DiskError β} (h : Action.Tandem z L R m m') :
    Action.Tandem z L R m.op m'.op :=
  (h.mapError _).mapError _

theorem lift {m : Work α} {m' : Work β} (h : Work.Tandem z L R m m') :
    Action.Tandem z L R (liftM m : Action ε α) (liftM m') :=
  Work.Tandem.bind h fun _ _ _ _ hab => Work.Tandem.pure (.ok hab)

theorem tryCatch {handle : ε → Action ε α} {handle' : ε → Action ε β} (h : Action.Tandem z L R m m')
    (hhandle : ∀ L' e, L ≤ L' → Action.Tandem z L' R (handle e) (handle' e)) :
    Action.Tandem z L R (MonadExcept.tryCatch m handle) (MonadExcept.tryCatch m' handle') := by
  refine of_runs fun v w hmirrors => ?_
  obtain ⟨L₁, honward, hmirrors₁, hresult⟩ := h v w hmirrors
  rcases hresult.elim with ⟨e, hv, hw⟩ | ⟨a, b, hv, hw, hab⟩
  · obtain ⟨L₂, honward', hmirrors₂, hresult'⟩ := hhandle L₁ e honward.le _ _ hmirrors₁
    exact ⟨L₂, _, _, _, _, on_tryCatch_error (Prod.ext hv rfl), on_tryCatch_error (Prod.ext hw rfl),
      honward.trans honward', hmirrors₂, hresult'⟩
  · exact ⟨L₁, _, _, _, _, on_tryCatch_ok (Prod.ext hv rfl), on_tryCatch_ok (Prod.ext hw rfl), honward, hmirrors₁,
      .ok hab⟩

theorem ite {c : Prop} [Decidable c] (h : c → Action.Tandem z L R m m') (h' : ¬ c → Action.Tandem z L R n n') :
    Action.Tandem z L R (if c then m else n) (if c then m' else n') := by
  by_cases hc : c
  · rw [if_pos hc, if_pos hc]
    exact h hc
  · rw [if_neg hc, if_neg hc]
    exact h' hc

theorem foldlM {f : α → γ → Action ε α} {f' : β → γ → Action ε β} {cs : List γ} {a : α} {b : β} (ha : R L a b)
    (h : ∀ c ∈ cs, ∀ L a b, R L a b → Action.Tandem z L R (f a c) (f' b c)) :
    Action.Tandem z L R (cs.foldlM f a) (cs.foldlM f' b) := by
  induction cs generalizing a b L with
  | nil => exact pure ha
  | cons c rest ih =>
      obtain ⟨hc, hrest⟩ := List.forall_mem_cons.mp h
      rw [List.foldlM_cons, List.foldlM_cons]
      exact (hc L a b ha).bind fun L' a' b' _ ha' => ih ha' hrest

/-- Two ways that an action can go before it goes on with what has come of them. -/
theorem ite_bind {c : Prop} [Decidable c] {f : α → Action ε α'} {f' : β → Action ε β'}
    (h : c → Action.Tandem z L R m m') (h' : ¬ c → Action.Tandem z L R n n')
    (hnext : ∀ L' a b, L ≤ L' → R L' a b → Action.Tandem z L' S (f a) (f' b)) :
    Action.Tandem z L S (if c then m >>= f else n >>= f) (if c then m' >>= f' else n' >>= f') :=
  ite (fun hc => (h hc).bind hnext) fun hc => (h' hc).bind hnext

theorem get {f : Volume → Action ε α} {f' : Volume → Action ε β}
    (h : ∀ v w : Volume, z.Mirrors L v.disk w.disk → Action.Tandem z L R (f v) (f' w)) :
    Action.Tandem z L R (MonadState.get >>= f) (MonadState.get >>= f') :=
  fun v w hmirrors => h v w hmirrors v w hmirrors

theorem forIn {f f' : γ → PUnit → Action ε (ForInStep PUnit)} {cs : List γ}
    (h : ∀ c ∈ cs, ∀ L', L ≤ L' → Action.Tandem z L' (fun _ => (· = ·)) (f c PUnit.unit) (f' c PUnit.unit)) :
    Action.Tandem z L (fun _ _ _ => True) (ForIn.forIn cs PUnit.unit f) (ForIn.forIn cs PUnit.unit f') := by
  induction cs generalizing L with
  | nil => exact pure trivial
  | cons c rest ih =>
      obtain ⟨hc, hrest⟩ := List.forall_mem_cons.mp h
      rw [List.forIn_cons, List.forIn_cons]
      refine (hc L le_rfl).bind fun L' step step' hle hstep => ?_
      subst hstep
      cases step with
      | done u => exact pure trivial
      | yield u => exact ih fun c' hc' L'' hle' => hrest c' hc' L'' (hle.trans hle')

theorem ofExcept (x : Except ε α) :
    Action.Tandem z L (fun _ => (· = ·)) (MonadExcept.ofExcept x : Action ε α) (MonadExcept.ofExcept x) := by
  cases x with
  | error e => exact throw _ e
  | ok a => exact pure rfl

end Action.Tandem

namespace Action

variable {path source target : Path} {R : Link → α → β → Prop}

theorem tandem_look {f : Disk → Except DiskError α} {f' : Disk → Except DiskError β}
    (h : ∀ d e, z.Mirrors L d e → Except.Related (R L) (f d) (f' e)) :
    Action.Tandem z L R (Action.look f) (Action.look f') :=
  .of_runs fun v w hmirrors =>
    ⟨L, _, _, _, _, on_look f v, on_look f' w, .refl z L v.disk, hmirrors, h _ _ hmirrors⟩

theorem tandem_change {f : Disk → Except DiskError (α × Disk)} {f' : Disk → Except DiskError (β × Disk)}
    (h : ∀ d e, z.Mirrors L d e → Except.Related (fun made made' => ∃ L', z.Onward L d L' made.2 ∧
      z.Mirrors L' made.2 made'.2 ∧ R L' made.1 made'.1) (f d) (f' e)) :
    Action.Tandem z L R (Action.change f) (Action.change f') := by
  refine .of_runs fun v w hmirrors => ?_
  rcases (h _ _ hmirrors).elim with ⟨e, hv, hw⟩ | ⟨⟨a, d⟩, ⟨b, d'⟩, hv, hw, L', honward, hmirrors', hresult⟩
  · exact ⟨L, _, _, _, _, on_change_error hv, on_change_error hw, .refl z L v.disk, hmirrors, .error e⟩
  · exact ⟨L', _, _, _, _, on_change_ok hv, on_change_ok hw, honward, hmirrors', .ok hresult⟩

theorem tandem_change_ {f f' : Disk → Except DiskError Disk}
    (h : ∀ d e, z.Mirrors L d e → Except.Related (fun d' e' => z.Onward L d L d' ∧ z.Mirrors L d' e') (f d) (f' e)) :
    Action.Tandem z L (fun _ _ _ => True) (Action.change_ f) (Action.change_ f') := by
  refine tandem_change fun d e hmirrors => ?_
  rcases (h d e hmirrors).elim with ⟨error, hd, he⟩ | ⟨d', e', hd, he, honward, hmirrors'⟩
  · rw [hd, he]
    exact .error error
  · rw [hd, he]
    exact .ok ⟨L, honward, hmirrors', trivial⟩

theorem tandem_find (hpath : z.Covers path) :
    Action.Tandem z L Node.Linked (Action.find path) (Action.find path) :=
  tandem_look fun _ _ hmirrors => hmirrors.find hpath

theorem tandem_contents {n n' : Node} (hnode : n.Linked L n') :
    Action.Tandem z L (fun _ => (· = ·)) (Action.contents n) (Action.contents n') :=
  tandem_look fun _ _ hmirrors => .of_eq (hmirrors.contents hnode)

theorem tandem_create (hpath : z.Covers path) :
    Action.Tandem z L (fun L' => L') (Action.create path) (Action.create path) :=
  tandem_change fun _ _ hmirrors => hmirrors.create hpath

theorem tandem_remove (hpath : z.Covers path) :
    Action.Tandem z L (fun _ _ _ => True) (Action.remove path) (Action.remove path) :=
  tandem_change_ fun _ _ hmirrors => hmirrors.remove hpath

theorem tandem_rename (hsource : z.Covers source) (htarget : z.Covers target) :
    Action.Tandem z L (fun _ _ _ => True) (Action.rename source target) (Action.rename source target) :=
  tandem_change_ fun _ _ hmirrors => hmirrors.rename hsource htarget

theorem tandem_writeFile (hpath : z.Covers path) (bytes : Bytes) :
    Action.Tandem z L (fun _ _ _ => True) (Action.writeFile path bytes) (Action.writeFile path bytes) :=
  (tandem_create hpath).bind fun _ _ _ _ hij => .lift (Work.tandem_write hij 0 bytes)

end Action

namespace Output

/-- The same buffer in front of the same file. -/
def Linked (L : Link) (o o' : Output) : Prop := ∃ j, L o.file j ∧ o' = { o with file := j }

variable {o o' : Output}

theorem Linked.mono (h : o.Linked L o') (hle : L ≤ L') : o.Linked L' o' := by
  obtain ⟨j, hfile, rfl⟩ := h
  exact ⟨j, hle _ _ hfile, rfl⟩

theorem tandem_create {path : Path} (hpath : z.Covers path) (capacity : Nat) :
    Action.Tandem z L Linked (Output.create path capacity) (Output.create path capacity) :=
  (Action.tandem_create hpath).bind fun _ _ _ _ hfile => .pure ⟨_, hfile, rfl⟩

theorem tandem_flush (h : o.Linked L o') : Work.Tandem z L Linked o.flush o'.flush := by
  obtain ⟨j, hfile, rfl⟩ := h
  refine .ite (fun _ => .pure ⟨j, hfile, rfl⟩) fun _ => ?_
  exact (Work.tandem_write hfile _ _).bind fun L' _ _ hle _ => .pure ⟨j, hle _ _ hfile, rfl⟩

theorem tandem_writeThrough (h : o.Linked L o') (bytes : Bytes) :
    Work.Tandem z L Linked (o.writeThrough bytes) (o'.writeThrough bytes) := by
  obtain ⟨j, hfile, rfl⟩ := h
  exact (Work.tandem_write hfile _ _).bind fun L' _ _ hle _ => .pure ⟨j, hle _ _ hfile, rfl⟩

theorem Linked.buffer (h : o.Linked L o') (bytes : Bytes) :
    Linked L { o with pending := o.pending.append bytes } { o' with pending := o'.pending.append bytes } := by
  obtain ⟨j, hfile, rfl⟩ := h
  exact ⟨j, hfile, rfl⟩

theorem tandem_writeLast (h : o.Linked L o') (bytes : Bytes) :
    Work.Tandem z L Linked
      (if o.capacity ≤ bytes.length then o.writeThrough bytes else pure { o with pending := o.pending.append bytes })
      (if o'.capacity ≤ bytes.length then o'.writeThrough bytes
        else pure { o' with pending := o'.pending.append bytes }) := by
  obtain ⟨j, hfile, rfl⟩ := h
  exact .ite (fun _ => tandem_writeThrough ⟨j, hfile, rfl⟩ bytes) fun _ => .pure ⟨j, hfile, rfl⟩

theorem tandem_write (h : o.Linked L o') (bytes : Bytes) :
    Work.Tandem z L Linked (o.write bytes) (o'.write bytes) := by
  have hroom : o'.room = o.room := by
    obtain ⟨j, -, rfl⟩ := h
    rfl
  unfold write
  rw [hroom]
  refine .ite (fun _ => .pure h) fun _ => .ite (fun _ => .pure (h.buffer bytes)) fun _ => ?_
  refine .ite (fun _ => ?_) fun _ => ?_
  · exact (tandem_flush h).bind fun L' a b _ hab => tandem_writeLast hab bytes
  · exact tandem_writeLast h bytes

theorem tandem_writePieces (h : o.Linked L o') (pieces : List Bytes) :
    Work.Tandem z L Linked (o.writePieces pieces) (o'.writePieces pieces) :=
  .foldlM h fun piece _ _ _ _ hab => tandem_write hab piece

theorem tandem_seek (h : o.Linked L o') (position : Nat) :
    Work.Tandem z L Linked (o.seek position) (o'.seek position) := by
  refine (tandem_flush h).bind fun L' a b _ hab => .pure ?_
  obtain ⟨j, hfile, rfl⟩ := hab
  exact ⟨j, hfile, rfl⟩

theorem Linked.position (h : o.Linked L o') : o'.position = o.position := by
  obtain ⟨j, -, rfl⟩ := h
  rfl

end Output

namespace IndexWriter

/-- The same state of an index of the zone, up to the number of its file. -/
structure Linked (z : Zone) (L : Link) (w w' : IndexWriter) : Prop where
  owns : z.Owns w.descriptor
  eq : ∃ output, w.output.Linked L output ∧ w' = { w with output }

variable {w w' : IndexWriter} {d : Descriptor}

theorem Linked.mono (h : w.Linked z L w') (hle : L ≤ L') : w.Linked z L' w' := by
  obtain ⟨output, houtput, hw'⟩ := h.eq
  exact ⟨h.owns, output, houtput.mono hle, hw'⟩

theorem tandem_create (hd : z.Owns d) (keyCount : Nat) (config : Config) :
    Action.Tandem z L (Linked z) (IndexWriter.create d keyCount config) (IndexWriter.create d keyCount config) :=
  (Output.tandem_create (Zone.covers_pathOf hd _) _).op.bind fun _ _ _ _ houtput => .pure ⟨hd, _, houtput, rfl⟩

theorem tandem_add (h : w.Linked z L w') (key : DecoratedKey) (position : Nat) :
    Work.Tandem z L (Linked z) (w.add key position) (w'.add key position) := by
  obtain ⟨hd, output, houtput, rfl⟩ := h
  refine (Output.tandem_writePieces houtput _).bind fun L' a b _ hab => .pure ⟨hd, b, hab, ?_⟩
  dsimp only
  rw [houtput.position]

theorem tandem_drop (h : w.Linked z L w') : Work.Tandem z L (fun _ _ _ => True) w.drop w'.drop := by
  obtain ⟨hd, output, houtput, rfl⟩ := h
  exact (Output.tandem_flush houtput).bind fun _ _ _ _ _ => .pure trivial

theorem tandem_close (h : w.Linked z L w') : Action.Tandem z L (fun _ => (· = ·)) w.close w'.close := by
  obtain ⟨hd, output, houtput, rfl⟩ := h
  refine (Action.Tandem.lift (Output.tandem_flush houtput)).bind fun L' _ _ _ _ => ?_
  exact (Action.tandem_writeFile (Zone.covers_pathOf hd _) _).op.bind fun _ _ _ _ _ => .pure rfl

end IndexWriter

namespace Segment

def Linked (L : Link) (s s' : Segment) : Prop := ∃ map, Option.Rel L s.map map ∧ s' = { s with map }

theorem Linked.mono {s s' : Segment} (h : s.Linked L s') (hle : L ≤ L') : s.Linked L' s' := by
  obtain ⟨map, hmap, rfl⟩ := h
  exact ⟨map, Option.Rel.mono hle hmap, rfl⟩

end Segment

namespace SegmentedFile

/-- The same segments of the same file, up to the number that its maps know it by. -/
def Linked (L : Link) (f f' : SegmentedFile) : Prop :=
  ∃ segments, List.Forall₂ (Segment.Linked L) f.segments segments ∧ f' = { f with segments }

theorem Linked.mono {f f' : SegmentedFile} (h : f.Linked L f') (hle : L ≤ L') : f.Linked L' f' := by
  obtain ⟨segments, hsegments, rfl⟩ := h
  exact ⟨segments, hsegments.imp fun _ _ hs => hs.mono hle, rfl⟩

end SegmentedFile

namespace SegmentBuilder

theorem related_segmentsOf (b : SegmentBuilder) {n n' : Node} (hnode : n.Linked L n') (length : Nat) :
    Except.Related (List.Forall₂ (Segment.Linked L)) (b.segmentsOf n length) (b.segmentsOf n' length) := by
  unfold segmentsOf
  generalize cut length (b.starts length) = pieces
  induction pieces with
  | nil => exact .ok .nil
  | cons piece rest ih =>
      rw [List.mapM_cons, List.mapM_cons]
      obtain ⟨start, size⟩ := piece
      refine Except.Related.bind (R := Segment.Linked L) (.ite Iff.rfl (fun _ => ?_) fun _ => .ok ⟨_, .none, rfl⟩)
        fun s s' hs => ih.bind fun ss ss' hss => .ok (.cons hs hss)
      cases hnode with
      | directory => exact .error _
      | file hij => exact .ok ⟨_, .some hij, rfl⟩

theorem tandem_complete (b : SegmentBuilder) {path : Path} (hpath : z.Covers path) :
    Action.Tandem z L SegmentedFile.Linked (b.complete path) (b.complete path) := by
  refine (Action.tandem_find hpath).bind fun L' n n' _ hnode => Action.tandem_look fun d e hmirrors => ?_
  dsimp only
  rw [hmirrors.length hnode]
  exact (b.related_segmentsOf hnode _).bind fun segments segments' hsegments => .ok ⟨segments', hsegments, rfl⟩

end SegmentBuilder

namespace Descriptor

variable {d : Descriptor}

theorem tandem_renameComponent (hd : z.Owns d) (c : Component) :
    Action.Tandem z L (fun _ _ _ => True) (d.renameComponent c) (d.renameComponent c) :=
  (Action.tandem_rename (Zone.covers_pathOf hd c) (Zone.covers_pathOf hd.published c)).mapError _

theorem tandem_publish (hd : z.Owns d) (components : List Component) :
    Action.Tandem z L (fun _ a b => a = b ∧ z.Owns a) (d.publish components) (d.publish components) := by
  refine (Action.Tandem.forIn fun c _ L' _ => ?_).bind fun _ _ _ _ _ => .pure ⟨rfl, hd.published⟩
  exact (tandem_renameComponent hd c).bind fun _ _ _ _ _ => .pure rfl

theorem tandem_writeStatistics (hd : z.Owns d) (rowSizes columnCounts : Histogram) :
    Action.Tandem z L (fun _ _ _ => True) (writeStatistics d rowSizes columnCounts)
      (writeStatistics d rowSizes columnCounts) :=
  (Action.tandem_writeFile (Zone.covers_pathOf hd _) _).op

end Descriptor

/-- The same reader of a table of the zone, up to the numbers of its files. -/
structure Reader.Linked (z : Zone) (L : Link) (r r' : Reader) : Prop where
  owns : z.Owns r.descriptor
  eq : ∃ index data, r.index.Linked L index ∧ r.data.Linked L data ∧ r' = { r with index, data }

theorem Reader.Linked.mono {r r' : Reader} (h : r.Linked z L r') (hle : L ≤ L') : r.Linked z L' r' := by
  obtain ⟨index, data, hindex, hdata, hr'⟩ := h.eq
  exact ⟨h.owns, index, data, hindex.mono hle, hdata.mono hle, hr'⟩

theorem ClosedTable.tandem_publish {t : ClosedTable} (ht : z.Owns t.descriptor) (age : Nat) :
    Action.Tandem z L (Reader.Linked z) (t.publish age) (t.publish age) := by
  refine (Descriptor.tandem_publish ht _).bind fun L₁ d d' _ hd => ?_
  obtain ⟨rfl, hd⟩ := hd
  refine (SegmentBuilder.tandem_complete _ (Zone.covers_pathOf hd _)).op.bind fun L₂ index index' _ hindex => ?_
  refine (SegmentBuilder.tandem_complete _ (Zone.covers_pathOf hd _)).op.bind fun L₃ data data' hle hdata => .pure ?_
  exact ⟨hd, index', data', hindex.mono hle, hdata, rfl⟩

namespace Writer

/-- The same state of a writer of the zone, up to the numbers of its files. -/
structure Linked (z : Zone) (L : Link) (w w' : Writer) : Prop where
  owns : z.Owns w.descriptor
  eq : ∃ index data, w.index.Linked z L index ∧ w.data.Linked L data ∧ w' = { w with index, data }

variable {w w' : Writer} {d : Descriptor}

theorem Linked.mono (h : w.Linked z L w') (hle : L ≤ L') : w.Linked z L' w' := by
  obtain ⟨index, data, hindex, hdata, hw'⟩ := h.eq
  exact ⟨h.owns, index, data, hindex.mono hle, hdata.mono hle, hw'⟩

theorem tandem_create (hd : z.Owns d) (keyCount : Nat) (metadata : TableMetadata) (partitioner : Partitioner)
    (config : Config) : Action.Tandem z L (Linked z) (Writer.create d keyCount metadata partitioner config)
      (Writer.create d keyCount metadata partitioner config) := by
  unfold Writer.create
  rcases config.validate with e | u
  · exact .throw _ _
  refine .ite (fun _ => ?_) fun _ => .throw _ _
  refine (IndexWriter.tandem_create hd keyCount config).bind fun L₁ index index' _ hindex => ?_
  refine (Output.tandem_create (Zone.covers_pathOf hd _) _).op.bind fun L₂ data data' hle hdata => .pure ?_
  exact ⟨hd, index', data', hindex.mono hle, hdata, rfl⟩

theorem tandem_indexRow (h : w.Linked z L w') (key : DecoratedKey) (start : Nat) (columnCount : Option Nat) :
    Work.Tandem z L (Linked z) (w.indexRow key start columnCount) (w'.indexRow key start columnCount) := by
  obtain ⟨hd, index, data, hindex, hdata, rfl⟩ := h
  refine (IndexWriter.tandem_add hindex key start).bind fun L' index' index'' hle hindex' => .pure ?_
  refine ⟨hd, index'', data, hindex', hdata.mono hle, ?_⟩
  dsimp only
  rw [hdata.position]

theorem Linked.with_data (h : w.Linked z L w') (hle : L ≤ L') {data data' : Output} (hdata : data.Linked L' data') :
    Linked z L' { w with data } { w' with data := data' } := by
  obtain ⟨hd, index, old, hindex, -, rfl⟩ := h
  exact ⟨hd, index, data', hindex.mono hle, hdata, rfl⟩

/-- A row is accepted or refused in both tables alike. -/
theorem tandem_append (h : w.Linked z L w') (key : DecoratedKey) (row : Encoding) :
    Work.Tandem z L (fun L' r r' => r.1 = r'.1 ∧ r.2.Linked z L' r'.2) (w.append key row) (w'.append key row) := by
  have hrejection : w'.rejection? key = w.rejection? key := by
    obtain ⟨-, index, data, -, -, rfl⟩ := h
    rfl
  have hpointer : w'.filePointer = w.filePointer := by
    obtain ⟨-, index, data, -, hdata, rfl⟩ := h
    exact hdata.position
  have hwriteKey : Work.Tandem z L Output.Linked (w.writeKey key) (w'.writeKey key) := by
    obtain ⟨-, index, data, -, hdata, rfl⟩ := h
    exact Output.tandem_writePieces hdata _
  unfold append
  rw [hrejection, hpointer]
  rcases w.rejection? key with - | e
  · refine hwriteKey.bind fun L₁ key key' hle₁ hkey => ?_
    rw [hkey.position]
    refine (Output.tandem_write hkey _).bind fun L₂ size size' hle₂ hsize => ?_
    refine (Output.tandem_writePieces hsize _).bind fun L₃ body body' hle₃ hbody => ?_
    rcases row.outcome with e | columnCount
    · exact .pure ⟨rfl, h.with_data (hle₁.trans (hle₂.trans hle₃)) hbody⟩
    · dsimp only
      rw [hbody.position]
      refine (Output.tandem_seek hbody _).bind fun L₄ back back' hle₄ hback => ?_
      refine (Output.tandem_write hback _).bind fun L₅ patched patched' hle₅ hpatched => ?_
      refine (Output.tandem_seek hpatched _).bind fun L₆ data data' hle₆ hdata => ?_
      have hle := hle₁.trans (hle₂.trans (hle₃.trans (hle₄.trans (hle₅.trans hle₆))))
      refine (tandem_indexRow (h.with_data hle hdata) _ _ _).bind fun L₇ w w' _ hw => .pure ⟨rfl, hw⟩
  · exact .pure ⟨rfl, h⟩

theorem tandem_drop (h : w.Linked z L w') : Work.Tandem z L (fun _ _ _ => True) w.drop w'.drop := by
  obtain ⟨hd, index, data, hindex, hdata, rfl⟩ := h
  refine (IndexWriter.tandem_drop hindex).bind fun L' _ _ hle _ => ?_
  exact (Output.tandem_flush (hdata.mono hle)).bind fun _ _ _ _ _ => .pure trivial

theorem tandem_close (h : w.Linked z L w') :
    Action.Tandem z L (fun _ t t' => t = t' ∧ z.Owns t.descriptor) w.close w'.close := by
  obtain ⟨hd, index, data, hindex, hdata, rfl⟩ := h
  refine (Action.Tandem.lift (Output.tandem_flush hdata)).bind fun L₁ _ _ hle _ => ?_
  refine (IndexWriter.tandem_close (hindex.mono hle)).bind fun L₂ closed closed' _ hclosed => ?_
  subst hclosed
  exact (Descriptor.tandem_writeStatistics hd _ _).bind fun _ _ _ _ _ => .pure ⟨rfl, hd⟩

theorem tandem_finish (h : w.Linked z L w') (age : Nat) :
    Action.Tandem z L (Reader.Linked z) (w.finish age) (w'.finish age) := by
  refine (tandem_close h).bind fun L' t t' _ ht => ?_
  obtain ⟨rfl, ht⟩ := ht
  exact ClosedTable.tandem_publish ht age

end Writer

end SortedTable
