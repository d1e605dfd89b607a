import SortedTable.Disk.Action

namespace SortedTable

variable {α β ε ε' : Type}

def Work.on (work : Work α) (v : Volume) : α × Volume := work.run v

def Action.on (action : Action ε α) (v : Volume) : Except ε α × Volume := action.run.run v

@[simp]
theorem Volume.disk_step (v : Volume) (disk : Disk) : (v.step disk).disk = disk := rfl

namespace Work

theorem on_pure (a : α) (v : Volume) : Work.on (pure a) v = (a, v) := rfl

theorem on_bind (work : Work α) (next : α → Work β) (v : Volume) :
    Work.on (work >>= next) v = Work.on (next (Work.on work v).1) (Work.on work v).2 := rfl

theorem on_bind_of {work : Work α} {next : α → Work β} {v v' : Volume} {a : α}
    (h : Work.on work v = (a, v')) : Work.on (work >>= next) v = Work.on (next a) v' := by
  rw [on_bind, h]

end Work

namespace Action

theorem on_pure (a : α) (v : Volume) : Action.on (pure a : Action ε α) v = (.ok a, v) := rfl

theorem on_throw (e : ε) (v : Volume) : Action.on (throw e : Action ε α) v = (.error e, v) := rfl

theorem on_bind_ok {action : Action ε α} {next : α → Action ε β} {v v' : Volume} {a : α}
    (h : action.on v = (.ok a, v')) : Action.on (action >>= next) v = Action.on (next a) v' := by
  have hrun : action v = (.ok a, v') := h
  change ExceptT.bindCont next (action v).1 (action v).2 = _
  rw [hrun]
  rfl

theorem on_bind_error {action : Action ε α} {next : α → Action ε β} {v v' : Volume} {e : ε}
    (h : action.on v = (.error e, v')) : Action.on (action >>= next) v = (.error e, v') := by
  have hrun : action v = (.error e, v') := h
  change ExceptT.bindCont next (action v).1 (action v).2 = _
  rw [hrun]
  rfl

theorem on_bind_eq_ok_iff {action : Action ε α} {next : α → Action ε β} {v v'' : Volume} {b : β} :
    Action.on (action >>= next) v = (.ok b, v'') ↔
      ∃ a v', action.on v = (.ok a, v') ∧ Action.on (next a) v' = (.ok b, v'') := by
  constructor
  · intro h
    rcases hfirst : action.on v with ⟨result, v'⟩
    cases result with
    | error e =>
        rw [on_bind_error hfirst] at h
        simp at h
    | ok a =>
        rw [on_bind_ok hfirst] at h
        exact ⟨a, v', rfl, h⟩
  · rintro ⟨a, v', hfirst, hnext⟩
    rw [on_bind_ok hfirst, hnext]

theorem on_bind_congr {action action' : Action ε α} {v v' : Volume} (h : action.on v = action'.on v')
    (next : α → Action ε β) : Action.on (action >>= next) v = Action.on (action' >>= next) v' := by
  rcases hfirst : action.on v with ⟨e | a, v₁⟩
  · rw [on_bind_error hfirst, on_bind_error (h ▸ hfirst)]
  · rw [on_bind_ok hfirst, on_bind_ok (h ▸ hfirst)]

theorem on_bind_eq_error {action : Action ε α} {next : α → Action ε β} {v v'' : Volume} {e : ε}
    (h : Action.on (action >>= next) v = (.error e, v'')) :
    action.on v = (.error e, v'') ∨
      ∃ a v', action.on v = (.ok a, v') ∧ Action.on (next a) v' = (.error e, v'') := by
  rcases hfirst : action.on v with ⟨result, v'⟩
  cases result with
  | error x =>
      rw [on_bind_error hfirst] at h
      cases h
      exact .inl rfl
  | ok a =>
      rw [on_bind_ok hfirst] at h
      exact .inr ⟨a, v', rfl, h⟩

theorem on_mapError (f : ε → ε') (action : Action ε α) (v : Volume) :
    (action.mapError f).on v = ((action.on v).1.mapError f, (action.on v).2) := rfl

theorem on_mapError_eq_ok_iff {f : ε → ε'} {action : Action ε α} {v v' : Volume} {a : α} :
    (action.mapError f).on v = (.ok a, v') ↔ action.on v = (.ok a, v') := by
  rw [on_mapError]
  rcases action.on v with ⟨result, v''⟩
  cases result with
  | error e =>
      change (Except.error (f e), v'') = (.ok a, v') ↔ _
      simp
  | ok b =>
      change (Except.ok b, v'') = (.ok a, v') ↔ _
      simp

theorem on_op_eq_ok_iff {action : Action DiskError α} {v v' : Volume} {a : α} :
    action.op.on v = (.ok a, v') ↔ action.on v = (.ok a, v') := by
  rw [op, table, on_mapError_eq_ok_iff, io, on_mapError_eq_ok_iff]

theorem on_op_eq_error {action : Action DiskError α} {v v' : Volume} {e : TableError}
    (h : action.op.on v = (.error e, v')) : ∃ x, e = .io (.disk x) := by
  rw [op, table, on_mapError, io, on_mapError] at h
  rcases hresult : (action.on v).1 with x | a
  · rw [hresult] at h
    cases h
    exact ⟨x, rfl⟩
  · rw [hresult] at h
    cases h

theorem on_io_eq_ok_iff {action : Action DiskError α} {v v' : Volume} {a : α} :
    action.io.on v = (.ok a, v') ↔ action.on v = (.ok a, v') :=
  on_mapError_eq_ok_iff

theorem on_get (v : Volume) : Action.on (get : Action ε Volume) v = (.ok v, v) := rfl

theorem on_lift (work : Work α) (v : Volume) :
    Action.on (liftM work : Action ε α) v = (.ok (Work.on work v).1, (Work.on work v).2) := rfl

theorem on_lift_of {work : Work α} {v v' : Volume} {a : α} (h : Work.on work v = (a, v')) :
    Action.on (liftM work : Action ε α) v = (.ok a, v') := by
  rw [on_lift, h]

theorem on_tryCatch_ok {action : Action ε α} {handle : ε → Action ε α} {v v' : Volume} {a : α}
    (h : action.on v = (.ok a, v')) : Action.on (tryCatch action handle) v = (.ok a, v') := by
  have hrun : action v = (.ok a, v') := h
  simp only [Action.on, ExceptT.run, tryCatch, tryCatchThe, MonadExceptOf.tryCatch, ExceptT.tryCatch,
    ExceptT.mk, StateT.run, bind, StateT.bind, hrun]
  rfl

theorem on_tryCatch_error {action : Action ε α} {handle : ε → Action ε α} {v v' : Volume} {e : ε}
    (h : action.on v = (.error e, v')) :
    Action.on (tryCatch action handle) v = Action.on (handle e) v' := by
  have hrun : action v = (.error e, v') := h
  simp only [Action.on, ExceptT.run, tryCatch, tryCatchThe, MonadExceptOf.tryCatch, ExceptT.tryCatch,
    ExceptT.mk, StateT.run, bind, StateT.bind, hrun]

theorem on_ite_bind {c : Prop} [Decidable c] (action other : Action ε α) (next : α → Action ε β)
    (v : Volume) :
    Action.on (if c then action >>= next else other >>= next) v =
      Action.on ((if c then action else other) >>= next) v := by
  split <;> rfl

def forEach {γ : Type} (f : γ → Action ε Unit) : List γ → Action ε Unit
  | [] => pure ()
  | c :: rest => f c >>= fun _ => forEach f rest

theorem on_forIn {γ : Type} (f : γ → Action ε Unit) (cs : List γ) (v : Volume) :
    Action.on (forIn cs PUnit.unit fun c _ => do
      f c
      pure (ForInStep.yield PUnit.unit)) v = (forEach f cs).on v := by
  induction cs generalizing v with
  | nil => rfl
  | cons c rest ih =>
      rw [List.forIn_cons, forEach]
      rcases hfirst : (f c).on v with ⟨result, v'⟩
      cases result with
      | error e =>
          rw [on_bind_error hfirst, on_bind_error]
          rw [on_bind_error hfirst]
      | ok u =>
          have hstep : Action.on (do
              f c
              pure (ForInStep.yield PUnit.unit)) v = (.ok (.yield PUnit.unit), v') := by
            rw [on_bind_ok hfirst, on_pure]
          rw [on_bind_ok hfirst, on_bind_ok hstep]
          exact ih v'

theorem on_look (f : Disk → Except DiskError α) (v : Volume) :
    (Action.look f).on v = (f v.disk, v) := by
  unfold Action.look
  rw [on_bind_ok (on_get v)]
  cases f v.disk <;> rfl

theorem on_find (path : Path) (v : Volume) : (Action.find path).on v = (v.disk.find path, v) := on_look _ v

theorem on_contents (node : Node) (v : Volume) : (Action.contents node).on v = (v.disk.contents node, v) :=
  on_look _ v

theorem on_change_ok {f : Disk → Except DiskError (α × Disk)} {v : Volume} {a : α} {disk : Disk}
    (h : f v.disk = .ok (a, disk)) : (Action.change f).on v = (.ok a, v.step disk) := by
  unfold Action.change
  rw [on_bind_ok (on_get v), h]
  rfl

theorem on_change_error {f : Disk → Except DiskError (α × Disk)} {v : Volume} {e : DiskError}
    (h : f v.disk = .error e) : (Action.change f).on v = (.error e, v) := by
  unfold Action.change
  rw [on_bind_ok (on_get v), h]
  rfl

theorem on_change_eq_ok_iff {f : Disk → Except DiskError (α × Disk)} {v v' : Volume} {a : α} :
    (Action.change f).on v = (.ok a, v') ↔ ∃ disk, f v.disk = .ok (a, disk) ∧ v' = v.step disk := by
  cases h : f v.disk with
  | error e => simp [on_change_error h]
  | ok found =>
      obtain ⟨b, disk⟩ := found
      rw [on_change_ok h]
      constructor
      · rintro ⟨⟩
        exact ⟨disk, rfl, rfl⟩
      · rintro ⟨disk', hfound, rfl⟩
        cases hfound
        rfl

theorem on_change_unit_ok {f : Disk → Except DiskError Disk} {v : Volume} {disk : Disk}
    (h : f v.disk = .ok disk) : (Action.change_ f).on v = (.ok (), v.step disk) := by
  apply on_change_ok
  rw [h]
  rfl

theorem on_change_unit_error {f : Disk → Except DiskError Disk} {v : Volume} {e : DiskError}
    (h : f v.disk = .error e) : (Action.change_ f).on v = (.error e, v) := by
  apply on_change_error
  rw [h]
  rfl

theorem on_write (id position : Nat) (bytes : Bytes) (v : Volume) :
    Work.on (Action.write id position bytes) v = ((), v.step (v.disk.write id position bytes)) := rfl

/-- An action that leaves every volume as it is, whatever comes of it. -/
def Looks (action : Action ε α) : Prop := ∀ v, (action.on v).2 = v

theorem Looks.eq {action : Action ε α} {v v' : Volume} {result : Except ε α} (h : action.Looks)
    (hrun : action.on v = (result, v')) : v' = v := by
  have hsame := h v
  rw [hrun] at hsame
  exact hsame

theorem looks_pure (a : α) : Looks (pure a : Action ε α) := fun _ => rfl

theorem looks_throw (e : ε) : Looks (throw e : Action ε α) := fun _ => rfl

theorem looks_get : Looks (get : Action ε Volume) := fun _ => rfl

theorem looks_look (f : Disk → Except DiskError α) : (Action.look f).Looks := by
  intro v
  rw [on_look]

theorem Looks.mapError {action : Action ε α} (h : action.Looks) (f : ε → ε') :
    (action.mapError f).Looks := by
  intro v
  rw [on_mapError]
  exact h v

theorem Looks.op {action : Action DiskError α} (h : action.Looks) : action.op.Looks :=
  (h.mapError _).mapError _

theorem Looks.bind {action : Action ε α} {next : α → Action ε β} (h : action.Looks)
    (hnext : ∀ a, (next a).Looks) : Looks (action >>= next) := by
  intro v
  rcases hrun : action.on v with ⟨result, v'⟩
  have hsame := h.eq hrun
  subst hsame
  cases result with
  | error e => rw [on_bind_error hrun]
  | ok a =>
      rw [on_bind_ok hrun]
      exact hnext a _

theorem Looks.ite {c : Prop} [Decidable c] {action other : Action ε α} (h : action.Looks)
    (hother : other.Looks) : Looks (if c then action else other) := by
  split
  · exact h
  · exact hother

theorem Looks.forIn {γ : Type} {f : γ → PUnit → Action ε (ForInStep PUnit)} {cs : List γ}
    (h : ∀ c, (f c PUnit.unit).Looks) : Looks (forIn cs PUnit.unit f) := by
  induction cs with
  | nil => exact looks_pure _
  | cons c rest ih =>
      rw [List.forIn_cons]
      refine (h c).bind fun step => ?_
      cases step with
      | done u => exact looks_pure _
      | yield u => exact ih

end Action

end SortedTable
