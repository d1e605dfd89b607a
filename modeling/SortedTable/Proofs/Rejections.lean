import SortedTable.Proofs.FailedAppends

namespace SortedTable.Writer

/-- What the checks of a call look for, in the state that the call finds. -/
def Attempt.Refused (a : Attempt) (w : Writer) : Prop :=
  a.key.key = [] ∨ 65535 < a.key.key.length ∨ (∃ last, w.lastKey = some last ∧ a.key < last) ∨
    ∃ key, a = .value key []

/-- The call failed a check, and not while it was writing. -/
def Answer.rejected : Answer → Bool
  | ⟨_, .ok ()⟩ => false
  | ⟨_, .error (.io _)⟩ => false
  | ⟨_, .error _⟩ => true

theorem Answer.rejected_error {a : Attempt} {e : TableError} (he : ∀ io, e ≠ .io io) :
    (⟨a, .error e⟩ : Answer).rejected = true := by
  unfold rejected
  split
  · rename_i heq
    cases heq
  · rename_i io heq
    cases heq
    exact absurd rfl (he io)
  · rfl

/-- What a call returns in the state that it finds. -/
def answer (w : Writer) (v : Volume) (a : Attempt) : Answer := ⟨a, (Work.on (w.attempt a) v).1.1⟩

variable {w : Writer} {v : Volume} {a : Attempt}

theorem rejection?_isSome_iff {key : DecoratedKey} :
    (w.rejection? key).isSome ↔
      key.key = [] ∨ 65535 < key.key.length ∨ ∃ last, w.lastKey = some last ∧ key < last := by
  rw [← not_iff_not, Bool.not_eq_true, Option.isSome_eq_false_iff, Option.isNone_iff_eq_none,
    rejection?_eq_none_iff]
  have hmax : Record.maxShort = 65535 := rfl
  have hle : ∀ last : DecoratedKey, last ≤ key ↔ ¬ key < last := fun _ => Iff.rfl
  simp only [hmax, hle, not_or, not_exists, not_and, Nat.not_lt, ne_eq]

theorem Attempt.not_rejected_verdict (a : Attempt) : (⟨a, a.verdict⟩ : Answer).rejected = false := by
  cases a with
  | encoded _ row | framed _ row =>
      rcases houtcome : row.outcome with e | n <;> simp only [verdict, houtcome] <;> rfl
  | value _ _ => rfl

theorem answer_of_passed (hkey : w.rejection? a.key = none) (hblank : ∀ key, a ≠ .value key []) (v : Volume) :
    w.answer v a = ⟨a, a.verdict⟩ := by
  rw [answer, result_of_passed hkey hblank]

theorem answer_of_not_refused (h : ¬ a.Refused w) (v : Volume) : w.answer v a = ⟨a, a.verdict⟩ := by
  have hpassed : ¬ (w.rejection? a.key).isSome = true := fun hsome => by
    rcases rejection?_isSome_iff.mp hsome with hempty | hlong | hlast
    · exact h (.inl hempty)
    · exact h (.inr (.inl hlong))
    · exact h (.inr (.inr (.inl hlast)))
  rw [Bool.not_eq_true, Option.isSome_eq_false_iff, Option.isNone_iff_eq_none] at hpassed
  exact answer_of_passed hpassed (fun key hvalue => h (.inr (.inr (.inr ⟨key, hvalue⟩)))) v

/-- A rejected call names the check that it failed, and leaves the writer and the disk alone. -/
theorem on_attempt_refused (h : a.Refused w) (v : Volume) :
    ∃ e : TableError, (∀ io, e ≠ .io io) ∧ Work.on (w.attempt a) v = ((.error e, w), v) := by
  rcases hkey : w.rejection? a.key with - | e
  · have hnone : ¬ (w.rejection? a.key).isSome = true := by simp [hkey]
    have hnot := rejection?_isSome_iff.not.mp hnone
    rcases h with hempty | hlong | hlast | ⟨key, rfl⟩
    · exact absurd (.inl hempty) hnot
    · exact absurd (.inr (.inl hlong)) hnot
    · exact absurd (.inr (.inr hlast)) hnot
    · exact ⟨.emptyValue, by simp, on_attempt_blank hkey v⟩
  · exact ⟨e, rejection?_ne_io hkey, on_attempt_rejected hkey v⟩

theorem rejected_iff_refused : (w.answer v a).rejected = true ↔ a.Refused w := by
  constructor
  · intro hrejected
    by_contra hrefused
    rw [answer_of_not_refused hrefused v, a.not_rejected_verdict] at hrejected
    cases hrejected
  · intro hrefused
    obtain ⟨e, he, hrun⟩ := on_attempt_refused hrefused v
    rw [answer, hrun]
    exact Answer.rejected_error he

theorem result_eq_ok_iff (hencodes : a.Encodes) : (w.answer v a).result = .ok () ↔ ¬ a.Refused w := by
  constructor
  · intro hok hrefused
    obtain ⟨e, -, hrun⟩ := on_attempt_refused hrefused v
    rw [answer, hrun] at hok
    cases hok
  · intro hrefused
    rw [answer_of_not_refused hrefused v]
    exact a.verdict_eq_ok hencodes

/-- Makes the calls one after the other, and goes on after those that fail. -/
def attemptAll (w : Writer) : List Attempt → Work (List Answer × Writer)
  | [] => return ([], w)
  | a :: rest => do
      let (result, w) ← w.attempt a
      let (log, w) ← w.attemptAll rest
      return (⟨a, result⟩ :: log, w)

/-- Makes the calls, and publishes the table. -/
def attemptAllAndFinish (w : Writer) (calls : List Attempt) (age : Nat) : Action TableError Reader := do
  let (_, w) ← w.attemptAll calls
  w.finish age

/-- What is returned by each of some calls. -/
def answers (w : Writer) (v : Volume) (calls : List Attempt) : List Answer := (Work.on (w.attemptAll calls) v).1.1

/-- The writer and the volume after some calls. -/
def after (w : Writer) (v : Volume) (calls : List Attempt) : Writer × Volume :=
  ((Work.on (w.attemptAll calls) v).1.2, (Work.on (w.attemptAll calls) v).2)

/-- The calls of a run that are not rejected when their turn comes. -/
def kept (w : Writer) (v : Volume) (calls : List Attempt) : List Attempt :=
  ((w.answers v calls).filter (!·.rejected)).map (·.attempt)

variable {rest : List Attempt}

theorem on_attemptAll_cons {result : Except TableError Unit} {w' : Writer} {v' : Volume}
    (h : Work.on (w.attempt a) v = ((result, w'), v')) :
    Work.on (w.attemptAll (a :: rest)) v =
      ((⟨a, result⟩ :: w'.answers v' rest, (w'.after v' rest).1), (w'.after v' rest).2) := by
  rw [attemptAll, Work.on_bind_of h]
  rfl

theorem on_attemptAll (calls : List Attempt) :
    Work.on (w.attemptAll calls) v = ((w.answers v calls, (w.after v calls).1), (w.after v calls).2) := rfl

theorem after_cons : w.after v (a :: rest) =
    (Work.on (w.attempt a) v).1.2.after (Work.on (w.attempt a) v).2 rest := by
  unfold after
  rw [on_attemptAll_cons rfl]
  rfl

theorem answers_cons : w.answers v (a :: rest) =
    w.answer v a :: (Work.on (w.attempt a) v).1.2.answers (Work.on (w.attempt a) v).2 rest := by
  unfold answers
  rw [on_attemptAll_cons rfl]
  rfl

theorem kept_cons_of_refused (h : a.Refused w) : w.kept v (a :: rest) = w.kept v rest := by
  obtain ⟨e, -, hrun⟩ := on_attempt_refused h v
  have hrejected : (w.answer v a).rejected = true := rejected_iff_refused.mpr h
  rw [kept, answers_cons, List.filter_cons_of_neg (by simp [hrejected]), hrun]
  rfl

theorem kept_cons_of_accepted (h : ¬ a.Refused w) :
    w.kept v (a :: rest) = a :: (Work.on (w.attempt a) v).1.2.kept (Work.on (w.attempt a) v).2 rest := by
  have hrejected : (w.answer v a).rejected = false := by
    rw [← Bool.not_eq_true, rejected_iff_refused]
    exact h
  rw [kept, answers_cons, List.filter_cons_of_pos (by simp [hrejected])]
  rfl

theorem kept_append (before more : List Attempt) :
    w.kept v (before ++ more) =
      w.kept v before ++ (w.after v before).1.kept (w.after v before).2 more := by
  induction before generalizing w v with
  | nil => rfl
  | cons a rest ih =>
      rw [List.cons_append]
      by_cases h : a.Refused w
      · obtain ⟨e, -, hrun⟩ := on_attempt_refused h v
        rw [kept_cons_of_refused h, kept_cons_of_refused h, ih, after_cons, hrun]
      · rw [kept_cons_of_accepted h, kept_cons_of_accepted h, ih, after_cons, List.cons_append]

/-- The run of the calls that are kept goes through the same states and returns the same. -/
theorem on_attemptAll_kept (w : Writer) (v : Volume) (calls : List Attempt) :
    Work.on (w.attemptAll (w.kept v calls)) v =
      (((w.answers v calls).filter (!·.rejected), (w.after v calls).1), (w.after v calls).2) := by
  induction calls generalizing w v with
  | nil => rfl
  | cons a rest ih =>
      by_cases h : a.Refused w
      · obtain ⟨e, -, hrun⟩ := on_attempt_refused h v
        have hrejected : (w.answer v a).rejected = true := rejected_iff_refused.mpr h
        rw [kept_cons_of_refused h, ih, answers_cons, List.filter_cons_of_neg (by simp [hrejected]), after_cons,
          hrun]
      · have hrejected : (w.answer v a).rejected = false := by
          rw [← Bool.not_eq_true, rejected_iff_refused]
          exact h
        rw [kept_cons_of_accepted h, answers_cons, List.filter_cons_of_pos (by simp [hrejected]), after_cons]
        rw [attemptAll, Work.on_bind, Work.on_bind, ih]
        rfl

/-- A call fails a check exactly if its key is missing, too long or behind the last key, or if it has a body and that
is empty, and a run goes as if the rejected calls had not been made: the writer and all files are the same after each
of the other calls, and so are the published table and its reader. -/
theorem rejected_calls_leave_no_trace (w : Writer) (v : Volume) :
    (∀ a : Attempt, ((w.answer v a).rejected = true ↔ a.Refused w) ∧
      (a.Encodes → ((w.answer v a).result = .ok () ↔ ¬ a.Refused w)) ∧
      (a.Refused w → (w.after v [a]) = (w, v))) ∧
    ∀ calls : List Attempt,
      w.after v (w.kept v calls) = w.after v calls ∧
      w.answers v (w.kept v calls) = (w.answers v calls).filter (!·.rejected) ∧
      (∀ before more, calls = before ++ more → w.kept v before <+: w.kept v calls) ∧
      ∀ age, (w.attemptAllAndFinish (w.kept v calls) age).on v = (w.attemptAllAndFinish calls age).on v := by
  refine ⟨fun a => ⟨rejected_iff_refused, result_eq_ok_iff, fun hrefused => ?_⟩, fun calls => ?_⟩
  · obtain ⟨e, -, hrun⟩ := on_attempt_refused hrefused v
    rw [after_cons, hrun]
    rfl
  have hkept := on_attemptAll_kept w v calls
  refine ⟨?_, ?_, ?_, fun age => ?_⟩
  · rw [after, hkept]
  · rw [answers, hkept]
  · rintro before more rfl
    rw [kept_append]
    exact List.prefix_append _ _
  · unfold attemptAllAndFinish
    rw [Action.on_bind_ok (Action.on_lift_of hkept), Action.on_bind_ok (Action.on_lift_of (on_attemptAll calls))]

/-- A key that comes before the last one is refused, and so is an empty body. -/
theorem rejected_calls_leave_no_trace_users :
    let w : Writer := { Terms.users.start 0 1 with lastKey := some (.byteOrdered [98]) }
    w.after .new [.value (.byteOrdered [97]) [120]] = (w, .new) ∧
      w.after .new [.value (.byteOrdered [98]) []] = (w, .new) := by
  intro w
  have htrace := (rejected_calls_leave_no_trace w .new).1
  exact ⟨(htrace _).2.2 (.inr (.inr (.inl ⟨_, rfl, by decide⟩))), (htrace _).2.2 (.inr (.inr (.inr ⟨_, rfl⟩)))⟩

end SortedTable.Writer
