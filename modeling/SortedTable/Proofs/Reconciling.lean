import Mathlib.Data.List.Induction
import Mathlib.Order.Bounds.Basic
import SortedTable.Row.Encoding

namespace SortedTable

namespace SortedMap

variable {β : Type}

theorem lookup_eq_some_iff {entries : List (Bytes × β)} (h : entries.Pairwise fun a b => a.1 < b.1) {k : Bytes}
    {v : β} : lookup k entries = some v ↔ (k, v) ∈ entries := by
  induction entries with
  | nil => exact ⟨fun hnone => absurd hnone (Option.some_ne_none v).symm, fun hmem => absurd hmem List.not_mem_nil⟩
  | cons e entries ih =>
      obtain ⟨hfirst, hrest⟩ := List.pairwise_cons.mp h
      rw [lookup, List.mem_cons]
      split
      · rename_i hkey
        have hnot : (k, v) ∉ entries := by
          intro hmem
          have hlt := hfirst (k, v) hmem
          rw [hkey] at hlt
          exact List.lt_irrefl k hlt
        rw [or_iff_left hnot, Option.some.injEq, Prod.ext_iff]
        exact ⟨fun hvalue => ⟨hkey.symm, hvalue.symm⟩, fun hsame => hsame.2.symm⟩
      · rename_i hkey
        rw [ih hrest, or_iff_right]
        exact fun hsame => hkey (congrArg Prod.fst hsame).symm

theorem get?_eq_some_iff {m : SortedMap Bytes β} {k : Bytes} {v : β} : m.get? k = some v ↔ (k, v) ∈ m.entries :=
  lookup_eq_some_iff m.ascending

theorem nodup_entries (m : SortedMap Bytes β) : m.entries.Nodup := by
  apply m.ascending.imp
  rintro a b hlt rfl
  exact List.lt_irrefl a.1 hlt

/-- A map is decided by what is found in it. -/
theorem ext_get? {m n : SortedMap Bytes β} (h : ∀ k, m.get? k = n.get? k) : m = n := by
  apply ext
  apply List.Perm.eq_of_pairwise (fun a b _ _ hab hba => absurd hba (List.lt_asymm hab)) m.ascending n.ascending
  apply (List.perm_ext_iff_of_nodup m.nodup_entries n.nodup_entries).mpr
  intro e
  rw [← get?_eq_some_iff, ← get?_eq_some_iff, h]

end SortedMap

/-- One step in making a row. -/
inductive Change where
  | add (name value : Bytes) (timestamp : Int64)
  | delete (localDeletion : Int32) (markedForDelete : Int64)
deriving DecidableEq, Repr

namespace Change

def column? (name : Bytes) : Change → Option Column
  | add other value timestamp => if other = name then some ⟨value, timestamp⟩ else none
  | delete _ _ => none

def deletion? : Change → Option (Int32 × Int64)
  | add _ _ _ => none
  | delete localDeletion markedForDelete => some (localDeletion, markedForDelete)

/-- Whether a change writes a column of this name with this timestamp. -/
def writesAt (name : Bytes) (timestamp : Int64) : Change → Bool
  | add other _ time => other = name && time = timestamp
  | delete _ _ => false

def written (name : Bytes) (changes : List Change) : List Column := changes.filterMap (column? name)

def deletions (changes : List Change) : List (Int32 × Int64) := changes.filterMap deletion?

theorem filter_written (name : Bytes) (timestamp : Int64) (changes : List Change) :
    (written name changes).filter (fun c => c.timestamp = timestamp) =
      written name (changes.filter (writesAt name timestamp)) := by
  rw [written, written, List.filter_filterMap, List.filterMap_filter]
  congr 1
  funext change
  cases change with
  | delete localDeletion markedForDelete => rfl
  | add other value time =>
      by_cases hname : other = name <;> by_cases htime : time = timestamp <;>
        simp [column?, writesAt, hname, htime, Option.filter]

end Change

namespace Row

open Change

def apply (r : Row) : Change → Row
  | .add name value timestamp => r.add name value timestamp
  | .delete localDeletion markedForDelete => r.delete localDeletion markedForDelete

/-- A new row after changes, one after the other. -/
def made (changes : List Change) : Row := changes.foldl apply empty

/-- Of two columns of one name the one that stays: the newer, or else the one that comes later. -/
def newer (kept : Option Column) (c : Column) : Option Column :=
  match kept with
  | some k => if c.timestamp < k.timestamp then some k else some c
  | none => some c

/-- A column with the greatest timestamp of all, and the last of these. -/
structure Newest (c : Column) (columns : List Column) : Prop where
  greatest : ∀ d ∈ columns, d.timestamp ≤ c.timestamp
  latest : (columns.filter fun d => d.timestamp = c.timestamp).getLast? = some c

variable {c d : Column} {columns : List Column}

theorem Newest.mem (h : Newest c columns) : c ∈ columns :=
  (List.mem_filter.mp (List.mem_of_getLast? h.latest)).1

theorem Newest.unique (h : Newest c columns) (h' : Newest d columns) : c = d := by
  have htime : c.timestamp = d.timestamp := Int64.le_antisymm (h'.greatest c h.mem) (h.greatest d h'.mem)
  have hlatest := h.latest
  rw [htime, h'.latest] at hlatest
  exact (Option.some.inj hlatest).symm

theorem Newest.concat_older (h : Newest c columns) (hold : d.timestamp < c.timestamp) :
    Newest c (columns ++ [d]) := by
  constructor
  · intro b hb
    rcases List.mem_append.mp hb with hb | hb
    · exact h.greatest b hb
    · rw [List.mem_singleton.mp hb]
      exact Int64.le_of_lt hold
  · have hne : ¬ d.timestamp = c.timestamp := Int64.ne_of_lt hold
    rw [List.filter_append, List.filter_cons_of_neg (by simpa using hne), List.filter_nil, List.append_nil]
    exact h.latest

theorem newest_concat (h : ∀ b ∈ columns, b.timestamp ≤ c.timestamp) : Newest c (columns ++ [c]) := by
  constructor
  · intro b hb
    rcases List.mem_append.mp hb with hb | hb
    · exact h b hb
    · rw [List.mem_singleton.mp hb]
      exact Int64.le_refl _
  · rw [List.filter_append, List.filter_cons_of_pos (by simp), List.filter_nil]
    exact List.getLast?_concat

/-- Keeping the newer of two, column after column, keeps the newest. -/
theorem foldl_newer (columns : List Column) :
    (columns.foldl newer none = none ∧ columns = []) ∨
      ∃ c, columns.foldl newer none = some c ∧ Newest c columns := by
  -- From the end of the list: the last column meets the one that is kept of those before it.
  induction columns using List.reverseRecOn with
  | nil => exact .inl ⟨rfl, rfl⟩
  | append_singleton columns d ih =>
      right
      rw [List.foldl_append, List.foldl_cons, List.foldl_nil]
      rcases ih with ⟨hnone, rfl⟩ | ⟨c, hkept, hnewest⟩
      · rw [hnone]
        exact ⟨d, rfl, newest_concat fun _ hb => absurd hb List.not_mem_nil⟩
      · rw [hkept, newer]
        split
        · rename_i hold
          exact ⟨c, rfl, hnewest.concat_older hold⟩
        · rename_i hnew
          have hle := Int64.not_lt.mp hnew
          exact ⟨d, rfl, newest_concat fun b hb => Int64.le_trans (hnewest.greatest b hb) hle⟩

theorem foldl_newer_eq_some_iff : columns.foldl newer none = some c ↔ Newest c columns := by
  rcases foldl_newer columns with ⟨hnone, rfl⟩ | ⟨d, hkept, hnewest⟩
  · rw [hnone]
    exact ⟨fun h => absurd h (Option.some_ne_none c).symm, fun h => absurd h.mem List.not_mem_nil⟩
  · rw [hkept, Option.some.injEq]
    constructor
    · rintro rfl
      exact hnewest
    · exact fun h => hnewest.unique h

variable {name : Bytes} {changes : List Change}

theorem get?_add (r : Row) (other value : Bytes) (timestamp : Int64) (name : Bytes) :
    (r.add other value timestamp).get? name =
      if name = other then newer (r.get? other) ⟨value, timestamp⟩ else r.get? name := by
  have hinsert : ({ r with columns := r.columns.insert other ⟨value, timestamp⟩ } : Row).get? name =
      if name = other then some ⟨value, timestamp⟩ else r.get? name :=
    SortedMap.get?_insert r.columns other ⟨value, timestamp⟩ name
  rw [add]
  cases hfound : r.get? other with
  | none => exact hinsert
  | some existing =>
      rw [newer]
      dsimp only
      split
      · split
        · rename_i hname
          rw [hname, hfound]
        · rfl
      · exact hinsert

theorem get?_apply (r : Row) (change : Change) (name : Bytes) :
    (r.apply change).get? name = (change.column? name).elim (r.get? name) (newer (r.get? name)) := by
  cases change with
  | delete localDeletion markedForDelete => rfl
  | add other value timestamp =>
      rw [apply, get?_add, column?]
      by_cases hname : other = name
      · rw [if_pos hname, if_pos hname.symm, hname]
        rfl
      · rw [if_neg hname, if_neg (Ne.symm hname)]
        rfl

/-- What is kept under a name is decided by the columns that are written under it. -/
theorem get?_foldl_apply (r : Row) (changes : List Change) (name : Bytes) :
    (changes.foldl apply r).get? name = (written name changes).foldl newer (r.get? name) := by
  induction changes generalizing r with
  | nil => rfl
  | cons change changes ih =>
      rw [List.foldl_cons, ih, get?_apply, written, written, List.filterMap_cons]
      cases change.column? name <;> rfl

theorem get?_made_iff : (made changes).get? name = some c ↔ Newest c (written name changes) := by
  rw [made, get?_foldl_apply]
  exact foldl_newer_eq_some_iff

theorem get?_made_eq_none_iff : (made changes).get? name = none ↔ written name changes = [] := by
  rw [made, get?_foldl_apply]
  rcases foldl_newer (written name changes) with ⟨hnone, hnil⟩ | ⟨c, hkept, hnewest⟩
  · exact iff_of_true hnone hnil
  · apply iff_of_false
    · exact fun hnone => absurd (hkept.symm.trans hnone) (Option.some_ne_none c)
    · exact fun hnil => absurd (hnil ▸ hnewest.mem) List.not_mem_nil

theorem lawfulOrderMax_maxOfLe {α : Type} [LE α] [DecidableLE α] [Std.IsLinearPreorder α] :
    @Std.LawfulOrderMax α maxOfLe _ := by
  let : Max α := maxOfLe
  have hmax (a b : α) : max a b = if a ≤ b then b else a := rfl
  refine { max_eq_or := fun a b => ?_, max_le_iff := fun a b c => ?_ }
  · rw [hmax, or_comm]
    exact ite_eq_or_eq (a ≤ b) b a
  · rw [hmax]
    split
    · rename_i hle
      exact ⟨fun h => ⟨Std.le_trans hle h, h⟩, fun h => h.2⟩
    · rename_i hnot
      exact ⟨fun h => ⟨h, Std.le_trans (Std.le_of_not_ge hnot) h⟩, fun h => h.1⟩

instance : Std.LawfulOrderMax Int32 := lawfulOrderMax_maxOfLe

instance : Std.LawfulOrderMax Int64 := lawfulOrderMax_maxOfLe

/-- The greater of two, value after value, is the greatest. -/
theorem isGreatest_foldl {α : Type} [Max α] [LE α] [Std.IsLinearOrder α] [Std.LawfulOrderMax α] (first : α)
    (values : List α) : IsGreatest {t | t ∈ first :: values} (values.foldl max first) :=
  List.max?_eq_some_iff.mp List.max?_cons'

theorem deletion_foldl_apply (r : Row) (changes : List Change) :
    (changes.foldl apply r).localDeletion = ((deletions changes).map Prod.fst).foldl max r.localDeletion ∧
      (changes.foldl apply r).markedForDelete = ((deletions changes).map Prod.snd).foldl max r.markedForDelete := by
  induction changes generalizing r with
  | nil => exact ⟨rfl, rfl⟩
  | cons change changes ih =>
      have hrest := ih (r.apply change)
      rw [List.foldl_cons]
      cases change with
      | delete localDeletion markedForDelete => exact hrest
      | add name value timestamp =>
          have hsame : (r.add name value timestamp).localDeletion = r.localDeletion ∧
              (r.add name value timestamp).markedForDelete = r.markedForDelete := by
            rw [add]
            split
            · split <;> exact ⟨rfl, rfl⟩
            · exact ⟨rfl, rfl⟩
          rw [apply, hsame.1, hsame.2] at hrest
          exact hrest

theorem isGreatest_deletion (changes : List Change) :
    IsGreatest {t | t ∈ Int32.minValue :: (deletions changes).map Prod.fst} (made changes).localDeletion ∧
      IsGreatest {t | t ∈ Int64.minValue :: (deletions changes).map Prod.snd} (made changes).markedForDelete := by
  obtain ⟨hlocal, hmarked⟩ := deletion_foldl_apply empty changes
  rw [made, hlocal, hmarked]
  exact ⟨isGreatest_foldl _ _, isGreatest_foldl _ _⟩

/-- The same changes in another order, in which columns of one name with one timestamp come as before. -/
structure Reordered (changes changes' : List Change) : Prop where
  perm : changes.Perm changes'
  order : ∀ name timestamp, changes.filter (writesAt name timestamp) = changes'.filter (writesAt name timestamp)

variable {changes' : List Change}

theorem Newest.reordered (h : Reordered changes changes') (hnewest : Newest c (written name changes)) :
    Newest c (written name changes') := by
  constructor
  · intro d hd
    apply hnewest.greatest
    exact (h.perm.filterMap _).mem_iff.mpr hd
  · have hlatest := hnewest.latest
    rwa [filter_written, h.order, ← filter_written] at hlatest

theorem Reordered.symm (h : Reordered changes changes') : Reordered changes' changes :=
  ⟨h.perm.symm, fun name timestamp => (h.order name timestamp).symm⟩

theorem eq_of_isGreatest {α : Type} [LE α] [Std.IsLinearOrder α] {values values' : List α} {x y : α}
    (hperm : values.Perm values') (h : IsGreatest {t | t ∈ values} x) (h' : IsGreatest {t | t ∈ values'} y) :
    x = y :=
  Std.le_antisymm (h'.2 (hperm.mem_iff.mp h.1)) (h.2 (hperm.mem_iff.mpr h'.1))

theorem ext_of_fields {r s : Row} (hcolumns : r.columns = s.columns) (hlocal : r.localDeletion = s.localDeletion)
    (hmarked : r.markedForDelete = s.markedForDelete) : r = s := by
  cases r
  cases s
  cases hcolumns
  cases hlocal
  cases hmarked
  rfl

theorem made_eq_of_reordered (h : Reordered changes changes') : made changes = made changes' := by
  have hdeletions := h.perm.filterMap deletion?
  apply ext_of_fields
  · apply SortedMap.ext_get?
    intro name
    apply Option.ext
    intro c
    rw [← Row.get?, ← Row.get?, get?_made_iff, get?_made_iff]
    exact ⟨.reordered h, .reordered h.symm⟩
  · exact eq_of_isGreatest ((hdeletions.map Prod.fst).cons _) (isGreatest_deletion changes).1
      (isGreatest_deletion changes').1
  · exact eq_of_isGreatest ((hdeletions.map Prod.snd).cons _) (isGreatest_deletion changes).2
      (isGreatest_deletion changes').2

/-- **Reconciliation.** What a row holds under a name is the newest of the columns that were written under it, and the
last of these if several are equally new; the columns are listed by name, each deletion mark is the greatest of all,
and changes in another order make the same row with the same bytes, if only columns of one name with one timestamp
come in the same order. -/
theorem made_reconciled (changes : List Change) :
    (∀ name c, (made changes).get? name = some c ↔ Newest c (written name changes)) ∧
      (∀ name, (made changes).get? name = none ↔ written name changes = []) ∧
      (made changes).columns.keys.Pairwise (· < ·) ∧
      (∀ name c, (name, c) ∈ (made changes).columns.entries ↔ Newest c (written name changes)) ∧
      IsGreatest {t | t ∈ Int32.minValue :: (deletions changes).map Prod.fst} (made changes).localDeletion ∧
      IsGreatest {t | t ∈ Int64.minValue :: (deletions changes).map Prod.snd} (made changes).markedForDelete ∧
      ∀ changes', Reordered changes changes' →
        made changes = made changes' ∧ (made changes).encode = (made changes').encode := by
  obtain ⟨hlocal, hmarked⟩ := isGreatest_deletion changes
  refine ⟨fun _ _ => get?_made_iff, fun _ => get?_made_eq_none_iff, ?_, fun name c => ?_, hlocal, hmarked,
    fun changes' h => ?_⟩
  · rw [SortedMap.keys, List.pairwise_map]
    exact (made changes).columns.ascending
  · rw [← SortedMap.get?_eq_some_iff]
    exact get?_made_iff
  · have hmade := made_eq_of_reordered h
    exact ⟨hmade, congrArg encode hmade⟩

/-- Two columns of one name and a deletion, in the order of their times and with the newer column first. -/
theorem made_reconciled_swapped :
    made [.add [110] [1] 1, .add [110] [2] 2, .delete 5 7] =
      made [.add [110] [2] 2, .delete 5 7, .add [110] [1] 1] := by
  refine ((made_reconciled _).2.2.2.2.2.2 _ ⟨by decide, fun name timestamp => ?_⟩).1
  by_cases hone : 1 = timestamp
  · have htwo : ¬ 2 = timestamp := fun htwo => absurd (hone.trans htwo.symm) (by decide)
    simp [writesAt, List.filter_cons, htwo]
  · simp [writesAt, List.filter_cons, hone]

end Row

end SortedTable
