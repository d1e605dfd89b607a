/-!
# Sorted maps

Finite maps kept as a list of bindings in ascending order of key, so that listing a map and looking
into it are both plain list functions. Main statements: what `get?` finds after an insertion, an
erasure or a filter.
-/

namespace SortedTable

/-- A finite map; its bindings are listed by ascending key, each key once. -/
structure SortedMap (κ β : Type) [LT κ] where
  entries : List (κ × β)
  ascending : entries.Pairwise fun a b => a.1 < b.1

namespace SortedMap

variable {κ β : Type} [LT κ]

def empty : SortedMap κ β := ⟨[], .nil⟩

instance : Inhabited (SortedMap κ β) := ⟨empty⟩

def keys (m : SortedMap κ β) : List κ := m.entries.map (·.1)

def values (m : SortedMap κ β) : List β := m.entries.map (·.2)

def size (m : SortedMap κ β) : Nat := m.entries.length

def isEmpty (m : SortedMap κ β) : Bool := m.entries.isEmpty

def filterKeys (m : SortedMap κ β) (keep : κ → Bool) : SortedMap κ β :=
  ⟨m.entries.filter fun e => keep e.1, m.ascending.filter _⟩

theorem ext {m n : SortedMap κ β} (h : m.entries = n.entries) : m = n := by
  cases m; cases n; cases h; rfl

section Lookup

variable [DecidableEq κ]

def lookup (k : κ) : List (κ × β) → Option β
  | [] => none
  | e :: rest => if e.1 = k then some e.2 else lookup k rest

def get? (m : SortedMap κ β) (k : κ) : Option β := lookup k m.entries

def contains (m : SortedMap κ β) (k : κ) : Bool := (m.get? k).isSome

def erase (m : SortedMap κ β) (k : κ) : SortedMap κ β := m.filterKeys (· ≠ k)

@[simp]
theorem get?_empty (k : κ) : (empty : SortedMap κ β).get? k = none := rfl

omit [LT κ] in
theorem lookup_filter (keep : κ → Bool) (k : κ) (entries : List (κ × β)) :
    lookup k (entries.filter fun e => keep e.1) = if keep k then lookup k entries else none := by
  induction entries with
  | nil => simp [lookup]
  | cons e rest ih =>
      by_cases hk : e.1 = k
      · subst hk
        by_cases h : keep e.1 <;> simp_all [lookup]
      · by_cases h : keep e.1 <;> simp_all [lookup]

theorem get?_filterKeys (m : SortedMap κ β) (keep : κ → Bool) (k : κ) :
    (m.filterKeys keep).get? k = if keep k then m.get? k else none :=
  lookup_filter keep k m.entries

theorem get?_erase (m : SortedMap κ β) (k k' : κ) :
    (m.erase k).get? k' = if k' = k then none else m.get? k' := by
  rw [erase, get?_filterKeys]
  by_cases h : k' = k <;> simp [h]

end Lookup

section Insertion

variable [DecidableEq κ] [DecidableLT κ]

/-- Puts a binding in its place, instead of an older one for the same key. -/
def insertEntry (k : κ) (v : β) : List (κ × β) → List (κ × β)
  | [] => [(k, v)]
  | e :: rest =>
      if e.1 = k then (k, v) :: rest
      else if k < e.1 then (k, v) :: e :: rest
      else e :: insertEntry k v rest

theorem lookup_insertEntry (k : κ) (v : β) (entries : List (κ × β)) (k' : κ) :
    lookup k' (insertEntry k v entries) = if k' = k then some v else lookup k' entries := by
  induction entries with
  | nil => by_cases h : k' = k <;> simp_all [insertEntry, lookup, eq_comm]
  | cons e rest ih =>
      by_cases he : e.1 = k
      · subst he
        by_cases h : k' = e.1 <;> simp_all [insertEntry, lookup, eq_comm]
      · by_cases hlt : k < e.1
        · by_cases h : k' = k
          · simp [insertEntry, lookup, he, hlt, h]
          · simp [insertEntry, lookup, he, hlt, h, Ne.symm h]
        · by_cases h : e.1 = k'
          · subst h
            simp [insertEntry, lookup, he, hlt]
          · simp [insertEntry, lookup, he, hlt, h, ih]

theorem mem_insertEntry {k : κ} {v : β} {entries : List (κ × β)} {e : κ × β}
    (h : e ∈ insertEntry k v entries) : e = (k, v) ∨ e ∈ entries := by
  induction entries with
  | nil => simp_all [insertEntry]
  | cons head rest ih =>
      simp only [insertEntry] at h
      split at h
      · simp only [List.mem_cons] at h ⊢
        grind
      · split at h
        · simp only [List.mem_cons] at h ⊢
          grind
        · simp only [List.mem_cons] at h ⊢
          grind

variable [Trans (α := κ) (· < ·) (· < ·) (· < ·)] [Std.Trichotomous (α := κ) (· < ·)]

theorem insertEntry_ascending (k : κ) (v : β) {entries : List (κ × β)}
    (h : entries.Pairwise fun a b => a.1 < b.1) :
    (insertEntry k v entries).Pairwise fun a b => a.1 < b.1 := by
  induction entries with
  | nil => simp [insertEntry]
  | cons e rest ih =>
      obtain ⟨hhead, hrest⟩ := List.pairwise_cons.mp h
      simp only [insertEntry]
      split
      · rename_i he
        exact List.pairwise_cons.mpr ⟨fun b hb => he ▸ hhead b hb, hrest⟩
      · rename_i he
        split
        · rename_i hlt
          refine List.pairwise_cons.mpr ⟨fun b hb => ?_, h⟩
          rcases List.mem_cons.mp hb with rfl | hb
          · exact hlt
          · exact Trans.trans hlt (hhead b hb)
        · rename_i hlt
          refine List.pairwise_cons.mpr ⟨fun b hb => ?_, ih hrest⟩
          rcases mem_insertEntry hb with rfl | hb
          · apply Classical.byContradiction
            intro hnot
            exact he (Std.Trichotomous.trichotomous (r := (· < ·)) e.1 k hnot hlt)
          · exact hhead b hb

def insert (m : SortedMap κ β) (k : κ) (v : β) : SortedMap κ β :=
  ⟨insertEntry k v m.entries, insertEntry_ascending k v m.ascending⟩

theorem get?_insert (m : SortedMap κ β) (k : κ) (v : β) (k' : κ) :
    (m.insert k v).get? k' = if k' = k then some v else m.get? k' :=
  lookup_insertEntry k v m.entries k'

theorem isSome_get?_insert (m : SortedMap κ β) (k : κ) (v : β) (k' : κ) :
    ((m.insert k v).get? k').isSome = true ↔ k' = k ∨ (m.get? k').isSome = true := by
  rw [get?_insert]
  by_cases h : k' = k <;> simp [h]

end Insertion

end SortedMap

end SortedTable
