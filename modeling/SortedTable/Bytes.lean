/-!
# Bytes

Byte strings, ordered byte by byte. They are taken apart in one way only: a first part of known
length is cut off, and there is nothing to cut where the input is too short.
-/

namespace SortedTable

/-- A byte string. `<` compares the unsigned values of the first two bytes that differ. -/
abbrev Bytes := List UInt8

instance : Trans (α := Bytes) (· < ·) (· < ·) (· < ·) := inferInstance

instance : Std.Trichotomous (α := Bytes) (· < ·) := inferInstance

namespace Bytes

def ofString (s : String) : Bytes :=
  s.toUTF8.data.toList

def split? (count : Nat) (input : Bytes) : Option (Bytes × Bytes) :=
  let first := input.take count
  if first.length = count then some (first, input.drop count) else none

theorem split?_append (first rest : Bytes) :
    split? first.length (first ++ rest) = some (first, rest) := by
  simp [split?]

theorem split?_eq_some_iff {count : Nat} {input first rest : Bytes} :
    split? count input = some (first, rest) ↔ input = first ++ rest ∧ first.length = count := by
  constructor
  · intro h
    simp only [split?] at h
    split at h
    · rename_i hlen
      simp only [Option.some.injEq, Prod.mk.injEq] at h
      obtain ⟨rfl, rfl⟩ := h
      exact ⟨(List.take_append_drop count input).symm, hlen⟩
    · simp at h
  · rintro ⟨rfl, rfl⟩
    exact split?_append first rest

theorem split?_eq_none_iff {count : Nat} {input : Bytes} :
    split? count input = none ↔ input.length < count := by
  simp only [split?, List.length_take]
  split
  · simp; omega
  · simp; omega

end Bytes

end SortedTable
