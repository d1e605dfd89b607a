import SortedTable.Disk.Contents
import SortedTable.Error
import SortedTable.SortedMap

/-!
# The tree of a disk

A disk is a tree of directories whose leaves are files. A file has an identity apart from its name, so
that one which is open stays the same file when it is renamed or removed. The tree is kept as a map
from places, which are the names from the root down, and every file has at most one place: a file is made
under one name, and nothing that is done to a disk links it to a second one.
-/

namespace SortedTable

/-- The names from the root of the disk down to a node. -/
abbrev Place := List Bytes

instance : Trans (α := Place) (· < ·) (· < ·) (· < ·) := inferInstance

instance : Std.Trichotomous (α := Place) (· < ·) := inferInstance

inductive Node where
  | directory
  | file (id : Nat)
deriving DecidableEq, Inhabited, Repr

structure Disk where
  nodes : SortedMap Place Node
  /-- Every file there ever was, by its identity. -/
  files : Array Contents
  placed : ∀ p id, nodes.get? p = some (.file id) → id < files.size
  /-- No file has two names. -/
  apart : ∀ p q id, nodes.get? p = some (.file id) → nodes.get? q = some (.file id) → p = q

namespace Disk

def empty : Disk where
  nodes := .empty
  files := #[]
  placed := by simp
  apart := by simp

instance : Inhabited Disk := ⟨empty⟩

/-- What is at a place; the root is always a directory. -/
def node? (d : Disk) (p : Place) : Option Node :=
  if p = [] then some .directory else d.nodes.get? p

def contentsOf (d : Disk) (id : Nat) : Contents := d.files.getD id .empty

def bytesOf (d : Disk) (id : Nat) : Bytes := (d.contentsOf id).bytes

def addFile (d : Disk) (p : Place) : Disk where
  nodes := d.nodes.insert p (.file d.files.size)
  files := d.files.push .empty
  placed := by
    intro q id h
    rw [SortedMap.get?_insert] at h
    split at h
    · cases h
      simp
    · have := d.placed q id h
      simp only [Array.size_push]
      omega
  apart := by
    intro q r id hq hr
    rw [SortedMap.get?_insert] at hq hr
    split at hq <;> split at hr
    · simp_all
    · cases hq
      exact absurd (d.placed r _ hr) (Nat.lt_irrefl _)
    · cases hr
      exact absurd (d.placed q _ hq) (Nat.lt_irrefl _)
    · exact d.apart q r id hq hr

def addDirectory (d : Disk) (p : Place) : Disk where
  nodes := d.nodes.insert p .directory
  files := d.files
  placed := by
    intro q id h
    rw [SortedMap.get?_insert] at h
    split at h
    · simp at h
    · exact d.placed q id h
  apart := by
    intro q r id hq hr
    rw [SortedMap.get?_insert] at hq hr
    split at hq
    · simp at hq
    · split at hr
      · simp at hr
      · exact d.apart q r id hq hr

/-- Takes a place out of the tree. A file that is open there lives on without a name. -/
def erase (d : Disk) (p : Place) : Disk where
  nodes := d.nodes.erase p
  files := d.files
  placed := by
    intro q id h
    rw [SortedMap.get?_erase] at h
    split at h
    · simp at h
    · exact d.placed q id h
  apart := by
    intro q r id hq hr
    rw [SortedMap.get?_erase] at hq hr
    split at hq
    · simp at hq
    · split at hr
      · simp at hr
      · exact d.apart q r id hq hr

def moveNode (d : Disk) (p q : Place) : Disk :=
  match h : d.nodes.get? p with
  | none => d
  | some node =>
    { nodes := (d.nodes.erase p).insert q node
      files := d.files
      placed := by
        intro r id hr
        rw [SortedMap.get?_insert] at hr
        split at hr
        · cases hr
          exact d.placed p id h
        · rw [SortedMap.get?_erase] at hr
          split at hr
          · simp at hr
          · exact d.placed r id hr
      apart := by
        intro r s id hr hs
        rw [SortedMap.get?_insert] at hr hs
        rw [SortedMap.get?_erase] at hr hs
        by_cases hrq : r = q <;> by_cases hsq : s = q
        · rw [hrq, hsq]
        · simp only [hrq, ↓reduceIte, Option.some.injEq] at hr
          subst hr
          by_cases hsp : s = p
          · simp [hsp] at hs
            grind
          · simp only [hsq, hsp, ↓reduceIte] at hs
            exact absurd (d.apart s p id hs h) hsp
        · simp only [hsq, ↓reduceIte, Option.some.injEq] at hs
          subst hs
          by_cases hrp : r = p
          · simp [hrp] at hr
            grind
          · simp only [hrq, hrp, ↓reduceIte] at hr
            exact absurd (d.apart r p id hr h) hrp
        · by_cases hrp : r = p <;> by_cases hsp : s = p
          · rw [hrp, hsp]
          · simp [hrp] at hr
            grind
          · simp [hsp] at hs
            grind
          · simp only [hrq, hrp, ↓reduceIte] at hr
            simp only [hsq, hsp, ↓reduceIte] at hs
            exact d.apart r s id hr hs }

def setContents (d : Disk) (id : Nat) (contents : Contents) : Disk where
  nodes := d.nodes
  files := d.files.setIfInBounds id contents
  placed := by
    intro p id' h
    simpa using d.placed p id' h
  apart := d.apart

def write (d : Disk) (id position : Nat) (bytes : Bytes) : Disk :=
  d.setContents id ((d.contentsOf id).overlay bytes position)

end Disk

end SortedTable
