import SortedTable.Bytes

/-!
# Contents

The bytes of a file or a buffer, kept with the last one first: files grow at the end, and the versions
before and after a write there share all that did not change. `bytes` is the view, and each operation
has its equation for it.
-/

namespace SortedTable

/-- The bytes of a file after some are written at a position, over what was there. -/
def Bytes.overlay (old new : Bytes) (position : Nat) : Bytes :=
  old.take position ++ List.replicate (position - old.length) 0 ++ new ++
    old.drop (position + new.length)

structure Contents where
  backwards : Bytes
  length : Nat
  length_eq : length = backwards.length

namespace Contents

def bytes (c : Contents) : Bytes := c.backwards.reverse

theorem length_bytes (c : Contents) : c.bytes.length = c.length := by
  simp [bytes, c.length_eq]

@[ext]
theorem ext_bytes {c d : Contents} (h : c.bytes = d.bytes) : c = d := by
  obtain ⟨b, n, rfl⟩ := c
  obtain ⟨b', n', rfl⟩ := d
  cases List.reverse_inj.1 h
  rfl

def ofBytes (bytes : Bytes) : Contents where
  backwards := bytes.reverse
  length := bytes.length
  length_eq := by simp

@[simp]
theorem bytes_ofBytes (bytes : Bytes) : (ofBytes bytes).bytes = bytes := by
  simp [Contents.bytes, ofBytes]

def empty : Contents := ⟨[], 0, rfl⟩

instance : Inhabited Contents := ⟨empty⟩

@[simp]
theorem bytes_empty : empty.bytes = [] := rfl

@[simp]
theorem length_empty : empty.length = 0 := rfl

def append (c : Contents) (new : Bytes) : Contents where
  backwards := new.reverseAux c.backwards
  length := c.length + new.length
  length_eq := by simp [List.reverseAux_eq, c.length_eq, Nat.add_comm]

@[simp]
theorem bytes_append (c : Contents) (new : Bytes) : (c.append new).bytes = c.bytes ++ new := by
  simp [bytes, append, List.reverseAux_eq]

def take (c : Contents) (count : Nat) : Contents where
  backwards := c.backwards.drop (c.length - count)
  length := min count c.length
  length_eq := by simp [← c.length_eq]; omega

@[simp]
theorem bytes_take (c : Contents) (count : Nat) : (c.take count).bytes = c.bytes.take count := by
  simp [bytes, take, List.take_reverse, c.length_eq]

def drop (c : Contents) (count : Nat) : Bytes := (c.backwards.take (c.length - count)).reverse

@[simp]
theorem drop_eq (c : Contents) (count : Nat) : c.drop count = c.bytes.drop count := by
  simp [bytes, drop, List.drop_reverse, c.length_eq]

/-- Some bytes written at a position, over what was there, with zeros up to it if it is past the
end. -/
def overlay (c : Contents) (new : Bytes) (position : Nat) : Contents :=
  (((c.take position).append (List.replicate (position - c.length) 0)).append new).append
    (c.drop (position + new.length))

@[simp]
theorem bytes_overlay (c : Contents) (new : Bytes) (position : Nat) :
    (c.overlay new position).bytes = c.bytes.overlay new position := by
  simp [overlay, Bytes.overlay, length_bytes]

end Contents

end SortedTable
