import SortedTable.Disk.Output
import SortedTable.Proofs.Disk.Running
import SortedTable.Proofs.Disk.Walks

/-!
# Buffered writing

What the disk and the buffer hold together is what was written, whatever part of it has reached the
disk. Nothing but the one file is changed on the way.
-/

namespace SortedTable

namespace Bytes

variable {old new more : Bytes} {position : Nat}

theorem overlay_of_le (h : position ≤ old.length) :
    old.overlay new position = old.take position ++ new ++ old.drop (position + new.length) := by
  have hzeros : position - old.length = 0 := by omega
  rw [overlay, hzeros, List.replicate_zero, List.append_nil]

@[simp]
theorem overlay_nil (h : position ≤ old.length) : old.overlay [] position = old := by
  rw [overlay_of_le h, List.append_nil, List.length_nil, Nat.add_zero, List.take_append_drop]

theorem overlay_end : old.overlay new old.length = old ++ new := by
  rw [overlay_of_le (Nat.le_refl _), List.take_length, List.drop_eq_nil_of_le (by omega),
    List.append_nil]

theorem length_overlay (h : position ≤ old.length) :
    (old.overlay new position).length = max old.length (position + new.length) := by
  rw [overlay_of_le h]
  simp only [List.length_append, List.length_take, List.length_drop]
  omega

theorem overlay_overlay (h : position ≤ old.length) :
    (old.overlay new position).overlay more (position + new.length) =
      old.overlay (new ++ more) position := by
  have hle : position + new.length ≤ (old.overlay new position).length := by
    rw [length_overlay h]
    omega
  have htake : (old.take position ++ new).length = position + new.length := by
    rw [List.length_append, List.length_take, Nat.min_eq_left h]
  rw [overlay_of_le hle, overlay_of_le h, overlay_of_le h]
  have hfront : (old.take position ++ new ++ old.drop (position + new.length)).take
      (position + new.length) = old.take position ++ new := List.take_left' htake
  have hback : (old.take position ++ new ++ old.drop (position + new.length)).drop
      (position + new.length + more.length) = old.drop (position + (new ++ more).length) := by
    rw [← htake, ← List.drop_drop, List.drop_left, List.drop_drop, htake, List.length_append,
      Nat.add_assoc]
  rw [hfront, hback]
  simp only [List.append_assoc]

theorem overlay_middle {front middle back : Bytes} (h : new.length = middle.length) :
    (front ++ middle ++ back).overlay new front.length = front ++ new ++ back := by
  have hle : front.length ≤ (front ++ middle ++ back).length := by
    simp only [List.length_append]
    omega
  rw [overlay_of_le hle, h, ← List.drop_drop, List.append_assoc front middle back, List.take_left,
    List.drop_left, List.drop_left]

end Bytes

/-- A disk that differs from another at most in the bytes of the files at some places. -/
structure Disk.SameBut (places : List Place) (d d' : Disk) : Prop where
  nodes : ∀ p, d'.node? p = d.node? p
  tree : ∀ p, p ∉ places → d'.tree p = d.tree p

namespace Disk.SameBut

variable {d d' d'' : Disk} {places : List Place} {p : Place}

theorem refl (places : List Place) (d : Disk) : SameBut places d d := ⟨fun _ => rfl, fun _ _ => rfl⟩

theorem trans (h : SameBut places d d') (h' : SameBut places d' d'') : SameBut places d d'' :=
  ⟨fun p => (h'.nodes p).trans (h.nodes p), fun p hp => (h'.tree p hp).trans (h.tree p hp)⟩

theorem mono {more : List Place} (h : SameBut places d d') (hsub : ∀ p ∈ places, p ∈ more) :
    SameBut more d d' :=
  ⟨h.nodes, fun p hp => h.tree p fun hmem => hp (hsub p hmem)⟩

theorem of_mem (h : SameBut [p] d d') (hp : p ∈ places) : SameBut places d d' :=
  h.mono fun _ hq => List.mem_singleton.mp hq ▸ hp

theorem keeps (h : SameBut places d d') : d.Keeps d' := by
  intro q hq
  rw [tree_eq_directory_iff] at hq ⊢
  rw [h.nodes q, hq]

theorem frame {outside : Place → Prop} (h : SameBut places d d') (hout : ∀ p, outside p → p ∉ places) :
    d.Frame outside d' :=
  ⟨fun p hp => h.tree p (hout p hp), h.keeps, fun p _ => h.nodes p⟩

theorem of_write {id position : Nat} {bytes : Bytes} (hnode : d.node? p = some (.file id)) :
    SameBut [p] d (d.write id position bytes) := by
  refine ⟨fun _ => rfl, fun q hq => ?_⟩
  rw [tree_write hnode]
  exact Tree.put_of_ne fun hqp => hq (by rw [hqp]; exact List.mem_singleton_self p)

end Disk.SameBut

namespace Output

variable {o : Output} {v : Volume} {disk disk' : Disk} {p : Place} {bytes new : Bytes}

/-- The disk and the buffer hold these bytes for the file at a place. -/
structure Holds (o : Output) (disk : Disk) (p : Place) (bytes : Bytes) : Prop where
  node : disk.node? p = some (.file o.file)
  flushed_le : o.flushed ≤ (disk.bytesOf o.file).length
  image : o.image disk = bytes

namespace Holds

theorem position_le (h : o.Holds disk p bytes) : o.position ≤ bytes.length := by
  have hlength := congrArg List.length h.image
  rw [Output.image, Bytes.length_overlay h.flushed_le, Contents.length_bytes] at hlength
  rw [position]
  omega

theorem of_frame {outside : Place → Prop} (h : o.Holds disk p bytes) (hframe : disk.Frame outside disk')
    (hp : outside p) : o.Holds disk' p bytes := by
  have hbytes : disk'.bytesOf o.file = disk.bytesOf o.file := hframe.bytesOf hp h.node
  refine ⟨(hframe.nodes p hp).trans h.node, ?_, ?_⟩
  · rw [hbytes]
    exact h.flushed_le
  · rw [Output.image, hbytes]
    exact h.image

theorem of_sameBut {places : List Place} (h : o.Holds disk p bytes)
    (hsame : disk.SameBut places disk') (hp : p ∉ places) : o.Holds disk' p bytes :=
  h.of_frame (hsame.frame fun _ hp => hp) hp

theorem bytesOf_eq (h : o.Holds disk p bytes) (hempty : o.pending.length = 0) :
    disk.bytesOf o.file = bytes := by
  have hnil : o.pending.bytes = [] := by
    rw [← List.length_eq_zero_iff, Contents.length_bytes, hempty]
  rw [← h.image, Output.image, hnil, Bytes.overlay_nil h.flushed_le]

theorem tree_eq (h : o.Holds disk p bytes) (hempty : o.pending.length = 0) :
    disk.tree p = some (.file bytes) :=
  Disk.tree_eq_file_iff.mpr ⟨o.file, h.node, h.bytesOf_eq hempty⟩

end Holds

theorem holds_create {id capacity : Nat} (hnode : disk.node? p = some (.file id))
    (htree : disk.tree p = some (.file [])) : Holds ⟨id, capacity, 0, .empty⟩ disk p [] := by
  refine ⟨hnode, Nat.zero_le _, ?_⟩
  rw [Disk.tree_of_node? hnode] at htree
  have hbytes : disk.bytesOf id = [] := Item.file.inj (Option.some.inj htree)
  rw [image, hbytes]
  rfl

theorem on_writeThrough (h : o.Holds v.disk p bytes) (hempty : o.pending.length = 0)
    (new : Bytes) :
    ∃ o' v', Work.on (o.writeThrough new) v = (o', v') ∧
      o'.Holds v'.disk p (bytes.overlay new o.position) ∧ o'.pending = o.pending ∧
      o'.position = o.position + new.length ∧ v.disk.SameBut [p] v'.disk := by
  have hposition : o.position = o.flushed := by rw [position, hempty, Nat.add_zero]
  have hbytes := h.bytesOf_eq hempty
  have hwritten : (v.disk.write o.file o.flushed new).bytesOf o.file =
      bytes.overlay new o.flushed := by
    rw [Disk.bytesOf_write_self (Disk.lt_size_of_node? h.node), hbytes]
  have hle : o.flushed ≤ bytes.length := hbytes ▸ h.flushed_le
  have hend : o.flushed + new.length ≤ (bytes.overlay new o.flushed).length := by
    rw [Bytes.length_overlay hle]
    omega
  refine ⟨_, _, rfl, ⟨h.node, ?_, ?_⟩, rfl, ?_, .of_write h.node⟩
  · change o.flushed + new.length ≤ ((v.disk.write o.file o.flushed new).bytesOf o.file).length
    rw [hwritten]
    exact hend
  · change ((v.disk.write o.file o.flushed new).bytesOf o.file).overlay o.pending.bytes
      (o.flushed + new.length) = _
    have hnil : o.pending.bytes = [] := by
      rw [← List.length_eq_zero_iff, Contents.length_bytes, hempty]
    rw [hwritten, hnil, Bytes.overlay_nil hend, hposition]
  · change o.flushed + new.length + o.pending.length = _
    rw [hempty, hposition, Nat.add_zero]

theorem on_flush (h : o.Holds v.disk p bytes) :
    ∃ o' v', Work.on o.flush v = (o', v') ∧ o'.Holds v'.disk p bytes ∧ o'.pending.length = 0 ∧
      o'.position = o.position ∧ v.disk.SameBut [p] v'.disk := by
  unfold flush
  by_cases hempty : o.pending.length = 0
  · rw [if_pos hempty]
    exact ⟨o, v, rfl, h, hempty, rfl, .refl _ _⟩
  · rw [if_neg hempty]
    have hwritten : (v.disk.write o.file o.flushed o.pending.bytes).bytesOf o.file = bytes := by
      rw [Disk.bytesOf_write_self (Disk.lt_size_of_node? h.node)]
      exact h.image
    refine ⟨_, _, rfl, ⟨h.node, ?_, ?_⟩, rfl, Nat.add_zero _, .of_write h.node⟩
    · change o.position ≤ ((v.disk.write o.file o.flushed o.pending.bytes).bytesOf o.file).length
      rw [hwritten]
      exact h.position_le
    · change ((v.disk.write o.file o.flushed o.pending.bytes).bytesOf o.file).overlay [] o.position = _
      rw [hwritten, Bytes.overlay_nil h.position_le]

theorem holds_buffer (h : o.Holds disk p bytes) (new : Bytes) :
    Holds { o with pending := o.pending.append new } disk p (bytes.overlay new o.position) := by
  refine ⟨h.node, h.flushed_le, ?_⟩
  change (disk.bytesOf o.file).overlay (o.pending.append new).bytes o.flushed = _
  rw [Contents.bytes_append, ← Bytes.overlay_overlay h.flushed_le, Contents.length_bytes]
  exact congrArg (Bytes.overlay · new o.position) h.image

theorem position_buffer (o : Output) (new : Bytes) :
    position { o with pending := o.pending.append new } = o.position + new.length :=
  (Nat.add_assoc _ _ _).symm

/-- The last part of a write: a buffer that is too small for the bytes has been emptied by then. -/
theorem on_writeLast (h : o.Holds v.disk p bytes)
    (hempty : o.capacity ≤ new.length → o.pending.length = 0) :
    ∃ o' v', Work.on (if o.capacity ≤ new.length then o.writeThrough new
        else return { o with pending := o.pending.append new }) v = (o', v') ∧
      o'.Holds v'.disk p (bytes.overlay new o.position) ∧
      o'.position = o.position + new.length ∧ v.disk.SameBut [p] v'.disk := by
  by_cases hcapacity : o.capacity ≤ new.length
  · rw [if_pos hcapacity]
    obtain ⟨o', v', hrun, hholds, -, hposition, hsame⟩ := on_writeThrough h (hempty hcapacity) new
    exact ⟨o', v', hrun, hholds, hposition, hsame⟩
  · rw [if_neg hcapacity]
    exact ⟨_, v, rfl, holds_buffer h new, position_buffer o new, .refl _ _⟩

theorem on_write (h : o.Holds v.disk p bytes) (new : Bytes) :
    ∃ o' v', Work.on (o.write new) v = (o', v') ∧
      o'.Holds v'.disk p (bytes.overlay new o.position) ∧
      o'.position = o.position + new.length ∧ v.disk.SameBut [p] v'.disk := by
  unfold write
  by_cases hnil : new = []
  · rw [if_pos hnil]
    subst hnil
    refine ⟨o, v, rfl, ?_, rfl, .refl _ _⟩
    rw [Bytes.overlay_nil h.position_le]
    exact h
  rw [if_neg hnil]
  by_cases hfits : new.length < o.room
  · rw [if_pos hfits]
    exact ⟨_, v, rfl, holds_buffer h new, position_buffer o new, .refl _ _⟩
  rw [if_neg hfits]
  by_cases hroom : o.room < new.length
  · rw [if_pos hroom]
    obtain ⟨o', v', hrun, hholds, hempty, hposition, hsame⟩ := on_flush h
    rw [Work.on_bind_of hrun]
    obtain ⟨o'', v'', hrun', hholds', hposition', hsame'⟩ :=
      on_writeLast hholds fun _ => hempty
    rw [hposition] at hholds' hposition'
    exact ⟨o'', v'', hrun', hholds', hposition', hsame.trans hsame'⟩
  · rw [if_neg hroom]
    -- the bytes fill the buffer exactly, so it is empty if they are too long for it
    have hempty : o.capacity ≤ new.length → o.pending.length = 0 := by
      intro hcapacity
      have hlength : 0 < new.length := List.length_pos_iff.mpr hnil
      rw [room] at hroom hfits
      omega
    exact on_writeLast h hempty

theorem on_write_end (h : o.Holds v.disk p bytes) (hend : o.position = bytes.length) (new : Bytes) :
    ∃ o' v', Work.on (o.write new) v = (o', v') ∧ o'.Holds v'.disk p (bytes ++ new) ∧
      o'.position = (bytes ++ new).length ∧ v.disk.SameBut [p] v'.disk := by
  obtain ⟨o', v', hrun, hholds, hposition, hsame⟩ := on_write h new
  rw [hend, Bytes.overlay_end] at hholds
  exact ⟨o', v', hrun, hholds, by rw [hposition, hend, List.length_append], hsame⟩

theorem on_writePieces_end (h : o.Holds v.disk p bytes) (hend : o.position = bytes.length)
    (pieces : List Bytes) :
    ∃ o' v', Work.on (o.writePieces pieces) v = (o', v') ∧
      o'.Holds v'.disk p (bytes ++ pieces.flatten) ∧
      o'.position = (bytes ++ pieces.flatten).length ∧ v.disk.SameBut [p] v'.disk := by
  induction pieces generalizing o v bytes with
  | nil =>
      rw [List.flatten_nil, List.append_nil]
      exact ⟨o, v, rfl, h, hend, .refl _ _⟩
  | cons piece rest ih =>
      obtain ⟨o', v', hrun, hholds, hend', hsame⟩ := on_write_end h hend piece
      obtain ⟨o'', v'', hrun', hholds', hend'', hsame'⟩ := ih hholds hend'
      rw [List.append_assoc, ← List.flatten_cons] at hholds' hend''
      refine ⟨o'', v'', ?_, hholds', hend'', hsame.trans hsame'⟩
      rw [writePieces, List.foldlM_cons, Work.on_bind_of hrun]
      exact hrun'

theorem on_seek (h : o.Holds v.disk p bytes) {position : Nat} (hposition : position ≤ bytes.length) :
    ∃ o' v', Work.on (o.seek position) v = (o', v') ∧ o'.Holds v'.disk p bytes ∧
      o'.position = position ∧ v.disk.SameBut [p] v'.disk := by
  obtain ⟨o', v', hrun, hholds, hempty, -, hsame⟩ := on_flush h
  have hnil : o'.pending.bytes = [] := by
    rw [← List.length_eq_zero_iff, Contents.length_bytes, hempty]
  have hbytes := hholds.bytesOf_eq hempty
  refine ⟨{ o' with flushed := position }, v', ?_, ⟨hholds.node, ?_, ?_⟩, ?_, hsame⟩
  · rw [seek, Work.on_bind_of hrun]
    rfl
  · change position ≤ (v'.disk.bytesOf o'.file).length
    rw [hbytes]
    exact hposition
  · change (v'.disk.bytesOf o'.file).overlay o'.pending.bytes position = bytes
    rw [hnil, hbytes, Bytes.overlay_nil hposition]
  · change position + o'.pending.length = position
    rw [hempty, Nat.add_zero]

/-- Others of the same length are written over some bytes, and what comes next goes to the end again. -/
theorem on_patch {front middle back : Bytes} (h : o.Holds v.disk p (front ++ middle ++ back))
    (hlength : new.length = middle.length) :
    ∃ o₁ v₁ o₂ v₂ o₃ v₃, Work.on (o.seek front.length) v = (o₁, v₁) ∧ Work.on (o₁.write new) v₁ = (o₂, v₂) ∧
      Work.on (o₂.seek (front ++ new ++ back).length) v₂ = (o₃, v₃) ∧ o₃.Holds v₃.disk p (front ++ new ++ back) ∧
      o₃.position = (front ++ new ++ back).length ∧ v.disk.SameBut [p] v₃.disk := by
  have hback : front.length ≤ (front ++ middle ++ back).length := by
    simp only [List.length_append]
    omega
  obtain ⟨o₁, v₁, hrun₁, hholds₁, hposition₁, hsame₁⟩ := on_seek h hback
  obtain ⟨o₂, v₂, hrun₂, hholds₂, -, hsame₂⟩ := on_write hholds₁ new
  rw [hposition₁, Bytes.overlay_middle hlength] at hholds₂
  obtain ⟨o₃, v₃, hrun₃, hholds₃, hposition₃, hsame₃⟩ := on_seek hholds₂ (Nat.le_refl _)
  exact ⟨o₁, v₁, o₂, v₂, o₃, v₃, hrun₁, hrun₂, hrun₃, hholds₃, hposition₃, (hsame₁.trans hsame₂).trans hsame₃⟩

end Output

end SortedTable
