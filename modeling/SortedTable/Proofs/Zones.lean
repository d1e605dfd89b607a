import SortedTable.Proofs.Ahead

/-!
# Zones

The files of a table are told by their names, and no name is that of a file of two tables with different names. The
zone of a table name in a directory is what lies there under such a name, with all that is below. The way to the
directory is what its path passes: that the directory is there is up to the way, and what its files are is up to the
zone. Main statements: `Path.Area.eq`, `Zone.covers_pathOf`, `Action.within_makeDirectories`.
-/

namespace SortedTable

open Disk

namespace Descriptor

/-- The name is read as that of a file of the table. There is no bound on the generation here. -/
structure Names (table : String) (name : Bytes) : Prop where
  single : FileName name
  reads : ∃ text temporary version generation suffix limit n c, Text.ofUtf8? name = some text ∧
    fields? text = some (temporary, table, version, generation, suffix) ∧ ValidVersion version ∧
      Decimal.natural? limit generation = some n ∧ Component.ofSuffix? suffix = some c

variable {table table' : String} {name : Bytes} {d : Descriptor} {c : Component}

theorem Names.eq (h : Names table name) (h' : Names table' name) : table = table' := by
  obtain ⟨text, temporary, version, generation, suffix, -, -, -, htext, hfields, -⟩ := h.reads
  obtain ⟨text', temporary', version', generation', suffix', -, -, -, htext', hfields', -⟩ := h'.reads
  obtain rfl := Option.some.inj (htext.symm.trans htext')
  have hsame := Option.some.inj (hfields.symm.trans hfields')
  exact (Prod.mk.inj (Prod.mk.inj hsame).2).1

theorem Named.names (hd : d.Named) (c : Component) : Names d.table (d.nameOf c) := by
  have hgeneration : Decimal.natural? (d.generation + 1) (toString d.generation) = some d.generation :=
    Decimal.natural?_toString (Nat.lt_succ_self _)
  exact ⟨hd.fileName_nameOf c, d.fileName c, d.temporary, d.version, toString d.generation, c.suffix, _, _, c,
    Text.ofUtf8?_ofString _, fields?_fileName hd c, hd.validVersion, hgeneration, Component.ofSuffix?_suffix c⟩

/-- What is read from the path of a file in a directory is read from the file's name alone. -/
theorem names_of_ofPath? {dir : Path} (hname : FileName name) (h : ofPath? (dir.join ⟨name⟩) = some (d, c)) :
    Names d.table name ∧ ValidVersion d.version := by
  obtain ⟨hd, hgeneration, -, -, style, hspelled⟩ := ofPath?_eq_some_iff.mp h
  rw [Path.fileName?_join hname] at hspelled
  obtain rfl := Option.some.inj hspelled
  have hfields := fields?_spelled hd (style.notMem_write (by decide) (by decide) d.generation) c
  have hnumber : Decimal.natural? Decimal.limit64 (style.write d.generation) = some d.generation :=
    Decimal.natural?_eq_some_iff.mpr ⟨hgeneration, style, rfl⟩
  exact ⟨⟨hname, _, d.temporary, d.version, style.write d.generation, c.suffix, _, d.generation, c,
    Text.ofUtf8?_ofString _, hfields, hd.validVersion, hnumber, Component.ofSuffix?_suffix c⟩, hd.validVersion⟩

end Descriptor

namespace Path

variable {dir q : Path} {table table' : String} {p : Place} {pieces : List Bytes}

/-- What lies in the directory under a name of the table's files, or below it. -/
def Area (dir : Path) (table : String) (p : Place) : Prop :=
  ∃ name rest, Descriptor.Names table name ∧ p = dir.home ++ name :: rest

theorem Area.eq (h : dir.Area table p) (h' : dir.Area table' p) : table = table' := by
  obtain ⟨name, rest, hnames, rfl⟩ := h
  obtain ⟨name', rest', hnames', hp⟩ := h'
  obtain ⟨rfl, -⟩ := List.cons.inj (List.append_cancel_left hp)
  exact hnames.eq hnames'

theorem Area.below (h : dir.Area table p) {below : Place} (hbelow : p <+: below) : dir.Area table below := by
  obtain ⟨name, rest, hnames, rfl⟩ := h
  obtain ⟨more, rfl⟩ := hbelow
  exact ⟨name, rest ++ more, hnames, by rw [List.append_assoc, List.cons_append]⟩

theorem Area.ne_nil (h : dir.Area table p) : p ≠ [] := by
  obtain ⟨name, rest, -, rfl⟩ := h
  simp

theorem Area.fileName {name : Bytes} (h : dir.Area table (dir.home ++ [name])) : FileName name := by
  obtain ⟨name', rest, hnames, hp⟩ := h
  obtain ⟨rfl, -⟩ := List.cons.inj (List.append_cancel_left hp)
  exact hnames.single

/-- The places that a path passes on the way to where it leads, this one included. -/
def Way (dir : Path) (p : Place) : Prop := ∃ pieces, pieces <+: dir.leading ∧ p = pieces.foldl Place.enter []

theorem way_home (dir : Path) : dir.Way dir.home := ⟨dir.leading, List.prefix_rfl, rfl⟩

theorem Way.of_isPrefix (h : q.Way p) (hstarts : q.leading <+: dir.leading) : dir.Way p := by
  obtain ⟨pieces, hpieces, rfl⟩ := h
  exact ⟨pieces, hpieces.trans hstarts, rfl⟩

theorem Shortens.isPrefix (h : q.Shortens dir) : q.leading <+: dir.leading := by
  obtain ⟨idle, hleading, -⟩ := h
  exact ⟨idle, hleading.symm⟩

theorem isPrefix_foldl_enter (h : ∀ piece ∈ pieces, isParent piece = false) (p : Place) :
    p <+: pieces.foldl Place.enter p := by
  induction pieces generalizing p with
  | nil => exact List.prefix_rfl
  | cons piece rest ih =>
      obtain ⟨hpiece, hrest⟩ := List.forall_mem_cons.mp h
      have hfirst : p <+: p.enter piece := by
        unfold Place.enter
        rw [hpiece]
        split
        · exact List.prefix_rfl
        · exact List.prefix_append _ _
      exact hfirst.trans (ih hrest _)

/-- A path without steps back passes no place but its end and those above. -/
theorem Way.not_area (h : dir.Way p) (hdown : ∀ piece ∈ dir.leading, isParent piece = false) :
    ¬ dir.Area table p := by
  rintro ⟨name, rest, -, hp⟩
  obtain ⟨pieces, ⟨more, hleading⟩, hend⟩ := h
  have hhome : dir.home = more.foldl Place.enter p := by
    rw [home, ← hleading, List.foldl_append, hend]
  have hstarts : p <+: dir.home := by
    rw [hhome]
    exact isPrefix_foldl_enter (fun piece hpiece => hdown piece (hleading ▸ List.mem_append_right _ hpiece)) p
  have hlength := congrArg List.length hp
  rw [List.length_append, List.length_cons] at hlength
  have hle := hstarts.length_le
  omega

/-- The pieces before a name, of which the last may be idle. -/
theorem leading_eq_trimmed (dir : Path) :
    ∃ idle, dir.leading = dir.trimmed ++ idle ∧ ∀ piece ∈ idle, isIdle piece = true := by
  have htrimmed : dir.trimmed = (dir.bytes.splitOn slash).rdropWhile (· = []) := rfl
  have hkept : dir.trimmed = dir.leading.rdropWhile (· = []) := by
    rw [htrimmed]
    rcases splitOn_leading dir with hsplit | hsplit
    · rw [hsplit]
    · rw [hsplit]
      exact List.rdropWhile_concat_pos _ _ _ rfl
  refine ⟨dir.leading.rtakeWhile (· = []), ?_, fun piece hpiece => ?_⟩
  · rw [hkept, List.rdropWhile_append_rtakeWhile]
  · have hnil := List.mem_rtakeWhile_imp hpiece
    rw [decide_eq_true_iff] at hnil
    rw [hnil]
    rfl

theorem way_iff : dir.Way p ↔ ∃ pieces, pieces <+: dir.trimmed ∧ p = pieces.foldl Place.enter [] := by
  obtain ⟨idle, hleading, hidle⟩ := leading_eq_trimmed dir
  constructor
  · rintro ⟨pieces, hpieces, rfl⟩
    rcases List.prefix_or_prefix_of_prefix hpieces (hleading ▸ List.prefix_append dir.trimmed idle) with h | h
    · exact ⟨pieces, h, rfl⟩
    · obtain ⟨more, rfl⟩ := h
      rw [hleading, List.prefix_append_right_inj] at hpieces
      refine ⟨dir.trimmed, List.prefix_rfl, ?_⟩
      rw [List.foldl_append, foldl_enter_of_idle fun piece hpiece => hidle piece (hpieces.subset hpiece)]
  · rintro ⟨pieces, hpieces, rfl⟩
    exact ⟨pieces, hpieces.trans ⟨idle, hleading.symm⟩, rfl⟩

theorem Begins.of_append {front : Bytes} {before rest all : List Bytes} {piece : Bytes}
    (hpiece : isIdle piece = false) (h : Begins front (before ++ piece :: rest) all) :
    ∃ first, all = first ++ piece :: rest ∧ Begins front before first := by
  generalize hbehind : before ++ piece :: rest = behind at h
  cases h with
  | relative => exact ⟨before, hbehind.symm, .relative _⟩
  | root => exact ⟨[] :: before, by rw [← hbehind, List.cons_append], .root _⟩
  | here more =>
      cases before with
      | nil =>
          rw [(List.cons.inj hbehind).1] at hpiece
          exact absurd hpiece (by decide)
      | cons head tail =>
          obtain ⟨rfl, rfl⟩ := List.cons.inj hbehind
          exact ⟨[point] :: tail, rfl, .here tail⟩

theorem leading_parent? {path : Path} (h : path.parent? = some q) : q.leading <+: path.leading := by
  unfold parent? at h
  split at h
  · rename_i last before hdrop
    obtain rfl := (Option.some.inj h).symm
    have hidle : isIdle last = false := by
      have hhead := List.head?_dropWhile_not isIdle path.pieces.reverse
      rw [hdrop] at hhead
      simpa using hhead
    have hpieces : path.pieces = before.reverse ++ last :: path.pieces.rtakeWhile isIdle := by
      have hkept : path.pieces.rdropWhile isIdle = before.reverse ++ [last] := by
        rw [List.rdropWhile, hdrop, List.reverse_cons]
      conv => lhs; rw [← List.rdropWhile_append_rtakeWhile (p := isIdle) (l := path.pieces), hkept]
      rw [List.append_assoc, List.singleton_append]
    have hbegins := begins_pieces path
    rw [hpieces] at hbegins
    obtain ⟨first, hall, hfirst⟩ := hbegins.of_append hidle
    have hslash : ∀ piece ∈ before.reverse, slash ∉ piece := by
      intro piece hpiece
      apply slash_notMem_of_mem_splitOn
      change piece ∈ path.pieces
      rw [hpieces]
      exact List.mem_append_left _ hpiece
    obtain ⟨idle, hleading, -⟩ := hfirst.leading_kept hslash
    rw [List.rdropWhile, List.reverse_reverse] at hleading
    refine List.IsPrefix.trans ⟨idle, hleading.symm⟩ ?_
    have hstarts : first <+: path.bytes.splitOn slash := ⟨_, hall.symm⟩
    have hlength := congrArg List.length hall
    rw [List.length_append, List.length_cons] at hlength
    rcases splitOn_leading path with hsplit | hsplit
    · rw [← hsplit]
      exact hstarts
    · rw [hsplit] at hstarts
      rw [hsplit, List.length_append, List.length_singleton] at hlength
      exact List.prefix_of_prefix_length_le hstarts (List.prefix_append _ _) (by omega)
  · split at h
    · cases h
      exact List.nil_prefix
    · cases h

end Path

/-- A table name in a directory, whose path does not lead through what lies there under the table's names. -/
@[ext]
structure Zone where
  dir : Path
  table : String
  validTable : Descriptor.ValidTable table
  clear : ∀ p, dir.Way p → ¬ dir.Area table p

namespace Zone

variable {z : Zone} {d : Descriptor} {path : Path} {p : Place}

abbrev Area (z : Zone) (p : Place) : Prop := z.dir.Area z.table p

/-- A descriptor of a table in the zone. -/
structure Owns (z : Zone) (d : Descriptor) : Prop where
  directory : d.directory.Shortens z.dir
  table : d.table = z.table
  validVersion : Descriptor.ValidVersion d.version

theorem Owns.named (h : z.Owns d) : d.Named := ⟨h.table ▸ z.validTable, h.validVersion⟩

theorem Owns.asTemporary (h : z.Owns d) (temporary : Bool) : z.Owns (d.asTemporary temporary) :=
  ⟨h.directory, h.table, h.validVersion⟩

theorem Owns.published (h : z.Owns d) : z.Owns d.published := h.asTemporary false

/-- A path to somewhere in the zone, along the way to the directory. -/
structure Covers (z : Zone) (path : Path) : Prop where
  way : ∀ pieces, pieces <+: path.trimmed.dropLast → z.dir.Way (pieces.foldl Place.enter [])
  area : z.Area path.home

theorem covers_pathOf (h : z.Owns d) (c : Component) : z.Covers (d.pathOf c) := by
  have hname := h.named.fileName_nameOf c
  rw [Descriptor.pathOf_eq]
  refine ⟨fun pieces hpieces => ?_, d.nameOf c, [], ?_, ?_⟩
  · rw [Path.trimmed_join hname, List.dropLast_concat] at hpieces
    exact ⟨pieces, hpieces.trans h.directory.isPrefix, rfl⟩
  · rw [← h.table]
    exact h.named.names c
  · rw [Path.home_join hname, h.directory.home]

theorem owns_current (z : Zone) (keyspace : String) (generation : Nat) (temporary : Bool) :
    z.Owns (.current z.dir keyspace z.table generation temporary) :=
  ⟨⟨[], (List.append_nil _).symm, by simp⟩, rfl, Descriptor.validVersion_currentVersion⟩

theorem owns_of_ofPath? {name : Bytes} {c : Component} (hname : FileName name)
    (h : Descriptor.ofPath? (z.dir.join ⟨name⟩) = some (d, c)) (htable : d.table = z.table) :
    z.Owns d ∧ z.Area (z.dir.home ++ [name]) := by
  obtain ⟨hnames, hversion⟩ := Descriptor.names_of_ofPath? hname h
  rw [htable] at hnames
  exact ⟨⟨Descriptor.shortens_of_ofPath? hname h, htable, hversion⟩, name, [], hnames, rfl⟩

end Zone

namespace Action

variable {dir path : Path}

theorem agrees_makeDirectory {d d' : Disk} (h : d.makeDirectory path = .ok d') : Agrees (· ≠ path.home) d d' := by
  obtain ⟨hnode, rfl⟩ := makeDirectory_eq_ok h
  have hne := ne_nil_of_node?_eq_none hnode
  refine ⟨fun p hp => ?_, fun p hp => ?_⟩
  · rw [tree_addDirectory hne, Tree.put_of_ne hp]
  · rw [node?_addDirectory hne, if_neg hp]

theorem within_ensureDirectory_way (hway : dir.Way path.home) (v : Volume) :
    (ensureDirectory path).Within (Agrees fun p => ¬ dir.Way p) v := by
  refine .tryCatch (.change_ fun _ h => (agrees_makeDirectory h).mono ?_) fun e v' _ => .of_looks ?_ _
  · rintro p hp rfl
    exact hp hway
  · refine looks_get.bind fun volume => ?_
    split
    · exact looks_pure _
    · exact looks_throw _

/-- To make a directory changes nothing but on the way to it. -/
theorem within_makeDirectories (dir : Path) (v : Volume) :
    (makeDirectories dir).Within (Agrees fun p => ¬ dir.Way p) v := by
  have hall : ∀ depth path v, Path.leading path <+: dir.leading →
      (makeDirectoriesTo depth path).Within (Agrees fun p => ¬ dir.Way p) v := by
    intro depth
    induction depth with
    | zero =>
        intro path v hstarts
        unfold makeDirectoriesTo
        split
        · exact within_ensureDirectory_way (path.way_home.of_isPrefix hstarts) v
        · exact .refl _ _
    | succ depth ih =>
        intro path v hstarts
        have hway := path.way_home.of_isPrefix hstarts
        unfold makeDirectoriesTo
        split
        · refine .tryCatch (within_ensureDirectory_way hway v) fun e v' hrun => ?_
          split
          · rename_i parent hparent
            refine .bind (ih parent v' ((Path.leading_parent? hparent).trans hstarts)) fun _ v'' _ => ?_
            exact within_ensureDirectory_way hway v''
          · exact .of_looks (looks_throw _) _
        · exact .refl _ _
  exact hall _ dir v List.prefix_rfl

end Action

end SortedTable
