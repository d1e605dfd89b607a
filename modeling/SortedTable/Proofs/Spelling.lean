import SortedTable.Proofs.Parsing

namespace SortedTable

namespace Path

variable {p q dir : Path} {name : Bytes}

/-- A front is an idle piece, so the parts are those of the whole path. -/
theorem Begins.filter_eq {front : Bytes} {behind all : List Bytes} (h : Begins front behind all) :
    behind.filter (!isIdle ·) = all.filter (!isIdle ·) := by
  cases h with
  | relative => rfl
  | root => rfl
  | here more => rfl

theorem parts_eq (p : Path) : p.parts = (p.bytes.splitOn slash).filter (!isIdle ·) :=
  (begins_pieces p).filter_eq

theorem filter_leading (dir : Path) : dir.leading.filter (!isIdle ·) = dir.parts := by
  rw [parts_eq]
  rcases splitOn_leading dir with hsplit | hsplit
  · rw [hsplit]
  · rw [hsplit, List.filter_append]
    exact (List.append_nil _).symm

theorem parts_join (h : FileName name) (dir : Path) : (dir.join ⟨name⟩).parts = dir.parts ++ [name] := by
  rw [parts_eq, splitOn_join h, List.filter_append, filter_leading, List.filter_cons, h.notIdle]
  rfl

/-- What stands behind a slash has no say in the front. -/
theorem front_append_slash (bytes rest : Bytes) :
    front ⟨bytes ++ slash :: rest⟩ = if bytes = [] then [slash] else front ⟨bytes⟩ := by
  match bytes with
  | [] => rfl
  | [b] =>
      by_cases hb : b = point
      · subst hb
        rfl
      · simp [front, isAbsolute, startsHere, hb]
  | b :: c :: more => rfl

theorem front_of_fileName (h : FileName name) : front ⟨name⟩ = [] := by
  have hpoint : name ≠ [point] := by
    rintro rfl
    exact absurd h.notIdle (by decide)
  match name, h.ne_nil with
  | [b], _ =>
      have hslash : b ≠ slash := fun hb => h.noSlash (by rw [hb]; exact List.mem_singleton_self _)
      have hb : b ≠ point := fun hb => hpoint (by rw [hb])
      simp [front, isAbsolute, startsHere, hslash, hb]
  | b :: c :: more, _ =>
      have hb : b ≠ slash := fun hb => h.noSlash (by rw [hb]; exact List.mem_cons_self)
      have hc : c ≠ slash := fun hc => h.noSlash (by rw [hc]; exact List.mem_cons_of_mem _ List.mem_cons_self)
      simp [front, isAbsolute, startsHere, hb, hc]

theorem front_join (h : FileName name) (dir : Path) : (dir.join ⟨name⟩).front = dir.front := by
  obtain ⟨bytes⟩ := dir
  change (⟨(join ⟨bytes⟩ ⟨name⟩).bytes⟩ : Path).front = _
  rw [bytes_join h]
  dsimp only
  by_cases hempty : bytes = []
  · rw [if_pos (.inl hempty), hempty, List.nil_append, front_of_fileName h]
    rfl
  by_cases hlast : bytes.getLast? = some slash
  · have hbytes : bytes = bytes.dropLast ++ slash :: [] := by
      rw [List.getLast?_eq_some_getLast hempty] at hlast
      rw [← Option.some.inj hlast]
      exact (List.dropLast_concat_getLast hempty).symm
    rw [if_pos (.inr hlast), hbytes, List.append_assoc, List.cons_append, List.nil_append, front_append_slash,
      front_append_slash]
  · rw [if_neg (not_or.mpr ⟨hempty, hlast⟩), front_append_slash, if_neg hempty]

theorem Begins.front_parts {front : Bytes} {behind all : List Bytes} (h : Begins front behind all) :
    Path.front ⟨front⟩ = front ∧ parts ⟨front⟩ = [] := by
  cases h <;> decide

theorem bytes_eq (p : Path) : p.bytes = p.front ++ [slash].intercalate p.pieces := by
  have hfront : p.front = p.bytes.take p.front.length := by
    unfold front
    split
    · rw [List.length_take, List.take_eq_take_min]
    · rfl
  conv => lhs; rw [← List.take_append_drop p.front.length p.bytes, ← hfront]
  rw [pieces, List.intercalate_splitOn]

theorem intercalate_append {kept more : List Bytes} (hkept : kept ≠ []) (hmore : more ≠ []) :
    [slash].intercalate (kept ++ more) = [slash].intercalate kept ++ slash :: [slash].intercalate more := by
  induction kept with
  | nil => exact absurd rfl hkept
  | cons piece rest ih =>
      rw [List.cons_append, List.intercalate_cons_of_ne_nil (List.append_ne_nil_of_right_ne_nil _ hmore)]
      by_cases hrest : rest = []
      · rw [hrest, List.nil_append, List.intercalate_singleton, List.append_assoc, List.singleton_append]
      · rw [ih hrest, List.intercalate_cons_of_ne_nil hrest]
        simp only [List.append_assoc]

/-- Idle pieces at the end are no parts. -/
theorem filter_rdropWhile (pieces : List Bytes) :
    (pieces.rdropWhile isIdle).filter (!isIdle ·) = pieces.filter (!isIdle ·) := by
  have hnil : (pieces.rtakeWhile isIdle).filter (!isIdle ·) = [] := by
    rw [List.filter_eq_nil_iff]
    intro piece hpiece
    rw [List.mem_rtakeWhile_imp hpiece]
    decide
  conv => rhs; rw [← List.rdropWhile_append_rtakeWhile (p := isIdle) (l := pieces), List.filter_append, hnil]
  rw [List.append_nil]

/-- The path of what stands before a piece, without the idle pieces at the end. -/
theorem front_parts_before {before rest : List Bytes} {piece : Bytes} (hpieces : p.pieces = before ++ piece :: rest) :
    front ⟨p.front ++ [slash].intercalate (before.rdropWhile isIdle)⟩ = p.front ∧
      parts ⟨p.front ++ [slash].intercalate (before.rdropWhile isIdle)⟩ = before.filter (!isIdle ·) := by
  by_cases hkept : before.rdropWhile isIdle = []
  · have hnil : before.filter (!isIdle ·) = [] := by
      rw [← filter_rdropWhile, hkept]
      rfl
    have hbytes : p.front ++ [slash].intercalate [] = p.front := List.append_nil _
    rw [hkept, hnil, hbytes]
    exact (begins_pieces p).front_parts
  have hslash : ∀ piece ∈ before.rdropWhile isIdle, slash ∉ piece := by
    intro piece hpiece
    apply slash_notMem_of_mem_splitOn
    change piece ∈ p.pieces
    rw [hpieces]
    exact List.mem_append_left _ ((List.rdropWhile_prefix isIdle before).subset hpiece)
  have hsplit := List.splitOn_intercalate slash hslash hkept
  have hne : p.front ++ [slash].intercalate (before.rdropWhile isIdle) ≠ [] := by
    intro hnil
    rw [(List.append_eq_nil_iff.mp hnil).2, List.splitOn_nil] at hsplit
    have hlast := List.rdropWhile_last_not isIdle before hkept
    simp only [← hsplit] at hlast
    exact hlast rfl
  -- What is kept stands before one of the slashes of the whole.
  have hwhole : p.bytes = (p.front ++ [slash].intercalate (before.rdropWhile isIdle)) ++
      slash :: [slash].intercalate (before.rtakeWhile isIdle ++ piece :: rest) := by
    rw [List.append_assoc, ← intercalate_append hkept (by simp), ← List.append_assoc,
      List.rdropWhile_append_rtakeWhile, ← hpieces]
    exact bytes_eq p
  have hfront : front ⟨p.front ++ [slash].intercalate (before.rdropWhile isIdle)⟩ = p.front := by
    have hcut := front_append_slash (p.front ++ [slash].intercalate (before.rdropWhile isIdle))
      ([slash].intercalate (before.rtakeWhile isIdle ++ piece :: rest))
    rw [← hwhole, if_neg hne] at hcut
    exact hcut.symm
  refine ⟨hfront, ?_⟩
  rw [parts, pieces, hfront, List.drop_left, hsplit, filter_rdropWhile]

/-- What a path ends in is all that its parent lacks. -/
theorem parent?_of_fileName? (h : p.fileName? = some name) :
    ∃ q, p.parent? = some q ∧ q.front = p.front ∧ p.parts = q.parts ++ [name] := by
  have hlast : p.parts.getLast? = some name := (Option.filter_eq_some_iff.mp h).1
  have hparts : p.parts = (p.pieces.rdropWhile isIdle).filter (!isIdle ·) := (filter_rdropWhile p.pieces).symm
  rcases List.eq_nil_or_concat' (p.pieces.rdropWhile isIdle) with hnil | ⟨before, last, htrimmed⟩
  · rw [hparts, hnil] at hlast
    cases hlast
  have hpieces : p.pieces = before ++ last :: p.pieces.rtakeWhile isIdle := by
    conv => lhs; rw [← List.rdropWhile_append_rtakeWhile (p := isIdle) (l := p.pieces), htrimmed]
    rw [List.append_assoc, List.singleton_append]
  have hidle : isIdle last = false := by
    have hnot := List.rdropWhile_last_not isIdle p.pieces (by simp [htrimmed])
    simpa [htrimmed] using hnot
  have hbefore : p.parts = before.filter (!isIdle ·) ++ [last] := by
    rw [hparts, htrimmed, List.filter_append, List.filter_cons, hidle]
    rfl
  obtain rfl : last = name := by
    rw [hbefore, List.getLast?_concat] at hlast
    exact Option.some.inj hlast
  have hparent : p.parent? = some ⟨p.front ++ [slash].intercalate (before.rdropWhile isIdle)⟩ := by
    have hdrop : p.pieces.reverse.dropWhile isIdle = last :: before.reverse := by
      rw [List.rdropWhile] at htrimmed
      rw [← List.reverse_reverse (List.dropWhile _ _), htrimmed, List.reverse_append]
      rfl
    rw [parent?, hdrop]
    rfl
  obtain ⟨hfront, hparentParts⟩ := front_parts_before hpieces
  exact ⟨_, hparent, hfront, by rw [hparentParts, hbefore]⟩

/-- The parent of a file in a directory is the same path as the directory. -/
theorem parent?_join_same (h : FileName name) (dir : Path) :
    ∃ dir', (dir.join ⟨name⟩).parent? = some dir' ∧ dir'.Same dir := by
  obtain ⟨dir', hparent, hfront, hparts⟩ := parent?_of_fileName? (fileName?_join h dir)
  rw [front_join h] at hfront
  rw [parts_join h] at hparts
  exact ⟨dir', hparent, hfront, (List.append_cancel_right hparts).symm⟩

/-- A path is made again of its parent and of the name that it ends in, and of no other name. -/
theorem join_parent?_same_iff {other : Bytes} (h : p.fileName? = some name) (hparent : p.parent? = some q)
    (hother : FileName other) : (q.join ⟨other⟩).Same p ↔ other = name := by
  obtain ⟨q', hparent', hfront, hparts⟩ := parent?_of_fileName? h
  obtain rfl := Option.some.inj (hparent'.symm.trans hparent)
  unfold Same
  rw [front_join hother, parts_join hother, hparts, List.append_cancel_left_eq, List.singleton_inj]
  exact and_iff_right hfront

theorem Same.fileName? (h : p.Same q) : p.fileName? = q.fileName? := by
  rw [Path.fileName?, Path.fileName?, h.2]

end Path

namespace Descriptor

variable {d : Descriptor} {c : Component} {path : Path} {style : Decimal.Style}

theorem spelled_inj {generation generation' : String} :
    d.spelled generation c = d.spelled generation' c ↔ generation = generation' := by
  constructor
  · intro h
    apply String.toList_injective
    have hlist := congrArg String.toList h
    simp only [spelled, String.toList_append] at hlist
    exact List.append_cancel_left (List.append_cancel_right (List.append_cancel_right hlist))
  · rintro rfl
    rfl

/-- The name that is made of the descriptor has its number written plainly, and no other that spells it has. -/
theorem nameOf_eq_spelled_iff :
    d.nameOf c = Bytes.ofString (d.spelled (style.write d.generation) c) ↔ style = .plain := by
  rw [nameOf, Bytes.ofString_inj, fileName_eq, spelled_inj, eq_comm, Decimal.Style.write_eq_toString_iff]

/-- The name of a component's file is read back, and tells the tables of a directory apart. -/
theorem names_read_back (hd : d.Named) (hgeneration : d.generation < Decimal.limit64) (c : Component) :
    (∃ d', ofPath? (d.pathOf c) = some (d', c) ∧ d'.table = d.table ∧ d'.version = d.version ∧
        d'.generation = d.generation ∧ d'.temporary = d.temporary ∧ d'.directory.Same d.directory ∧
        d'.keyspace = keyspaceOf d.directory) ∧
      ∀ (e : Descriptor) (c' : Component), e.Named → ((d.pathOf c).fileName? = (e.pathOf c').fileName? ↔
        d.table = e.table ∧ d.version = e.version ∧ d.generation = e.generation ∧ d.temporary = e.temporary ∧
          c = c') := by
  have hname : ∀ {e : Descriptor} (c : Component), e.Named → (e.pathOf c).fileName? = some (e.nameOf c) :=
    fun c he => Path.fileName?_join (he.fileName_nameOf c) _
  constructor
  · obtain ⟨dir', hparent, hsame⟩ := Path.parent?_join_same (hd.fileName_nameOf c) d.directory
    have hkeyspace : keyspaceOf dir' = keyspaceOf d.directory := by
      rw [keyspaceOf, keyspaceOf, hsame.fileName?]
    exact ⟨_, ofPath?_of_parent? hd hgeneration hparent, rfl, rfl, rfl, rfl, hsame, hkeyspace⟩
  · intro e c' he
    rw [hname c hd, hname c' he, Option.some_inj]
    exact nameOf_eq_iff hd he

/-- A table of the name of the mark, of the last generation, in a directory that is written with idle pieces. -/
def markTable : Descriptor :=
  .current (.ofString "./a//b/./") "b" temporaryMark 18446744073709551615 true

theorem named_markTable : markTable.Named := ⟨by decide, validVersion_currentVersion⟩

theorem names_read_back_mark :
    (∃ d', ofPath? (markTable.pathOf .statistics) = some (d', .statistics) ∧ d'.table = temporaryMark ∧
        d'.version = currentVersion ∧ d'.generation = 18446744073709551615 ∧ d'.temporary = true ∧
        d'.directory.Same (.ofString "./a//b/./") ∧ d'.keyspace = keyspaceOf (.ofString "./a//b/./")) ∧
      (markTable.pathOf .statistics).fileName? ≠ (markTable.published.pathOf .statistics).fileName? := by
  obtain ⟨hread, hapart⟩ := names_read_back named_markTable (by decide) .statistics
  refine ⟨hread, fun hsame => ?_⟩
  obtain ⟨-, -, -, htemporary, -⟩ := (hapart _ _ (named_markTable.asTemporary false)).mp hsame
  cases htemporary

/-- What is read from a path is filed again under this path only if its number is written plainly there. All the
names that spell it, behind a sign and zeros or not, are read as the same, and of the files in a directory the one
that was read is found again only under the plain name. -/
theorem refiled_iff (h : ofPath? path = some (d, c)) :
    ∃ style : Decimal.Style, path.fileName? = some (Bytes.ofString (d.spelled (style.write d.generation) c)) ∧
      ((d.pathOf c).Same path ↔ style = .plain) ∧
      (∀ other : Path, other.parent? = path.parent? → (ofPath? other = some (d, c) ↔ ∃ style' : Decimal.Style,
        other.fileName? = some (Bytes.ofString (d.spelled (style'.write d.generation) c)))) ∧
      ∀ (disk : Disk) (dir : Path) (name : Bytes) (place : Place), FileName name → path = dir.join ⟨name⟩ →
        disk.Reaches path place → (disk.Reaches (d.pathOf c) place ↔ style = .plain) := by
  obtain ⟨hd, hgeneration, hdirectory, hkeyspace, style, hname⟩ := ofPath?_eq_some_iff.mp h
  have hfile := hd.fileName_nameOf c
  refine ⟨style, hname, ?_, ?_, ?_⟩
  · obtain ⟨q, hparent, -⟩ := Path.parent?_of_fileName? hname
    rw [hparent, Option.getD_some] at hdirectory
    rw [pathOf_eq, hdirectory, Path.join_parent?_same_iff hname hparent hfile]
    exact nameOf_eq_spelled_iff
  · intro other hparent
    rw [← hparent] at hdirectory
    exact ⟨fun hother => (ofPath?_eq_some_iff.mp hother).spelled,
      fun hspelled => ofPath?_eq_some_iff.mpr ⟨hd, hgeneration, hdirectory, hkeyspace, hspelled⟩⟩
  · rintro disk dir name place hsingle rfl hreach
    -- The directory of the descriptor may be written shorter than the one that was listed, but it is the same place.
    obtain rfl : name = Bytes.ofString (d.spelled (style.write d.generation) c) := by
      rw [Path.fileName?_join hsingle] at hname
      exact Option.some.inj hname
    have hshortens := shortens_of_ofPath? hsingle h
    obtain ⟨hopens, haccepts, rfl⟩ := (Disk.reaches_join_iff hsingle).mp hreach
    rw [pathOf_eq, Disk.reaches_join_iff hfile, hshortens.home, List.append_cancel_left_eq, List.singleton_inj, eq_comm,
      nameOf_eq_spelled_iff]
    constructor
    · exact fun hfound => hfound.2.2
    · rintro rfl
      have hplain : d.nameOf c = Bytes.ofString (d.spelled (Decimal.Style.plain.write d.generation) c) :=
        nameOf_eq_spelled_iff.mpr rfl
      refine ⟨hopens.of_shortens hshortens, ?_, rfl⟩
      rw [hplain]
      exact haccepts.of_shortens hsingle hshortens

/-- A path with zeros in front of the generation. -/
def zeroedPath : Path := .ofString "ks/users-e-007-Data.db"

def seventhTable : Descriptor :=
  .current (.ofString "ks") (keyspaceOf (.ofString "ks")) "users" 7 false

theorem ofPath?_zeroedPath : ofPath? zeroedPath = some (seventhTable, .data) :=
  ofPath?_eq_some_iff.mpr ⟨⟨by decide, validVersion_currentVersion⟩, by decide, by decide, rfl, ⟨false, 2⟩, by decide⟩

theorem refiled_iff_zeroed :
    ∃ style : Decimal.Style,
      zeroedPath.fileName? = some (Bytes.ofString (seventhTable.spelled (style.write 7) .data)) ∧
      ((seventhTable.pathOf .data).Same zeroedPath ↔ style = .plain) ∧
      (∀ other : Path, other.parent? = zeroedPath.parent? →
        (ofPath? other = some (seventhTable, .data) ↔ ∃ style' : Decimal.Style,
          other.fileName? = some (Bytes.ofString (seventhTable.spelled (style'.write 7) .data)))) ∧
      ∀ (disk : Disk) (dir : Path) (name : Bytes) (place : Place), FileName name → zeroedPath = dir.join ⟨name⟩ →
        disk.Reaches zeroedPath place → (disk.Reaches (seventhTable.pathOf .data) place ↔ style = .plain) :=
  refiled_iff ofPath?_zeroedPath

/-- Two names in one directory that are read as the same component of the same table. -/
theorem zeroed_not_refiled :
    ofPath? zeroedPath = some (seventhTable, .data) ∧
      ofPath? (.ofString "ks/users-e-7-Data.db") = some (seventhTable, .data) ∧
      zeroedPath.parent? = (Path.ofString "ks/users-e-7-Data.db").parent? ∧
      zeroedPath.fileName? ≠ (Path.ofString "ks/users-e-7-Data.db").fileName? ∧
      ¬ (seventhTable.pathOf .data).Same zeroedPath :=
  ⟨ofPath?_zeroedPath, ofPath?_eq_some_iff.mpr ⟨⟨by decide, validVersion_currentVersion⟩, by decide, by decide, rfl,
    .plain, by decide⟩, by decide, by decide, by decide⟩

end Descriptor

end SortedTable
