import Mathlib.Data.List.DropRight
import Mathlib.Data.Option.Basic
import SortedTable.Proofs.Codec.Naturals
import SortedTable.Proofs.Files

/-!
# Names read back

The path of a table's file is read back as the table's descriptor and the component. The directory comes
back without the pieces at its end that say nothing, and so it is another path of the same directory. What is
read from any path is the descriptor that its name spells. Main statements: `ofPath?_eq_some_iff`, `ofPath?_pathOf`.
-/

namespace SortedTable

theorem notMem_of_mem_splitOn {α : Type*} [BEq α] [LawfulBEq α] {x : α} {whole piece : List α}
    (h : piece ∈ whole.splitOn x) : x ∉ piece := by
  induction whole generalizing piece with
  | nil =>
      rw [List.splitOn_nil, List.mem_singleton] at h
      rw [h]
      exact List.not_mem_nil
  | cons a rest ih =>
      rw [List.splitOn_cons_eq_if_modifyHead] at h
      by_cases ha : (a == x) = true
      · rw [if_pos ha, List.mem_cons] at h
        rcases h with rfl | h
        · exact List.not_mem_nil
        · exact ih h
      · rw [if_neg ha] at h
        obtain ⟨head, tail, hsplit⟩ := List.exists_cons_of_ne_nil (List.splitOn_ne_nil x rest)
        rw [hsplit, List.modifyHead_cons, List.mem_cons] at h
        rcases h with rfl | h
        · rw [List.mem_cons, not_or]
          exact ⟨fun hx => ha (beq_iff_eq.mpr hx.symm), ih (hsplit ▸ List.mem_cons_self)⟩
        · exact ih (hsplit ▸ List.mem_cons_of_mem _ h)

namespace Path

variable {dir dir' : Path} {name : Bytes}

/-- A path that lacks at most idle pieces at the end of another. -/
def Shortens (dir' dir : Path) : Prop :=
  ∃ idle, dir.leading = dir'.leading ++ idle ∧ ∀ piece ∈ idle, isIdle piece = true

theorem intercalate_concat (pieces : List Bytes) (last : Bytes) :
    [slash].intercalate (pieces ++ [last]) = pieces.flatMap (· ++ [slash]) ++ last := by
  induction pieces with
  | nil => simp [List.intercalate]
  | cons piece rest ih =>
      have hne : rest ++ [last] ≠ [] := by simp
      obtain ⟨head, tail, htail⟩ := List.exists_cons_of_ne_nil hne
      rw [List.cons_append, List.flatMap_cons, List.append_assoc, ← ih, htail]
      simp [List.intercalate]

theorem bytes_join_eq_flatMap (h : FileName name) :
    (dir.join ⟨name⟩).bytes = dir.leading.flatMap (· ++ [slash]) ++ name := by
  rw [← intercalate_concat, ← splitOn_join h, List.intercalate_splitOn]

theorem leading_intercalate {pieces : List Bytes} (hne : pieces ≠ []) (hslash : ∀ piece ∈ pieces, slash ∉ piece)
    (hlast : pieces.getLast hne ≠ []) : leading ⟨[slash].intercalate pieces⟩ = pieces := by
  have hlastMem := hslash _ (List.getLast_mem hne)
  have hbytes : [slash].intercalate pieces =
      pieces.dropLast.flatMap (· ++ [slash]) ++ pieces.getLast hne := by
    rw [← intercalate_concat, List.dropLast_concat_getLast]
  have hend : ([slash].intercalate pieces).getLast? ≠ some slash := by
    rw [hbytes, List.getLast?_append, List.getLast?_eq_some_getLast hlast, Option.some_or]
    exact fun hsome => hlastMem (Option.some.inj hsome ▸ List.getLast_mem hlast)
  have hnil : [slash].intercalate pieces ≠ [] := by
    rw [hbytes]
    exact List.append_ne_nil_of_right_ne_nil _ hlast
  rw [leading, if_neg hnil, if_neg hend, List.splitOn_intercalate slash hslash hne]

/-- A slash at the end is all that the pieces before a name lack. -/
theorem splitOn_leading (dir : Path) :
    dir.bytes.splitOn slash = dir.leading ∨ dir.bytes.splitOn slash = dir.leading ++ [[]] := by
  unfold leading
  by_cases hempty : dir.bytes = []
  · rw [if_pos hempty, hempty]
    exact .inr rfl
  rw [if_neg hempty]
  by_cases hlast : dir.bytes.getLast? = some slash
  · rw [if_pos hlast]
    have hdir : dir.bytes.dropLast ++ slash :: [] = dir.bytes := by
      rw [List.getLast?_eq_some_getLast hempty] at hlast
      rw [← Option.some.inj hlast]
      exact List.dropLast_concat_getLast hempty
    refine .inr ?_
    conv => lhs; rw [← hdir, List.splitOn_append_cons_self]
    rfl
  · rw [if_neg hlast]
    exact .inl rfl

theorem foldl_enter_of_idle {idle : List Bytes} (h : ∀ piece ∈ idle, isIdle piece = true) (p : Place) :
    idle.foldl Place.enter p = p := by
  induction idle with
  | nil => rfl
  | cons piece rest ih =>
      rw [List.foldl_cons, Place.enter, if_pos (h piece List.mem_cons_self)]
      exact ih fun piece' h' => h piece' (List.mem_cons_of_mem _ h')

theorem Shortens.home (h : dir'.Shortens dir) : dir'.home = dir.home := by
  obtain ⟨idle, hleading, hidle⟩ := h
  rw [Path.home, Path.home, hleading, List.foldl_append, foldl_enter_of_idle hidle]

end Path

namespace Disk

variable {disk : Disk} {dir dir' : Path} {name : Bytes}

theorem Opens.of_shortens (h : dir'.Shortens dir) (hopens : disk.Opens dir) : disk.Opens dir' := by
  obtain ⟨idle, hleading, -⟩ := id h
  obtain ⟨hwalk, hdir⟩ := hopens
  rw [hleading, List.foldlM_append] at hwalk
  rw [← h.home] at hdir
  refine ⟨?_, hdir⟩
  rcases hfirst : dir'.leading.foldlM disk.step [] with e | q
  · rw [hfirst] at hwalk
    cases hwalk
  · rw [Path.home, foldlM_step_eq_ok hfirst]

theorem Accepts.of_shortens (hname : FileName name) (h : dir'.Shortens dir) (haccepts : Accepts dir name) :
    Accepts dir' name := by
  obtain ⟨idle, hleading, -⟩ := h
  obtain ⟨hzero, hlong, hlength⟩ := haccepts
  rw [Path.bytes_join_eq_flatMap hname, hleading, List.flatMap_append] at hzero hlong
  refine ⟨?_, ?_, hlength⟩
  · rw [Path.bytes_join_eq_flatMap hname, List.mem_append]
    rw [List.mem_append, List.mem_append] at hzero
    exact fun hmem => hzero (hmem.imp_left Or.inl)
  · rw [Path.bytes_join_eq_flatMap hname, List.length_append]
    rw [List.length_append, List.length_append] at hlong
    omega

end Disk

namespace Path

variable {dir : Path} {name : Bytes}

/-- The front of a path and the pieces behind it, with the pieces that the whole is cut into. -/
inductive Begins : (front : Bytes) → (behind all : List Bytes) → Prop
  | relative (pieces : List Bytes) : Begins [] pieces pieces
  | root (pieces : List Bytes) : Begins [slash] pieces ([] :: pieces)
  | here (more : List Bytes) : Begins [point] ([] :: more) ([point] :: more)

theorem begins_pieces (q : Path) : Begins q.front q.pieces (q.bytes.splitOn slash) := by
  obtain ⟨bytes⟩ := q
  rcases bytes with - | ⟨b, rest⟩
  · exact .relative _
  by_cases hslash : b = slash
  · subst hslash
    have hsplit : (slash :: rest).splitOn slash = [] :: rest.splitOn slash :=
      List.splitOn_append_cons_self [] rest
    rw [hsplit]
    exact .root _
  have habsolute : isAbsolute ⟨b :: rest⟩ = false := by
    simp [isAbsolute, hslash]
  by_cases hhere : startsHere ⟨b :: rest⟩ = true
  · have hfront : front ⟨b :: rest⟩ = [b] := by
      rw [front, hhere, Bool.or_true, if_pos rfl]
      rfl
    rw [pieces, hfront]
    rcases rest with - | ⟨c, rest⟩
    · have hb : b = point := of_decide_eq_true hhere
      rw [hb]
      exact .here []
    · have hboth : b = point ∧ c = slash := by simpa [startsHere] using hhere
      obtain ⟨rfl, rfl⟩ := hboth
      have hall : (point :: slash :: rest).splitOn slash = [point] :: rest.splitOn slash :=
        List.splitOn_append_cons_self [point] rest
      have hbehind : (slash :: rest).splitOn slash = [] :: rest.splitOn slash :=
        List.splitOn_append_cons_self [] rest
      rw [hall, List.length_singleton, List.drop_succ_cons, List.drop_zero, hbehind]
      exact .here _
  · have hfront : front ⟨b :: rest⟩ = [] := by
      rw [front, habsolute, eq_false_of_ne_true hhere]
      rfl
    rw [pieces, hfront]
    exact .relative _

namespace Begins

variable {front : Bytes} {before behind all leading : List Bytes}

theorem of_concat (h : FileName name) (hbegins : Begins front behind (leading ++ [name])) :
    ∃ before, behind = before ++ [name] ∧ Begins front before leading := by
  generalize hall : leading ++ [name] = all at hbegins
  cases hbegins with
  | relative => exact ⟨leading, hall.symm, .relative _⟩
  | root =>
      cases leading with
      | nil => exact absurd (List.cons.inj hall).1 h.ne_nil
      | cons piece rest =>
          obtain ⟨rfl, rfl⟩ := List.cons.inj hall
          exact ⟨rest, rfl, .root rest⟩
  | here more =>
      cases leading with
      | nil =>
          have hidle := h.notIdle
          rw [(List.cons.inj hall).1] at hidle
          exact absurd hidle (by decide)
      | cons piece rest =>
          obtain ⟨rfl, rfl⟩ := List.cons.inj hall
          exact ⟨[] :: rest, rfl, .here rest⟩

theorem intercalate_kept {kept : List Bytes} (hkept : kept ≠ []) (hlast : kept.getLast hkept ≠ [])
    (hbegins : Begins front kept all) :
    ∃ hall : all ≠ [], front ++ [slash].intercalate kept = [slash].intercalate all ∧
      all.getLast hall ≠ [] := by
  cases hbegins with
  | relative => exact ⟨hkept, rfl, hlast⟩
  | root =>
      obtain ⟨piece, rest, rfl⟩ := List.exists_cons_of_ne_nil hkept
      refine ⟨List.cons_ne_nil _ _, ?_, ?_⟩
      · rw [List.intercalate_cons_cons, List.nil_append]
      · rwa [List.getLast_cons hkept]
  | here more =>
      cases more with
      | nil => exact absurd rfl hlast
      | cons piece rest =>
          refine ⟨List.cons_ne_nil _ _, ?_, ?_⟩
          · rw [List.intercalate_cons_cons, List.intercalate_cons_cons, List.nil_append, List.append_assoc]
          · rwa [List.getLast_cons (List.cons_ne_nil _ _)] at hlast ⊢

theorem slash_notMem (hbegins : Begins front behind all) (hslash : ∀ piece ∈ behind, slash ∉ piece) :
    ∀ piece ∈ all, slash ∉ piece := by
  cases hbegins with
  | relative => exact hslash
  | root => exact List.forall_mem_cons.mpr ⟨List.not_mem_nil, hslash⟩
  | here more => exact List.forall_mem_cons.mpr ⟨by decide, (List.forall_mem_cons.mp hslash).2⟩

/-- The path of what is kept of a directory, without the idle pieces at the end. -/
theorem leading_kept (hslash : ∀ piece ∈ before, slash ∉ piece) (hbegins : Begins front before leading) :
    ∃ idle, leading = Path.leading ⟨front ++ [slash].intercalate (before.rdropWhile isIdle)⟩ ++ idle ∧
      ∀ piece ∈ idle, isIdle piece = true := by
  have hsplit : before.rdropWhile isIdle ++ before.rtakeWhile isIdle = before :=
    List.rdropWhile_append_rtakeWhile
  have hidle : ∀ piece ∈ before.rtakeWhile isIdle, isIdle piece = true :=
    fun piece => List.mem_rtakeWhile_imp
  by_cases hkept : before.rdropWhile isIdle = []
  · rw [hkept] at hsplit ⊢
    rw [List.nil_append] at hsplit
    rw [hsplit] at hidle
    cases hbegins with
    | relative => exact ⟨before, rfl, hidle⟩
    | root => exact ⟨before, rfl, hidle⟩
    | here more => exact ⟨more, rfl, (List.forall_mem_cons.mp hidle).2⟩
  have hlastIdle := List.rdropWhile_last_not isIdle before hkept
  have hlast : (before.rdropWhile isIdle).getLast hkept ≠ [] := by
    intro hnil
    rw [hnil] at hlastIdle
    exact hlastIdle rfl
  obtain ⟨all, hall, hwhole⟩ : ∃ all, Begins front (before.rdropWhile isIdle) all ∧
      leading = all ++ before.rtakeWhile isIdle := by
    cases hbegins with
    | relative => exact ⟨_, .relative _, hsplit.symm⟩
    | root => exact ⟨_, .root _, by rw [List.cons_append, hsplit]⟩
    | here more =>
        obtain ⟨piece, rest, hrest⟩ := List.exists_cons_of_ne_nil hkept
        rw [hrest, List.cons_append] at hsplit
        obtain ⟨rfl, hmore⟩ := List.cons.inj hsplit
        refine ⟨[point] :: rest, ?_, by rw [List.cons_append, hmore]⟩
        rw [hrest]
        exact .here rest
  have hkeptSlash : ∀ piece ∈ before.rdropWhile isIdle, slash ∉ piece :=
    fun piece hpiece => hslash piece ((List.rdropWhile_prefix isIdle before).subset hpiece)
  obtain ⟨hne, hbytes, hallLast⟩ := hall.intercalate_kept hkept hlast
  refine ⟨before.rtakeWhile isIdle, ?_, hidle⟩
  rw [hbytes, leading_intercalate hne (hall.slash_notMem hkeptSlash) hallLast, hwhole]

end Begins

theorem slash_notMem_of_mem_splitOn {bytes piece : Bytes} (h : piece ∈ bytes.splitOn slash) : slash ∉ piece :=
  notMem_of_mem_splitOn h

theorem slash_notMem_of_fileName? {p : Path} (h : p.fileName? = some name) : slash ∉ name := by
  have hlast : p.parts.getLast? = some name := (Option.filter_eq_some_iff.mp h).1
  have hpiece : name ∈ p.pieces := List.mem_of_mem_filter (List.mem_of_getLast? hlast)
  exact slash_notMem_of_mem_splitOn hpiece

theorem pieces_join (h : FileName name) (dir : Path) :
    ∃ before, (dir.join ⟨name⟩).pieces = before ++ [name] ∧
      Begins (dir.join ⟨name⟩).front before dir.leading := by
  have hbegins := begins_pieces (dir.join ⟨name⟩)
  rw [splitOn_join h] at hbegins
  exact hbegins.of_concat h

theorem fileName?_join (h : FileName name) (dir : Path) : (dir.join ⟨name⟩).fileName? = some name := by
  obtain ⟨before, hpieces, -⟩ := pieces_join h dir
  have hparts : (dir.join ⟨name⟩).parts = before.filter (!isIdle ·) ++ [name] := by
    rw [parts, hpieces, List.filter_append, List.filter_cons, h.notIdle]
    rfl
  rw [fileName?, hparts, List.getLast?_concat, Option.filter_some, h.notParent]
  rfl

theorem parent?_join (h : FileName name) (dir : Path) :
    ∃ dir', (dir.join ⟨name⟩).parent? = some dir' ∧ dir'.Shortens dir := by
  obtain ⟨before, hpieces, hbegins⟩ := pieces_join h dir
  have hdrop : (dir.join ⟨name⟩).pieces.reverse.dropWhile isIdle = name :: before.reverse := by
    rw [hpieces, List.reverse_append, List.reverse_singleton, List.singleton_append,
      List.dropWhile_cons_of_neg (by rw [h.notIdle]; exact Bool.false_ne_true)]
  have hslash : ∀ piece ∈ before, slash ∉ piece := by
    intro piece hpiece
    apply slash_notMem_of_mem_splitOn
    change piece ∈ (dir.join ⟨name⟩).pieces
    rw [hpieces]
    exact List.mem_append_left _ hpiece
  refine ⟨⟨(dir.join ⟨name⟩).front ++ [slash].intercalate (before.rdropWhile isIdle)⟩, ?_,
    hbegins.leading_kept hslash⟩
  rw [parent?, hdrop]
  rfl

end Path

/-! ### The fields of a name

They stand between hyphens and have none inside, so that their number tells whether the mark of a temporary table is
among them. -/

theorem Text.ofUtf8?_ofString (s : String) : Text.ofUtf8? (Bytes.ofString s) = some s := by
  have harray : (⟨(Bytes.ofString s).toArray⟩ : ByteArray) = s.toByteArray := rfl
  rw [ofUtf8?, harray, String.fromUTF8?, dif_pos s.isValidUTF8]
  rfl

theorem Text.ofUtf8?_eq_some_iff {bytes : Bytes} {s : String} : ofUtf8? bytes = some s ↔ bytes = Bytes.ofString s := by
  constructor
  · intro h
    rw [ofUtf8?, String.fromUTF8?] at h
    split at h
    · obtain rfl := Option.some.inj h
      rfl
    · cases h
  · rintro rfl
    exact ofUtf8?_ofString s

theorem Bytes.ofString_inj {s t : String} : ofString s = ofString t ↔ s = t := by
  rw [← Text.ofUtf8?_eq_some_iff, Text.ofUtf8?_ofString, Option.some_inj]

theorem Bytes.slash_mem_ofString {s : String} (h : '/' ∈ s.toList) : Path.slash ∈ ofString s := by
  rw [ofString_eq_flatMap, List.mem_flatMap]
  exact ⟨'/', h, by decide⟩

theorem Component.ofSuffix?_eq_some_iff {s : String} {c : Component} : ofSuffix? s = some c ↔ s = c.suffix := by
  constructor
  · intro h
    have hsuffix := List.find?_some h
    exact (of_decide_eq_true hsuffix).symm
  · rintro rfl
    cases c <;> decide

theorem Component.ofSuffix?_suffix (c : Component) : Component.ofSuffix? c.suffix = some c :=
  ofSuffix?_eq_some_iff.mpr rfl

namespace Descriptor

variable {d d' : Descriptor} {c : Component}

/-- The name of a component's file, with the generation in these letters. -/
def spelled (d : Descriptor) (generation : String) (c : Component) : String :=
  d.table ++ "-" ++ (if d.temporary then temporaryMark ++ "-" else "") ++ d.version ++ "-" ++ generation ++ "-" ++
    c.suffix

theorem fileName_eq (d : Descriptor) (c : Component) : d.fileName c = d.spelled (toString d.generation) c := rfl

/-- What stands between the separators of a name. -/
def marked (temporary : Bool) (table version generation suffix : String) : List (List Char) :=
  table.toList :: ((if temporary then [temporaryMark.toList] else []) ++
    [version.toList, generation.toList, suffix.toList])

theorem toList_spelled (d : Descriptor) (generation : String) (c : Component) :
    (d.spelled generation c).toList =
      [separator].intercalate (marked d.temporary d.table d.version generation c.suffix) := by
  have hdash : "-".toList = [separator] := rfl
  unfold spelled marked
  cases d.temporary with
  | false =>
      have hempty : "".toList = [] := rfl
      simp only [Bool.false_eq_true, if_false, String.toList_append, hdash, hempty, List.intercalate_cons_cons,
        List.intercalate_singleton, List.nil_append, List.append_nil, List.append_assoc]
  | true =>
      simp only [if_true, String.toList_append, hdash, List.intercalate_cons_cons, List.intercalate_singleton,
        List.cons_append, List.nil_append, List.append_assoc]

theorem fields?_eq_some_iff {name table version generation suffix : String} {temporary : Bool} :
    fields? name = some (temporary, table, version, generation, suffix) ↔
      name.toList.splitOn separator = marked temporary table version generation suffix := by
  unfold fields? marked
  constructor
  · intro h
    have hback : name.toList.splitOn separator =
        ((name.toList.splitOn separator).map String.ofList).map String.toList := by
      have hid : String.toList ∘ String.ofList = id := funext fun _ => String.toList_ofList
      rw [List.map_map, hid, List.map_id]
    split at h
    · rename_i mark _ _ _ hfive
      by_cases hmark : mark = temporaryMark
      · rw [if_pos hmark] at h
        cases h
        rw [hback, hfive, hmark]
        rfl
      · rw [if_neg hmark] at h
        cases h
    · rename_i hfour
      cases h
      rw [hback, hfour]
      rfl
    · cases h
  · intro h
    rw [h]
    cases temporary with
    | false =>
        simp only [Bool.false_eq_true, if_false, List.nil_append, List.map_cons, List.map_nil,
          String.ofList_toList]
    | true =>
        simp only [if_true, List.cons_append, List.nil_append, List.map_cons, List.map_nil, String.ofList_toList]

theorem eq_spelled_of_fields? {name generation : String}
    (h : fields? name = some (d.temporary, d.table, d.version, generation, c.suffix)) :
    name = d.spelled generation c ∧ separator ∉ d.table.toList := by
  have hsplit := fields?_eq_some_iff.mp h
  constructor
  · apply String.toList_injective
    rw [toList_spelled, ← hsplit, List.intercalate_splitOn]
  · apply notMem_of_mem_splitOn
    rw [hsplit]
    exact List.mem_cons_self

theorem fields?_spelled (hd : d.Named) {generation : String} (hgeneration : separator ∉ generation.toList)
    (c : Component) :
    fields? (d.spelled generation c) = some (d.temporary, d.table, d.version, generation, c.suffix) := by
  have hsingle : ∀ piece ∈ marked d.temporary d.table d.version generation c.suffix, separator ∉ piece := by
    intro piece hpiece
    unfold marked at hpiece
    simp only [List.mem_cons, List.mem_append, List.mem_ite_nil_right, List.not_mem_nil, or_false] at hpiece
    rcases hpiece with rfl | ⟨-, rfl⟩ | rfl | rfl | rfl
    · exact fun h => (hd.validTable.2 _ h).1 rfl
    · decide
    · exact hd.validVersion.notMem (by decide)
    · exact hgeneration
    · cases c <;> decide
  rw [fields?_eq_some_iff, toList_spelled]
  exact List.splitOn_intercalate separator hsingle (List.cons_ne_nil _ _)

theorem fields?_fileName (hd : d.Named) (c : Component) :
    fields? (d.fileName c) = some (d.temporary, d.table, d.version, toString d.generation, c.suffix) :=
  fields?_spelled hd (notMem_digits (by decide) _) c

theorem nameOf_eq_iff (hd : d.Named) (hd' : d'.Named) {c' : Component} :
    d.nameOf c = d'.nameOf c' ↔ d.table = d'.table ∧ d.version = d'.version ∧ d.generation = d'.generation ∧
      d.temporary = d'.temporary ∧ c = c' := by
  constructor
  · intro h
    have hname : d.fileName c = d'.fileName c' := Bytes.ofString_inj.mp h
    have hfields := congrArg fields? hname
    rw [fields?_fileName hd, fields?_fileName hd'] at hfields
    simp only [Option.some.injEq, Prod.mk.injEq] at hfields
    obtain ⟨htemporary, htable, hversion, hgeneration, hsuffix⟩ := hfields
    have hcomponent := congrArg Component.ofSuffix? hsuffix
    rw [Component.ofSuffix?_suffix, Component.ofSuffix?_suffix] at hcomponent
    exact ⟨htable, hversion, Decimal.eq_of_toString_eq hgeneration, htemporary, Option.some.inj hcomponent⟩
  · rintro ⟨htable, hversion, hgeneration, htemporary, rfl⟩
    rw [nameOf_eq, nameOf_eq, tailBytes, tailBytes, htable, hversion, hgeneration, htemporary]

/-- The names of two tables differ if their generations do. -/
theorem eq_of_nameOf_eq (hd : d.Valid) (hd' : d'.Valid) {c' : Component} (h : d.nameOf c = d'.nameOf c') :
    d.temporary = d'.temporary ∧ d.generation = d'.generation ∧ c = c' := by
  obtain ⟨-, -, hgeneration, htemporary, hcomponent⟩ := (nameOf_eq_iff hd.named hd'.named).mp h
  exact ⟨htemporary, hgeneration, hcomponent⟩

theorem apart_of_generation_ne (hd : d.Valid) (hd' : d'.Valid) (hne : d.generation ≠ d'.generation)
    (c : Component) : d.Apart (d'.place c) := by
  have hname : ∀ {d'' : Descriptor}, d''.Valid → d''.generation = d.generation → ∀ c',
      d'.place c ≠ d''.place c' := by
    intro d'' hd'' hgeneration c' hplace
    have hlast := congrArg List.getLast? hplace
    rw [place, place, List.getLast?_concat, List.getLast?_concat] at hlast
    have hsame := (eq_of_nameOf_eq hd' hd'' (Option.some.inj hlast)).2.1
    exact hne (hgeneration.symm.trans hsame.symm)
  exact fun c' => ⟨hname hd rfl c', hname hd.published rfl c'⟩

/-- A descriptor of the same files, in a directory that may be written shorter. -/
structure Twin (d' d : Descriptor) : Prop where
  directory : d'.directory.Shortens d.directory
  table : d'.table = d.table
  generation : d'.generation = d.generation
  version : d'.version = d.version
  temporary : d'.temporary = d.temporary

namespace Twin

variable {disk : Disk} {files : Component → Option Bytes}

theorem nameOf (h : d'.Twin d) (c : Component) : d'.nameOf c = d.nameOf c := by
  rw [nameOf_eq, nameOf_eq, tailBytes, tailBytes, h.table, h.generation, h.version, h.temporary]

theorem place (h : d'.Twin d) (c : Component) : d'.place c = d.place c := by
  rw [Descriptor.place, Descriptor.place, h.directory.home, h.nameOf]

theorem published (h : d'.Twin d) : d'.published.Twin d.published :=
  ⟨h.directory, h.table, h.generation, h.version, rfl⟩

theorem valid (h : d'.Twin d) (hd : d.Valid) : d'.Valid :=
  ⟨by rw [h.table]; exact hd.validTable, by rw [h.version]; exact hd.current⟩

theorem hosts (h : d'.Twin d) (hd : d.Valid) (hhosts : disk.Hosts d) : disk.Hosts d' := by
  intro c
  obtain ⟨hopens, haccepts⟩ := (Disk.reaches_pathOf_iff hd).mp (hhosts c)
  refine (Disk.reaches_pathOf_iff (h.valid hd)).mpr ⟨hopens.of_shortens h.directory, ?_⟩
  rw [h.nameOf]
  exact haccepts.of_shortens (fileName_nameOf hd c) h.directory

theorem shows_iff (h : d'.Twin d) : disk.Shows d' files ↔ disk.Shows d files :=
  forall_congr' fun c => by rw [h.place]

theorem shows (h : d'.Twin d) (hshows : disk.Shows d files) : disk.Shows d' files :=
  h.shows_iff.mpr hshows

theorem apart_iff (h : d'.Twin d) {p : Place} : d'.Apart p ↔ d.Apart p := by
  unfold Apart
  simp only [h.place, h.published.place]

end Twin

/-- What is read from a path: a table in the directory of the path, by one of the names that spell it. -/
structure Described (path : Path) (d : Descriptor) (c : Component) : Prop where
  named : d.Named
  generation_lt : d.generation < Decimal.limit64
  directory : d.directory = path.parent?.getD ⟨[]⟩
  keyspace : d.keyspace = keyspaceOf d.directory
  spelled : ∃ style : Decimal.Style, path.fileName? = some (Bytes.ofString (d.spelled (style.write d.generation) c))

theorem Described.of_ofPath? {path : Path} (h : ofPath? path = some (d, c)) : Described path d c := by
  unfold ofPath? at h
  simp only [Option.bind_eq_bind, Option.bind_eq_some_iff] at h
  obtain ⟨text, ⟨name, hname, htext⟩, ⟨temporary, table, version, generation, suffix⟩, hfields, u, hguard, n, hn,
    component, hcomponent, hd⟩ := h
  have hvalid : table.toList ≠ [] ∧ ValidVersion version := by
    by_contra hnot
    rw [guard, if_neg hnot] at hguard
    cases hguard
  rw [Text.ofUtf8?_eq_some_iff.mp htext] at hname
  obtain rfl := Component.ofSuffix?_eq_some_iff.mp hcomponent
  obtain ⟨hlt, style, rfl⟩ := Decimal.natural?_eq_some_iff.mp hn
  cases hd
  let directory := path.parent?.getD ⟨[]⟩
  obtain ⟨hspelled, hseparator⟩ :=
    eq_spelled_of_fields? (d := ⟨directory, keyspaceOf directory, table, n, version, temporary⟩) hfields
  rw [hspelled] at hname
  have hslash : '/' ∉ table.toList := by
    intro hc
    refine Path.slash_notMem_of_fileName? hname (Bytes.slash_mem_ofString ?_)
    simp only [Descriptor.spelled, String.toList_append, List.append_assoc]
    exact List.mem_append_left _ hc
  refine ⟨⟨⟨hvalid.1, fun c hc => ⟨?_, ?_⟩⟩, hvalid.2⟩, hlt, rfl, rfl, style, hname⟩
  · rintro rfl
    exact hseparator hc
  · rintro rfl
    exact hslash hc

theorem ofPath?_eq_some_iff {path : Path} : ofPath? path = some (d, c) ↔ Described path d c := by
  refine ⟨Described.of_ofPath?, ?_⟩
  rintro ⟨hd, hgeneration, hdirectory, hkeyspace, style, hname⟩
  have hguard : (guard (d.table.toList ≠ [] ∧ ValidVersion d.version) : Option Unit) = some () :=
    if_pos ⟨hd.validTable.1, hd.validVersion⟩
  have hseparator : separator ∉ (style.write d.generation).toList :=
    style.notMem_write (by decide) (by decide) d.generation
  have hnumber : Decimal.natural? Decimal.limit64 (style.write d.generation) = some d.generation :=
    Decimal.natural?_eq_some_iff.mpr ⟨hgeneration, style, rfl⟩
  simp only [ofPath?, hname, Text.ofUtf8?_ofString, Option.bind_eq_bind, Option.bind_some,
    fields?_spelled hd hseparator, hguard, hnumber, Component.ofSuffix?_suffix, ← hdirectory, ← hkeyspace]
  rfl

/-- The path of a file is read back as the component and the fields of the descriptor. -/
theorem ofPath?_of_parent? (hd : d.Named) (hgeneration : d.generation < Decimal.limit64) {c : Component} {dir' : Path}
    (hparent : (d.pathOf c).parent? = some dir') :
    ofPath? (d.pathOf c) = some (⟨dir', keyspaceOf dir', d.table, d.generation, d.version, d.temporary⟩, c) := by
  have hname : (d.pathOf c).fileName? = some (d.nameOf c) := Path.fileName?_join (hd.fileName_nameOf c) _
  apply ofPath?_eq_some_iff.mpr
  refine ⟨⟨hd.validTable, hd.validVersion⟩, hgeneration, ?_, rfl, .plain, ?_⟩
  · rw [hparent]
    rfl
  · rw [hname, Decimal.Style.write_plain]
    rfl

/-- The descriptor that is read is one of the same files. -/
theorem ofPath?_pathOf (hd : d.Valid) (hgeneration : d.generation < Decimal.limit64) (c : Component) :
    ∃ d', ofPath? (d.pathOf c) = some (d', c) ∧ d'.Twin d := by
  obtain ⟨dir', hparent, hshortens⟩ := Path.parent?_join (fileName_nameOf hd c) d.directory
  exact ⟨_, ofPath?_of_parent? hd.named hgeneration hparent, ⟨hshortens, rfl, rfl, rfl, rfl⟩⟩

/-- A descriptor that is read from the path of a file in a directory is of a table in this directory. -/
theorem shortens_of_ofPath? {dir : Path} {name : Bytes} (hname : FileName name)
    (h : ofPath? (dir.join ⟨name⟩) = some (d, c)) : d.directory.Shortens dir := by
  obtain ⟨dir', hparent, hshortens⟩ := Path.parent?_join hname dir
  have hdirectory := (ofPath?_eq_some_iff.mp h).directory
  rw [hparent, Option.getD_some] at hdirectory
  rwa [hdirectory]

end Descriptor

end SortedTable
