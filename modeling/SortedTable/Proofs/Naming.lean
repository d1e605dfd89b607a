import SortedTable.Descriptor
import SortedTable.Proofs.Disk.Walks

namespace SortedTable

namespace Bytes

theorem ofString_append (s t : String) : ofString (s ++ t) = ofString s ++ ofString t := by
  unfold ofString
  rw [String.toUTF8_eq_toByteArray, String.toByteArray_append, ByteArray.data_append,
    Array.toList_append, ← String.toUTF8_eq_toByteArray, ← String.toUTF8_eq_toByteArray]

theorem ofString_eq_flatMap (s : String) : ofString s = s.toList.flatMap String.utf8EncodeChar := by
  unfold ofString
  rw [String.toUTF8_eq_toByteArray, ← String.utf8Encode_toList, List.utf8Encode,
    List.toList_data_toByteArray]

theorem eq_slash_of_mem_utf8EncodeChar {c : Char} (h : Path.slash ∈ String.utf8EncodeChar c) :
    c = '/' := by
  have hbyte : ∀ n, Path.slash = UInt8.ofNat n → n % 256 = 0x2f := by
    intro n hn
    have := congrArg UInt8.toNat hn
    rw [UInt8.toNat_ofNat'] at this
    exact this.symm
  have hvalue : c.val.toNat = 0x2f → c = '/' := by
    intro hc
    apply Char.ext
    apply UInt32.toNat_inj.mp
    exact hc
  unfold String.utf8EncodeChar at h
  dsimp only at h
  split at h
  · rw [List.mem_singleton] at h
    have := hbyte _ h
    exact hvalue (by omega)
  · split at h
    · simp only [List.mem_cons, List.not_mem_nil, or_false] at h
      rcases h with h | h <;>
      · have := hbyte _ h
        omega
    · split at h
      · simp only [List.mem_cons, List.not_mem_nil, or_false] at h
        rcases h with h | h | h <;>
        · have := hbyte _ h
          omega
      · simp only [List.mem_cons, List.not_mem_nil, or_false] at h
        rcases h with h | h | h | h <;>
        · have := hbyte _ h
          omega

theorem slash_notMem_ofString {s : String} (h : '/' ∉ s.toList) : Path.slash ∉ ofString s := by
  rw [ofString_eq_flatMap, List.mem_flatMap]
  rintro ⟨c, hc, hslash⟩
  rw [eq_slash_of_mem_utf8EncodeChar hslash] at hc
  exact h hc

end Bytes

/-- A single piece of a path with a meaning of its own. -/
structure FileName (name : Bytes) : Prop where
  noSlash : Path.slash ∉ name
  notIdle : Path.isIdle name = false
  notParent : Path.isParent name = false

theorem FileName.ne_nil {name : Bytes} (h : FileName name) : name ≠ [] := by
  rintro rfl
  exact absurd h.notIdle (by decide)

theorem FileName.of_length {name : Bytes} (hslash : Path.slash ∉ name) (h : 3 ≤ name.length) :
    FileName name := by
  refine ⟨hslash, ?_, ?_⟩
  · simp only [Path.isIdle, Bool.or_eq_false_iff, decide_eq_false_iff_not]
    constructor
    · rintro rfl
      simp at h
    · rintro rfl
      simp at h
  · simp only [Path.isParent, decide_eq_false_iff_not]
    rintro rfl
    simp at h

namespace Path

/-- The pieces that are walked before a name in a directory. -/
def leading (dir : Path) : List Bytes :=
  if dir.bytes = [] then []
  else if dir.bytes.getLast? = some slash then dir.bytes.dropLast.splitOn slash
  else dir.bytes.splitOn slash

def home (dir : Path) : Place := dir.leading.foldl Place.enter []

variable {dir : Path} {name : Bytes}

theorem bytes_join (h : FileName name) :
    (dir.join ⟨name⟩).bytes =
      if dir.bytes = [] ∨ dir.bytes.getLast? = some slash then dir.bytes ++ name
      else dir.bytes ++ slash :: name := by
  have hrelative : (⟨name⟩ : Path).isAbsolute = false := by
    unfold isAbsolute
    rw [decide_eq_false_iff_not]
    intro hhead
    exact h.noSlash (List.mem_of_mem_head? hhead)
  rw [join, hrelative]
  simp only [Bool.false_eq_true, if_false]
  split <;> rfl

theorem splitOn_join (h : FileName name) :
    (dir.join ⟨name⟩).bytes.splitOn slash = dir.leading ++ [name] := by
  have hname : name.splitOn slash = [name] := List.splitOn_eq_singleton h.noSlash
  rw [bytes_join h, leading]
  by_cases hempty : dir.bytes = []
  · rw [if_pos (Or.inl hempty), if_pos hempty, hempty, List.nil_append, List.nil_append, hname]
  · rw [if_neg hempty]
    by_cases hlast : dir.bytes.getLast? = some slash
    · rw [if_pos (Or.inr hlast), if_pos hlast]
      have hdir : dir.bytes.dropLast ++ [slash] = dir.bytes := by
        rw [List.getLast?_eq_some_getLast hempty] at hlast
        rw [← Option.some.inj hlast]
        exact List.dropLast_concat_getLast hempty
      calc (dir.bytes ++ name).splitOn slash
          = (dir.bytes.dropLast ++ slash :: name).splitOn slash := by
            rw [← List.singleton_append, ← List.append_assoc, hdir]
        _ = dir.bytes.dropLast.splitOn slash ++ [name] := by
            rw [List.splitOn_append_cons_self, hname]
    · rw [if_neg (not_or.mpr ⟨hempty, hlast⟩), if_neg hlast,
        List.splitOn_append_cons_self, hname]

theorem trimmed_join (h : FileName name) : (dir.join ⟨name⟩).trimmed = dir.leading ++ [name] := by
  rw [trimmed, splitOn_join h, List.reverse_append, List.reverse_singleton, List.singleton_append,
    List.dropWhile_cons_of_neg (by simpa using h.ne_nil), List.reverse_cons, List.reverse_reverse]

end Path

namespace Disk

variable {disk : Disk} {dir : Path} {name : Bytes} {p : Place}

def Opens (disk : Disk) (dir : Path) : Prop :=
  dir.leading.foldlM disk.step [] = .ok dir.home ∧ disk.tree dir.home = some .directory

/-- The name is not too long for the directory, and neither is the path. -/
def Accepts (dir : Path) (name : Bytes) : Prop :=
  0 ∉ (dir.join ⟨name⟩).bytes ∧ (dir.join ⟨name⟩).bytes.length ≤ maxPath ∧ name.length ≤ maxName

theorem bytes_join_ne_nil (h : FileName name) (dir : Path) : (dir.join ⟨name⟩).bytes ≠ [] := by
  intro hnil
  have hsplit : (dir.join ⟨name⟩).bytes.splitOn Path.slash = dir.leading ++ [name] := Path.splitOn_join h
  rw [hnil, List.splitOn_nil] at hsplit
  have hlast := congrArg List.getLast? hsplit
  rw [List.getLast?_singleton, List.getLast?_concat] at hlast
  exact h.ne_nil (Option.some.inj hlast).symm

theorem entry_join_eq_ok_iff (h : FileName name) {e : Entry} :
    disk.entry (dir.join ⟨name⟩) = .ok e ↔
      disk.Opens dir ∧ 0 ∉ (dir.join ⟨name⟩).bytes ∧ (dir.join ⟨name⟩).bytes.length ≤ maxPath ∧
        e = ⟨dir.home, name, false⟩ := by
  have hne := bytes_join_ne_nil h dir
  rw [entry_eq_ok_iff, Path.trimmed_join h, Path.splitOn_join h, List.dropLast_concat,
    List.getLastD_concat]
  obtain ⟨directory, piece, only⟩ := e
  simp only [Nat.lt_irrefl, decide_false, Entry.mk.injEq]
  constructor
  · rintro ⟨⟨-, hzero, hlong⟩, hwalk, hdir, rfl, rfl⟩
    have hhome : directory = dir.home := foldlM_step_eq_ok hwalk
    subst hhome
    exact ⟨⟨hwalk, hdir⟩, hzero, hlong, rfl, rfl, rfl⟩
  · rintro ⟨⟨hwalk, hdir⟩, hzero, hlong, rfl, rfl, rfl⟩
    exact ⟨⟨hne, hzero, hlong⟩, hwalk, hdir, rfl, rfl⟩

theorem isNamed_of_fileName (h : FileName name) (place : Place) (only : Bool) :
    (⟨place, name, only⟩ : Entry).isNamed = true := by
  rw [Entry.isNamed, h.notIdle, h.notParent]
  rfl

theorem reaches_join_iff (h : FileName name) :
    disk.Reaches (dir.join ⟨name⟩) p ↔
      disk.Opens dir ∧ Accepts dir name ∧ p = dir.home ++ [name] := by
  constructor
  · rintro ⟨e, hentry, -, hnamed, hfollow⟩
    obtain ⟨hopens, hzero, hlong, rfl⟩ := (entry_join_eq_ok_iff h).mp hentry
    obtain ⟨-, rfl, hname⟩ := (follow_eq_ok_iff hnamed).mp hfollow
    exact ⟨hopens, ⟨hzero, hlong, hname⟩, rfl⟩
  · rintro ⟨hopens, ⟨hzero, hlong, hname⟩, rfl⟩
    have hnamed := isNamed_of_fileName h dir.home false
    exact ⟨_, (entry_join_eq_ok_iff h).mpr ⟨hopens, hzero, hlong, rfl⟩, rfl, hnamed,
      (follow_eq_ok_iff hnamed).mpr ⟨hopens.2, rfl, hname⟩⟩

theorem reaches_of_follow (h : FileName name) {e : Entry}
    (hentry : disk.entry (dir.join ⟨name⟩) = .ok e) (hfollow : disk.follow e = .ok p) :
    disk.Reaches (dir.join ⟨name⟩) (dir.home ++ [name]) := by
  obtain ⟨hopens, hzero, hlong, rfl⟩ := (entry_join_eq_ok_iff h).mp hentry
  have hnamed := isNamed_of_fileName h dir.home false
  obtain ⟨-, -, hname⟩ := (follow_eq_ok_iff hnamed).mp hfollow
  exact (reaches_join_iff h).mpr ⟨hopens, ⟨hzero, hlong, hname⟩, rfl⟩

theorem reaches_of_create_eq_ok (h : FileName name) {found : Nat × Disk}
    (hcreate : disk.create (dir.join ⟨name⟩) = .ok found) :
    disk.Reaches (dir.join ⟨name⟩) (dir.home ++ [name]) := by
  unfold create at hcreate
  obtain ⟨e, hentry, hcreate⟩ := Except.bind_eq_ok_iff.mp hcreate
  split at hcreate
  · cases hcreate
  · obtain ⟨q, hfollow, -⟩ := Except.bind_eq_ok_iff.mp hcreate
    exact reaches_of_follow h hentry hfollow

theorem opens_of_reaches {other : Bytes} (h : FileName other)
    (hreach : disk.Reaches (dir.join ⟨other⟩) p) : disk.Opens dir :=
  ((reaches_join_iff h).mp hreach).1

theorem entry_join_of_opens (h : FileName name) (hopens : disk.Opens dir) :
    disk.entry (dir.join ⟨name⟩) =
      if 0 ∈ (dir.join ⟨name⟩).bytes then .error .zeroByte
      else if maxPath < (dir.join ⟨name⟩).bytes.length then .error .nameTooLong
      else .ok ⟨dir.home, name, false⟩ := by
  have hne := bytes_join_ne_nil h dir
  by_cases hzero : 0 ∈ (dir.join ⟨name⟩).bytes
  · simp [entry, hne, hzero, bind, Except.bind, throw, throwThe, MonadExceptOf.throw]
  by_cases hlong : maxPath < (dir.join ⟨name⟩).bytes.length
  · simp [entry, hne, hzero, hlong, bind, Except.bind, throw, throwThe, MonadExceptOf.throw]
  rw [if_neg hzero, if_neg hlong]
  exact (entry_join_eq_ok_iff h).mpr ⟨hopens, hzero, Nat.le_of_not_lt hlong, rfl⟩

theorem reaches_of_find_eq_notFound (h : FileName name) (hopens : disk.Opens dir)
    (hfind : disk.find (dir.join ⟨name⟩) = .error .notFound) :
    disk.Reaches (dir.join ⟨name⟩) (dir.home ++ [name]) := by
  have hentry := entry_join_of_opens h hopens
  by_cases hzero : 0 ∈ (dir.join ⟨name⟩).bytes
  · rw [if_pos hzero] at hentry
    simp [find, hentry, bind, Except.bind] at hfind
  by_cases hlong : maxPath < (dir.join ⟨name⟩).bytes.length
  · rw [if_neg hzero, if_pos hlong] at hentry
    simp [find, hentry, bind, Except.bind] at hfind
  rw [if_neg hzero, if_neg hlong] at hentry
  have hname : name.length ≤ maxName := by
    apply Nat.le_of_not_lt
    intro hname
    have hdir := expectDirectory_eq_ok_iff.mpr hopens.2
    have hfollow : disk.follow ⟨dir.home, name, false⟩ = .error .nameTooLong := by
      simp [follow, step, hdir, h.notIdle, h.notParent, hname, bind, Except.bind, throw, throwThe,
        MonadExceptOf.throw]
    simp [find, hentry, hfollow, bind, Except.bind] at hfind
  exact (reaches_join_iff h).mpr ⟨hopens, ⟨hzero, Nat.le_of_not_lt hlong, hname⟩, rfl⟩

end Disk

namespace Descriptor

/-- A descriptor that new tables can be written under. -/
structure Valid (d : Descriptor) : Prop where
  validTable : ValidTable d.table
  current : d.version = currentVersion

theorem Valid.asTemporary {d : Descriptor} (h : d.Valid) (temporary : Bool) :
    (d.asTemporary temporary).Valid := ⟨h.validTable, h.current⟩

theorem Valid.published {d : Descriptor} (h : d.Valid) : d.published.Valid := h.asTemporary false

theorem Valid.isCurrent {d : Descriptor} (h : d.Valid) : d.isCurrent = true := by
  rw [Descriptor.isCurrent, h.current, decide_eq_true_iff]

theorem lengthWidth_of_isCurrent {d : Descriptor} (h : d.isCurrent = true) : d.lengthWidth = .long := by
  rw [lengthWidth, of_decide_eq_true h]
  decide

theorem Valid.lengthWidth {d : Descriptor} (h : d.Valid) : d.lengthWidth = .long :=
  lengthWidth_of_isCurrent h.isCurrent

theorem validVersion_of_letter {version : String} {c : Char} (hletter : version.toList = [c])
    (hc : 'a' ≤ c ∧ c ≤ 'z') : ValidVersion version := by
  refine ⟨by simp [hletter], ?_, by simpa [hletter] using hc⟩
  rintro rfl
  simp [temporaryMark] at hletter

theorem validVersion_currentVersion : ValidVersion currentVersion :=
  validVersion_of_letter (c := 'e') (by decide) (by decide)

theorem ValidVersion.notMem {version : String} (h : ValidVersion version) {c : Char} (hc : ¬ 'a' ≤ c) :
    c ∉ version.toList :=
  fun hmem => hc (h.2.2 c hmem).1

/-- A descriptor whose files have names that can be read back. -/
structure Named (d : Descriptor) : Prop where
  validTable : ValidTable d.table
  validVersion : ValidVersion d.version

theorem Valid.named {d : Descriptor} (h : d.Valid) : d.Named where
  validTable := h.validTable
  validVersion := by
    rw [h.current]
    exact validVersion_currentVersion

theorem Named.asTemporary {d : Descriptor} (h : d.Named) (temporary : Bool) : (d.asTemporary temporary).Named :=
  ⟨h.validTable, h.validVersion⟩

def nameOf (d : Descriptor) (c : Component) : Bytes := Bytes.ofString (d.fileName c)

def place (d : Descriptor) (c : Component) : Place := d.directory.home ++ [d.nameOf c]

theorem pathOf_eq (d : Descriptor) (c : Component) : d.pathOf c = d.directory.join ⟨d.nameOf c⟩ := rfl

theorem place_ne_nil (d : Descriptor) (c : Component) : d.place c ≠ [] := by simp [place]

theorem length_place (d : Descriptor) (c : Component) :
    (d.place c).length = d.directory.home.length + 1 := by
  rw [place, List.length_append, List.length_singleton]

/-- What stands between the table's name and the version. -/
def markBytes (temporary : Bool) : Bytes :=
  if temporary then Bytes.ofString (temporaryMark ++ "-") else []

/-- The end of a file name, which is the same for temporary and published tables. -/
def tailBytes (d : Descriptor) (c : Component) : Bytes :=
  Bytes.ofString d.version ++ (Bytes.ofString ("-" ++ toString d.generation ++ "-") ++
    Bytes.ofString c.suffix)

theorem nameOf_eq (d : Descriptor) (c : Component) :
    d.nameOf c = Bytes.ofString (d.table ++ "-") ++ (markBytes d.temporary ++ d.tailBytes c) := by
  have hempty : Bytes.ofString "" = [] := rfl
  unfold nameOf fileName baseName tailBytes markBytes
  cases d.temporary <;>
  · simp only [Bytes.ofString_append, List.append_assoc, if_true, if_false, Bool.false_eq_true, hempty,
      List.nil_append]

theorem notMem_digits {c : Char} (hc : c.isDigit = false) (n : Nat) : c ∉ (toString n).toList := by
  intro h
  change c ∈ (Nat.repr n).toList at h
  rw [Nat.toList_repr] at h
  have hdigit := Nat.isDigit_of_mem_toDigits (by decide) (by decide) h
  rw [hc] at hdigit
  exact Bool.false_ne_true hdigit

theorem Named.fileName_nameOf {d : Descriptor} (h : d.Named) (c : Component) : FileName (d.nameOf c) := by
  apply FileName.of_length
  · rw [nameOf_eq]
    have htable : Path.slash ∉ Bytes.ofString (d.table ++ "-") := by
      apply Bytes.slash_notMem_ofString
      rw [String.toList_append, List.mem_append]
      rintro (hc | hc)
      · exact (h.validTable.2 _ hc).2 rfl
      · revert hc
        decide
    have hmark : Path.slash ∉ markBytes d.temporary := by
      cases d.temporary <;> decide
    have hversion : Path.slash ∉ Bytes.ofString d.version :=
      Bytes.slash_notMem_ofString (h.validVersion.notMem (by decide))
    have hgeneration : Path.slash ∉ Bytes.ofString ("-" ++ toString d.generation ++ "-") := by
      apply Bytes.slash_notMem_ofString
      rw [String.toList_append, String.toList_append, List.mem_append, List.mem_append]
      rintro ((hc | hc) | hc)
      · revert hc
        decide
      · exact notMem_digits (by decide) _ hc
      · revert hc
        decide
    have hsuffix : Path.slash ∉ Bytes.ofString c.suffix := by
      cases c <;> decide
    simp only [tailBytes, List.mem_append, htable, hmark, hversion, hgeneration, hsuffix, or_self,
      not_false_eq_true]
  · rw [nameOf_eq, tailBytes]
    have hsuffix : 3 ≤ (Bytes.ofString c.suffix).length := by
      cases c <;> decide
    simp only [List.length_append]
    omega

theorem fileName_nameOf {d : Descriptor} (h : d.Valid) (c : Component) : FileName (d.nameOf c) :=
  h.named.fileName_nameOf c

/-- The temporary and the permanent names of the four files are eight different places. -/
theorem place_inj {d : Descriptor} (h : d.Valid) (t t' : Bool) {c c' : Component} :
    (d.asTemporary t).place c = (d.asTemporary t').place c' ↔ t = t' ∧ c = c' := by
  constructor
  · intro heq
    have hname : (d.asTemporary t).nameOf c = (d.asTemporary t').nameOf c' := by
      have hlast := congrArg List.getLast? heq
      rw [place, place, List.getLast?_concat, List.getLast?_concat] at hlast
      exact Option.some.inj hlast
    rw [nameOf_eq, nameOf_eq] at hname
    have hrest : markBytes t ++ d.tailBytes c = markBytes t' ++ d.tailBytes c' :=
      List.append_cancel_left hname
    have hversion : Bytes.ofString d.version = [101] := by
      rw [h.current]
      decide
    have hmark : t = t' := by
      unfold tailBytes at hrest
      rw [hversion] at hrest
      have htrue : markBytes true = [116, 109, 112, 45] := by decide
      have hfalse : markBytes false = [] := rfl
      cases t <;> cases t'
      · rfl
      · rw [htrue, hfalse] at hrest
        simp at hrest
      · rw [htrue, hfalse] at hrest
        simp at hrest
      · rfl
    subst hmark
    have htail := List.append_cancel_left hrest
    have hsuffix := List.append_cancel_left (List.append_cancel_left htail)
    refine ⟨rfl, ?_⟩
    revert hsuffix
    cases c <;> cases c' <;> decide
  · rintro ⟨rfl, rfl⟩
    rfl

theorem published_place_ne {d : Descriptor} (h : d.Valid) (htemporary : d.temporary = true)
    (c c' : Component) : d.published.place c ≠ d.place c' := by
  intro heq
  have hmark := ((place_inj h false d.temporary).mp heq).1
  rw [htemporary] at hmark
  simp at hmark

theorem place_ne_place {d : Descriptor} (h : d.Valid) {c c' : Component} (hne : c ≠ c') :
    d.place c ≠ d.place c' := fun heq => hne ((place_inj h d.temporary d.temporary).mp heq).2

end Descriptor

namespace Disk

open Descriptor

variable {disk : Disk} {d : Descriptor} {c : Component} {p : Place}

theorem Accepts.of_subset {dir : Path} {name other : Bytes} (h : FileName name)
    (hother : FileName other) (hmem : ∀ b ∈ other, b ∈ name) (hlength : other.length ≤ name.length)
    (haccepts : Accepts dir name) : Accepts dir other := by
  obtain ⟨hzero, hlong, hname⟩ := haccepts
  rw [Path.bytes_join h] at hzero hlong
  refine ⟨?_, ?_, Nat.le_trans hlength hname⟩
  · rw [Path.bytes_join hother]
    split
    · rename_i hdir
      rw [if_pos hdir, List.mem_append, not_or] at hzero
      rw [List.mem_append, not_or]
      exact ⟨hzero.1, fun hmem' => hzero.2 (hmem 0 hmem')⟩
    · rename_i hdir
      rw [if_neg hdir, List.mem_append, List.mem_cons, not_or, not_or] at hzero
      rw [List.mem_append, List.mem_cons, not_or, not_or]
      exact ⟨hzero.1, hzero.2.1, fun hmem' => hzero.2.2 (hmem 0 hmem')⟩
  · rw [Path.bytes_join hother]
    split
    · rename_i hdir
      rw [if_pos hdir, List.length_append] at hlong
      rw [List.length_append]
      omega
    · rename_i hdir
      rw [if_neg hdir, List.length_append, List.length_cons] at hlong
      rw [List.length_append, List.length_cons]
      omega

theorem reaches_of_create (hd : d.Valid) {found : Nat × Disk}
    (hcreate : disk.create (d.pathOf c) = .ok found) : disk.Reaches (d.pathOf c) (d.place c) :=
  reaches_of_create_eq_ok (fileName_nameOf hd c) hcreate

theorem reaches_pathOf_iff (hd : d.Valid) :
    disk.Reaches (d.pathOf c) (d.place c) ↔ disk.Opens d.directory ∧ Accepts d.directory (d.nameOf c) := by
  rw [pathOf_eq, reaches_join_iff (fileName_nameOf hd c)]
  simp [place]

theorem reaches_published (hd : d.Valid) (h : disk.Reaches (d.pathOf c) (d.place c)) :
    disk.Reaches (d.published.pathOf c) (d.published.place c) := by
  have hname := fileName_nameOf hd c
  have hother := fileName_nameOf hd.published c
  obtain ⟨hopens, haccepts, -⟩ := (reaches_join_iff hname).mp h
  refine (reaches_join_iff hother).mpr ⟨hopens, haccepts.of_subset hname hother ?_ ?_, rfl⟩
  · intro b hb
    rw [nameOf_eq] at hb ⊢
    change b ∈ _ ++ ([] ++ d.tailBytes c) at hb
    rw [List.nil_append, List.mem_append] at hb
    rw [List.mem_append, List.mem_append]
    exact hb.imp_right Or.inr
  · rw [nameOf_eq, nameOf_eq]
    change (_ ++ ([] ++ d.tailBytes c)).length ≤ _
    simp only [List.nil_append, List.length_append]
    change (Bytes.ofString (d.table ++ "-")).length + _ ≤ _
    omega

end Disk

end SortedTable
