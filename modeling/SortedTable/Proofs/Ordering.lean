import SortedTable.Key
import SortedTable.Proofs.Codec.Numbers

namespace SortedTable

namespace Bytes

variable {a b rest rest' : Bytes}

/-- Byte by byte, by the unsigned values; a string comes before those that begin with it. -/
def lexicographic : Bytes → Bytes → Ordering := List.compareLex (compareOn UInt8.toNat)

/-- The one is what the other begins with, or has the smaller byte where they first differ. -/
def Before (a b : Bytes) : Prop :=
  (∃ more, more ≠ [] ∧ b = a ++ more) ∨
    ∃ common x y more more', a = common ++ x :: more ∧ b = common ++ y :: more' ∧ x.toNat < y.toNat

theorem lexicographic_cons (x y : UInt8) (a b : Bytes) :
    lexicographic (x :: a) (y :: b) = (Ord.compare x.toNat y.toNat).then (lexicographic a b) :=
  List.compareLex_cons_cons

theorem lexicographic_singleton (x y : UInt8) : lexicographic [x] [y] = Ord.compare x.toNat y.toNat :=
  (lexicographic_cons x y [] []).trans Ordering.then_eq

instance : Std.TransCmp lexicographic := inferInstanceAs (Std.TransCmp (List.compareLex _))

theorem lexicographic_swap (a b : Bytes) : (lexicographic a b).swap = lexicographic b a :=
  Std.OrientedCmp.eq_swap.symm

theorem lexicographic_eq_lt_iff : lexicographic a b = .lt ↔ a < b := by
  induction a generalizing b with
  | nil =>
      cases b with
      | nil => exact iff_of_false (by decide) (List.lt_irrefl [])
      | cons y b => exact iff_of_true rfl (List.nil_lt_cons y b)
  | cons x a ih =>
      cases b with
      | nil => exact iff_of_false (by intro h; cases h) (List.not_lt_nil _)
      | cons y b =>
          rw [lexicographic_cons, Ordering.then_eq_lt, Nat.compare_eq_lt, Nat.compare_eq_eq, ih, List.cons_lt_cons_iff,
            UInt8.lt_iff_toNat_lt, UInt8.toNat_inj]

theorem lexicographic_eq_gt_iff : lexicographic a b = .gt ↔ b < a := by
  rw [← lexicographic_swap, Ordering.swap_eq_gt, lexicographic_eq_lt_iff]

theorem lexicographic_eq_eq_iff : lexicographic a b = .eq ↔ a = b := by
  constructor
  · intro h
    apply Std.Trichotomous.trichotomous (r := fun a b : Bytes => a < b) a b
    · rw [← lexicographic_eq_lt_iff, h]
      decide
    · rw [← lexicographic_eq_gt_iff, h]
      decide
  · rintro rfl
    exact Std.ReflCmp.compare_self

theorem lexicographic_append (hlength : a.length = b.length) :
    lexicographic (a ++ rest) (b ++ rest') = (lexicographic a b).then (lexicographic rest rest') := by
  induction a generalizing b with
  | nil =>
      obtain rfl := List.eq_nil_of_length_eq_zero hlength.symm
      rfl
  | cons x a ih =>
      cases b with
      | nil => cases hlength
      | cons y b =>
          rw [List.cons_append, List.cons_append, lexicographic_cons, lexicographic_cons,
            ih (Nat.succ.inj hlength), Ordering.then_assoc]

theorem not_before_nil (a : Bytes) : ¬ Before a [] := by
  rintro (⟨more, hmore, hnil⟩ | ⟨common, x, y, more, more', -, hnil, -⟩)
  · exact hmore (List.append_eq_nil_iff.mp hnil.symm).2
  · exact List.cons_ne_nil y more' (List.append_eq_nil_iff.mp hnil.symm).2

theorem before_cons_iff {x y : UInt8} : Before (x :: a) (y :: b) ↔ x.toNat < y.toNat ∨ x = y ∧ Before a b := by
  constructor
  · rintro (⟨more, hmore, hb⟩ | ⟨common, x', y', more, more', ha, hb, hlt⟩)
    · obtain ⟨rfl, rfl⟩ := List.cons.inj hb
      exact .inr ⟨rfl, .inl ⟨more, hmore, rfl⟩⟩
    · cases common with
      | nil =>
          cases ha
          cases hb
          exact .inl hlt
      | cons z common =>
          cases ha
          cases hb
          exact .inr ⟨rfl, .inr ⟨common, x', y', more, more', rfl, rfl, hlt⟩⟩
  · rintro (hlt | ⟨rfl, ⟨more, hmore, rfl⟩ | ⟨common, x', y', more, more', rfl, rfl, hlt⟩⟩)
    · exact .inr ⟨[], x, y, a, b, rfl, rfl, hlt⟩
    · exact .inl ⟨more, hmore, rfl⟩
    · exact .inr ⟨x :: common, x', y', more, more', rfl, rfl, hlt⟩

theorem lt_iff_before : a < b ↔ Before a b := by
  induction a generalizing b with
  | nil =>
      cases b with
      | nil => exact iff_of_false (List.lt_irrefl []) (not_before_nil [])
      | cons y b => exact iff_of_true (List.nil_lt_cons y b) (.inl ⟨y :: b, List.cons_ne_nil y b, rfl⟩)
  | cons x a ih =>
      cases b with
      | nil => exact iff_of_false (List.not_lt_nil _) (not_before_nil _)
      | cons y b => rw [List.cons_lt_cons_iff, ih, UInt8.lt_iff_toNat_lt, before_cons_iff]

end Bytes

namespace BigEndian

/-- Numbers are compared by their higher digits first. -/
theorem compare_eq_then (m n : Nat) :
    Ord.compare m n = (Ord.compare (m / 256) (n / 256)).then (Ord.compare (m % 256) (n % 256)) := by
  rcases Nat.lt_trichotomy (m / 256) (n / 256) with hlt | heq | hgt
  · have hless : m < n := by omega
    rw [Nat.compare_eq_lt.mpr hlt, Nat.compare_eq_lt.mpr hless]
    rfl
  · rw [Nat.compare_eq_eq.mpr heq, Ordering.eq_then]
    rcases Nat.lt_trichotomy m n with hless | rfl | hmore
    · have hlow : m % 256 < n % 256 := by omega
      rw [Nat.compare_eq_lt.mpr hless, Nat.compare_eq_lt.mpr hlow]
    · rw [Nat.compare_eq_eq.mpr rfl, Nat.compare_eq_eq.mpr rfl]
    · have hlow : n % 256 < m % 256 := by omega
      rw [Nat.compare_eq_gt.mpr hmore, Nat.compare_eq_gt.mpr hlow]
  · have hmore : n < m := by omega
    rw [Nat.compare_eq_gt.mpr hgt, Nat.compare_eq_gt.mpr hmore]
    rfl

/-- Numbers of the same width are in the order of their digits. -/
theorem lexicographic_encode {width m n : Nat} (hm : m < range width) (hn : n < range width) :
    Bytes.lexicographic (encode width m) (encode width n) = Ord.compare m n := by
  induction width generalizing m n with
  | zero =>
      obtain rfl := Nat.lt_one_iff.mp hm
      obtain rfl := Nat.lt_one_iff.mp hn
      rfl
  | succ width ih =>
      have hhigh : ∀ {n}, n < range (width + 1) → n / 256 < range width := fun hn => Nat.div_lt_of_lt_mul hn
      have hlow : ∀ n, (UInt8.ofNat n).toNat = n % 256 := fun n => UInt8.toNat_ofNat'
      calc Bytes.lexicographic (encode (width + 1) m) (encode (width + 1) n)
          = (Bytes.lexicographic (encode width (m / 256)) (encode width (n / 256))).then
              (Bytes.lexicographic [UInt8.ofNat m] [UInt8.ofNat n]) := by
            apply Bytes.lexicographic_append
            rw [length_encode, length_encode]
        _ = (Ord.compare (m / 256) (n / 256)).then (Ord.compare (m % 256) (n % 256)) := by
            rw [ih (hhigh hm) (hhigh hn), Bytes.lexicographic_singleton, hlow, hlow]
        _ = Ord.compare m n := (compare_eq_then m n).symm

end BigEndian

namespace DecoratedKey

variable {a b c : DecoratedKey}

theorem le_refl (a : DecoratedKey) : a ≤ a := by
  change ¬ (a.token < a.token ∨ a.token = a.token ∧ a.key < a.key)
  rintro (htoken | ⟨-, hkey⟩)
  · exact List.lt_irrefl _ htoken
  · exact List.lt_irrefl _ hkey

theorem lt_trans (hab : a < b) (hbc : b < c) : a < c := by
  change a.token < b.token ∨ a.token = b.token ∧ a.key < b.key at hab
  change b.token < c.token ∨ b.token = c.token ∧ b.key < c.key at hbc
  change a.token < c.token ∨ a.token = c.token ∧ a.key < c.key
  rcases hab with hab | ⟨htoken, hab⟩
  · rcases hbc with hbc | ⟨htoken', -⟩
    · exact Or.inl (Trans.trans hab hbc)
    · exact Or.inl (htoken' ▸ hab)
  · rcases hbc with hbc | ⟨htoken', hbc⟩
    · exact Or.inl (htoken ▸ hbc)
    · exact Or.inr ⟨htoken.trans htoken', Trans.trans hab hbc⟩

theorem eq_of_not_lt (hab : ¬ a < b) (hba : ¬ b < a) : a = b := by
  change ¬ (a.token < b.token ∨ a.token = b.token ∧ a.key < b.key) at hab
  change ¬ (b.token < a.token ∨ b.token = a.token ∧ b.key < a.key) at hba
  rw [not_or, not_and] at hab hba
  have htoken : a.token = b.token :=
    Std.Trichotomous.trichotomous (r := fun x y : Bytes => x < y) _ _ hab.1 hba.1
  have hkey : a.key = b.key :=
    Std.Trichotomous.trichotomous (r := fun x y : Bytes => x < y) _ _ (hab.2 htoken)
      (hba.2 htoken.symm)
  cases a
  cases b
  exact congr (congrArg mk htoken) hkey

theorem le_trans (hab : a ≤ b) (hbc : b ≤ c) : a ≤ c := by
  change ¬ b < a at hab
  change ¬ c < b at hbc
  intro hca
  by_cases h : a < b
  · exact hbc (lt_trans hca h)
  · have heq := eq_of_not_lt h hab
    subst heq
    exact hbc hca

theorem lt_iff_then :
    a < b ↔ (Bytes.lexicographic a.token b.token).then (Bytes.lexicographic a.key b.key) = .lt := by
  rw [Ordering.then_eq_lt, Bytes.lexicographic_eq_lt_iff, Bytes.lexicographic_eq_lt_iff, Bytes.lexicographic_eq_eq_iff]
  rfl

theorem compare_eq_then (a b : DecoratedKey) :
    a.compare b = (Bytes.lexicographic a.token b.token).then (Bytes.lexicographic a.key b.key) := by
  have hgt : b < a ↔ (Bytes.lexicographic a.token b.token).then (Bytes.lexicographic a.key b.key) = .gt := by
    rw [lt_iff_then, ← Bytes.lexicographic_swap a.token, ← Bytes.lexicographic_swap a.key, ← Ordering.swap_then,
      Ordering.swap_eq_lt]
  unfold compare
  simp only [lt_iff_then (a := a), hgt]
  cases (Bytes.lexicographic a.token b.token).then (Bytes.lexicographic a.key b.key) <;> rfl

theorem compare_eq_lt_iff : a.compare b = .lt ↔ a < b := by
  rw [compare_eq_then, ← lt_iff_then]

theorem compare_swap (a b : DecoratedKey) : a.compare b = (b.compare a).swap := by
  rw [compare_eq_then, compare_eq_then, Ordering.swap_then, Bytes.lexicographic_swap, Bytes.lexicographic_swap]

theorem compare_eq_gt_iff : a.compare b = .gt ↔ b < a := by
  rw [compare_swap, Ordering.swap_eq_gt, compare_eq_lt_iff]

theorem isLE_compare_iff : (a.compare b).isLE = true ↔ a ≤ b := by
  change _ ↔ ¬ b < a
  rw [← compare_eq_gt_iff]
  cases a.compare b <;> decide

theorem compare_eq_eq_iff : a.compare b = .eq ↔ a = b := by
  rw [compare_eq_then, Ordering.then_eq_eq, Bytes.lexicographic_eq_eq_iff, Bytes.lexicographic_eq_eq_iff]
  cases a
  cases b
  rw [mk.injEq]

instance : Std.TransCmp compare where
  eq_swap := compare_swap _ _
  isLE_trans hab hbc := isLE_compare_iff.mpr (le_trans (isLE_compare_iff.mp hab) (isLE_compare_iff.mp hbc))

end DecoratedKey

namespace Partitioner

theorem compare_byteOrdered (a b : Bytes) :
    (byteOrdered.decorate a).compare (byteOrdered.decorate b) = Bytes.lexicographic a b := by
  calc (byteOrdered.decorate a).compare (byteOrdered.decorate b)
      = (Bytes.lexicographic a b).then (Bytes.lexicographic a b) := DecoratedKey.compare_eq_then _ _
    _ = Bytes.lexicographic a b := Ordering.then_self

theorem compare_hashBy (checksum : Bytes → UInt32) (a b : Bytes) :
    ((hashBy checksum).decorate a).compare ((hashBy checksum).decorate b) =
      (Ord.compare (checksum a).toNat (checksum b).toNat).then (Bytes.lexicographic a b) := by
  have hfits : ∀ key, (checksum key).toNat < BigEndian.range 4 := fun key => (checksum key).toNat_lt
  calc ((hashBy checksum).decorate a).compare ((hashBy checksum).decorate b)
      = (Bytes.lexicographic (BigEndian.encode 4 (checksum a).toNat) (BigEndian.encode 4 (checksum b).toNat)).then
          (Bytes.lexicographic a b) := DecoratedKey.compare_eq_then _ _
    _ = (Ord.compare (checksum a).toNat (checksum b).toNat).then (Bytes.lexicographic a b) := by
        rw [BigEndian.lexicographic_encode (hfits a) (hfits b)]

theorem compare_decorate_eq_iff (p : Partitioner) {a b : Bytes} :
    (p.decorate a).compare (p.decorate b) = .eq ↔ a = b := by
  rw [DecoratedKey.compare_eq_eq_iff]
  exact ⟨congrArg DecoratedKey.key, congrArg p.decorate⟩

/-- Keys that are ordered by their bytes are compared byte by byte, and keys that are spread by a checksum by their
checksums first, as numbers. Whatever the tokens are, the order is total, two keys that compare equal are the same, and
it is the order that a writer checks. -/
theorem decorated_order (checksum : Bytes → UInt32) :
    (∀ a b, (byteOrdered.decorate a).compare (byteOrdered.decorate b) = Bytes.lexicographic a b) ∧
    (∀ a b, ((hashBy checksum).decorate a).compare ((hashBy checksum).decorate b) =
      (Ord.compare (checksum a).toNat (checksum b).toNat).then (Bytes.lexicographic a b)) ∧
    (∀ a b, Bytes.lexicographic a b = .lt ↔ Bytes.Before a b) ∧
    (∀ (p : Partitioner) (a b), (p.decorate a).compare (p.decorate b) = .eq ↔ a = b) ∧
    Std.TransCmp DecoratedKey.compare ∧
    ∀ x y : DecoratedKey, (x.compare y = .eq ↔ x = y) ∧ (x.compare y = .lt ↔ x < y) ∧
      (x.compare y = .gt ↔ y < x) := by
  refine ⟨compare_byteOrdered, compare_hashBy checksum, fun a b => ?_, fun p a b => p.compare_decorate_eq_iff,
    inferInstance, fun x y => ?_⟩
  · rw [Bytes.lexicographic_eq_lt_iff, Bytes.lt_iff_before]
  · exact ⟨DecoratedKey.compare_eq_eq_iff, DecoratedKey.compare_eq_lt_iff, DecoratedKey.compare_eq_gt_iff⟩

/-- A checksum can turn two keys around. -/
example : (byteOrdered.decorate [97]).compare (byteOrdered.decorate [98]) = .lt ∧
    (hash.decorate [97]).compare (hash.decorate [98]) = .gt := by
  decide +kernel

end Partitioner

end SortedTable
