import Mathlib.Data.List.Induction
import SortedTable.Decimal.Natural

namespace SortedTable.Decimal

/-- How a number is written: behind a plus sign or none, and behind how many zeros. -/
structure Style where
  plus : Bool
  zeros : Nat
deriving DecidableEq, Repr

namespace Style

def plain : Style := ⟨false, 0⟩

def sign (style : Style) : List Char := if style.plus then ['+'] else []

def write (style : Style) (n : Nat) : String :=
  String.ofList (style.sign ++ (List.replicate style.zeros '0' ++ Nat.toDigits 10 n))

theorem toList_write (style : Style) (n : Nat) :
    (style.write n).toList = style.sign ++ (List.replicate style.zeros '0' ++ Nat.toDigits 10 n) :=
  String.toList_ofList

theorem write_plain (n : Nat) : plain.write n = toString n := by
  apply String.toList_injective
  rw [toList_write]
  exact Nat.toList_repr.symm

end Style

theorem isDigit_of_mem_zeros {zeros n : Nat} {c : Char} (h : c ∈ List.replicate zeros '0' ++ Nat.toDigits 10 n) :
    isDigit c = true := by
  rcases List.mem_append.mp h with h | h
  · rw [List.eq_of_mem_replicate h]
    decide
  · exact Nat.isDigit_of_mem_toDigits (by decide) (by decide) h

/-- A sign or digits are all that stands in a number. -/
theorem Style.notMem_write {c : Char} (hplus : c ≠ '+') (hdigit : isDigit c = false) (style : Style) (n : Nat) :
    c ∉ (style.write n).toList := by
  intro h
  rw [toList_write, List.mem_append] at h
  rcases h with h | h
  · unfold sign at h
    split at h
    · exact hplus (List.mem_singleton.mp h)
    · cases h
  · rw [isDigit_of_mem_zeros h] at hdigit
    cases hdigit

theorem valueOf_toDigits (n : Nat) : valueOf (Nat.toDigits 10 n) = n :=
  Nat.ofDigitChars_toDigits (by decide) (by decide)

theorem valueOf_append (digits more : List Char) :
    valueOf (digits ++ more) = Nat.ofDigitChars 10 more (valueOf digits) := Nat.ofDigitChars_append 0

theorem valueOf_zeros_append (zeros : Nat) (digits : List Char) :
    valueOf (List.replicate zeros '0' ++ digits) = valueOf digits := by
  have hzeros : valueOf (List.replicate zeros '0') = 0 := Nat.ofDigitChars_replicate_zero
  rw [valueOf_append, hzeros]
  rfl

theorem isDigit_iff {c : Char} : isDigit c = true ↔ 48 ≤ c.toNat ∧ c.toNat ≤ 57 := by
  rw [isDigit, Bool.and_eq_true, decide_eq_true_iff, decide_eq_true_iff]
  exact Iff.rfl

theorem digitValue_lt {c : Char} (h : isDigit c = true) : digitValue c < 10 := by
  obtain ⟨hlow, hhigh⟩ := isDigit_iff.mp h
  change c.toNat - 48 < 10
  omega

theorem toDigits_digitValue {c : Char} (h : isDigit c = true) : Nat.toDigits 10 (digitValue c) = [c] := by
  have hlt := digitValue_lt h
  have hchar : Nat.digitChar (digitValue c) = c := by
    apply Char.toNat_inj.mp
    rw [Nat.toNat_digitChar_of_lt_ten hlt]
    exact Nat.add_sub_of_le (isDigit_iff.mp h).1
  rw [Nat.toDigits_of_lt_base hlt, hchar]

/-- Digits are those of their value, behind zeros. -/
theorem exists_zeros {digits : List Char} (hne : digits ≠ []) (h : ∀ c ∈ digits, isDigit c = true) :
    ∃ zeros, digits = List.replicate zeros '0' ++ Nat.toDigits 10 (valueOf digits) := by
  induction digits using List.reverseRecOn with
  | nil => exact absurd rfl hne
  | append_singleton digits c ih =>
      have hc := h c (by simp)
      have hvalue : valueOf (digits ++ [c]) = 10 * valueOf digits + digitValue c := valueOf_append digits [c]
      rw [hvalue]
      by_cases hempty : digits = []
      · refine ⟨0, ?_⟩
        subst hempty
        change [c] = Nat.toDigits 10 (0 + digitValue c)
        rw [Nat.zero_add, toDigits_digitValue hc]
      obtain ⟨zeros, hdigits⟩ := ih hempty fun c hc => h c (List.mem_append_left _ hc)
      by_cases hzero : valueOf digits = 0
      · refine ⟨zeros + 1, ?_⟩
        rw [hzero, Nat.mul_zero, Nat.zero_add, toDigits_digitValue hc, List.replicate_succ']
        rw [hzero] at hdigits
        conv => lhs; rw [hdigits]
        rfl
      · refine ⟨zeros, ?_⟩
        rw [← Nat.toDigits_append_toDigits (by decide) (Nat.pos_of_ne_zero hzero) (digitValue_lt hc),
          toDigits_digitValue hc, ← List.append_assoc, ← hdigits]

theorem ofDigits?_eq_some_iff {digits : List Char} {n : Nat} :
    ofDigits? digits = some n ↔ ∃ zeros, digits = List.replicate zeros '0' ++ Nat.toDigits 10 n := by
  unfold ofDigits?
  constructor
  · intro h
    split at h
    · rename_i hdigits
      obtain rfl := Option.some.inj h
      exact exists_zeros hdigits.1 (List.all_eq_true.mp hdigits.2)
    · cases h
  · rintro ⟨zeros, rfl⟩
    have hdigits : ∀ c ∈ List.replicate zeros '0' ++ Nat.toDigits 10 n, isDigit c = true :=
      fun c => isDigit_of_mem_zeros
    rw [if_pos ⟨List.append_ne_nil_of_right_ne_nil _ Nat.toDigits_ne_nil, List.all_eq_true.mpr hdigits⟩,
      valueOf_zeros_append, valueOf_toDigits]

/-- A number below the limit is read in whichever style it is written, and nothing else is. -/
theorem natural?_eq_some_iff {limit n : Nat} {s : String} :
    natural? limit s = some n ↔ n < limit ∧ ∃ style : Style, s = style.write n := by
  unfold natural?
  dsimp only
  rw [Option.filter_eq_some_iff, decide_eq_true_iff, and_comm]
  refine and_congr_right fun _ => ?_
  constructor
  · intro h
    split at h
    · rename_i rest hplus
      obtain ⟨zeros, rfl⟩ := ofDigits?_eq_some_iff.mp h
      refine ⟨⟨true, zeros⟩, String.toList_injective ?_⟩
      rw [hplus, Style.toList_write]
      rfl
    · obtain ⟨zeros, hdigits⟩ := ofDigits?_eq_some_iff.mp h
      refine ⟨⟨false, zeros⟩, String.toList_injective ?_⟩
      rw [hdigits, Style.toList_write]
      rfl
  · rintro ⟨⟨plus, zeros⟩, rfl⟩
    have hread : ofDigits? (List.replicate zeros '0' ++ Nat.toDigits 10 n) = some n :=
      ofDigits?_eq_some_iff.mpr ⟨zeros, rfl⟩
    rw [Style.toList_write]
    cases plus with
    | true => exact hread
    | false =>
        have hsign : Style.sign ⟨false, zeros⟩ = [] := rfl
        rw [hsign, List.nil_append]
        split
        · -- a digit is no sign
          rename_i rest hplus
          have hmem : '+' ∈ List.replicate zeros '0' ++ Nat.toDigits 10 n := hplus ▸ List.mem_cons_self
          exact absurd (isDigit_of_mem_zeros hmem) (by decide)
        · exact hread

theorem Style.write_eq_toString_iff {style : Style} {n : Nat} : style.write n = toString n ↔ style = plain := by
  constructor
  · intro h
    have hlength := congrArg (·.toList.length) h
    rw [← write_plain] at hlength
    simp only [toList_write, List.length_append, List.length_replicate] at hlength
    obtain ⟨plus, zeros⟩ := style
    cases plus with
    | false =>
        obtain rfl : zeros = 0 := by simpa [sign, plain] using hlength
        rfl
    | true => simp [sign, plain] at hlength; omega
  · rintro rfl
    exact write_plain n

theorem natural?_toString {limit n : Nat} (h : n < limit) : natural? limit (toString n) = some n :=
  natural?_eq_some_iff.mpr ⟨h, .plain, (Style.write_plain n).symm⟩

theorem eq_of_toString_eq {n n' : Nat} (h : toString n = toString n') : n = n' := by
  have hread : natural? (max n n' + 1) (toString n) = some n := natural?_toString (by omega)
  rw [h, natural?_toString (by omega)] at hread
  exact (Option.some.inj hread).symm

end SortedTable.Decimal
