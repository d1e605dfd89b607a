/-!
# Whole numbers in decimal

A number is one or more digits, after a plus sign or none. Leading zeros are allowed, and so the same
number can be written in many ways.
-/

namespace SortedTable.Decimal

def digitValue (c : Char) : Nat := c.toNat - '0'.toNat

def valueOf (digits : List Char) : Nat :=
  digits.foldl (fun n c => 10 * n + digitValue c) 0

def isDigit (c : Char) : Bool := '0' ≤ c && c ≤ '9'

def ofDigits? (digits : List Char) : Option Nat :=
  if digits ≠ [] ∧ digits.all isDigit then some (valueOf digits) else none

def natural? (limit : Nat) (s : String) : Option Nat :=
  let digits := match s.toList with
    | '+' :: rest => rest
    | all => all
  (ofDigits? digits).filter (· < limit)

def limit64 : Nat := 0x10000000000000000

end SortedTable.Decimal
