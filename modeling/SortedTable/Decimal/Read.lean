import SortedTable.Decimal.Natural

/-!
# Reading fractions

A fraction is a sign or none, digits with at most one point among them, and an exponent or none; or
it is the name of infinity or of no number, in any case of letters. The value is the nearest one that
a `Float` has.
-/

namespace SortedTable.Decimal

/-- Digits of a fraction, and the power of ten that their last one counts. -/
structure Fraction where
  digits : List Char
  exponent : Int

/-- A number this far from the point is beyond every `Float`, whatever its digits. -/
def exponentBound : Int := 400

def Fraction.toFloat (f : Fraction) : Float :=
  let value := valueOf f.digits
  if value = 0 then 0
  else
    let magnitude : Int := (Nat.toDigits 10 value).length + f.exponent
    if magnitude > exponentBound then 1.0 / 0.0
    else if magnitude < -exponentBound then 0
    else Float.ofScientific value (f.exponent < 0) f.exponent.natAbs

def sign? : List Char → Bool × List Char
  | '-' :: rest => (true, rest)
  | '+' :: rest => (false, rest)
  | rest => (false, rest)

/-- The exponent at the end of a fraction: nothing, or `e` and a whole number with a sign or none. -/
def exponent? : List Char → Option Int
  | [] => some 0
  | c :: rest =>
      if c = 'e' ∨ c = 'E' then
        let (negative, digits) := sign? rest
        (ofDigits? digits).map fun n => if negative then -(n : Int) else n
      else none

def fraction? (cs : List Char) : Option Fraction :=
  let whole := cs.takeWhile isDigit
  let rest := cs.dropWhile isDigit
  let (part, tail) := match rest with
    | '.' :: after => (after.takeWhile isDigit, after.dropWhile isDigit)
    | all => ([], all)
  if whole ++ part = [] then none
  else (exponent? tail).map fun e => ⟨whole ++ part, e - part.length⟩

def named? (cs : List Char) : Option Float :=
  match String.ofList (cs.map Char.toLower) with
  | "inf" | "infinity" => some (1.0 / 0.0)
  | "nan" => some (0.0 / 0.0)
  | _ => none

def real? (s : String) : Option Float :=
  let (negative, cs) := sign? s.toList
  ((named? cs).orElse fun _ => (fraction? cs).map Fraction.toFloat).map fun x =>
    if negative then -x else x

end SortedTable.Decimal
