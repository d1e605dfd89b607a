/-!
# Shortest decimals

The decimal text of a `Float`: the fewest digits that read back as the same value, and of those the
nearest to it. A positive value is `mantissa * 2 ^ exponent`; the numbers that read back as it fill an
interval around it, which all the work is done in, in whole numbers.
-/

namespace SortedTable.Decimal

/-- A positive value with the interval of numbers nearest to it, all four scaled by the same factor:
`value / scale` lies between `low / scale` and `high / scale`. -/
structure Neighbourhood where
  value : Nat
  low : Nat
  high : Nat
  scale : Nat
  /-- Whether the ends of the interval read back as the value too. -/
  closed : Bool

def mantissaBits : Nat := 52

def Neighbourhood.ofBits (bits : Nat) : Neighbourhood :=
  let hidden := Nat.pow 2 mantissaBits
  let stored := bits % hidden
  let biased := bits / hidden % 0x800
  let mantissa := if biased = 0 then stored else stored + hidden
  let exponent : Int := ((if biased = 0 then 1 else biased : Nat) : Int) - 1075
  -- below a power of two the values lie twice as close
  let narrowBelow := stored = 0 ∧ 1 < biased
  let up := Nat.pow 2 exponent.toNat
  { value := 4 * mantissa * up
    low := (if narrowBelow then 4 * mantissa - 1 else 4 * mantissa - 2) * up
    high := (4 * mantissa + 2) * up
    scale := 4 * Nat.pow 2 (-exponent).toNat
    closed := mantissa % 2 = 0 }

def Neighbourhood.holds (n : Neighbourhood) (scaled unit : Nat) : Bool :=
  if n.closed then n.low * unit ≤ scaled && scaled ≤ n.high * unit
  else n.low * unit < scaled && scaled < n.high * unit

/-- Of the two multiples of `10 ^ place` around the value, the nearest that reads back as it. -/
def Neighbourhood.candidate? (n : Neighbourhood) (place : Int) : Option Nat :=
  -- value / scale = value * unit / (scale * unit), counted in steps of 10 ^ place
  let unit := Nat.pow 10 (-place).toNat
  let step := n.scale * Nat.pow 10 place.toNat
  let below := n.value * unit / step
  let above := below + 1
  let lowFits := n.holds (below * step) unit && below ≠ 0
  let highFits := n.holds (above * step) unit
  if lowFits && highFits then
    if n.value * unit - below * step < above * step - n.value * unit then some below else some above
  else if lowFits then some below
  else if highFits then some above
  else none

def Neighbourhood.magnitude (n : Neighbourhood) : Int :=
  if n.scale ≤ n.value then ((Nat.toDigits 10 (n.value / n.scale)).length : Int) - 1
  else
    -- as many places as bring the value up to one
    Int.negOfNat (Nat.toDigits 10 ((n.scale - 1) / n.value)).length

/-- Digits and the power of ten of the last one, tried with `tries` counts of digits from `count` on. -/
def Neighbourhood.shortest (n : Neighbourhood) : (tries : Nat) → (count : Nat) → Nat × Int
  | 0, _ => (n.value / n.scale, 0)
  | tries + 1, count =>
      let place := n.magnitude - count + 1
      match n.candidate? place with
      | some digits => (digits, place)
      | none => n.shortest tries (count + 1)

/-- A decimal without an exponent: zeros up to the point, or a point among the digits. -/
def positional (digits : Nat) (place : Int) : String :=
  let cs := Nat.toDigits 10 digits
  if 0 ≤ place then String.ofList (cs ++ List.replicate place.toNat '0')
  else
    let behind := (-place).toNat
    let padded := List.replicate (behind + 1 - cs.length) '0' ++ cs
    let whole := padded.take (padded.length - behind)
    let part := (padded.drop (padded.length - behind)).reverse.dropWhile (· = '0') |>.reverse
    if part = [] then String.ofList whole
    else String.ofList (whole ++ '.' :: part)

/-- The text of a value; a fraction always stands in full, however small or large. -/
def ofFloat (x : Float) : String :=
  if x.isNaN then "NaN"
  else
    let bits := x.toBits.toNat
    let signBit := 0x8000000000000000
    let size := bits % signBit
    let text :=
      if size = 0 then "0"
      else if size = 0x7ff * Nat.pow 2 mantissaBits then "inf"
      else
        let (digits, place) := (Neighbourhood.ofBits size).shortest 17 1
        positional digits place
    if signBit ≤ bits then "-" ++ text else text

end SortedTable.Decimal
