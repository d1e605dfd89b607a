import SortedTable.Bytes

/-!
# Reading UTF-8

Bytes are read as characters one at a time. Where no character can be read, the longest part that
could have begun one is set aside as broken, and reading goes on behind it.
-/

namespace SortedTable.Text

inductive Piece where
  | char (c : Char)
  | broken (bytes : Bytes)

def isContinuation (b : UInt8) : Bool := 0x80 ≤ b && b ≤ 0xbf

/-- Whether a second byte can follow the first byte of a three-byte character. -/
def startsThree (first second : UInt8) : Bool :=
  (first = 0xe0 && 0xa0 ≤ second && second ≤ 0xbf) ||
    (0xe1 ≤ first && first ≤ 0xec && isContinuation second) ||
    (first = 0xed && 0x80 ≤ second && second ≤ 0x9f) ||
    (0xee ≤ first && first ≤ 0xef && isContinuation second)

/-- Whether a second byte can follow the first byte of a four-byte character. -/
def startsFour (first second : UInt8) : Bool :=
  (first = 0xf0 && 0x90 ≤ second && second ≤ 0xbf) ||
    (0xf1 ≤ first && first ≤ 0xf3 && isContinuation second) ||
    (first = 0xf4 && 0x80 ≤ second && second ≤ 0x8f)

def assemble (lead : Nat) (continuation : Bytes) : Char :=
  Char.ofNat (continuation.foldl (fun code b => 64 * code + b.toNat % 64) lead)

/-- The first piece, and how many bytes it takes after the first. -/
def piece (first : UInt8) (rest : Bytes) : Piece × Nat :=
  if first < 0x80 then (.char (Char.ofNat first.toNat), 0)
  else if 0xc2 ≤ first && first ≤ 0xdf then
    match rest with
    | b :: _ =>
        if isContinuation b then (.char (assemble (first.toNat % 32) [b]), 1)
        else (.broken [first], 0)
    | [] => (.broken [first], 0)
  else
    match rest with
    | b :: c :: d :: _ =>
        if startsThree first b then
          if isContinuation c then (.char (assemble (first.toNat % 16) [b, c]), 2)
          else (.broken [first, b], 1)
        else if startsFour first b then
          if isContinuation c then
            if isContinuation d then (.char (assemble (first.toNat % 8) [b, c, d]), 3)
            else (.broken [first, b, c], 2)
          else (.broken [first, b], 1)
        else (.broken [first], 0)
    | b :: c :: [] =>
        if startsThree first b then
          if isContinuation c then (.char (assemble (first.toNat % 16) [b, c]), 2)
          else (.broken [first, b], 1)
        else if startsFour first b then
          if isContinuation c then (.broken [first, b, c], 2) else (.broken [first, b], 1)
        else (.broken [first], 0)
    | b :: [] =>
        if startsThree first b || startsFour first b then (.broken [first, b], 1)
        else (.broken [first], 0)
    | [] => (.broken [first], 0)

def pieces : Bytes → List Piece
  | [] => []
  | first :: rest =>
      let (head, used) := piece first rest
      head :: pieces (rest.drop used)
termination_by input => input.length
decreasing_by simp only [List.length_drop, List.length_cons]; omega

def lossy (input : Bytes) : String :=
  String.ofList ((pieces input).map fun
    | .char c => c
    | .broken _ => '\ufffd')

def ofUtf8? (input : Bytes) : Option String :=
  String.fromUTF8? ⟨input.toArray⟩

end SortedTable.Text
