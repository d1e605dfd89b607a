/-!
# Blank characters

The white space of Unicode, and the two things done with it: trimming a setting and cutting a command
line into words.
-/

namespace SortedTable.Text

def isBlank (c : Char) : Bool :=
  let code := c.toNat
  (9 ≤ code && code ≤ 13) || code = 0x20 || code = 0x85 || code = 0xa0 || code = 0x1680 ||
    (0x2000 ≤ code && code ≤ 0x200a) || code = 0x2028 || code = 0x2029 || code = 0x202f ||
    code = 0x205f || code = 0x3000

def trim (s : String) : String :=
  String.ofList ((s.toList.dropWhile isBlank).reverse.dropWhile isBlank).reverse

/-- Adds a character in front of a list of words, of which the first may still be growing. -/
def addToWords (c : Char) : List (List Char) → List (List Char)
  | [] => if isBlank c then [[]] else [[c]]
  | word :: words => if isBlank c then [] :: word :: words else (c :: word) :: words

/-- The longest runs of characters that are not blank. -/
def words (s : String) : List String :=
  ((s.toList.foldr addToWords []).filter (· ≠ [])).map String.ofList

end SortedTable.Text
