import SortedTable.Text.Printable
import SortedTable.Text.Utf8

/-!
# Quoted text

Text inside messages: between double quotes, with the characters that would not show written as
escapes. A path is quoted like text, with its broken bytes in hexadecimal.
-/

namespace SortedTable.Text

def hexDigits (n : Nat) : List Char := Nat.toDigits 16 n

/-- `\u` and the number of the character in braces. -/
def escapeByNumber (c : Char) : List Char :=
  "\\u\x7b".toList ++ hexDigits c.toNat ++ ['\x7d']

def escapeChar (c : Char) : List Char :=
  match c with
  | '\x00' => ['\\', '0']
  | '\t' => ['\\', 't']
  | '\n' => ['\\', 'n']
  | '\r' => ['\\', 'r']
  | '"' => ['\\', '"']
  | '\\' => ['\\', '\\']
  | c => if isPrintable c then [c] else escapeByNumber c

def quoted (s : String) : String :=
  String.ofList ('"' :: (s.toList.flatMap escapeChar ++ ['"']))

def hexByte (b : UInt8) (digit : Nat → Char) : List Char :=
  ['\\', 'x', digit (b.toNat / 16), digit (b.toNat % 16)]

def escapePiece : Piece → List Char
  | .char c => escapeChar c
  | .broken bytes => bytes.flatMap fun b => hexByte b fun d => (Nat.digitChar d).toUpper

def quotedPath (path : Bytes) : String :=
  String.ofList ('"' :: ((pieces path).flatMap escapePiece ++ ['"']))

/-- Bytes shown in printable ASCII, the others as escapes. -/
def escapeAsciiByte (b : UInt8) : List Char :=
  match Char.ofNat b.toNat with
  | '\t' => ['\\', 't']
  | '\n' => ['\\', 'n']
  | '\r' => ['\\', 'r']
  | '\'' => ['\\', '\'']
  | '"' => ['\\', '"']
  | '\\' => ['\\', '\\']
  | c => if 0x20 ≤ b && b ≤ 0x7e then [c] else hexByte b Nat.digitChar

def escapeAscii (bytes : Bytes) : String :=
  String.ofList (bytes.flatMap escapeAsciiByte)

end SortedTable.Text
