import MailPattern.Text.Unprinted

/-!
# Text — Quoted

A text between double quotes.  A quote and a backslash get a backslash, the usual controls
their letter, and a character that does not print its code point in hexadecimal.
-/

namespace MailPattern.Quoted

/-- The digits of `n` in base sixteen. -/
def hex (n : Nat) : List Char := Nat.toDigits 16 n

/-- How `c` is written between quotes. -/
def encodeChar (c : Char) : List Char :=
  match c with
  | '"' => ['\\', '"']
  | '\\' => ['\\', '\\']
  | '\n' => ['\\', 'n']
  | '\r' => ['\\', 'r']
  | '\t' => ['\\', 't']
  | '\x00' => ['\\', '0']
  | c =>
    if c < ' ' || ('\x7e' < c && isUnprinted c) then
      ['\\', 'u', '\x7b'] ++ hex c.toNat ++ ['\x7d']
    else [c]

/-- `s` between double quotes. -/
def encode (s : String) : String :=
  String.ofList ('"' :: s.toList.flatMap encodeChar ++ ['"'])

end MailPattern.Quoted
