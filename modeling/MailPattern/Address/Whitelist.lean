import MailPattern.Address.Fragment

/-!
# Address — Whitelist

The alternation of the accepted top-level domains.  The longest come first, by their length in
UTF-8, since the first branch that matches is taken and nothing has to follow it; domains of one
length keep their order.  Each stands for itself, character by character.
-/

namespace MailPattern.Whitelist

/-- The characters that mean something in a pattern. -/
def special : List Char :=
  ['\\', '.', '+', '*', '?', '(', ')', '|', '[', ']', '\x7b', '\x7d', '^', '$', '#', '&', '-', '~']

/-- A character as it has to be written to stand for itself. -/
def escapeChar (c : Char) : List Char := if special.contains c then ['\\', c] else [c]

/-- A text as it has to be written to stand for itself. -/
def escape (s : String) : String := String.ofList (s.toList.flatMap escapeChar)

/-- The entries by descending length in UTF-8, equal lengths in their order. -/
def sorted (entries : List String) : List String :=
  entries.mergeSort fun a b => b.utf8ByteSize ≤ a.utf8ByteSize

/-- The alternation of the entries; without entries, a class that holds nothing. -/
def pattern (entries : List String) : String :=
  if entries.isEmpty then Fragment.never
  else "|".intercalate ((sorted entries).map escape)

end MailPattern.Whitelist
