/-!
# Engine — Flags

The two flags of a compilation, and their texts.
-/

namespace MailPattern

/-- Ignore case; report every match instead of the first. -/
structure Flags where
  caseless : Bool := false
  global : Bool := false
deriving DecidableEq, Repr

namespace Flags

/-- The flags with the letters `i` and `g` of `s`; other characters mean nothing. -/
def ofText (s : String) : Flags := ⟨s.toList.contains 'i', s.toList.contains 'g'⟩

/-- The flags as a number: one for `i`, two for `g`. -/
def bits (f : Flags) : Nat := f.caseless.toNat + 2 * f.global.toNat

/-- The flags that are set, by name. -/
def text (f : Flags) : String :=
  let names := (if f.caseless then ["CASE_INSENSITIVE"] else []) ++
    (if f.global then ["GLOBAL"] else [])
  "Flags(" ++ (if names.isEmpty then "0x0" else " | ".intercalate names) ++ ")"

end Flags

end MailPattern
