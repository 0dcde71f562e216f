/-!
# Text — Digits

The numbers that digits stand for, in base ten and in base sixteen with letters of either case.
-/

namespace MailPattern.Digits

/-- The value of a digit in base sixteen. -/
def hex? (c : Char) : Option Nat :=
  if '0' ≤ c ∧ c ≤ '9' then some (c.toNat - '0'.toNat)
  else if 'a' ≤ c ∧ c ≤ 'f' then some (c.toNat - 'a'.toNat + 10)
  else if 'A' ≤ c ∧ c ≤ 'F' then some (c.toNat - 'A'.toNat + 10)
  else none

/-- `c` is a digit in base sixteen. -/
def isHex (c : Char) : Bool := (hex? c).isSome

/-- The number that digits in base sixteen stand for. -/
def hexValue (ds : List Char) : Nat := ds.foldl (fun n d => n * 16 + (hex? d).getD 0) 0

/-- The number that decimal digits stand for. -/
def value (ds : List Char) : Nat := ds.foldl (fun n d => n * 10 + (d.toNat - '0'.toNat)) 0

/-- The decimal digits at the head of the text, at least one, and what follows them. -/
def take? (s : List Char) : Option (List Char × List Char) :=
  match s.takeWhile Char.isDigit with
  | [] => none
  | ds => some (ds, s.dropWhile Char.isDigit)

/-- The number at the head of the text and what follows it. -/
def number? (s : List Char) : Option (Nat × List Char) :=
  (take? s).map fun (ds, rest) => (value ds, rest)

/-- What follows a number is what follows its digits. -/
theorem eq_dropWhile_of_number {s rest : List Char} {n : Nat} (h : number? s = some (n, rest)) :
    rest = s.dropWhile Char.isDigit := by
  obtain ⟨⟨ds, _⟩, htake, h⟩ := Option.map_eq_some_iff.mp h
  cases h
  unfold take? at htake
  split at htake
  · cases htake
  · cases htake
    rfl

end MailPattern.Digits
