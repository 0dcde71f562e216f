import MailPattern.Pattern.CharSet

/-!
# Search — Subject

A text made ready for searching: what its characters are read as, and the rest of the text from
each position.
-/

namespace MailPattern

/-- The texts that `s` ends with, the longest first. -/
def suffixes {α : Type} : List α → List (List α)
  | [] => [[]]
  | a :: s => (a :: s) :: suffixes s

theorem suffixes_getElem? {α : Type} (s : List α) {i : Nat} (h : i ≤ s.length) :
    (suffixes s)[i]? = some (s.drop i) := by
  induction s generalizing i with
  | nil => cases Nat.le_zero.mp h; rfl
  | cons a s ih =>
    cases i with
    | zero => rfl
    | succ i => simpa [suffixes] using ih (Nat.le_of_succ_le_succ h)

/-- What the characters of a text are read as, by position, and the rest from each position. -/
structure Subject where
  cells : Array Reading
  rests : Array (List Reading)

namespace Subject

/-- The text with these readings. -/
def ofReadings (s : List Reading) : Subject := ⟨s.toArray, (suffixes s).toArray⟩

/-- The number of characters. -/
def size (s : Subject) : Nat := s.cells.size

/-- The rest of the text from position `i` on. -/
def rest (s : Subject) (i : Nat) : List Reading := s.rests[i]?.getD []

/-- The text from `i` up to `j`. -/
def slice (s : Subject) (i j : Nat) : List Reading := (s.cells.extract i j).toList

theorem rest_ofReadings (s : List Reading) {i : Nat} (h : i ≤ s.length) :
    (ofReadings s).rest i = s.drop i := by
  simp [ofReadings, rest, suffixes_getElem? s h]

end Subject

end MailPattern
