/-!
# Search — Memory

What a way through a pattern remembers of the text: where each group began and ended last, and
where a loop last stood.
-/

namespace MailPattern

/-- What a position is remembered for. -/
inductive Slot where
  | opening (group : Nat)
  | closing (group : Nat)
  | stand (loop : Nat)
deriving DecidableEq, Repr

/-- The positions remembered; each slot stands in it at most once. -/
abbrev Memory := List (Slot × Nat)

namespace Memory

/-- The position in a slot. -/
def get? (m : Memory) (s : Slot) : Option Nat := (m.find? (·.1 = s)).map (·.2)

/-- The memory with nothing in a slot. -/
def erase (m : Memory) (s : Slot) : Memory := m.filter (·.1 ≠ s)

/-- The memory with a position in a slot. -/
def set (m : Memory) (s : Slot) (i : Nat) : Memory := (s, i) :: m.erase s

/-- The memory with what `found` has in a slot, be it nothing. -/
def copy (found : Memory) (m : Memory) (s : Slot) : Memory :=
  match found.get? s with
  | some i => m.set s i
  | none => m.erase s

/-- The memory with what `found` has for a group. -/
def copyGroup (found : Memory) (m : Memory) (n : Nat) : Memory :=
  copy found (copy found m (.opening n)) (.closing n)

theorem get?_set_self (m : Memory) (s : Slot) (i : Nat) : (m.set s i).get? s = some i := by
  simp [get?, set]

theorem get?_erase_of_ne (m : Memory) {s t : Slot} (h : t ≠ s) : (m.erase s).get? t = m.get? t := by
  induction m with
  | nil => rfl
  | cons a m ih =>
    by_cases ha : a.1 = s
    · have hne : a.1 ≠ t := fun e => h (e ▸ ha)
      simpa [get?, erase, ha, hne, Ne.symm h] using ih
    · by_cases ht : a.1 = t
      · simp [get?, erase, ht, h]
      · simpa [get?, erase, ha, ht] using ih

theorem get?_set_of_ne (m : Memory) {s t : Slot} (h : t ≠ s) (i : Nat) :
    (m.set s i).get? t = m.get? t := by
  rw [← get?_erase_of_ne m h]
  simp [get?, set, Ne.symm h]

end Memory

end MailPattern
