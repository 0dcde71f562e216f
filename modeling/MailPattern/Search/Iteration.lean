import MailPattern.Search.Span

/-!
# Search — Iteration

Successive matches of a text, given a search that starts at any position.

The next search starts where the last match ended, and one further when that match was empty.
An empty match that touches the last one does not count; the search then starts one further.
So every match starts at or after the end of the one before, and further on than its start.
An iteration that has come to no match, or has given up, stays at its end.
-/

namespace MailPattern

/-- How far an iteration has come: where to search next, where the last match ended, and whether
the end is reached. -/
structure Iteration where
  resume : Nat := 0
  last : Option Nat := none
  done : Bool := false
deriving DecidableEq, Repr

namespace Iteration

/-- The first match from `resume` on that is not an empty one at `last`. -/
def seek (find : Nat → Finding) (resume : Nat) (last : Option Nat) : Finding :=
  match find resume with
  | .found s => if s.isEmpty && last == some s.stop then find (s.stop + 1) else .found s
  | finding => finding

/-- The state after the match `s`; with `single` it is the last one. -/
def after (single : Bool) (s : Span) : Iteration :=
  { resume := if s.isEmpty then s.stop + 1 else s.stop, last := some s.stop, done := single }

/-- The next match, and the state after it. -/
def next (find : Nat → Finding) (single : Bool) (it : Iteration) : Finding × Iteration :=
  if it.done then (.missing, it) else
    match seek find it.resume it.last with
    | .found s => (.found s, after single s)
    | finding => (finding, { it with done := true })

/-- At most `n` matches from a state on, and whether the search gave up. -/
def take (find : Nat → Finding) (single : Bool) : Nat → Iteration → List Span × Bool
  | 0, _ => ([], false)
  | n + 1, it =>
    match next find single it with
    | (.found s, it) => let (spans, gaveUp) := take find single n it; (s :: spans, gaveUp)
    | (.missing, _) => ([], false)
    | (.gaveUp, _) => ([], true)

/-- All matches in a text of `size` characters, and whether the search gave up.  There is at most
one match for each position, so the count of steps does not cut the iteration short. -/
def all (find : Nat → Finding) (single : Bool) (size : Nat) : List Span × Bool :=
  take find single (size + 2) {}

variable {find : Nat → Finding} {single : Bool} {it : Iteration} {t : Span}

/-- With no match before, the first one found is sought. -/
theorem seek_none (i : Nat) : seek find i none = find i := by
  unfold seek
  cases find i <;> simp

/-- A match sought is the first one found, or the one found behind an empty one at `last`. -/
theorem seek_cases {resume : Nat} {last : Option Nat} (h : seek find resume last = .found t) :
    (find resume = .found t ∧ (t.start = t.stop → last ≠ some t.stop)) ∨
      ∃ e, last = some e ∧ find (e + 1) = .found t := by
  unfold seek at h
  split at h
  · next s hs =>
    split at h
    · next hempty =>
      rw [Bool.and_eq_true, beq_iff_eq] at hempty
      exact .inr ⟨s.stop, hempty.2, h⟩
    · next hempty =>
      cases h
      exact .inl ⟨hs, fun hstop hlast => hempty (by simp [Span.isEmpty, hstop, hlast])⟩
  · next hs => exact absurd h (hs t)

theorem next_done (h : it.done = true) : next find single it = (.missing, it) := by
  rw [next, if_pos h]

/-- Before its end an iteration goes to the match sought, and to its end without one. -/
theorem next_eq (h : it.done = false) :
    next find single it =
      match seek find it.resume it.last with
      | .found s => (.found s, after single s)
      | finding => (finding, { it with done := true }) := by
  rw [next, h, if_neg Bool.false_ne_true]

@[simp] theorem take_zero : take find single 0 it = ([], false) := by
  rw [take]

end Iteration

end MailPattern
