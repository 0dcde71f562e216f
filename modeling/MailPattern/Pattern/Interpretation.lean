import MailPattern.Pattern.Basic

/-!
# Pattern — Interpretation

What patterns can be taken for, said part by part.  An interpretation says what each part comes to
from what is in it, and `Interpretation.apply` comes to the whole.

Brackets that remember nothing are seen through and empty items left out.  So a sequence reaches
the interpretation as the list of its items and an alternation as the list of its branches, with
`sequence` never applied to one item and `choice` only to two branches or more.  Yet a sequence or
an alternation that stands in brackets among others stays one of them.
-/

namespace MailPattern

/-- What each part of a pattern comes to.  An assertion is given the alternatives that it asserts,
one of them when it holds no alternation. -/
structure Interpretation (α : Type) where
  char : Char → α
  chars : CharSet → α
  start : α
  stop : α
  sequence : List α → α
  choice : List α → α
  group : (index : Nat) → α → α
  repeated : Count → α → α
  look : (behind negative : Bool) → List α → α
  recalled : (index : Nat) → α

/-- A pattern of which the outermost parts are known: the items of a sequence, or the branches of
an alternation, which may stand in brackets. -/
inductive Parts (α : Type) where
  | sequence (items : List α)
  | choice (bracketed : Bool) (branches : List α)

namespace Interpretation

variable {α : Type}

/-- The items in sequence; one alone is itself. -/
def joined (i : Interpretation α) : List α → α
  | [a] => a
  | as => i.sequence as

/-- The whole pattern. -/
def whole (i : Interpretation α) : Parts α → α
  | .sequence items => i.joined items
  | .choice _ branches => i.choice branches

/-- The pattern as items of a sequence. -/
def items (i : Interpretation α) : Parts α → List α
  | .sequence items => items
  | .choice _ branches => [i.choice branches]

/-- The pattern as branches of an alternation. -/
def branches (i : Interpretation α) : Parts α → List α
  | .choice false branches => branches
  | parts => [i.whole parts]

/-- The alternatives of the pattern, seen through brackets. -/
def alternatives (i : Interpretation α) : Parts α → List α
  | .choice _ branches => branches
  | .sequence items => [i.joined items]

/-- The parts in brackets: one item at most, and one branch. -/
def bracketed (i : Interpretation α) : Parts α → Parts α
  | .sequence (a :: b :: rest) => .sequence [i.sequence (a :: b :: rest)]
  | .choice _ branches => .choice true branches
  | parts => parts

/-- The first parts and then the others. -/
def append (i : Interpretation α) : Parts α → Parts α → Parts α
  | .sequence [], others => others
  | parts, .sequence [] => parts
  | parts, others => .sequence (i.items parts ++ i.items others)

/-- The outermost parts of a pattern. -/
def parts (i : Interpretation α) : Pattern → Parts α
  | .empty => .sequence []
  | .char c => .sequence [i.char c]
  | .chars set => .sequence [i.chars set]
  | .start => .sequence [i.start]
  | .stop => .sequence [i.stop]
  | .cat p q => i.append (i.parts p) (i.parts q)
  | .alt p q => .choice false (i.branches (i.parts p) ++ i.branches (i.parts q))
  | .group none p => i.bracketed (i.parts p)
  | .group (some n) p => .sequence [i.group n (i.whole (i.parts p))]
  | .repeated c p => .sequence [i.repeated c (i.whole (i.parts p))]
  | .look behind negative p => .sequence [i.look behind negative (i.alternatives (i.parts p))]
  | .recall n => .sequence [i.recalled n]

/-- What the whole pattern comes to. -/
def apply (i : Interpretation α) (p : Pattern) : α := i.whole (i.parts p)

theorem whole_bracketed (i : Interpretation α) (ps : Parts α) :
    i.whole (i.bracketed ps) = i.whole ps := by
  match ps with
  | .sequence [] | .sequence [_] | .sequence (_ :: _ :: _) | .choice _ _ => rfl

/-- Brackets that remember nothing change nothing about a pattern by itself. -/
theorem apply_bracket (i : Interpretation α) (p : Pattern) :
    i.apply (.group none p) = i.apply p :=
  i.whole_bracketed _

end Interpretation

end MailPattern
