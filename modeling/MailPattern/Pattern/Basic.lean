import MailPattern.Pattern.CharSet

/-!
# Pattern

Patterns as trees.  A tree keeps the groups that the text marks, so that a group and what stands
in it are told apart, and a character apart from the class that holds it alone; how a character
was spelled is not kept.

`ofItems` and `ofBranches` put a branch and an alternation together; their trees lean to the right.
-/

namespace MailPattern

/-- How often something is repeated: at least `least` times, at most `most` times if that is
given, as often as possible first when `greedy`. -/
structure Count where
  least : Nat
  most : Option Nat
  greedy : Bool := true
deriving DecidableEq, Repr

/-- A pattern.  A `group` with an index is remembered under it; `look` asserts that the pattern
stands, or does not stand, right before or after the position; `recall` is the text remembered
last under an index. -/
inductive Pattern where
  | empty
  | char (c : Char)
  | chars (set : CharSet)
  | start
  | stop
  | cat (p q : Pattern)
  | alt (p q : Pattern)
  | group (index : Option Nat) (p : Pattern)
  | repeated (count : Count) (p : Pattern)
  | look (behind negative : Bool) (p : Pattern)
  | recall (index : Nat)
deriving DecidableEq, Repr

namespace Pattern

/-- The items in sequence. -/
def ofItems : List Pattern → Pattern
  | [] => .empty
  | [p] => p
  | p :: ps => .cat p (ofItems ps)

/-- The branches, the earlier preferred. -/
def ofBranches : List Pattern → Pattern
  | [] => .empty
  | [p] => p
  | p :: ps => .alt p (ofBranches ps)

/-- The characters of `s` in sequence. -/
def literal (s : List Char) : Pattern := ofItems (s.map char)

/-! ### Depth -/

/-- A sequence of two items or more. -/
def isCat : Pattern → Bool
  | .cat .. => true
  | _ => false

/-- An alternation of two branches or more. -/
def isAlt : Pattern → Bool
  | .alt .. => true
  | _ => false

/-- How deep the parts of a class nest: one deeper when they are several. -/
def classDepth (set : CharSet) : Nat := if set.ranges.length ≤ 1 then 1 else 2

/-- How deep the parts of the pattern nest.  A sequence is one part however long it is, and so is
an alternation. -/
def depth : Pattern → Nat
  | .empty | .char _ | .start | .stop | .recall _ => 0
  | .chars set => classDepth set
  | .cat p q => max (p.depth + 1) (if q.isCat then q.depth else q.depth + 1)
  | .alt p q => max (p.depth + 1) (if q.isAlt then q.depth else q.depth + 1)
  | .group _ p | .repeated _ p | .look _ _ p => p.depth + 1

/-- The greatest depth that is accepted. -/
def maxDepth : Nat := 250

end Pattern

end MailPattern
