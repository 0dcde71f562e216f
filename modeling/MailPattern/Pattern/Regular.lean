import MailPattern.Pattern.Normal

/-!
# Pattern — Regular

Patterns in their smallest form: counts are written out, so that what is left to repeat are loops
without a count.  `Normal.unrolled` brings a normal form there: `x{2,}` is `x` before one or more
`x`, and `x{2,4}` is `xx` before an optional `x` that has another optional `x` inside.

The *points* of such a pattern are its sets and the places where it forks: alternations, optional
parts and loops.  Points are numbered from left to right, a fork before what is in it.

`Normal.weight` is what the written out form takes, without writing it out; patterns above a limit
are refused.
-/

namespace MailPattern

/-- A pattern in its smallest form.  `fork` is a pattern that begins with a choice; of the choices
of one alternation only the first counts as a fork.  A loop is gone through one time or more, or
any number of times when it is `skippable`, as often as possible first when `greedy`. -/
inductive Regular where
  | empty
  | chars (set : CharSet)
  | start
  | stop
  | cat (r s : Regular)
  | alt (r s : Regular)
  | fork (r : Regular)
  | optional (greedy : Bool) (r : Regular)
  | loop (greedy skippable : Bool) (r : Regular)
  | group (index : Nat) (r : Regular)
deriving DecidableEq, Repr

namespace Regular

/-- How many points the pattern has. -/
def points : Regular → Nat
  | .empty | .start | .stop => 0
  | .chars _ => 1
  | .cat r s | .alt r s => r.points + s.points
  | .fork r | .optional _ r | .loop _ _ r => r.points + 1
  | .group _ r => r.points

/-- The sequence, less what is empty. -/
def seq : Regular → Regular → Regular
  | .empty, s => s
  | r, .empty => r
  | r, s => .cat r s

/-- The characters one after the other. -/
def literal (s : List Char) : Regular := s.foldr (fun c r => seq (.chars (.single c)) r) .empty

/-- The choices of a pattern that forks at its beginning. -/
def choices : Regular → Regular
  | .fork r => r
  | r => r

/-- `r`, `n` times. -/
def times (r : Regular) (n : Nat) : Regular := n.repeat (seq r) .empty

/-- `r` at most `n` times, more often preferred when `greedy`. -/
def upTo (greedy : Bool) (r : Regular) (n : Nat) : Regular :=
  n.repeat (fun inner => .optional greedy (seq r inner)) .empty

/-- `r` as often as `c` says, where each match of `r` takes a character when `takesSome`. -/
def counted (c : Count) (takesSome : Bool) (r : Regular) : Regular :=
  match c.least, c.most with
  | 0, none =>
    if takesSome then .loop c.greedy true r else .optional c.greedy (.loop c.greedy false r)
  | n + 1, none => seq (r.times n) (.loop c.greedy false r)
  | m, some n => seq (r.times m) (upTo c.greedy r (n - m))

end Regular

namespace Normal

/-- The smallest form.  Groups are kept when `groups`. -/
def unrolled (groups : Bool) : Normal → Regular
  | .empty => .empty
  | .literal s => .literal s
  | .chars set => .chars set
  | .start => .start
  | .stop => .stop
  | .cat p q => .cat (p.unrolled groups) (q.unrolled groups)
  | .alt p q => .fork (.alt (p.unrolled groups) (q.unrolled groups).choices)
  | .group n p => if groups then .group n (p.unrolled groups) else p.unrolled groups
  | .repeated c p => .counted c p.takesSome (p.unrolled groups)

/-! ### Weight -/

/-- The weight of a set: light where all its characters are ASCII, and else by the bytes of UTF-8 at
the ends of its ranges. -/
def setWeight (set : CharSet) : Nat :=
  if set.ranges.all fun r => r.2.toNat < 128 then
    if set.ranges.length ≤ 1 then 64 else 64 + 8 * set.ranges.length
  else set.ranges.foldl (fun n r => n + 40 * r.2.utf8Size) 32

/-- The weight of the written out form. -/
def weight : Normal → Nat
  | .empty | .start | .stop => 32
  | .literal s => s.foldl (fun n c => n + 32 * c.utf8Size) 0
  | .chars set => setWeight set
  | .cat p q => p.weight + q.weight
  | .alt p q => p.weight + q.weight + if q.isAlt then 4 else 72
  | .group _ p => p.weight + 64
  | .repeated c p =>
    match c.least, c.most with
    | 0, some 1 => p.weight + 72
    | 0, none => p.weight + if p.takesSome then 40 else 112
    | m, none => m * p.weight + 40
    | m, some n => m * p.weight + (n - m) * (p.weight + 40) + 32

/-- The greatest weight that is accepted. -/
def maxWeight : Nat := 10485760

/-- The smallest form of a pattern that is not too heavy. -/
def regular? (groups : Bool) (p : Normal) : Option Regular :=
  if p.weight ≤ maxWeight then some (p.unrolled groups) else none

end Normal

end MailPattern
