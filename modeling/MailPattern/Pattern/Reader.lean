import MailPattern.Pattern.Token

/-!
# Pattern — Reader

The reading of a pattern from its text.  `Builder` holds the brackets that are open and the
branches and items read so far; each token changes it or is refused, and at the end no bracket
may be open.

The regular dialect bounds how deep the parts of a pattern nest.  The extended one bounds how many
brackets stand open, lets a recall name only a group that has been opened, and refuses to repeat
what can take no character by its form: nothing at all, an anchor, an assertion, or a repetition
that has no bracket around it.
-/

namespace MailPattern

/-- How many brackets may be open at once.  In the regular dialect more would nest too deep. -/
def Dialect.maxOpen : Dialect → Nat
  | .regular => Pattern.maxDepth
  | .extended => 63

namespace Pattern

/-- The branches finished and the items of the current one, both reversed. -/
structure Level where
  branches : List Pattern := []
  items : List Pattern := []

/-- The pattern read at a level. -/
def Level.pattern (l : Level) : Pattern :=
  ofBranches ((ofItems l.items.reverse :: l.branches).reverse)

/-- A level with one more item. -/
def Level.push (p : Pattern) (l : Level) : Level := { l with items := p :: l.items }

/-- The state of the reading: the current level, the open brackets with the level each one
stands in, the innermost first, and the number of groups to be remembered so far. -/
structure Builder where
  level : Level := {}
  outer : List (Opening × Nat × Level) := []
  captures : Nat := 0

/-- The pattern with its outer plain brackets seen through and empty items left out. -/
def bare : Pattern → Pattern
  | .group none p => p.bare
  | .cat p q => match p.bare, q.bare with
    | .empty, r => r
    | r, .empty => r
    | r, s => .cat r s
  | p => p

/-- The pattern may stand before a count. -/
def repeatable : Dialect → Pattern → Bool
  | .regular, _ => true
  | .extended, .repeated .. => false
  | .extended, p => match p.bare with
    | .empty | .start | .stop | .look .. => false
    | _ => true

/-- What a closed bracket holds. -/
def closed (kind : Opening) (index : Nat) (p : Pattern) : Pattern :=
  match kind with
  | .plain => .group none p
  | .capture => .group (some index) p
  | .look behind negative => .look behind negative p

namespace Builder

/-- The state after one more item. -/
def push (p : Pattern) (b : Builder) : Builder := { b with level := b.level.push p }

/-- The state after an opening bracket, unless too many are open. -/
def open? (d : Dialect) (kind : Opening) (b : Builder) : Option Builder :=
  let captures := if kind = .capture then b.captures + 1 else b.captures
  if b.outer.length < d.maxOpen then
    some { level := {}, outer := (kind, captures, b.level) :: b.outer, captures }
  else none

/-- The state after one more token. -/
def step? (d : Dialect) (b : Builder) : Token → Option Builder
  | .char c => some (b.push (.char c))
  | .chars set => some (b.push (.chars set))
  | .start => some (b.push .start)
  | .stop => some (b.push .stop)
  | .bar =>
    some { b with level := { branches := ofItems b.level.items.reverse :: b.level.branches } }
  | .opening (.look behind negative) =>
    match d with
    | .regular => none
    | .extended => b.open? d (.look behind negative)
  | .opening kind => b.open? d kind
  | .closing =>
    match b.outer with
    | [] => none
    | (kind, index, level) :: outer =>
      some { b with level := level.push (closed kind index b.level.pattern), outer }
  | .count c _ =>
    match b.level.items with
    | [] => none
    | p :: items =>
      if p.repeatable d then
        some { b with level := { b.level with items := .repeated c p :: items } }
      else none
  | .recall n =>
    match d with
    | .regular => none
    | .extended => if n ≤ b.captures then some (b.push (.recall n)) else none

/-- The state after the tokens. -/
def steps? (d : Dialect) : Builder → List Token → Option Builder
  | b, [] => some b
  | b, t :: ts =>
    match b.step? d t with
    | none => none
    | some b => b.steps? d ts

/-- The pattern read, if every bracket is closed and the dialect allows the depth. -/
def finish? (d : Dialect) (b : Builder) : Option Pattern :=
  let p := b.level.pattern
  if b.outer.isEmpty ∧ (d = .regular → p.depth ≤ maxDepth) then some p else none

end Builder

/-- The pattern that `s` stands for in the dialect. -/
def read? (d : Dialect) (s : String) : Option Pattern :=
  match Token.all? d s.toList with
  | none => none
  | some ts => ((({} : Builder)).steps? d ts).bind (Builder.finish? d)

end Pattern

end MailPattern
