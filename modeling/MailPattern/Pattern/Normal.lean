import MailPattern.Pattern.Interpretation

/-!
# Pattern — Normal

Normal forms of the patterns that neither look around nor recall.

* A run of characters is one literal, and a character that has variants up to case is a set.
* Sequences and alternations hold none of their own kind; an alternation of single characters, or
  of sets, is a set.
* An alternation of sequences that all begin alike is what they share before an alternation of
  their rests, `ax*|ay*` being `a(?:x*|y*)`.
* What takes no character is repeated at most once.

A normal form matches where its pattern does.  But of the matches that start at one position it
may prefer another: once `a?a|a?b` is `a?(?:a|b)`, taking the first `a` comes before everything
else.  So what is searched for is the normal form.
-/

namespace MailPattern

/-- The greatest number in a count that can be met. -/
def Count.limit : Nat := 4294967295

/-- The count can be met, and its numbers are not too large. -/
def Count.fits (c : Count) : Bool :=
  c.least ≤ limit && (c.most.all fun n => c.least ≤ n && n ≤ limit)

/-- A pattern in normal form.  A `literal` has a character, a set is resolved, and the trees of
`cat` and `alt` lean to the right. -/
inductive Normal where
  | empty
  | literal (s : List Char)
  | chars (set : CharSet)
  | start
  | stop
  | cat (p q : Normal)
  | alt (p q : Normal)
  | group (index : Nat) (p : Normal)
  | repeated (count : Count) (p : Normal)
deriving DecidableEq, Repr

namespace Normal

/-! ### Lengths -/

/-- The number of characters that the pattern takes at least, if it can match at all. -/
def least? : Normal → Option Nat
  | .empty | .start | .stop => some 0
  | .literal s => some s.length
  | .chars set => if set.ranges.isEmpty then none else some 1
  | .cat p q => do pure ((← p.least?) + (← q.least?))
  | .alt p q => do pure (min (← p.least?) (← q.least?))
  | .group _ p => p.least?
  | .repeated c p => p.least?.map (c.least * ·)

/-- Every match takes a character. -/
def takesSome (p : Normal) : Bool := p.least?.any (0 < ·)

/-- No match takes a character, by the form of the pattern. -/
def takesNone : Normal → Bool
  | .empty | .start | .stop => true
  | .literal _ | .chars _ => false
  | .cat p q | .alt p q => p.takesNone && q.takesNone
  | .group _ p | .repeated _ p => p.takesNone

/-- How many parts the pattern has. -/
def size : Normal → Nat
  | .empty | .literal _ | .chars _ | .start | .stop => 1
  | .cat p q | .alt p q => p.size + q.size + 1
  | .group _ p | .repeated _ p => p.size + 1

/-! ### Sequences -/

/-- The items of a sequence. -/
def items : Normal → List Normal
  | .empty => []
  | .cat p q => p.items ++ q.items
  | p => [p]

/-- The items one after the other, as they are. -/
def ofItems : List Normal → Normal
  | [] => .empty
  | [p] => p
  | p :: ps => .cat p (ofItems ps)

/-- One more item in front; two literals are one. -/
def prepend : Normal → List Normal → List Normal
  | .literal s, .literal t :: rest => .literal (s ++ t) :: rest
  | p, rest => p :: rest

/-- The patterns in sequence. -/
def sequence (ps : List Normal) : Normal := ofItems ((ps.flatMap items).foldr prepend [])

/-! ### Alternations -/

/-- The characters of a set; one alone is a literal. -/
def ofSet (set : CharSet) : Normal :=
  match set.ranges with
  | [(lo, hi)] => if lo = hi then .literal [lo] else .chars set
  | _ => .chars set

/-- The branches of an alternation. -/
def branches : Normal → List Normal
  | .alt p q => p.branches ++ q.branches
  | p => [p]

/-- An alternation of two branches or more. -/
def isAlt : Normal → Bool
  | .alt .. => true
  | _ => false

/-- The branches one after the other, as they are. -/
def ofBranches : List Normal → Normal
  | [] => .chars ⟨[], false⟩
  | [p] => p
  | p :: ps => .alt p (ofBranches ps)

/-- The set of the one character that the pattern is. -/
def single? : Normal → Option CharSet
  | .literal [c] => some (.single c)
  | _ => none

/-- The set that the pattern is. -/
def set? : Normal → Option CharSet
  | .chars set => some set
  | _ => none

/-- The items of a pattern that is a sequence. -/
def items? : Normal → Option (List Normal)
  | .cat p q => some (p.items ++ q.items)
  | _ => none

/-- What two lists begin with alike. -/
def shared : List Normal → List Normal → List Normal
  | p :: ps, q :: qs => if p = q then p :: shared ps qs else []
  | _, _ => []

/-- The items that all branches begin with, when all are sequences. -/
def beginning (bs : List Normal) : List Normal :=
  match bs.mapM items? with
  | some (first :: others) => others.foldl shared first
  | _ => []

/-- The alternation of the patterns, the earlier preferred.  What all branches share is taken out
at most `fuel` times; each time the branches get smaller. -/
def choiceWithin (fuel : Nat) (ps : List Normal) : Normal :=
  let bs := ps.flatMap branches
  match bs with
  | [p] => p
  | _ =>
    match bs.mapM single?, bs.mapM set? with
    | some sets, _ | none, some sets => ofSet (.union sets)
    | none, none =>
      match fuel, beginning bs with
      | fuel + 1, p :: ps =>
        let rests := bs.map fun b => sequence (b.items.drop (ps.length + 1))
        sequence (p :: ps ++ [choiceWithin fuel rests])
      | _, _ => ofBranches bs

/-- The alternation of the patterns, the earlier preferred. -/
def choice (ps : List Normal) : Normal :=
  choiceWithin (ps.foldl (fun n p => n + p.size) 0) ps

/-! ### Repetitions -/

/-- How often a pattern is repeated; one that takes no character at most once. -/
def bounded (c : Count) (p : Normal) : Count :=
  if p.takesNone then { c with least := min c.least 1, most := some (min (c.most.getD 1) 1) }
  else c

/-- The pattern as often as `c` says. -/
def times (c : Count) (p : Normal) : Normal :=
  let c := bounded c p
  if c.most = some 0 then .empty
  else if c.least = 1 ∧ c.most = some 1 then p
  else .repeated c p

/-! ### The normal form of a pattern -/

/-- A character, or its variants. -/
def ofChar (caseless : Bool) (c : Char) : Normal :=
  if caseless then ofSet (.union ((Folding.variants c).map .single)) else .literal [c]

/-- The normal form part by part; none for a pattern that looks around or recalls, and none for a
count that cannot be met. -/
def interpretation (caseless : Bool) : Interpretation (Option Normal) where
  char c := some (ofChar caseless c)
  chars set := some (ofSet (set.resolve caseless))
  start := some .start
  stop := some .stop
  sequence ps := (ps.mapM id).map sequence
  choice ps := (ps.mapM id).map choice
  group n p := p.map (.group n)
  repeated c p := if c.fits then p.map (times c) else none
  look _ _ _ := none
  recalled _ := none

end Normal

/-- The normal form of the pattern, up to case when `caseless`. -/
def Pattern.normal? (caseless : Bool) (p : Pattern) : Option Normal :=
  (Normal.interpretation caseless).apply p

end MailPattern
