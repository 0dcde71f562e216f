import MailPattern.Search.Sweep

/-!
# Search — Plan

How a pattern that looks around or recalls is searched for.

A part of such a pattern is *hard* when it looks around or recalls itself, and settled by a sweep
when it does not: of its matches at a position only the preferred one is tried.  That is enough
where no other match can be asked for later, or none exists, all texts that match being equally
long.  Elsewhere the parts are tried one way after the other.

`Part` is what is known of a part, with its plan under either demand; `Pattern.part` comes to it
part by part.
-/

namespace MailPattern

/-- The steps of a search that tries one way after the other.  A `settled` part is swept for and sets
what is remembered of the groups in it.  A `stalling` loop has a body that may take no character.
An assertion holds when its body stands `back` characters before the position. -/
inductive Plan where
  | empty
  | chars (set : CharSet)
  | start
  | stop
  | settled (sweep : Sweep) (groups : List Nat)
  | cat (p q : Plan)
  | alt (p q : Plan)
  | group (index : Nat) (p : Plan)
  | repeated (count : Count) (p : Plan)
  | stalling (loop least : Nat) (greedy : Bool) (p : Plan)
  | look (back : Nat) (negative : Bool) (p : Plan)
  | recall (index : Nat)

namespace Plan

/-- The plans one after the other. -/
def sequence (ps : List Plan) : Plan := ps.foldr .cat .empty

/-- The plans to be tried in turn. -/
def choice : List Plan → Plan
  | [] => .chars ⟨[], false⟩
  | [p] => p
  | p :: ps => .alt p (choice ps)

end Plan

/-! ### Facts -/

/-- What is known of a part: whether it is hard, the one length of all texts that match, the length
of the shortest by its form, the groups in it, how its text binds (an alternation least, at 0, then
a sequence, then a repetition) and how deep that nests with the fewest brackets, its normal form,
and its steps where these are characters and anchors only. -/
structure Facts where
  hard : Bool := false
  width? : Option Nat
  least : Nat
  groups : List Nat := []
  binding : Nat := 3
  depth : Nat := 0
  normal? : Option Normal
  direct? : Option Plan := none

namespace Facts

/-- The depth of a part where only what binds at `binding` or more goes without brackets. -/
def depthAt (f : Facts) (binding : Nat) : Nat := if f.binding < binding then f.depth + 1 else f.depth

/-- The greatest depth among parts. -/
def maxDepthAt (binding : Nat) (fs : List Facts) : Nat :=
  fs.foldl (fun d f => max d (f.depthAt binding)) 0

/-- The depth of parts that stand one after the other. -/
def joinedDepth : List Facts → Nat
  | [f] => f.depthAt 1
  | fs => fs.foldl (fun d f => max d (if f.binding = 1 then f.depth else f.depthAt 1 + 1)) 0

/-- The one length of texts of all these lengths, if they are equal. -/
def commonWidth? : List (Option Nat) → Option Nat
  | [] => none
  | w :: ws => if ws.all (· = w) then w else none

/-- What is known of a part, part by part. -/
def interpretation : Interpretation Facts where
  char c :=
    { width? := some 1, least := 1, normal? := some (.literal [c]),
      direct? := some (.chars (.single c)) }
  chars set :=
    { width? := some 1, least := 1, depth := Pattern.classDepth set,
      normal? := some (.ofSet (set.resolve false)), direct? := some (.chars set) }
  start := { width? := some 0, least := 0, normal? := some .start, direct? := some .start }
  stop := { width? := some 0, least := 0, normal? := some .stop, direct? := some .stop }
  sequence fs :=
    { hard := fs.any (·.hard)
      width? := fs.foldl (fun w f => do pure ((← w) + (← f.width?))) (some 0)
      least := fs.foldl (fun n f => n + f.least) 0
      groups := fs.flatMap (·.groups)
      binding := if fs.isEmpty then 3 else 1
      depth := if fs.isEmpty then 0 else maxDepthAt 2 fs + 1
      normal? := (fs.mapM Facts.normal?).map .sequence
      direct? := (fs.mapM Facts.direct?).map .sequence }
  choice fs :=
    { hard := fs.any (·.hard)
      width? := commonWidth? (fs.map (·.width?))
      least := (fs.map (·.least)).min?.getD 0
      groups := fs.flatMap (·.groups)
      binding := 0
      depth := maxDepthAt 1 fs + 1
      normal? := (fs.mapM Facts.normal?).map .choice }
  group n f :=
    { f with groups := n :: f.groups, binding := 3, depth := f.depth + 1,
             normal? := f.normal?.map (.group n), direct? := none }
  repeated c f :=
    { f with width? := if c.most = some c.least then f.width?.map (c.least * ·) else none
             least := c.least * f.least
             binding := 2
             depth := f.depthAt 3 + 1
             normal? := if c.fits then f.normal?.map (.times c) else none
             direct? := none }
  look _ _ fs :=
    { hard := true, width? := some 0, least := 0, groups := fs.flatMap (·.groups), normal? := none }
  recalled _ := { hard := true, width? := none, least := 0, normal? := none }

/-- All texts that match are equally long, and the part is not hard. -/
def isFixed (f : Facts) : Bool := f.width?.isSome && !f.hard

/-- The plan that settles the parts one after the other, unless they nest too deep or weigh too
much. -/
def settled? (fs : List Facts) : Option Plan :=
  match fs.mapM Facts.direct? with
  | some plans => some (.sequence plans)
  | none => do
    let normals ← fs.mapM Facts.normal?
    if Pattern.maxDepth < joinedDepth fs then none
    let r ← (Normal.sequence normals).regular? true
    pure (.settled r.sweep (fs.flatMap (·.groups)))

end Facts

/-! ### Plans -/

/-- A plan for which the number of loops numbered so far is known; there may be none. -/
abbrev Planning := StateT Nat Option Plan

/-- What is known of a part, and its plan.  The part is *revisited* when, after one match, others at
the same position may be asked for. -/
structure Part extends Facts where
  plan : (revisited : Bool) → Planning

namespace Part

/-- The part with these facts, which is settled when it may be and planned as given when not. -/
def of (facts : Facts) (plan : Bool → Planning) : Part :=
  { facts with
    plan := fun revisited =>
      if revisited || facts.hard then plan revisited else StateT.lift (Facts.settled? [facts]) }

/-- A part whose steps do not depend on the demand. -/
def ofLeaf (facts : Facts) (plan : Plan) : Part := of facts fun _ => pure plan

/-- The plan of a sequence.  What is fixed in front is settled at once, and so is what is not hard
at the end, if it is fixed or the sequence is not revisited. -/
def sequencePlan (parts : List Part) (revisited : Bool) : Planning := do
  let front := parts.takeWhile (·.isFixed)
  let rest := parts.dropWhile (·.isFixed)
  let back := (rest.reverse.takeWhile fun p => p.isFixed || !(revisited || p.hard)).reverse
  let first ← StateT.lift (Facts.settled? (front.map (·.toFacts)))
  let plans ← (rest.take (rest.length - back.length)).mapM (·.plan true)
  let last ← StateT.lift (Facts.settled? (back.map (·.toFacts)))
  pure (.sequence (first :: plans ++ [last]))

/-- The plan of a repetition. -/
def repeatedPlan (c : Count) (p : Part) (revisited : Bool) : Planning := do
  if c.least = 0 ∧ c.most = some 1 then pure (.repeated c (← p.plan revisited))
  else
    let body ← p.plan true
    if c.most = none ∧ p.least = 0 then
      let loop ← modifyGet fun n => (n, n + 1)
      pure (.stalling loop c.least c.greedy body)
    else pure (.repeated c body)

/-- The plan of an assertion that the part stands `back` characters before. -/
def lookPlan (negative : Bool) (back : Option Nat) (p : Part) : Planning := do
  let n ← StateT.lift back
  pure (.look n negative (← p.plan false))

/-- The plan of an assertion on what stands behind: on the whole if its length is known, and else
on each of the alternatives. -/
def behindPlan (negative : Bool) (whole : Part) (alternatives : List Part) : Planning := do
  if whole.width?.isSome then lookPlan negative whole.width? whole
  else
    let plans ← alternatives.mapM fun p => lookPlan negative p.width? p
    pure (if negative then .sequence plans else .choice plans)

/-- An alternation. -/
def choice (parts : List Part) : Part :=
  of (Facts.interpretation.choice (parts.map (·.toFacts))) fun revisited => do
    pure (.choice (← parts.mapM (·.plan revisited)))

/-- What is known of a part and its plan, part by part. -/
def interpretation : Interpretation Part where
  char c := ofLeaf (Facts.interpretation.char c) (.chars (.single c))
  chars set := ofLeaf (Facts.interpretation.chars set) (.chars set)
  start := ofLeaf Facts.interpretation.start .start
  stop := ofLeaf Facts.interpretation.stop .stop
  sequence parts :=
    of (Facts.interpretation.sequence (parts.map (·.toFacts))) (sequencePlan parts)
  choice := choice
  group n p :=
    of (Facts.interpretation.group n p.toFacts) fun revisited => do
      pure (.group n (← p.plan revisited))
  repeated c p := of (Facts.interpretation.repeated c p.toFacts) (repeatedPlan c p)
  look behind negative parts :=
    let whole := match parts with
      | [p] => p
      | parts => choice parts
    of (Facts.interpretation.look behind negative (parts.map (·.toFacts))) fun _ =>
      if behind then behindPlan negative whole parts else lookPlan negative (some 0) whole
  recalled n := ofLeaf (Facts.interpretation.recalled n) (.recall n)

end Part

/-- What is known of the pattern, and its plan. -/
def Pattern.part (p : Pattern) : Part := Part.interpretation.apply p

/-- The plan of a pattern whose every match may be asked for. -/
def Part.plan? (p : Part) : Option Plan := ((p.plan true).run 0).map (·.1)

end MailPattern
