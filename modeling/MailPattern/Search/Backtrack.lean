import MailPattern.Search.Plan
import MailPattern.Search.Subject

/-!
# Search — Backtrack

The search that tries one way after the other: earlier branches first, greedy loops as often as
possible first, lazy loops as seldom as possible first.  It follows a plan, looking around and
recalling included.

What remains to be matched is a continuation, so that a way is taken back by giving up on it and
calling the next one.  Each way taken back counts; a search under a *limit* gives up when it
would take back more ways than the limit allows, and says so.
-/

namespace MailPattern.Backtrack

/-- How many ways may still be taken back; `none` is no limit. -/
abbrev Limit := Option Nat

/-- The limit after one way is taken back, unless it is used up. -/
def Limit.spend? : Limit → Option Limit
  | none => some none
  | some 0 => none
  | some (n + 1) => some (some n)

/-- What became of a way: a match that ends at `stop`, a failure, both with the limit that is left,
or no answer within the limit. -/
inductive Verdict where
  | matched (stop : Nat) (left : Limit)
  | failed (left : Limit)
  | gaveUp
deriving DecidableEq, Repr

/-- A way to be tried under a limit. -/
abbrev Attempt := Limit → Verdict

/-- The way that fails. -/
def fail : Attempt := .failed

/-- The first way, and if it fails, the second. -/
def Attempt.orElse (first second : Attempt) : Attempt := fun limit =>
  match first limit with
  | .failed left =>
    match left.spend? with
    | some left => second left
    | none => .gaveUp
  | verdict => verdict

/-- The first way has to fail, and then the second is tried. -/
def Attempt.exclude (first second : Attempt) : Attempt := fun limit =>
  match first limit with
  | .matched _ left => .failed left
  | .failed left =>
    match left.spend? with
    | some left => second left
    | none => .gaveUp
  | .gaveUp => .gaveUp

/-- What is still to be matched from a position on. -/
abbrev Continuation := Nat → Memory → Attempt

/-- The end of the plan. -/
def done : Continuation := fun j _ left => .matched j left

/-- The first way or the second, in the order that `greedy` prefers. -/
def prefer (greedy : Bool) (more less : Attempt) : Attempt :=
  if greedy then more.orElse less else less.orElse more

section Loops

variable (body : Continuation → Continuation)

/-- `body`, `n` times. -/
def times : Nat → Continuation → Nat → Memory → Attempt
  | 0, k, i, m => k i m
  | n + 1, k, i, m => body (times n k) i m

/-- `body` at most `n` times, more often preferred when `greedy`. -/
def upTo (greedy : Bool) : Nat → Continuation → Nat → Memory → Attempt
  | 0, k, i, m => k i m
  | n + 1, k, i, m => prefer greedy (body (upTo greedy n k) i m) (k i m)

/-- `body` any number of times up to `n`, where `n` bounds how often there are characters left for
it to take. -/
def many (greedy : Bool) : Nat → Continuation → Nat → Memory → Attempt
  | 0, k, i, m => k i m
  | n + 1, k, i, m => prefer greedy (body (many greedy n k) i m) (k i m)

/-- As long as there are characters left it is `body` at most `n` times. -/
theorem many_eq_upTo (greedy : Bool) (n : Nat) (k : Continuation) :
    many body greedy n k = upTo body greedy n k := by
  induction n with
  | zero => rfl
  | succ n ih =>
    funext i m
    rw [many, upTo, ih]

/-- `body`, which may take no character, any number of times after the first `least`.  Each round
after those notes where it stands, and a later round that stands where the last note says is the
end.  The note is kept from one run of the loop to the next.  `n` bounds the rounds and `count`
says how many there were. -/
def stalling (loop least : Nat) (greedy : Bool) (k : Continuation) :
    Nat → Nat → Nat → Memory → Attempt
  | 0, _, i, m => k i m
  | n + 1, count, i, m =>
    if 0 < count ∧ m.get? (.stand loop) = some i then k i m
    else if count < least then body (stalling loop least greedy k n (count + 1)) i m
    else
      let m := m.set (.stand loop) i
      prefer greedy (body (stalling loop least greedy k n (count + 1)) i m) (k i m)

end Loops

/-- `p` at a position, and then what is still to be matched. -/
def run (s : Subject) : Plan → Continuation → Nat → Memory → Attempt
  | .empty, k, i, m => k i m
  | .chars set, k, i, m =>
    match s.cells[i]? with
    | some c => if set.admits c then k (i + 1) m else fail
    | none => fail
  | .start, k, i, m => if i = 0 then k i m else fail
  | .stop, k, i, m => if i = s.size then k i m else fail
  | .settled sweep groups, k, i, m =>
    match sweep.matchAt? (s.rest i) i with
    | some a => k a.stop (groups.foldl a.way.memory.copyGroup m)
    | none => fail
  | .cat p q, k, i, m => run s p (run s q k) i m
  | .alt p q, k, i, m => Attempt.orElse (run s p k i m) (run s q k i m)
  | .group n p, k, i, m =>
    run s p (fun j m => k j (m.set (.closing n) j)) i (m.set (.opening n) i)
  | .repeated c p, k, i, m =>
    match c.most with
    | none =>
      times (run s p) c.least (fun i m => many (run s p) c.greedy (s.size - i + 1) k i m) i m
    | some n => times (run s p) (min c.least n) (upTo (run s p) c.greedy (n - c.least) k) i m
  | .stalling loop least greedy p, k, i, m =>
    stalling (run s p) loop least greedy k (least + (s.size - i) + 2) 0 i m
  | .look back negative p, k, i, m =>
    let stands (k : Continuation) : Attempt := if back ≤ i then run s p k (i - back) m else fail
    if negative then (stands done).exclude (k i m) else stands fun _ m => k i m
  | .recall n, k, i, m =>
    match m.get? (.opening n), m.get? (.closing n) with
    | some a, some b =>
      let j := i + (b - a)
      if a ≤ b ∧ j ≤ s.size ∧ s.slice i j = s.slice a b then k j m else fail
    | _, _ => fail

/-- The match that starts at one of `n` positions from `i` on. -/
def from? (s : Subject) (p : Plan) : Nat → Nat → Limit → Finding
  | 0, _, _ => .missing
  | n + 1, i, limit =>
    match run s p done i [] limit with
    | .matched j _ => .found ⟨i, j⟩
    | .gaveUp => .gaveUp
    | .failed left =>
      match left.spend? with
      | some left => from? s p n (i + 1) left
      | none => .gaveUp

/-- The first match that starts at `resume` or later, each search under the limit. -/
def find (s : Subject) (p : Plan) (limit : Limit) (resume : Nat) : Finding :=
  from? s p (s.size + 1 - resume) resume limit

end MailPattern.Backtrack
