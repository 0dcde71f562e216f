import MailPattern.Pattern.Regular
import MailPattern.Search.Memory
import MailPattern.Search.Span

/-!
# Search — Sweep

The search for a regular pattern in one pass over the text.

At each position the ways through the pattern that are still open are *threads*, each at a set that
has to take the next character, in the order in which a search that tries one way after the other
would come to them.  The way on from a position, past everything that takes no character, is a
*walk* over the points of the pattern.  It adds threads to the *front*, the choice preferred
first; it passes each fork once only, since from there on everything has been tried.  So a loop
that comes back to its beginning without having taken a character ends there.

A walk that reaches the end of the pattern ends the front: it is the answer so far, and the ways
not tried yet are never tried.  While there is no answer, a match may also start at the current
position, as the last choice; so the answer starts as far left as possible.
-/

namespace MailPattern

/-- A position, and whether the text ends there. -/
structure Here where
  index : Nat
  last : Bool

/-- A way through the pattern: where its match starts and what it remembers. -/
structure Way where
  origin : Nat
  memory : Memory := []

/-- A way that has come to the set with number `point`. -/
structure Thread where
  point : Nat
  way : Way

/-- What has been tried at a position: the forks passed, as the bits of a number, the threads, the
last one first, and the way that has reached the end of the pattern. -/
structure Front where
  passed : Nat := 0
  threads : List Thread := []
  ended : Option Way := none

/-- What a way tries from a position on. -/
abbrev Walk := Here → Way → Front → Front

namespace Walk

/-- Nothing is tried. -/
def nowhere : Walk := fun _ _ f => f

/-- The end of the pattern. -/
def finish : Walk := fun _ w f => if f.ended.isSome then f else { f with ended := some w }

/-- The set with number `point`. -/
def arrive (point : Nat) : Walk := fun _ w f =>
  if f.ended.isSome then f else { f with threads := ⟨point, w⟩ :: f.threads }

/-- Both walks, in the order that `greedy` prefers. -/
def prefer (greedy : Bool) (more less : Walk) : Walk := fun h w f =>
  if greedy then less h w (more h w f) else more h w (less h w f)

/-- The walk, unless the fork with number `point` has been passed. -/
def pass (point : Nat) (k : Walk) : Walk := fun h w f =>
  if f.ended.isSome || f.passed.testBit point then f
  else k h w { f with passed := f.passed ||| (1 <<< point) }

/-- The walk, with the position remembered. -/
def note (s : Slot) (k : Walk) : Walk := fun h w f =>
  k h { w with memory := w.memory.set s h.index } f

end Walk

namespace Regular

/-- The walk through `r`, with points numbered from `base` on, and then `k`.  A loop without a
character taken goes on to `k`. -/
def walk : Regular → Nat → Walk → Here → Way → Front → Front
  | .empty, _, k, h, w, f => k h w f
  | .chars _, base, _, h, w, f => Walk.arrive base h w f
  | .start, _, k, h, w, f => if h.index = 0 then k h w f else f
  | .stop, _, k, h, w, f => if h.last then k h w f else f
  | .cat r s, base, k, h, w, f => r.walk base (s.walk (base + r.points) k) h w f
  | .alt r s, base, k, h, w, f => s.walk (base + r.points) k h w (r.walk base k h w f)
  | .fork r, base, k, h, w, f => Walk.pass base (r.walk (base + 1) k) h w f
  | .optional greedy r, base, k, h, w, f =>
    Walk.pass base (.prefer greedy (r.walk (base + 1) k) k) h w f
  | .loop greedy true r, base, k, h, w, f =>
    Walk.pass base (.prefer greedy (r.walk (base + 1) .nowhere) k) h w f
  | .loop _ false r, base, k, h, w, f => r.walk (base + 1) (.pass base k) h w f
  | .group n r, base, k, h, w, f =>
    Walk.note (.opening n) (r.walk base (.note (.closing n) k)) h w f

end Regular

/-- A point: the set that takes a character there, and the walk after it. -/
structure Row where
  set : CharSet
  next : Walk

/-- The row of a fork, where no character is taken. -/
def Row.fork : Row := ⟨⟨[], false⟩, .nowhere⟩

namespace Regular

/-- The rows of the points of `r`, when `k` is the walk after `r`, added to those of the points
before.  After one round of a loop there may be another, or the loop is left. -/
def rows : Regular → Nat → Walk → Array Row → Array Row
  | .empty, _, _, done | .start, _, _, done | .stop, _, _, done => done
  | .chars set, _, k, done => done.push ⟨set, k⟩
  | .cat r s, base, k, done =>
    s.rows (base + r.points) k (r.rows base (s.walk (base + r.points) k) done)
  | .alt r s, base, k, done => s.rows (base + r.points) k (r.rows base k done)
  | .fork r, base, k, done | .optional _ r, base, k, done =>
    r.rows (base + 1) k (done.push .fork)
  | .loop greedy _ r, base, k, done =>
    r.rows (base + 1) (.pass base (.prefer greedy (r.walk (base + 1) .nowhere) k))
      (done.push .fork)
  | .group n r, base, k, done => r.rows base (.note (.closing n) k) done

theorem size_rows (r : Regular) (base : Nat) (k : Walk) (done : Array Row) :
    (r.rows base k done).size = done.size + r.points := by
  induction r generalizing base k done with
  | empty | start | stop => rfl
  | chars => simp [rows, points]
  | cat r s ihr ihs | alt r s ihr ihs => simp only [rows, points, ihr, ihs]; omega
  | fork r ih | optional _ r ih | loop _ _ r ih =>
    simp only [rows, points, ih, Array.size_push]; omega
  | group _ r ih => simp [rows, points, ih]

end Regular

/-- A pattern ready for sweeping: the rows of its points and the walk from its beginning. -/
structure Sweep where
  rows : Array Row
  first : Walk

/-- The sweep for `r`. -/
def Regular.sweep (r : Regular) : Sweep :=
  { rows := r.rows 0 .finish #[], first := r.walk 0 .finish }

namespace Sweep

/-- The front after the character read as `c`, from the threads before it on.  Of two threads at one
set only the first goes on: what follows does not depend on the way.  `seen` holds the sets that
an earlier thread was at, as the bits of a number. -/
def advance (w : Sweep) (c : Reading) (here : Here) : Nat → List Thread → Front → Front
  | _, [], f => f
  | seen, t :: ts, f =>
    if f.ended.isSome then f else
      match w.rows[t.point]? with
      | none => w.advance c here seen ts f
      | some row =>
        if row.set.admits c && !seen.testBit t.point then
          w.advance c here (seen ||| (1 <<< t.point)) ts (row.next here t.way f)
        else w.advance c here seen ts f

/-- A way that has reached the end of the pattern, and where. -/
structure Answer where
  way : Way
  stop : Nat

/-- The sweep over the rest of a text, from position `i` on, with this front and the answer so far.
When `anywhere`, a match may start at any position until there is an answer. -/
def go (w : Sweep) (anywhere : Bool) : List Reading → Nat → Front → Option Answer → Option Answer
  | rest, i, front, best =>
    let front :=
      if anywhere && best.isNone then w.first ⟨i, rest.isEmpty⟩ { origin := i } front else front
    let best := match front.ended with
      | some way => some ⟨way, i⟩
      | none => best
    match rest with
    | [] => best
    | c :: rest =>
      if front.threads.isEmpty && (best.isSome || !anywhere) then best
      else
        let next := w.advance c ⟨i + 1, rest.isEmpty⟩ 0 front.threads.reverse {}
        w.go anywhere rest (i + 1) next best

/-- The first match from position `i` on, where `rest` is the text from there. -/
def find? (w : Sweep) (rest : List Reading) (i : Nat) : Option Span :=
  (w.go true rest i {} none).map fun a => ⟨a.way.origin, a.stop⟩

/-- The preferred match that starts at position `i`, where `rest` is the text from there. -/
def matchAt? (w : Sweep) (rest : List Reading) (i : Nat) : Option Answer :=
  w.go false rest i (w.first ⟨i, rest.isEmpty⟩ { origin := i } {}) none

end Sweep

end MailPattern
