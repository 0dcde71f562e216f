import MailPattern.Engine.Event
import MailPattern.Pattern.Reader
import MailPattern.Search.Backtrack
import MailPattern.Search.Iteration
import MailPattern.Search.Sweep

/-!
# Engine — Regex

Compiled patterns and their matches.

Both engines sweep for a regular pattern, so they find the same matches.  A pattern that looks
around or recalls is left to the fallback engine, which backtracks under a limit; there the case
flag has no effect.  Patterns that are too heavy, or that nest too deep, are refused.
-/

namespace MailPattern

/-- How a pattern is searched for. -/
inductive Program where
  | sweep (sweep : Sweep)
  | backtrack (plan : Plan)

/-- What an engine makes of a pattern. -/
structure Regex where
  engine : Engine
  pattern : String
  flags : Flags
  program : Program

/-- A match: where it starts and ends, in bytes of UTF-8, and its text. -/
structure Match where
  start : Nat
  stop : Nat
  text : String
deriving DecidableEq, Repr

/-- The dialect that an engine takes. -/
def Engine.dialect : Engine → Dialect
  | .safe => .regular
  | .fallback => .extended

/-- The program that sweeps for a pattern. -/
def Program.sweeping? (caseless : Bool) (p : Pattern) : Option Program :=
  ((p.normal? caseless).bind (·.regular? false)).map fun r => .sweep r.sweep

/-- The program for a pattern of the extended dialect: a plan if the pattern is hard. -/
def Program.planned? (caseless : Bool) (p : Pattern) : Option Program :=
  let part := p.part
  if part.hard then part.plan?.map .backtrack
  else if part.depth ≤ Pattern.maxDepth then sweeping? caseless p
  else none

/-- What an engine makes of a pattern. -/
def Program.ofPattern? (caseless : Bool) (p : Pattern) : Engine → Option Program
  | .safe => sweeping? caseless p
  | .fallback => planned? caseless p

/-- Compiles `pattern`. -/
def Engine.compile (engine : Engine) (pattern : String) (flags : Flags) :
    Logged (Except BuildError Regex) :=
  match (Pattern.read? engine.dialect pattern).bind (Program.ofPattern? flags.caseless · engine) with
  | none => { value := .error (.rejected engine) }
  | some program =>
    { value := .ok { engine, pattern, flags, program }
      events := [.compiled engine flags pattern.utf8ByteSize] }

/-- How many ways a search may take back before it gives up. -/
def backtrackLimit : Backtrack.Limit := some 1000000

/-- The text as the program reads it.  Backtracking reads each character as itself. -/
def Program.subject (program : Program) (caseless : Bool) (text : List Char) : Subject :=
  match program with
  | .sweep _ => .ofReadings (readings caseless text)
  | .backtrack _ => .ofReadings (readings false text)

/-- The first match that starts at `resume` or later, in characters. -/
def Program.find (program : Program) (limit : Backtrack.Limit) (subject : Subject)
    (resume : Nat) : Finding :=
  match program with
  | .sweep w =>
    if subject.size < resume then .missing
    else
      match w.find? (subject.rest resume) resume with
      | some s => .found s
      | none => .missing
  | .backtrack p => Backtrack.find subject p limit resume

/-- How many bytes the first `n` characters of a text take in UTF-8. -/
def byteOffset (text : List Char) (n : Nat) : Nat :=
  (text.take n).foldl (fun bytes c => bytes + c.utf8Size) 0

/-- The match at a span. -/
def Match.ofSpan (text : List Char) (s : Span) : Match where
  start := byteOffset text s.start
  stop := byteOffset text s.stop
  text := String.ofList ((text.drop s.start).take (s.stop - s.start))

namespace Regex

/-- The text as the regex reads it. -/
def subject (r : Regex) (text : List Char) : Subject := r.program.subject r.flags.caseless text

/-- The spans of all matches, only the first one unless the regex is global, and whether the
search gave up. -/
def spans (r : Regex) (text : List Char) (limit : Backtrack.Limit := backtrackLimit) :
    List Span × Bool :=
  let subject := r.subject text
  Iteration.all (r.program.find limit subject) (!r.flags.global) text.length

/-- The pattern matches somewhere in the text.  To give up counts as no match. -/
def isMatch (r : Regex) (text : String) (limit : Backtrack.Limit := backtrackLimit) :
    Logged Bool :=
  match r.program.find limit (r.subject text.toList) 0 with
  | .found _ => { value := true }
  | .missing => { value := false }
  | .gaveUp => { value := false, events := [.gaveUpMatch] }

/-- The results of `calls` steps of the iteration over the matches. -/
def nexts (r : Regex) (text : String) (calls : Nat) (limit : Backtrack.Limit := backtrackLimit) :
    Logged (List (Option Match)) :=
  let chars := text.toList
  let subject := r.subject chars
  go chars (r.program.find limit subject) calls {}
where
  /-- The results of the steps from a state on. -/
  go (chars : List Char) (find : Nat → Finding) : Nat → Iteration → Logged (List (Option Match))
    | 0, _ => pure []
    | n + 1, it => do
      let (finding, it) := it.next find (!r.flags.global)
      if finding = .gaveUp then Logged.log .gaveUpSearch
      let rest ← go chars find n it
      pure ((finding.span?.map (Match.ofSpan chars)) :: rest)

/-- The first match. -/
def find (r : Regex) (text : String) (limit : Backtrack.Limit := backtrackLimit) :
    Logged (Option Match) := do
  let results ← r.nexts text 1 limit
  pure results.head?.join

/-- All matches, only the first one unless the regex is global. -/
def allMatches (r : Regex) (text : String) (limit : Backtrack.Limit := backtrackLimit) :
    Logged (List Match) :=
  let chars := text.toList
  let (spans, gaveUp) := r.spans chars limit
  { value := spans.map (Match.ofSpan chars), events := if gaveUp then [.gaveUpSearch] else [] }

/-- The texts of all matches. -/
def findAll (r : Regex) (text : String) (limit : Backtrack.Limit := backtrackLimit) :
    Logged (List String) := do
  let found ← r.allMatches text limit
  pure (found.map (·.text))

end Regex

end MailPattern
