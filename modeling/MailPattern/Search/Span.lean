/-!
# Search — Span

Where a match stands in a text, counted in characters, and what one search can come to.
-/

namespace MailPattern

/-- The characters of a text from `start` up to but not including `stop`. -/
structure Span where
  start : Nat
  stop : Nat
deriving DecidableEq, Repr

/-- No character stands in the span. -/
def Span.isEmpty (s : Span) : Bool := s.start == s.stop

/-- What a search comes to: a match, no match, or no answer within the limit. -/
inductive Finding where
  | found (span : Span)
  | missing
  | gaveUp
deriving DecidableEq, Repr

/-- The match found. -/
def Finding.span? : Finding → Option Span
  | .found s => some s
  | _ => none

end MailPattern
