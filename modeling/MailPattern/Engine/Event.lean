import MailPattern.Engine.Flags
import MailPattern.Text.Quoted

/-!
# Engine — Event

The engines, what can go wrong with them, and what is logged about them.  `Logged` is a value
with the events on the way to it, the earliest first.
-/

namespace MailPattern

/-- The engines.  The `safe` one searches in linear time and takes regular patterns only; the
`fallback` one is always there and takes every pattern. -/
inductive Engine where
  | safe
  | fallback
deriving DecidableEq, Repr

/-- The engine's name in a message. -/
def Engine.name : Engine → String
  | .safe => "safe"
  | .fallback => "fallback"

/-- Why the safe engine could not be loaded. -/
inductive LoadError where
  | disabled
  | probe (reason : String)
deriving DecidableEq, Repr

/-- The message of a load error. -/
def LoadError.message : LoadError → String
  | .disabled => "the `safe-engine` feature is disabled"
  | .probe reason => "safe engine probe failed: " ++ reason

/-- The load error with its reason between quotes. -/
def LoadError.term : LoadError → String
  | .disabled => "Disabled"
  | .probe reason => "Probe(" ++ Quoted.encode reason ++ ")"

/-- Why there is no regex: an engine refused the pattern, or the safe engine was not there. -/
inductive BuildError where
  | rejected (engine : Engine)
  | load (error : LoadError)
deriving DecidableEq, Repr

/-- The message of a build error. -/
def BuildError.message : BuildError → String
  | .rejected engine => engine.name ++ " engine rejected the pattern"
  | .load error => error.message

/-- What is logged. -/
inductive Event where
  | loaded
  | unavailable (error : LoadError)
  | compiled (engine : Engine) (flags : Flags) (length : Nat)
  | retrying
  | gaveUpMatch
  | gaveUpSearch
deriving DecidableEq, Repr

/-- The line of an event. -/
def Event.line : Event → String
  | .loaded => "DEBUG safe engine loaded"
  | .unavailable error =>
    "WARN safe engine unavailable, using fallback engine from now on error=" ++ error.message
  | .compiled engine flags length =>
    "DEBUG compiled engine=" ++ engine.name ++ " flags=" ++ flags.text ++ " len=" ++
      toString length
  | .retrying => "WARN safe engine rejected pattern, retrying with fallback engine"
  | .gaveUpMatch => "WARN fallback engine gave up, treating as no match"
  | .gaveUpSearch => "WARN fallback engine gave up, stopping search"

/-- A value and the events on the way to it. -/
structure Logged (α : Type) where
  value : α
  events : List Event := []

namespace Logged

/-- The first, and then what depends on its value. -/
def bind {α β : Type} (x : Logged α) (f : α → Logged β) : Logged β :=
  { value := (f x.value).value, events := x.events ++ (f x.value).events }

instance : Monad Logged where
  pure a := { value := a }
  bind := bind

/-- One event. -/
def log (e : Event) : Logged Unit := { value := (), events := [e] }

@[simp] theorem value_pure {α : Type} (a : α) : (pure a : Logged α).value = a := rfl

@[simp] theorem events_pure {α : Type} (a : α) : (pure a : Logged α).events = [] := rfl

@[simp] theorem value_bind {α β : Type} (x : Logged α) (f : α → Logged β) :
    (x >>= f).value = (f x.value).value := rfl

@[simp] theorem events_bind {α β : Type} (x : Logged α) (f : α → Logged β) :
    (x >>= f).events = x.events ++ (f x.value).events := rfl

end Logged

end MailPattern
