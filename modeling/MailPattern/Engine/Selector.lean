import MailPattern.Engine.Regex

/-!
# Engine — Selector

The choice between the engines.  A selector loads the safe engine when somebody first asks for
it and keeps the outcome: once loading has failed it never tries again.  That a pattern is
refused says nothing about the engine and changes nothing.
-/

namespace MailPattern

/-- Whether the safe engine has been loaded. -/
inductive Availability where
  | unknown
  | available
  | unavailable
deriving DecidableEq, Repr

/-- Loads the safe engine; the outcome may depend on the number of earlier calls. -/
abbrev Loader := Nat → Except LoadError Unit

/-- The loader that always succeeds. -/
def Loader.builtIn : Loader := fun _ => .ok ()

/-- The loader with these outcomes, the last one again and again; without outcomes it
succeeds. -/
def Loader.script (outcomes : List (Except LoadError Unit)) : Loader := fun n =>
  (outcomes[min n (outcomes.length - 1)]?).getD (.ok ())

/-- A loader, what came of it, and how often it was called. -/
structure Selector where
  loader : Loader
  availability : Availability := .unknown
  loads : Nat := 0

namespace Selector

/-- Asks for the safe engine: whether it is there.  The first call loads it. -/
def safeEngine (s : Selector) : Logged (Bool × Selector) :=
  match s.availability with
  | .available => { value := (true, s) }
  | .unavailable => { value := (false, s) }
  | .unknown =>
    match s.loader s.loads with
    | .ok () =>
      { value := (true, { s with availability := .available, loads := s.loads + 1 })
        events := [.loaded] }
    | .error e =>
      { value := (false, { s with availability := .unavailable, loads := s.loads + 1 })
        events := [.unavailable e] }

/-- The engine for one compilation.  Unless `useSafe`, the safe engine is not asked for. -/
def select (s : Selector) (useSafe : Bool) : Logged (Engine × Selector) := do
  if useSafe then
    let (there, s) ← s.safeEngine
    pure (if there then .safe else .fallback, s)
  else pure (.fallback, s)

/-- Compiles with the engine selected.  A pattern that the safe engine refuses is tried with the
fallback engine. -/
def compile (s : Selector) (pattern : String) (flags : Flags) (useSafe : Bool) :
    Logged (Except BuildError Regex × Selector) := do
  let (engine, s) ← s.select useSafe
  let result ← engine.compile pattern flags
  match result, engine with
  | .error _, .safe =>
    Logged.log .retrying
    let result ← Engine.fallback.compile pattern flags
    pure (result, s)
  | result, _ => pure (result, s)

end Selector

end MailPattern
