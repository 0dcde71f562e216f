import MailPattern.Address.Compose
import MailPattern.Engine.Selector

/-!
# Engine — Build

From options to a pattern or a regex.
-/

namespace MailPattern

/-- What is built: the pattern alone, or a regex. -/
inductive Output where
  | pattern (text : String)
  | regex (regex : Regex)

/-- The pattern of an output. -/
def Output.text : Output → String
  | .pattern text => text
  | .regex r => r.pattern

/-- The regex of an output, if there is one. -/
def Output.regex? : Output → Option Regex
  | .pattern _ => none
  | .regex r => some r

namespace Options

/-- The pattern and the flags that are compiled.  An exact pattern is anchored and matches once;
any other is used as it is and every match counts. -/
def compileArgs (o : Options) : String × Flags :=
  if o.exact then (anchored o.pattern, { caseless := true })
  else (o.pattern, { caseless := true, global := true })

/-- Compiles the options' pattern. -/
def compile (o : Options) (s : Selector) : Logged (Except BuildError Regex × Selector) :=
  s.compile o.compileArgs.1 o.compileArgs.2 o.useSafeEngine

/-- The pattern if that is all the options ask for, else the regex. -/
def build (o : Options) (s : Selector) : Logged (Except BuildError Output × Selector) := do
  if o.returnPatternOnly then pure (.ok (.pattern o.pattern), s)
  else
    let (result, s) ← o.compile s
    pure (result.map .regex, s)

end Options

end MailPattern
