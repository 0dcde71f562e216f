import MailPattern.Address.TopLevel

/-!
# Options

What an address pattern accepts and how it is compiled.  Every option has a default.

`Overrides` gives a value to some of the options; the others keep theirs.  It is a function from
the option to its value, so that a later override of one option leaves all others as they are
(`set_self`, `set_of_ne`).
-/

namespace MailPattern

/-- The options. -/
structure Options where
  /-- Compile with the engine that searches in linear time, if it can be loaded. -/
  useSafeEngine : Bool := true
  /-- Accept an address only as the whole text. -/
  exact : Bool := false
  /-- Accept any top-level domain of at least two letters. -/
  strict : Bool := false
  /-- The username rules of webmail providers; they come before the next option. -/
  gmailRules : Bool := true
  /-- Letters outside ASCII in usernames. -/
  allowUtf8Username : Bool := true
  /-- `localhost` as a domain. -/
  allowLocalhost : Bool := true
  /-- IPv4 addresses as domains. -/
  allowIpv4 : Bool := true
  /-- IPv6 addresses as domains. -/
  allowIpv6 : Bool := false
  /-- The top-level domains accepted unless `strict`. -/
  topLevelDomains : List String := TopLevel.table
  /-- Build the pattern only, and do not compile it. -/
  returnPatternOnly : Bool := false
deriving DecidableEq

/-- The names of the options, in the order of a list of values. -/
inductive Field where
  | useSafeEngine
  | exact
  | strict
  | gmailRules
  | allowUtf8Username
  | allowLocalhost
  | allowIpv4
  | allowIpv6
  | topLevelDomains
  | returnPatternOnly
deriving DecidableEq, Repr

namespace Field

/-- All options in order. -/
def all : List Field :=
  [.useSafeEngine, .exact, .strict, .gmailRules, .allowUtf8Username, .allowLocalhost, .allowIpv4,
    .allowIpv6, .topLevelDomains, .returnPatternOnly]

theorem mem_all (f : Field) : f ∈ all := by cases f <;> decide

/-- The type of an option's value. -/
abbrev Value : Field → Type
  | .topLevelDomains => List String
  | _ => Bool

/-- The value of an option. -/
def get (o : Options) : (f : Field) → f.Value
  | .useSafeEngine => o.useSafeEngine
  | .exact => o.exact
  | .strict => o.strict
  | .gmailRules => o.gmailRules
  | .allowUtf8Username => o.allowUtf8Username
  | .allowLocalhost => o.allowLocalhost
  | .allowIpv4 => o.allowIpv4
  | .allowIpv6 => o.allowIpv6
  | .topLevelDomains => o.topLevelDomains
  | .returnPatternOnly => o.returnPatternOnly

end Field

/-- Options with these values. -/
def Options.ofFields (value : (f : Field) → f.Value) : Options where
  useSafeEngine := value .useSafeEngine
  exact := value .exact
  strict := value .strict
  gmailRules := value .gmailRules
  allowUtf8Username := value .allowUtf8Username
  allowLocalhost := value .allowLocalhost
  allowIpv4 := value .allowIpv4
  allowIpv6 := value .allowIpv6
  topLevelDomains := value .topLevelDomains
  returnPatternOnly := value .returnPatternOnly

theorem Options.ofFields_get (o : Options) : Options.ofFields (Field.get o) = o := rfl

theorem Field.get_ofFields (value : (f : Field) → f.Value) (f : Field) :
    f.get (Options.ofFields value) = value f := by
  cases f <;> rfl

/-- Values for some of the options. -/
def Overrides := (f : Field) → Option f.Value

namespace Overrides

/-- No option is given. -/
def empty : Overrides := fun _ => none

/-- The same, with a value for `f`. -/
def set (o : Overrides) (f : Field) (v : f.Value) : Overrides := fun g =>
  if h : g = f then some (h ▸ v) else o g

theorem set_self (o : Overrides) (f : Field) (v : f.Value) : o.set f v f = some v := by
  simp [set]

theorem set_of_ne (o : Overrides) {f g : Field} (h : g ≠ f) (v : f.Value) : o.set f v g = o g := by
  simp [set, h]

/-- The same, with a value for `f` if there is one. -/
def setMaybe (o : Overrides) (f : Field) : Option f.Value → Overrides
  | some v => o.set f v
  | none => o

/-- `base` with the options that are given. -/
def apply (o : Overrides) (base : Options := {}) : Options :=
  .ofFields fun f => (o f).getD (f.get base)

/-- Applied to a base the overrides give the value that is set, or that of the base. -/
theorem get_apply (o : Overrides) (base : Options) (f : Field) :
    f.get (o.apply base) = (o f).getD (f.get base) :=
  Field.get_ofFields _ f

end Overrides

end MailPattern
