import MailPattern.Document.Reader
import MailPattern.Options
import MailPattern.Text.Decimal
import MailPattern.Text.Quoted

/-!
# Options — Decode

Options from a document: a record that names some of them, or a list of values in their order.

A record's fields are taken one after the other.  A name that is not an option's is passed over
with its value; an option that has its value already is refused before the second value is
looked at; else the value has to be of the option's type.  The first fault is the answer.
-/

namespace MailPattern

namespace Field

/-- The names of an option: its own, and those that stand for it. -/
def names : Field → List String
  | .useSafeEngine => ["useSafeEngine"]
  | .exact => ["exact"]
  | .strict => ["strict"]
  | .gmailRules => ["gmailRules", "gmail"]
  | .allowUtf8Username => ["allowUtf8Username", "utf8"]
  | .allowLocalhost => ["allowLocalhost", "localhost"]
  | .allowIpv4 => ["allowIpv4", "allowIPv4", "ipv4"]
  | .allowIpv6 => ["allowIpv6", "allowIPv6", "ipv6"]
  | .topLevelDomains => ["topLevelDomains", "tlds"]
  | .returnPatternOnly => ["returnPatternOnly", "returnString"]

/-- The option with this name. -/
def ofName? (name : String) : Option Field := all.find? fun f => f.names.contains name

/-- The name of an option in a message. -/
def name (f : Field) : String := f.names.headD ""

end Field

/-- What a value should have been. -/
inductive Expected where
  | boolean
  | sequence
  | string
  | options
deriving DecidableEq, Repr

/-- Why a document does not give options: a value of the wrong kind, a second value for an
option, a list with more values than there are options, or a number beyond all bounds or a broken
text where a value is looked at. -/
inductive Fault where
  | wrongKind (value : Document) (expected : Expected)
  | duplicate (field : Field)
  | tooMany (count : Nat)
  | unreadable

/-- The phrase for what was expected. -/
def Expected.phrase : Expected → String
  | .boolean => "a boolean"
  | .sequence => "a sequence"
  | .string => "a string"
  | .options => "struct Config"

/-- The phrase for the kind of value that was there. -/
def Document.phrase : Document → String
  | .null => "null"
  | .bool b => "boolean `" ++ (if b then "true" else "false") ++ "`"
  | .integer i => "integer `" ++ toString i ++ "`"
  | .decimal negative m e =>
    "floating point `" ++ ((Decimal.scaled? m e).map (·.text negative)).getD "" ++ "`"
  | .text s => "string " ++ Quoted.encode s
  | .brokenText => "string"
  | .list _ => "sequence"
  | .record _ => "map"

/-- The message of a fault. -/
def Fault.message : Fault → String
  | .wrongKind value expected =>
    "invalid type: " ++ value.phrase ++ ", expected " ++ expected.phrase
  | .duplicate field => "duplicate field `" ++ field.name ++ "`"
  | .tooMany count =>
    "invalid length " ++ toString count ++ ", expected fewer elements in array"
  | .unreadable => "unreadable value"

/-- The fault of a value that is not of the expected kind. -/
def Fault.of (value : Document) (expected : Expected) : Fault :=
  match value with
  | .decimal _ m e =>
    if (Decimal.scaled? m e).isNone then .unreadable else .wrongKind value expected
  | .brokenText => .unreadable
  | _ => .wrongKind value expected

namespace Options

/-- A truth value. -/
def boolean : Document → Except Fault Bool
  | .bool b => .ok b
  | d => .error (.of d .boolean)

/-- The texts of a list. -/
def strings : List Document → Except Fault (List String)
  | [] => .ok []
  | .text s :: ds => (strings ds).map (s :: ·)
  | d :: _ => .error (.of d .string)

/-- A list of texts. -/
def whitelistOf : Document → Except Fault (List String)
  | .list ds => strings ds
  | d => .error (.of d .sequence)

/-- A value of the option's type. -/
def valueOf : (f : Field) → Document → Except Fault f.Value
  | .topLevelDomains, d => whitelistOf d
  | .useSafeEngine, d | .exact, d | .strict, d | .gmailRules, d | .allowUtf8Username, d
  | .allowLocalhost, d | .allowIpv4, d | .allowIpv6, d | .returnPatternOnly, d => boolean d

/-- The values that the fields of a record give, after those given so far. -/
def ofRecord : Overrides → List (String × Document) → Except Fault Overrides
  | o, [] => .ok o
  | o, (name, d) :: rest =>
    match Field.ofName? name with
    | none => ofRecord o rest
    | some f =>
      if (o f).isSome then .error (.duplicate f)
      else
        match valueOf f d with
        | .error fault => .error fault
        | .ok v => ofRecord (o.set f v) rest

/-- The values that the items of a list give to these options in turn. -/
def ofItems (count : Nat) : Overrides → List Field → List Document → Except Fault Overrides
  | o, _, [] => .ok o
  | _, [], _ :: _ => .error (.tooMany count)
  | o, f :: fs, d :: ds =>
    match valueOf f d with
    | .error fault => .error fault
    | .ok v => ofItems count (o.set f v) fs ds

/-- The values that a document gives. -/
def overridesOf : Document → Except Fault Overrides
  | .record fields => ofRecord .empty fields
  | .list items => ofItems items.length .empty Field.all items
  | d => .error (.of d .options)

/-- The options that a document stands for; the others have their defaults. -/
def ofDocument (d : Document) : Except Fault Options := (overridesOf d).map (·.apply)

/-- Why a text does not give options. -/
inductive TextFault where
  | malformed
  | data (fault : Fault)

/-- The options that a text stands for.  For the text to be well formed, a list has to close after
the last option, and a value that is looked at has to be readable. -/
def ofText (s : String) : Except TextFault Options :=
  match Document.read? s with
  | none => .error .malformed
  | some d =>
    match ofDocument d with
    | .ok o => .ok o
    | .error (.tooMany _) | .error .unreadable => .error .malformed
    | .error fault => .error (.data fault)

end Options

end MailPattern
