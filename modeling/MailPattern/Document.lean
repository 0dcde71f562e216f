/-!
# Document

The values a text in JavaScript object notation stands for.  A record keeps its fields in the
order of the text, a name written twice included, and a number keeps the way it was written: a
whole number, or a decimal with a fraction, an exponent or too many digits.  Of a decimal's digits
only those are kept that fit into a word of 64 bits.
-/

namespace MailPattern

/-- A value of an options document.  `decimal` is `mantissa · 10 ^ exponent`, with its sign;
`brokenText` is a text with half of a surrogate pair in it, which stands for no characters. -/
inductive Document where
  | null
  | bool (value : Bool)
  | integer (value : Int)
  | decimal (negative : Bool) (mantissa : Nat) (exponent : Int)
  | text (value : String)
  | brokenText
  | list (items : List Document)
  | record (fields : List (String × Document))
deriving Inhabited

namespace Document

/-- The least whole number that is kept as one. -/
def minInteger : Int := -9223372036854775808

/-- The greatest whole number that is kept as one. -/
def maxInteger : Int := 18446744073709551615

/-- The value of the field `name`, the last one if there are several. -/
def field? (name : String) : Document → Option Document
  | .record fields => (fields.reverse.find? (·.1 = name)).map (·.2)
  | _ => none

/-- Fields one after another by name, of those with one name the last. -/
def lastOfEach : List (String × Document) → List (String × Document)
  | a :: b :: rest => if a.1 = b.1 then lastOfEach (b :: rest) else a :: lastOfEach (b :: rest)
  | fields => fields

/-- The same value with the fields in ascending order by name and each name once, the last one
of the text. -/
def sorted : Document → Document
  | .record fields => .record (lastOfEach (fields.mergeSort fun a b => a.1 ≤ b.1))
  | d => d

end Document

end MailPattern
