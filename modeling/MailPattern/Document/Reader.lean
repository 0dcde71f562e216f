import MailPattern.Document
import MailPattern.Text.Digits

/-!
# Document — Reader

The reader of JavaScript object notation.  It takes the whole text or nothing: white space may
stand around a value, and anything else after it is refused.

Every function takes the text still to be read and gives back what is left.  `fuel` bounds the
number of values and separators; `Document.read?` starts with the length of the text, and each
step takes at least one character, so the bound is never met.
-/

namespace MailPattern.Document

/-- White space between the parts of a value. -/
def isBlank (c : Char) : Bool := c = ' ' || c = '\n' || c = '\t' || c = '\r'

/-- The text from its first character that is not white space. -/
def skipBlank (s : List Char) : List Char := s.dropWhile isBlank

/-- `word` at the head of the text. -/
def expect? (word : List Char) (s : List Char) : Option (List Char) :=
  if word.isPrefixOf s then some (s.drop word.length) else none

/-! ### Texts -/

/-- The number that four hexadecimal digits stand for. -/
def unit? : List Char → Option (Nat × List Char)
  | a :: b :: c :: d :: rest => do
      let a ← Digits.hex? a
      let b ← Digits.hex? b
      let c ← Digits.hex? c
      let d ← Digits.hex? d
      pure (((a * 16 + b) * 16 + c) * 16 + d, rest)
  | _ => none

/-- The character of an escape by number; `none` for half of a surrogate pair.  The number of an
upper half counts together with that of the lower half after it. -/
def numbered? (s : List Char) : Option (Option Char × List Char) :=
  match unit? s with
  | none => none
  | some (u, rest) =>
    if 0xd800 ≤ u ∧ u < 0xdc00 then
      match rest with
      | '\\' :: 'u' :: more =>
        match unit? more with
        | some (v, after) =>
          if 0xdc00 ≤ v ∧ v < 0xe000 then
            some (some (Char.ofNat (0x10000 + (u - 0xd800) * 0x400 + (v - 0xdc00))), after)
          else some (none, rest)
        | none => none
      | _ => some (none, rest)
    else if 0xdc00 ≤ u ∧ u < 0xe000 then some (none, rest)
    else some (some (Char.ofNat u), rest)

/-- The character that an escape stands for, after its backslash. -/
def escape? : List Char → Option (Option Char × List Char)
  | '"' :: rest => some (some '"', rest)
  | '\\' :: rest => some (some '\\', rest)
  | '/' :: rest => some (some '/', rest)
  | 'b' :: rest => some (some '\x08', rest)
  | 'f' :: rest => some (some '\x0c', rest)
  | 'n' :: rest => some (some '\n', rest)
  | 'r' :: rest => some (some '\r', rest)
  | 't' :: rest => some (some '\t', rest)
  | 'u' :: rest => numbered? rest
  | _ => none

/-- The characters up to the closing quote, after `done`, which is reversed; `none` where half of
a surrogate pair stands. -/
def characters? : Nat → List (Option Char) → List Char → Option (List (Option Char) × List Char)
  | 0, _, _ => none
  | _ + 1, _, [] => none
  | _ + 1, done, '"' :: rest => some (done.reverse, rest)
  | fuel + 1, done, '\\' :: rest =>
    match escape? rest with
    | some (c, rest) => characters? fuel (c :: done) rest
    | none => none
  | fuel + 1, done, c :: rest =>
    if c < ' ' then none else characters? fuel (some c :: done) rest

/-- The text up to the closing quote; `none` when it is broken. -/
def quoted? (s : List Char) : Option (Option String × List Char) :=
  (characters? (s.length + 1) [] s).map fun (cs, rest) => ((cs.mapM id).map String.ofList, rest)

/-! ### Numbers -/

/-- The digits after a point, if there is one. -/
def fraction? : List Char → Option (List Char × List Char)
  | '.' :: rest => Digits.take? rest
  | s => some ([], s)

/-- The exponent, if there is one. -/
def exponent? : List Char → Option (Option Int × List Char)
  | c :: rest =>
    if c = 'e' ∨ c = 'E' then
      match rest with
      | '-' :: more => (Digits.take? more).map fun (ds, rest) => (some (-(Digits.value ds : Int)), rest)
      | '+' :: more => (Digits.take? more).map fun (ds, rest) => (some (Digits.value ds : Int), rest)
      | more => (Digits.take? more).map fun (ds, rest) => (some (Digits.value ds : Int), rest)
    else some (none, c :: rest)
  | [] => some (none, [])

/-- The greatest mantissa that is kept. -/
def maxMantissa : Nat := 18446744073709551615

/-- The number that `n` and after it the digits stand for, as long as that is at most the greatest
mantissa, and how many digits are left over. -/
def accumulate (n : Nat) : List Char → Nat × Nat
  | [] => (n, 0)
  | d :: ds =>
    let more := n * 10 + (d.toNat - '0'.toNat)
    if more ≤ maxMantissa then accumulate more ds else (n, ds.length + 1)

/-- The decimal with these parts.  A digit before the point that is left over counts as a power of
ten; those after the point that are left over do not count. -/
def ofDigits (negative : Bool) (whole fraction : List Char) (exponent : Int) : Document :=
  let (mantissa, above) := accumulate 0 whole
  let (mantissa, beyond) := accumulate mantissa fraction
  .decimal negative mantissa (exponent + above - (fraction.length - beyond : Nat))

/-- The number with these parts. -/
def ofParts (negative : Bool) (whole fraction : List Char) (exponent : Option Int) : Document :=
  let magnitude := Digits.value whole
  let value : Int := if negative then -magnitude else magnitude
  if fraction = [] ∧ exponent = none ∧ ¬(negative = true ∧ magnitude = 0) ∧
      minInteger ≤ value ∧ value ≤ maxInteger then .integer value
  else ofDigits negative whole fraction (exponent.getD 0)

/-- A number.  A leading zero stands alone. -/
def number? (s : List Char) : Option (Document × List Char) :=
  let (negative, s) := match s with
    | '-' :: rest => (true, rest)
    | s => (false, s)
  match Digits.take? s with
  | none => none
  | some (whole, rest) =>
    if whole.head? = some '0' ∧ whole.length ≠ 1 then none else
      match fraction? rest with
      | none => none
      | some (fraction, rest) =>
        match exponent? rest with
        | none => none
        | some (exponent, rest) => some (ofParts negative whole fraction exponent, rest)

/-! ### Values -/

mutual

/-- A value, white space before it skipped. -/
def value? : Nat → List Char → Option (Document × List Char)
  | 0, _ => none
  | fuel + 1, s =>
    match skipBlank s with
    | '"' :: rest => (quoted? rest).map fun (t, rest) => ((t.map .text).getD .brokenText, rest)
    | '[' :: rest =>
      match skipBlank rest with
      | ']' :: rest => some (.list [], rest)
      | rest => (items? fuel [] rest).map fun (xs, rest) => (.list xs, rest)
    | '\x7b' :: rest =>
      match skipBlank rest with
      | '\x7d' :: rest => some (.record [], rest)
      | rest => (fields? fuel [] rest).map fun (fs, rest) => (.record fs, rest)
    | 'n' :: rest => (expect? ['u', 'l', 'l'] rest).map fun rest => (.null, rest)
    | 't' :: rest => (expect? ['r', 'u', 'e'] rest).map fun rest => (.bool true, rest)
    | 'f' :: rest => (expect? ['a', 'l', 's', 'e'] rest).map fun rest => (.bool false, rest)
    | s => number? s

/-- The items up to the closing bracket, after `done`, which is reversed. -/
def items? : Nat → List Document → List Char → Option (List Document × List Char)
  | 0, _, _ => none
  | fuel + 1, done, s =>
    match value? fuel s with
    | none => none
    | some (x, rest) =>
      match skipBlank rest with
      | ',' :: rest => items? fuel (x :: done) rest
      | ']' :: rest => some ((x :: done).reverse, rest)
      | _ => none

/-- The fields up to the closing brace, after `done`, which is reversed. -/
def fields? : Nat → List (String × Document) → List Char →
    Option (List (String × Document) × List Char)
  | 0, _, _ => none
  | fuel + 1, done, s =>
    match skipBlank s with
    | '"' :: rest =>
      match quoted? rest with
      | none | some (none, _) => none
      | some (some name, rest) =>
        match skipBlank rest with
        | ':' :: rest =>
          match value? fuel rest with
          | none => none
          | some (x, rest) =>
            match skipBlank rest with
            | ',' :: rest => fields? fuel ((name, x) :: done) rest
            | '\x7d' :: rest => some (((name, x) :: done).reverse, rest)
            | _ => none
        | _ => none
    | _ => none

end

/-- The value that the whole of `s` stands for. -/
def read? (s : String) : Option Document :=
  let chars := s.toList
  match value? (2 * chars.length + 1) chars with
  | some (x, rest) => if (skipBlank rest).isEmpty then some x else none
  | none => none

end MailPattern.Document
