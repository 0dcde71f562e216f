import MailPattern.Pattern.Basic
import MailPattern.Text.Digits

/-!
# Pattern — Token

The written parts of a pattern: characters and classes, anchors, bars, brackets, counts and
recalls.  `Token.next?` takes the first token off a text, and `Token.all?` takes them all.

There are two dialects.  The *regular* one has neither assertions about the surroundings nor
recalls, so what it accepts can be searched for in one pass.  The *extended* one has both.  Their
tokens differ little: the extended dialect bounds the digits of a character's number, takes a
brace that begins no count for a character, and has no white space in a count.

Covered are

* characters by themselves, but for the dot; behind a backslash ASCII that is neither letter nor
  digit nor angle bracket; and by number, as `\xHH` and `\x{H..}`;
* classes of characters and ranges, also negated;
* plain and capturing brackets, bars, and the anchors `^` and `$`;
* counts, `*`, `+`, `?`, `{m}`, `{m,}` and `{m,n}`, each also lazy, of numbers that have 32 bits
  (`Count.fits`);
* in the extended dialect assertions ahead and behind, also negated, and recalls by number.

All else is refused in both dialects, whatever it may mean elsewhere: the dot, letters behind a
backslash but for `x` (`\d`, `\n`, `\b`, `\u`, `\K`), flags, names and comments in brackets, and in
a class another one (`[[a]b]`, `[[:alpha:]]`) and the signs `&&`, `--` and `~~` between two sets.
A plus sign behind a count (`a*+`) counts once more in the regular dialect; the extended one
refuses it.
-/

namespace MailPattern

/-- What a pattern may hold. -/
inductive Dialect where
  | regular
  | extended
deriving DecidableEq, Repr

/-- How many digits in braces may give a character, if that is bounded. -/
def Dialect.maxDigits : Dialect → Option Nat
  | .regular => none
  | .extended => some 8

/-- What a bracket opens. -/
inductive Opening where
  | plain
  | capture
  | look (behind negative : Bool)
deriving DecidableEq, Repr

/-- A written part of a pattern. -/
inductive Token where
  | char (c : Char)
  | chars (set : CharSet)
  | start
  | stop
  | bar
  | opening (kind : Opening)
  | closing
  /-- A count, `spaced` if white space stands in its braces. -/
  | count (count : Count) (spaced : Bool)
  | recall (index : Nat)
deriving DecidableEq, Repr

namespace Token

/-! ### Characters -/

/-- The character with this code point. -/
def ofCode? (n : Nat) : Option Char := if n.isValidChar then some (Char.ofNat n) else none

/-- The characters that a backslash makes stand for themselves: ASCII, but no letter, no digit
and no angle bracket. -/
def isEscapable (c : Char) : Bool := c.toNat < 128 && !c.isAlphanum && c != '<' && c != '>'

/-- The character with the number in these digits, if they are not too many. -/
def ofDigits? (d : Dialect) (ds : List Char) : Option Char :=
  if d.maxDigits.any (· < ds.length) then none else ofCode? (Digits.hexValue ds)

/-- The character of an escape, after its backslash. -/
def escape? (d : Dialect) : List Char → Option (Char × List Char)
  | [] => none
  | 'x' :: '\x7b' :: rest =>
    match rest.takeWhile Digits.isHex, rest.dropWhile Digits.isHex with
    | a :: ds, '\x7d' :: rest => (ofDigits? d (a :: ds)).map (·, rest)
    | _, _ => none
  | 'x' :: a :: b :: rest =>
    match Digits.hex? a, Digits.hex? b with
    | some a, some b => (ofCode? (a * 16 + b)).map (·, rest)
    | _, _ => none
  | c :: rest => if isEscapable c then some (c, rest) else none

/-! ### Classes -/

/-- A character of a class. -/
def classChar? (d : Dialect) : List Char → Option (Char × List Char)
  | [] => none
  | '\\' :: rest => escape? d rest
  | c :: rest => if c = '[' ∨ c = ']' then none else some (c, rest)

/-- The text begins with a sign that stands between two sets, a doubled character. -/
def isSetSign : List Char → Bool
  | a :: b :: _ => a == b && ['&', '-', '~'].contains a
  | _ => false

/-- A character of a class or the least one of a range, where such a sign might stand too. -/
def classItem? (d : Dialect) (s : List Char) : Option (Char × List Char) :=
  if isSetSign s then none else classChar? d s

/-- The ranges up to the closing bracket of a class, after `done`, which is reversed.  A hyphen
before the bracket stands for itself. -/
def classItems? (d : Dialect) :
    Nat → List (Char × Char) → List Char → Option (List (Char × Char) × List Char)
  | 0, _, _ => none
  | _ + 1, done, ']' :: rest => some (done.reverse, rest)
  | fuel + 1, done, s =>
    match classItem? d s with
    | none => none
    | some (lo, '-' :: ']' :: rest) => some (((('-', '-')) :: (lo, lo) :: done).reverse, rest)
    | some (_, '-' :: '-' :: _) => none
    | some (lo, '-' :: rest) =>
      match classChar? d rest with
      | none => none
      | some (hi, rest) => if lo ≤ hi then classItems? d fuel ((lo, hi) :: done) rest else none
    | some (c, rest) => classItems? d fuel ((c, c) :: done) rest

section ClassItems

variable {d : Dialect} {fuel : Nat} {done : List (Char × Char)} {s rest : List Char} {c : Char}
  (hs : ∀ rest, s = ']' :: rest → False)
include hs

/-- Where no character can be read the class is refused. -/
theorem classItems_none (hc : classItem? d s = none) : classItems? d (fuel + 1) done s = none := by
  rw [classItems?, hc]
  exact hs

/-- A hyphen behind a character and before the closing bracket stands for itself. -/
theorem classItems_last (hc : classItem? d s = some (c, '-' :: ']' :: rest)) :
    classItems? d (fuel + 1) done s = some ((('-', '-') :: (c, c) :: done).reverse, rest) := by
  rw [classItems?, hc]
  · rfl
  · exact hs

/-- A hyphen between two characters makes them a range. -/
theorem classItems_range (hc : classItem? d s = some (c, '-' :: rest))
    (hbracket : ∀ more, rest = ']' :: more → False) (hhyphen : ∀ more, rest = '-' :: more → False) :
    classItems? d (fuel + 1) done s = (classChar? d rest).bind fun x =>
      if c ≤ x.1 then classItems? d fuel ((c, x.1) :: done) x.2 else none := by
  rw [classItems?, hc]
  · split
    · cases ‹some _ = none›
    · cases ‹some _ = some _›
      exact (hbracket _ rfl).elim
    · cases ‹some _ = some _›
      exact (hhyphen _ rfl).elim
    · cases ‹some _ = some _›
      cases classChar? d rest <;> rfl
    · rename_i hother heq
      cases heq
      exact (hother _ rfl).elim
  · exact hs

/-- A character before no hyphen stands for itself. -/
theorem classItems_single (hc : classItem? d s = some (c, rest))
    (hhyphen : ∀ more, rest = '-' :: more → False) :
    classItems? d (fuel + 1) done s = classItems? d fuel ((c, c) :: done) rest := by
  rw [classItems?, hc]
  · split
    · cases ‹some _ = none›
    · cases ‹some _ = some _›
      exact (hhyphen _ rfl).elim
    · cases ‹some _ = some _›
      exact (hhyphen _ rfl).elim
    · cases ‹some _ = some _›
      exact (hhyphen _ rfl).elim
    · cases ‹some _ = some _›
      rfl
  · exact hs

end ClassItems

/-- A class, after its opening bracket.  Hyphens in front stand for themselves, and so does a
closing bracket there. -/
def class? (d : Dialect) (s : List Char) : Option (CharSet × List Char) :=
  let (negated, s) := match s with
    | '^' :: rest => (true, rest)
    | s => (false, s)
  let hyphens := s.takeWhile (· = '-')
  let (first, s) := match hyphens, s with
    | [], ']' :: rest => ([']'], rest)
    | _, s => (hyphens, s.drop hyphens.length)
  (classItems? d (s.length + 1) (first.map fun c => (c, c)) s).map fun (ranges, rest) =>
    (⟨ranges, negated⟩, rest)

/-! ### Counts -/

/-- The character is white space in Unicode. -/
def isSpace (c : Char) : Bool :=
  [('\t', '\r'), (' ', ' '), ('\u0085', '\u0085'), ('\u00a0', '\u00a0'), ('\u1680', '\u1680'),
    ('\u2000', '\u200a'), ('\u2028', '\u2029'), ('\u202f', '\u202f'), ('\u205f', '\u205f'),
    ('\u3000', '\u3000')].any fun (lo, hi) => lo ≤ c && c ≤ hi

/-- The text without the white space in front of it, over which only the regular dialect passes. -/
def trimmed : Dialect → List Char → List Char
  | .regular, s => s.dropWhile isSpace
  | .extended, s => s

/-- A number of a count and what follows it, without the white space around it. -/
def number? (d : Dialect) (s : List Char) : Option (Nat × List Char) :=
  (Digits.number? (trimmed d s)).map fun (n, rest) => (n, trimmed d rest)

/-- The rest of a count in braces, after its least number. -/
def most? (d : Dialect) (m : Nat) : List Char → Option ((Nat × Option Nat) × List Char)
  | '\x7d' :: rest => some ((m, some m), rest)
  | ',' :: '\x7d' :: rest => some ((m, none), rest)
  | ',' :: rest =>
    match number? d rest with
    | some (n, '\x7d' :: rest) => some ((m, some n), rest)
    | _ => none
  | _ => none

/-- A count in braces, after the opening one.  Whether it can be met is left open.  The extended
dialect lets the least number be left out. -/
def bounds? (d : Dialect) (s : List Char) : Option ((Nat × Option Nat) × List Char) :=
  match number? d s, d with
  | some (m, rest), _ => most? d m rest
  | none, .regular => none
  | none, .extended => if s.head? = some ',' then most? d 0 s else none

/-- White space stands before the next closing brace. -/
def spacedBraces (s : List Char) : Bool := (s.takeWhile (· ≠ '\x7d')).any isSpace

/-- The count with these bounds; a question mark after it makes it lazy. -/
def ofBounds (bounds : Nat × Option Nat) (spaced : Bool) : List Char → Token × List Char
  | '?' :: rest => (.count ⟨bounds.1, bounds.2, false⟩ spaced, rest)
  | rest => (.count ⟨bounds.1, bounds.2, true⟩ spaced, rest)

/-! ### Tokens -/

/-- The bracket after an opening parenthesis. -/
def opening? : List Char → Option (Token × List Char)
  | '?' :: ':' :: rest => some (.opening .plain, rest)
  | '?' :: '=' :: rest => some (.opening (.look false false), rest)
  | '?' :: '!' :: rest => some (.opening (.look false true), rest)
  | '?' :: '<' :: '=' :: rest => some (.opening (.look true false), rest)
  | '?' :: '<' :: '!' :: rest => some (.opening (.look true true), rest)
  | '?' :: _ => none
  | rest => some (.opening .capture, rest)

/-- What a backslash begins: a recall before a digit, else a character. -/
def backslash? (d : Dialect) (s : List Char) : Option (Token × List Char) :=
  match Digits.number? s with
  | some (n, rest) => some (.recall n, rest)
  | none => (escape? d s).map fun (c, rest) => (.char c, rest)

/-- What an opening brace begins: a count, or in the extended dialect the character, where no
`atom` stands before it or no count can be read. -/
def brace? (d : Dialect) (atom : Bool) (s : List Char) : Option (Token × List Char) :=
  match d, if atom ∨ d = .regular then bounds? d s else none with
  | _, some (bounds, rest) => some (ofBounds bounds (spacedBraces s) rest)
  | .regular, none => none
  | .extended, none => some (.char '\x7b', s)

/-- The first token of the text and what follows it, where `atom` says whether what stands before
may be counted. -/
def next? (d : Dialect) (atom : Bool) : List Char → Option (Token × List Char)
  | [] => none
  | '(' :: rest => opening? rest
  | ')' :: rest => some (.closing, rest)
  | '|' :: rest => some (.bar, rest)
  | '^' :: rest => some (.start, rest)
  | '$' :: rest => some (.stop, rest)
  | '*' :: rest => some (ofBounds (0, none) false rest)
  | '+' :: rest => some (ofBounds (1, none) false rest)
  | '?' :: rest => some (ofBounds (0, some 1) false rest)
  | '\x7b' :: rest => brace? d atom rest
  | '[' :: rest => (class? d rest).map fun (set, rest) => (.chars set, rest)
  | '\\' :: rest => backslash? d rest
  | '.' :: _ => none
  | c :: rest => some (.char c, rest)

/-- The token ends an atom, to which a count may belong. -/
def endsAtom : Token → Bool
  | .char _ | .chars _ | .start | .stop | .closing | .recall _ => true
  | .bar | .opening _ | .count .. => false

/-- The tokens of the whole text, in at most as many steps as `fuel`. -/
def upTo? (d : Dialect) : Nat → Bool → List Char → Option (List Token)
  | _, _, [] => some []
  | 0, _, _ => none
  | fuel + 1, atom, s =>
    match next? d atom s with
    | none => none
    | some (t, rest) => (upTo? d fuel t.endsAtom rest).map (t :: ·)

/-- The tokens of the whole text. -/
def all? (d : Dialect) (s : List Char) : Option (List Token) := upTo? d s.length false s

/-- The token is a count with white space in its braces. -/
def isSpaced : Token → Bool
  | .count _ spaced => spaced
  | _ => false

/-- No count of the text has white space in its braces. -/
def tight (s : List Char) : Bool := ((all? .regular s).getD []).all (!·.isSpaced)

theorem tight_iff {s : List Char} {ts : List Token} (h : all? .regular s = some ts) :
    tight s = true ↔ ∀ t ∈ ts, t.isSpaced = false := by
  rw [tight, h, Option.getD_some, List.all_eq_true]
  simp only [Bool.not_eq_true']

end Token

end MailPattern
