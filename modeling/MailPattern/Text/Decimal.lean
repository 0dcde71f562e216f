/-!
# Text — Decimal

Decimal numbers in binary floating point with 53 significant bits.

* `nearest` rounds `m · 10^e` to the nearest representable value, a tie to the even one, and
  fails beyond the largest finite value.
* `scaled?` comes to a value by rounding `m`, then the power of ten, then their product or
  quotient; so it may miss the nearest value by a little.
* `shortest` finds the fewest digits that `nearest` takes back to the value; of two such
  numbers with as many digits, the nearer.
* `Binary.text` writes those digits: positional from `10⁻⁵` up to `10¹⁶`, with a signed exponent
  elsewhere, and always with a point or an exponent.
-/

namespace MailPattern.Decimal

/-- The value `significand · 2 ^ exponent`. -/
structure Binary where
  significand : Nat
  exponent : Int
deriving DecidableEq

/-- The smallest exponent: that of the subnormal values. -/
def minExponent : Int := -1074

/-- The largest exponent of a finite value. -/
def maxExponent : Int := 971

/-- `num / den` to the nearest whole number, a half to the even one. -/
def roundDiv (num den : Nat) : Nat :=
  let q := num / den
  let twice := 2 * (num % den)
  if twice < den then q else if den < twice then q + 1 else q + q % 2

/-- `m · b ^ e` as a fraction. -/
def fraction (m b : Nat) (e : Int) : Nat × Nat :=
  if 0 ≤ e then (m * Nat.pow b e.toNat, 1) else (m, Nat.pow b (-e).toNat)

/-- The value nearest to `num / den`; `none` beyond the largest finite value. -/
def nearestFraction (num den : Nat) : Option Binary :=
  if num = 0 then some ⟨0, minExponent⟩ else
    let scaled (e : Int) : Nat × Nat :=
      if 0 ≤ e then (num, den * Nat.pow 2 e.toNat) else (num * Nat.pow 2 (-e).toNat, den)
    let low := max ((num.log2 : Int) - den.log2 - 53) minExponent
    let e := if (scaled low).1 / (scaled low).2 < Nat.pow 2 53 then low else low + 1
    let q := roundDiv (scaled e).1 (scaled e).2
    let value : Binary := if q = Nat.pow 2 53 then ⟨Nat.pow 2 52, e + 1⟩ else ⟨q, e⟩
    if maxExponent < value.exponent then none else some value

/-- How many digits `n` has in base ten. -/
def digitCount (n : Nat) : Nat := (Nat.toDigits 10 n).length

/-- The value nearest to `m · 10 ^ e`.  Beyond 400 places on either side of the point the
answer does not depend on the digits. -/
def nearest (m : Nat) (e : Int) : Option Binary :=
  let top := e + digitCount m
  if m = 0 ∨ top < -400 then some ⟨0, minExponent⟩
  else if 400 < top then none
  else
    let (num, den) := fraction m 10 e
    nearestFraction num den

/-! ### Values by rounded steps -/

namespace Binary

/-- Zero. -/
def zero : Binary := ⟨0, minExponent⟩

/-- `b`, times two to `e`, as a fraction. -/
def toFraction (b : Binary) (e : Int) : Nat × Nat := fraction b.significand 2 (b.exponent + e)

/-- The product, rounded. -/
def times? (a b : Binary) : Option Binary :=
  let (num, den) := a.toFraction b.exponent
  nearestFraction (num * b.significand) den

/-- The quotient, rounded. -/
def over? (a b : Binary) : Option Binary :=
  let (num, den) := a.toFraction (-b.exponent)
  nearestFraction num (den * b.significand)

end Binary

/-- The largest exponent whose power of ten is a value. -/
def maxPower : Nat := 308

/-- The value nearest to `10 ^ n`. -/
def power? (n : Nat) : Option Binary := nearest 1 n

/-- `b` over the largest power of ten, `times` times, and then over `10 ^ n`, each quotient rounded.
Zero stays zero. -/
def lowered? (n : Nat) : Nat → Binary → Option Binary
  | 0, b => (power? n).bind b.over?
  | times + 1, b =>
    if b.significand = 0 then some b
    else ((power? maxPower).bind b.over?).bind (lowered? n times)

/-- The value of `m · 10 ^ e` in steps, each rounded: `m` first, then times or over the power of
ten.  It fails beyond the largest finite value. -/
def scaled? (m : Nat) (e : Int) : Option Binary :=
  match nearestFraction m 1 with
  | none => none
  | some b =>
    if e < 0 then
      let times := (-e - 1).toNat / maxPower
      lowered? ((-e).toNat - times * maxPower) times b
    else if e ≤ maxPower then (power? e.toNat).bind b.times?
    else if m = 0 then some b
    else none

/-! ### Text -/

/-- The exponent `p` with `10 ^ p ≤ num / den < 10 ^ (p + 1)`, for a positive fraction. -/
def magnitude (num den : Nat) : Int :=
  if den ≤ num then digitCount (num / den) - 1 else -digitCount ((den - 1) / num)

/-- The number on the grid of spacing `10 ^ e` that reads back as `b`, the nearer of the two
neighbours of `b` when both do. -/
def onGrid? (b : Binary) (num den : Nat) (e : Int) : Option Nat :=
  let (scaledNum, scaledDen) :=
    if 0 ≤ e then (num, den * Nat.pow 10 e.toNat) else (num * Nat.pow 10 (-e).toNat, den)
  let below := scaledNum / scaledDen
  let close := roundDiv scaledNum scaledDen
  let far := if close = below then below + 1 else below
  [close, far].find? fun c => nearest c e = some b

/-- The digits and the exponent of ten of the shortest number that reads back as `b`. -/
def shortest (b : Binary) : Nat × Int :=
  let (num, den) := fraction b.significand 2 b.exponent
  let p := magnitude num den
  let grids := (List.range 17).map fun (n : Nat) => p - n
  (grids.findSome? fun e => (onGrid? b num den e).map (·, e)).getD (b.significand, 0)

/-- The digits `ds` with the point after the first `point` of them. -/
def positional (ds : List Char) (point : Int) : List Char :=
  if ds.length ≤ point then
    ds ++ List.replicate (point - ds.length).toNat '0' ++ ['.', '0']
  else if 0 < point then ds.take point.toNat ++ '.' :: ds.drop point.toNat
  else '0' :: '.' :: List.replicate (-point).toNat '0' ++ ds

/-- The digits `ds` with a point after the first and the power of ten that puts it back. -/
def scientific (ds : List Char) (point : Int) : List Char :=
  ds.take 1 ++ (if ds.length = 1 then [] else '.' :: ds.drop 1) ++
    ['e', if point < 1 then '-' else '+'] ++ Nat.toDigits 10 (point - 1).natAbs

/-- The text of `b`, with a sign when `negative`. -/
def Binary.text (negative : Bool) (b : Binary) : String :=
  let body :=
    if b.significand = 0 then ['0', '.', '0'] else
      let (m, e) := shortest b
      let all := Nat.toDigits 10 m
      let ds := (all.reverse.dropWhile (· = '0')).reverse
      let point := e + all.length
      if -5 < point ∧ point ≤ 16 then positional ds point else scientific ds point
  String.ofList (if negative then '-' :: body else body)

end MailPattern.Decimal
