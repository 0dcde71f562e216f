import MailPattern.Text.Folding

/-!
# Pattern — CharSet

Sets of characters, given by ranges, and what a character of a text is read as.

A *reading* lists the characters that a character of the text stands for: itself alone, or all
its variants when case is ignored.  A set admits a reading when it covers one of them; a negated
set admits it when its ranges cover none.  So ignoring case is a matter of the text.

`CharSet.resolve` brings a set to the form in which sets of the same characters are equal: ascending
ranges that neither meet nor touch, closed under folding when case is ignored, and not negated.
-/

namespace MailPattern

/-- The characters that one character of a text stands for. -/
abbrev Reading := List Char

/-- The readings of a text, up to case when `caseless`. -/
def readings (caseless : Bool) (s : List Char) : List Reading :=
  if caseless then s.map Folding.variants else s.map fun c => [c]

/-- The characters in some range; when `negated`, all others. -/
structure CharSet where
  ranges : List (Char × Char)
  negated : Bool := false
deriving DecidableEq, Repr

namespace CharSet

/-- The set of one character. -/
def single (c : Char) : CharSet := ⟨[(c, c)], false⟩

/-- Some range holds `c`. -/
def covers (s : CharSet) (c : Char) : Bool := s.ranges.any fun r => r.1 ≤ c && c ≤ r.2

/-- The set holds a character read as `r`. -/
def admits (s : CharSet) (r : Reading) : Bool := r.any s.covers != s.negated

theorem covers_single {c d : Char} : (single c).covers d = true ↔ d = c := by
  simp only [covers, single, List.any_cons, List.any_nil, Bool.or_false, Bool.and_eq_true,
    decide_eq_true_eq]
  exact ⟨fun h => Char.le_antisymm h.2 h.1, fun h => h ▸ ⟨Char.le_refl _, Char.le_refl _⟩⟩

/-- Read by itself, a character is admitted when it is in the set. -/
theorem admits_self {s : CharSet} {c : Char} : s.admits [c] = (s.covers c != s.negated) := by
  simp [admits]

/-- Read up to case, a character is admitted by a set that is not negated when the set holds a
character that folds alike. -/
theorem admits_variants_iff {ranges : List (Char × Char)} {c : Char} :
    (CharSet.mk ranges false).admits (Folding.variants c) = true ↔
      ∃ d, (CharSet.mk ranges false).covers d = true ∧ Folding.fold d = Folding.fold c := by
  simp only [admits, bne_iff_ne, ne_eq, Bool.not_eq_false, List.any_eq_true,
    Folding.mem_variants_iff]
  exact exists_congr fun _ => And.comm

/-! ### Resolved sets -/

/-- The last character. -/
def last : Char := Char.ofNat 0x10ffff

/-- The character after `c`; between the halves of the surrogate pairs there is none. -/
def above (c : Char) : Char :=
  if c.toNat = 0xd7ff then '\ue000' else Char.ofNat (c.toNat + 1)

/-- The character before `c`. -/
def below (c : Char) : Char :=
  if c.toNat = 0xe000 then Char.ofNat 0xd7ff else Char.ofNat (c.toNat - 1)

/-- The range `r` and those after it, in ascending order of their starts, with ranges that meet or
touch made one. -/
def mergeFrom (r : Char × Char) : List (Char × Char) → List (Char × Char)
  | [] => [r]
  | s :: rest =>
    if s.1 ≤ r.2 ∨ s.1 = above r.2 then mergeFrom (r.1, if r.2 ≤ s.2 then s.2 else r.2) rest
    else r :: mergeFrom s rest

/-- The same characters in ascending ranges that neither meet nor touch. -/
def merged (ranges : List (Char × Char)) : List (Char × Char) :=
  match ranges.mergeSort fun r s => r.1 ≤ s.1 with
  | [] => []
  | r :: rest => mergeFrom r rest

/-- The ranges between the given ones from `next` on. -/
def gapsFrom (next : Char) : List (Char × Char) → List (Char × Char)
  | [] => [(next, last)]
  | r :: rest =>
    let after := if r.2 = last then [] else gapsFrom (above r.2) rest
    if next < r.1 then (next, below r.1) :: after else after

/-- The ranges and every character that folds as one in them does. -/
def closed (ranges : List (Char × Char)) : List (Char × Char) :=
  let touched := Folding.classes.filter fun cs => cs.any (CharSet.mk ranges false).covers
  ranges ++ touched.flatten.map fun c => (c, c)

/-- The same set in the form in which equal sets are equal. -/
def resolve (caseless : Bool) (s : CharSet) : CharSet :=
  let ranges := merged (if caseless then closed s.ranges else s.ranges)
  ⟨if s.negated then gapsFrom '\x00' ranges else ranges, false⟩

/-- The characters in one of the sets, of which none is negated. -/
def union (sets : List CharSet) : CharSet := ⟨merged (sets.flatMap (·.ranges)), false⟩

end CharSet

/-- Texts that fold alike, character by character, have the same readings up to case. -/
theorem readings_congr {s t : List Char} (h : s.map Folding.fold = t.map Folding.fold) :
    readings true s = readings true t := by
  induction s generalizing t with
  | nil => cases t with
    | nil => rfl
    | cons => cases h
  | cons c s ih => cases t with
    | nil => cases h
    | cons d t =>
      simp only [List.map_cons, List.cons.injEq] at h
      have := ih h.2
      simp only [readings, if_pos, List.map_cons, List.cons.injEq] at this ⊢
      exact ⟨Folding.variants_congr h.1, this⟩

end MailPattern
