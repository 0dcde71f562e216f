import MailPattern.Proofs.Pattern.Dialects

/-!
# Proofs — Pattern — Shared

What both dialects take off the front of a text (`Token.shared_next`).  Where the regular dialect
takes a token, the extended one takes the same, with three exceptions.  It refuses a character that
is given by too many digits (`Token.shortNumbers`).  It passes over no white space in a count, so that
the brace of `a{2, 3}` is a character.  And so is a brace where nothing stands that can be counted.
-/

namespace MailPattern

namespace Token

/-! ### Numbers of characters -/

/-- No character is given by more digits in braces than the extended dialect takes. -/
def shortNumbers : List Char → Bool
  | '\\' :: 'x' :: '\x7b' :: rest =>
    !Dialect.extended.maxDigits.any (· < (rest.takeWhile Digits.isHex).length) && shortNumbers rest
  | '\\' :: _ :: rest => shortNumbers rest
  | _ :: rest => shortNumbers rest
  | [] => true

variable {s rest : List Char} {c : Char}

/-- A character that is no backslash makes no difference. -/
theorem shortNumbers_cons (hc : c ≠ '\\') : shortNumbers (c :: s) = shortNumbers s := by
  rw [shortNumbers.eq_def]
  split
  · cases ‹c :: s = _›
    exact absurd rfl hc
  · cases ‹c :: s = _›
    exact absurd rfl hc
  · cases ‹c :: s = _›
    rfl
  · cases ‹c :: s = []›

/-- Nor does an escape that gives no number in braces. -/
theorem shortNumbers_escape (h : c = 'x' → s.head? ≠ some '\x7b') :
    shortNumbers ('\\' :: c :: s) = shortNumbers s := by
  rw [shortNumbers.eq_def]
  split
  · rename_i heq
    cases heq
    exact absurd rfl (h rfl)
  · rename_i heq
    cases heq
    rfl
  · rename_i hother heq
    cases heq
    exact (hother _ _ rfl rfl).elim
  · rename_i heq
    cases heq

/-- Nor do characters that are skipped, if no backslash is among them. -/
theorem shortNumbers_dropWhile {test : Char → Bool} (ht : test '\\' = false) :
    shortNumbers (s.dropWhile test) = shortNumbers s := by
  induction s with
  | nil => rfl
  | cons c s ih =>
    rw [List.dropWhile_cons]
    split
    · rename_i hc
      have hne : c ≠ '\\' := fun h => by simp [h, ht] at hc
      rw [ih, shortNumbers_cons hne]
    · rfl

/-- What follows digits has short numbers if the text with the digits has. -/
theorem shortNumbers_digits {n : Nat} (h : Digits.number? s = some (n, rest)) :
    shortNumbers s = shortNumbers rest := by
  rw [Digits.eq_dropWhile_of_number h, shortNumbers_dropWhile (by decide)]

/-- A number begins with a digit. -/
theorem isDigit_of_number {n : Nat} (h : Digits.number? (c :: s) = some (n, rest)) :
    c.isDigit = true := by
  obtain ⟨⟨ds, _⟩, htake, -⟩ := Option.map_eq_some_iff.mp h
  unfold Digits.take? at htake
  rw [List.takeWhile_cons] at htake
  by_contra hc
  rw [if_neg hc] at htake
  cases htake

/-! ### What the dialects take off a text -/

/-- What the regular dialect takes off the text, `x`, the extended one takes off too, unless the
number of a character in it is too long. -/
def Shared {α : Type} (s : List Char) (x : α × List Char) (y : Option (α × List Char)) : Prop :=
  y = some x ∧ shortNumbers s = shortNumbers x.2 ∨ y = none ∧ shortNumbers s = false

theorem Shared.congr {α : Type} {s' : List Char} {x : α × List Char} {y : Option (α × List Char)}
    (hs : shortNumbers s = shortNumbers s') (h : Shared s' x y) : Shared s x y := by
  unfold Shared
  rw [hs]
  exact h

/-- What is made of what both take off is shared as well. -/
theorem Shared.map {α β : Type} {x : α × List Char} {y : Option (α × List Char)} (f : α → β)
    (h : Shared s x y) : Shared s (f x.1, x.2) (y.map fun z => (f z.1, z.2)) := by
  rcases h with ⟨rfl, h⟩ | ⟨rfl, h⟩
  · exact .inl ⟨rfl, h⟩
  · exact .inr ⟨rfl, h⟩

variable {x : Char × List Char}

/-- An escape is shared, but for its digits in braces. -/
theorem shared_escape (h : escape? .regular s = some x) :
    Shared ('\\' :: s) x (escape? .extended s) := by
  unfold escape? at h ⊢
  split at h
  · cases h
  · rename_i rest
    split at h
    · rename_i a ds rest' htake hdrop
      obtain ⟨c, hc, rfl⟩ := Option.map_eq_some_iff.mp h
      have hrest : shortNumbers rest = shortNumbers rest' := by
        have := @shortNumbers_dropWhile rest Digits.isHex (by decide)
        rw [hdrop, shortNumbers_cons (by decide)] at this
        exact this.symm
      have hshort : shortNumbers ('\\' :: 'x' :: '\x7b' :: rest) =
          (!Dialect.extended.maxDigits.any (· < (a :: ds).length) && shortNumbers rest') := by
        rw [shortNumbers, htake, hrest]
      unfold Shared
      rw [hshort, ofDigits?]
      cases Dialect.extended.maxDigits.any (· < (a :: ds).length) with
      | true => exact .inr ⟨rfl, rfl⟩
      | false =>
        refine .inl ⟨?_, rfl⟩
        rw [show ofCode? _ = some c from hc]
        rfl
    · cases h
  · rename_i hbrace
    split at h
    · rename_i ha hb
      have hne : ∀ {a : Char} {n : Nat}, Digits.hex? a = some n → a ≠ '\\' ∧ a ≠ '\x7b' := by
        rintro a n h
        constructor <;> rintro rfl <;> cases h
      obtain ⟨c, hc, rfl⟩ := Option.map_eq_some_iff.mp h
      refine .inl ⟨h, ?_⟩
      rw [shortNumbers_escape, shortNumbers_cons (hne ha).1, shortNumbers_cons (hne hb).1]
      exact fun _ hhead => (hne ha).2 (Option.some.inj hhead)
    · cases h
  · rw [Option.ite_none_right_eq_some] at h
    obtain ⟨hc, h⟩ := h
    cases h
    refine .inl ⟨if_pos hc, shortNumbers_escape ?_⟩
    rintro rfl
    exact absurd hc (by decide)

theorem shared_classChar (h : classChar? .regular s = some x) :
    Shared s x (classChar? .extended s) := by
  unfold classChar? at h ⊢
  split at h
  · cases h
  · exact shared_escape h
  · rename_i hc
    rw [Option.ite_none_left_eq_some] at h
    obtain ⟨hbracket, h⟩ := h
    cases h
    refine .inl ⟨if_neg hbracket, shortNumbers_cons fun h => hc (h ▸ rfl)⟩

theorem shared_classItem (h : classItem? .regular s = some x) :
    Shared s x (classItem? .extended s) := by
  unfold classItem? at h ⊢
  obtain ⟨hsign, h⟩ := Option.ite_none_left_eq_some.mp h
  rw [if_neg hsign]
  exact shared_classChar h

/-- The rest of a class is shared, whatever comes before it. -/
theorem shared_classItems {fuel : Nat} {done : List (Char × Char)}
    {y : List (Char × Char) × List Char} (h : classItems? .regular fuel done s = some y) :
    Shared s y (classItems? .extended fuel done s) := by
  -- a character that the extended dialect refuses ends its class
  have refused : ∀ {fuel done s} {a : Char × List Char}, (∀ rest, s = ']' :: rest → False) →
      classItem? .regular s = some a → (classItem? .extended s = some a ∧
        shortNumbers s = shortNumbers a.2) ∨
      (classItems? .extended (fuel + 1) done s = none ∧ shortNumbers s = false) := by
    intro fuel done s a hs ha
    rcases shared_classItem ha with h | ⟨hnone, hshort⟩
    · exact .inl h
    · exact .inr ⟨classItems_none hs hnone, hshort⟩
  fun_induction classItems? .regular fuel done s with
  | case1 | case3 | case5 | case6 | case8 => cases h
  | case2 =>
    cases h
    exact .inl ⟨rfl, shortNumbers_cons (by decide)⟩
  | case4 fuel done s hs lo rest hlo =>
    cases h
    rcases refused hs hlo with ⟨hlo, hshort⟩ | hnone
    · refine .inl ⟨classItems_last hs hlo, ?_⟩
      rw [hshort, shortNumbers_cons (by decide), shortNumbers_cons (by decide)]
    · exact .inr hnone
  | case7 fuel done s hs lo rest hbracket hhyphen hlo hi _ hhi hle ih =>
    rcases refused hs hlo with ⟨hlo, hshort⟩ | hnone
    · have hrest := hshort.trans (shortNumbers_cons (by decide))
      rcases shared_classChar hhi with ⟨hhi, hshort⟩ | ⟨hhi, hshort⟩
      · unfold Shared
        rw [classItems_range hs hlo hbracket hhyphen, hhi, hrest.trans hshort, Option.bind_some,
          if_pos hle]
        exact ih h
      · refine .inr ⟨?_, hrest.trans hshort⟩
        rw [classItems_range hs hlo hbracket hhyphen, hhi, Option.bind_none]
    · exact .inr hnone
  | case9 fuel done s hs c rest _ _ hhyphen hc ih =>
    rcases refused hs hc with ⟨hc, hshort⟩ | hnone
    · unfold Shared
      rw [classItems_single hs hc hhyphen, hshort]
      exact ih h
    · exact .inr hnone

theorem drop_takeWhile (test : Char → Bool) (s : List Char) :
    s.drop (s.takeWhile test).length = s.dropWhile test := by
  have := @List.drop_left _ (s.takeWhile test) (s.dropWhile test)
  rwa [List.takeWhile_append_dropWhile] at this

/-- A class is shared. -/
theorem shared_class {y : CharSet × List Char} (h : class? .regular s = some y) :
    Shared s y (class? .extended s) := by
  obtain ⟨x, hitems, rfl⟩ := Option.map_eq_some_iff.mp h
  refine Shared.congr ?_ ((shared_classItems hitems).map fun ranges => (⟨ranges, _⟩ : CharSet))
  split
  · rename_i heq
    refine Eq.trans ?_ (shortNumbers_cons (c := ']') (by decide))
    rw [← heq]
    split
    · exact shortNumbers_cons (by decide)
    · rfl
  · rw [drop_takeWhile, shortNumbers_dropWhile (by decide)]
    split
    · exact shortNumbers_cons (by decide)
    · rfl

/-- What a backslash begins is shared. -/
theorem shared_backslash {y : Token × List Char} (h : backslash? .regular s = some y) :
    Shared ('\\' :: s) y (backslash? .extended s) := by
  unfold backslash? at h ⊢
  split at h
  · rename_i n rest hnumber
    cases h
    refine .inl ⟨rfl, ?_⟩
    cases s with
    | nil => cases hnumber
    | cons c s =>
      have hc := isDigit_of_number hnumber
      rw [shortNumbers_escape, ← shortNumbers_digits hnumber, shortNumbers_cons]
      · rintro rfl
        exact absurd hc (by decide)
      · rintro rfl
        exact absurd hc (by decide)
  · obtain ⟨x, hx, rfl⟩ := Option.map_eq_some_iff.mp h
    exact (shared_escape hx).map Token.char

theorem shortNumbers_opening {y : Token × List Char} (h : opening? s = some y) :
    shortNumbers s = shortNumbers y.2 := by
  unfold opening? at h
  split at h <;> cases h <;> simp only [shortNumbers_cons, ne_eq, Char.reduceEq, not_false_eq_true]

theorem shortNumbers_ofBounds (bounds : Nat × Option Nat) (spaced : Bool) (s : List Char) :
    shortNumbers (ofBounds bounds spaced s).2 = shortNumbers s := by
  unfold ofBounds
  split
  · exact (shortNumbers_cons (by decide)).symm
  · rfl

/-- A count remembers whether white space stands in its braces. -/
theorem ofBounds_fst (bounds : Nat × Option Nat) (spaced : Bool) (s : List Char) :
    ∃ c, (ofBounds bounds spaced s).1 = .count c spaced := by
  unfold ofBounds
  split <;> exact ⟨_, rfl⟩

/-! ### White space in counts -/

/-- White space before the next brace is white space in front, or behind the first character. -/
theorem spacedBraces_cons (hc : c ≠ '\x7d') :
    spacedBraces (c :: s) = (isSpace c || spacedBraces s) := by
  simp [spacedBraces, hc]

/-- Without white space before the next brace nothing is passed over. -/
theorem trimmed_of_tight (d : Dialect) (hs : spacedBraces s = false) : trimmed d s = s := by
  cases d with
  | extended => rfl
  | regular =>
    cases s with
    | nil => rfl
    | cons c s =>
      have hc : isSpace c = false := by
        by_cases hbrace : c = '\x7d'
        · rw [hbrace]
          decide
        · rw [spacedBraces_cons hbrace] at hs
          exact (Bool.or_eq_false_iff.mp hs).1
      exact List.dropWhile_cons_of_neg (by rw [hc]; exact Bool.false_ne_true)

/-- None stands behind digits either. -/
theorem tight_of_digits {n : Nat} (hs : spacedBraces s = false)
    (h : Digits.number? s = some (n, rest)) : spacedBraces rest = false := by
  rw [Digits.eq_dropWhile_of_number h]
  clear h
  induction s with
  | nil => rfl
  | cons c s ih =>
    rw [List.dropWhile_cons]
    split
    · rename_i hdigit
      have hc : c ≠ '\x7d' := by
        rintro rfl
        cases hdigit
      rw [spacedBraces_cons hc] at hs
      exact ih (Bool.or_eq_false_iff.mp hs).2
    · exact hs

/-- So both dialects read the same number there. -/
theorem number_of_tight (d : Dialect) (hs : spacedBraces s = false) :
    number? d s = Digits.number? s := by
  rw [number?, trimmed_of_tight d hs]
  cases h : Digits.number? s with
  | none => rfl
  | some x => exact congrArg (fun rest => some (x.1, rest)) (trimmed_of_tight d (tight_of_digits hs h))

/-- Nor do the dialects differ in the greatest number. -/
theorem most_of_tight {m : Nat} (hs : spacedBraces s = false) :
    most? .extended m s = most? .regular m s := by
  unfold most?
  split
  · rfl
  · rfl
  · rename_i rest _
    rw [spacedBraces_cons (by decide)] at hs
    have hrest := (Bool.or_eq_false_iff.mp hs).2
    rw [number_of_tight .extended hrest, number_of_tight .regular hrest]
  · rfl

/-- A count without white space both dialects read. -/
theorem bounds_of_tight {x : (Nat × Option Nat) × List Char} (hs : spacedBraces s = false)
    (h : bounds? .regular s = some x) : bounds? .extended s = some x := by
  unfold bounds? at h ⊢
  rw [number_of_tight _ hs] at h ⊢
  split at h
  · rename_i hnumber
    rw [hnumber]
    exact (most_of_tight (tight_of_digits hs hnumber)).trans h
  · cases h
  · cases ‹Dialect.regular = Dialect.extended›

/-- White space that is passed over gives no number. -/
theorem shortNumbers_trimmed (d : Dialect) (s : List Char) :
    shortNumbers (trimmed d s) = shortNumbers s := by
  cases d with
  | regular => exact shortNumbers_dropWhile (by decide)
  | extended => rfl

variable {d : Dialect}

/-- What follows a number has short numbers if the text with the number has. -/
theorem shortNumbers_number {n : Nat} (h : number? d s = some (n, rest)) :
    shortNumbers s = shortNumbers rest := by
  obtain ⟨x, hx, h⟩ := Option.map_eq_some_iff.mp h
  cases h
  rw [shortNumbers_trimmed, ← shortNumbers_digits hx, shortNumbers_trimmed]

theorem shortNumbers_most {m : Nat} {y : (Nat × Option Nat) × List Char}
    (h : most? d m s = some y) : shortNumbers s = shortNumbers y.2 := by
  unfold most? at h
  split at h
  · cases h
    exact shortNumbers_cons (by decide)
  · cases h
    rw [shortNumbers_cons (by decide), shortNumbers_cons (by decide)]
  · split at h
    · cases h
      rw [shortNumbers_cons (by decide), shortNumbers_number ‹_›, shortNumbers_cons (by decide)]
    · cases h
  · cases h

/-- What follows a count has short numbers if the text with the count has. -/
theorem shortNumbers_bounds {y : (Nat × Option Nat) × List Char} (h : bounds? .regular s = some y) :
    shortNumbers s = shortNumbers y.2 := by
  unfold bounds? at h
  split at h
  · exact (shortNumbers_number ‹_›).trans (shortNumbers_most h)
  · cases h
  · cases ‹Dialect.regular = Dialect.extended›

/-- What a brace begins in the regular dialect. -/
theorem brace_regular {atom : Bool} {y : Token × List Char} (h : brace? .regular atom s = some y) :
    ∃ bounds rest, bounds? .regular s = some (bounds, rest) ∧
      y = ofBounds bounds (spacedBraces s) rest := by
  simp only [brace?, or_true, if_true] at h
  split at h
  · cases h
    exact ⟨_, _, ‹_›, rfl⟩
  · cases h
  · cases ‹Dialect.regular = Dialect.extended›

/-- A brace that begins a count without white space in the regular dialect does so in the extended
one, if something stands before it that can be counted. -/
theorem shared_brace {atom : Bool} {y : Token × List Char} (h : brace? .regular atom s = some y)
    (hy : y.1.isSpaced = false) :
    Shared ('\x7b' :: s) y (brace? .extended atom s) ∨ atom = false ∧ ∃ c, y.1 = .count c false := by
  obtain ⟨bounds, rest, hbounds, rfl⟩ := brace_regular h
  obtain ⟨c, hc⟩ := ofBounds_fst bounds (spacedBraces s) rest
  have hs : spacedBraces s = false := by rwa [hc] at hy
  cases atom with
  | false => exact .inr ⟨rfl, c, by rw [hc, hs]⟩
  | true =>
    refine .inl (.inl ⟨?_, ?_⟩)
    · simp only [brace?, true_or, if_true, bounds_of_tight hs hbounds]
    · rw [shortNumbers_cons (by decide), shortNumbers_bounds hbounds, shortNumbers_ofBounds]

/-- What the regular dialect takes first both take, but for a count where nothing can be counted, and
one with white space in its braces. -/
theorem shared_next {atom : Bool} {y : Token × List Char} (h : next? .regular atom s = some y)
    (hy : y.1.isSpaced = false) :
    Shared s y (next? .extended atom s) ∨ atom = false ∧ ∃ c, y.1 = .count c false := by
  have count {c : Char} {rest : List Char} (bounds) (hc : c ≠ '\\') :
      shortNumbers (c :: rest) = shortNumbers (ofBounds bounds false rest).2 := by
    rw [shortNumbers_cons hc, shortNumbers_ofBounds]
  fun_cases next? .regular atom s
  case case1 => cases h
  case case2 rest =>
    exact .inl (.inl ⟨h, (shortNumbers_cons (by decide)).trans (shortNumbers_opening h)⟩)
  case case3 | case4 | case5 | case6 =>
    cases h
    exact .inl (.inl ⟨rfl, shortNumbers_cons (by decide)⟩)
  case case7 | case8 | case9 =>
    cases h
    exact .inl (.inl ⟨rfl, count _ (by decide)⟩)
  case case10 rest => exact shared_brace h hy
  case case11 rest =>
    obtain ⟨x, hx, rfl⟩ := Option.map_eq_some_iff.mp h
    exact .inl (((shared_class hx).map Token.chars).congr (shortNumbers_cons (by decide)))
  case case12 rest => exact .inl (shared_backslash h)
  case case13 => cases h
  case case14 =>
    rename_i c rest _ _ _ _ _ _ _ _ _ _ hc _
    have hnext (d : Dialect) : next? d atom (c :: rest) = some (.char c, rest) := by
      rw [next?] <;> assumption
    cases (hnext _).symm.trans h
    exact .inl (.inl ⟨hnext _, shortNumbers_cons hc⟩)

end Token

end MailPattern
