import Mathlib.Data.List.TakeWhile
import MailPattern.Address.Compose
import MailPattern.Proofs.Pattern.Portable
import MailPattern.Proofs.Pattern.Written

/-!
# Proofs — Pattern — Continued

What is taken off a text when more is put behind it.  What begins with a dollar sign changes no token
before it (`Token.firm_next`): there no number goes on, no count turns lazy and no bracket of a
class is closed.  So an anchored pattern has the tokens of the pattern with those of the anchors and
brackets around them (`Token.all_anchored`).
-/

namespace MailPattern

/-! ### Before a dollar sign -/

/-- What is taken off the front of a text stays the same when a dollar sign is put behind it. -/
def Firm {α : Type} (take : List Char → Option (α × List Char)) : Prop :=
  ∀ {s rest : List Char} {x : α} (more : List Char), take s = some (x, rest) →
    take (s ++ '$' :: more) = some (x, rest ++ '$' :: more)

/-- What is made of what is taken off changes nothing. -/
theorem Firm.map {α β : Type} {take : List Char → Option (α × List Char)} (h : Firm take)
    (f : α → β) : Firm fun s => (take s).map fun x => (f x.1, x.2) := by
  intro s rest y more hy
  obtain ⟨⟨x, rest⟩, hx, hy⟩ := Option.map_eq_some_iff.mp hy
  cases hy
  show (take _).map _ = _
  rw [h more hx]
  rfl

variable {s rest more : List Char}

/-- What begins with another character before a dollar sign begins so by itself. -/
theorem exists_of_dollar {c : Char} (hc : c ≠ '$') (h : s ++ '$' :: more = c :: rest) :
    ∃ rest', s = c :: rest' := by
  cases s with
  | nil => exact absurd (List.cons.inj h).1.symm hc
  | cons a s => exact ⟨s, by rw [(List.cons.inj h).1]⟩

theorem not_dollar {c : Char} (hc : c ≠ '$') (h : ∀ rest, s = c :: rest → False) (rest : List Char) :
    s ++ '$' :: more = c :: rest → False := fun hs =>
  (exists_of_dollar hc hs).elim h

/-- What is taken while a test holds ends before a dollar sign, if that fails the test. -/
theorem takeWhile_dollar {test : Char → Bool} (h : test '$' = false) (s more : List Char) :
    (s ++ '$' :: more).takeWhile test = s.takeWhile test := by
  induction s with
  | nil =>
    rw [List.nil_append, List.takeWhile_cons_of_neg (by rw [h]; exact Bool.false_ne_true)]
    rfl
  | cons c s ih => rw [List.cons_append, List.takeWhile_cons, List.takeWhile_cons, ih]

/-- And the dollar sign stays behind what is left. -/
theorem dropWhile_dollar {test : Char → Bool} (h : test '$' = false) (s more : List Char) :
    (s ++ '$' :: more).dropWhile test = s.dropWhile test ++ '$' :: more := by
  induction s with
  | nil =>
    rw [List.nil_append, List.dropWhile_cons_of_neg (by rw [h]; exact Bool.false_ne_true)]
    rfl
  | cons c s ih =>
    rw [List.cons_append, List.dropWhile_cons, List.dropWhile_cons, ih]
    split <;> rfl

namespace Token

variable {d : Dialect}

/-- Digits end before a dollar sign. -/
theorem digits_dollar (s more : List Char) : Digits.number? (s ++ '$' :: more) =
    (Digits.number? s).map fun x => (x.1, x.2 ++ '$' :: more) := by
  simp only [Digits.number?, Digits.take?, takeWhile_dollar (by decide : Char.isDigit '$' = false),
    dropWhile_dollar (by decide : Char.isDigit '$' = false)]
  split <;> rfl

/-- White space ends there too. -/
theorem trimmed_dollar (s more : List Char) :
    trimmed d (s ++ '$' :: more) = trimmed d s ++ '$' :: more := by
  cases d with
  | regular => exact dropWhile_dollar (by decide) s more
  | extended => rfl

/-- So a number is read alike with a dollar sign behind it. -/
theorem number_dollar (s more : List Char) : number? d (s ++ '$' :: more) =
    (number? d s).map fun x => (x.1, x.2 ++ '$' :: more) := by
  rw [number?, number?, trimmed_dollar, digits_dollar, Option.map_map, Option.map_map]
  congr 1
  funext x
  exact congrArg (x.1, ·) (trimmed_dollar ..)

theorem most_dollar (m : Nat) (s more : List Char) :
    most? d m (s ++ '$' :: more) = (most? d m s).map fun x => (x.1, x.2 ++ '$' :: more) := by
  have hbrace {s : List Char} (h : ∀ rest, s = '\x7d' :: rest → False) :
      ∀ rest, s ++ '$' :: more = '\x7d' :: rest → False := not_dollar (by decide) h
  fun_cases most? d m s with
  | case1 rest => rfl
  | case2 rest => rfl
  | case3 rest hne n rest' hn =>
    rw [List.cons_append, most?, number_dollar, hn]
    · rfl
    · exact hbrace hne
  | case4 rest hne hn =>
    rw [List.cons_append, most?, number_dollar]
    · cases hnumber : number? d rest with
      | none => rfl
      | some x =>
        obtain ⟨n, rest'⟩ := x
        rw [Option.map_some]
        split
        · rename_i heq
          obtain ⟨_, rfl⟩ := exists_of_dollar (by decide) (congrArg Prod.snd (Option.some.inj heq))
          exact (hn n _ hnumber).elim
        · rfl
    · exact hbrace hne
  | case5 s h1 h2 h3 =>
    have hcomma : ∀ rest, s ++ '$' :: more = ',' :: rest → False := not_dollar (by decide) h3
    rw [most?]
    · rfl
    · exact hbrace h1
    · exact fun rest => hcomma _
    · exact hcomma

/-- So is a count in braces. -/
theorem bounds_dollar (s more : List Char) :
    bounds? d (s ++ '$' :: more) = (bounds? d s).map fun x => (x.1, x.2 ++ '$' :: more) := by
  unfold bounds?
  rw [number_dollar]
  cases number? d s with
  | some x => exact most_dollar ..
  | none =>
    cases d with
    | regular => rfl
    | extended =>
      show (if (s ++ '$' :: more).head? = some ',' then most? .extended 0 (s ++ '$' :: more) else none) = _
      rw [most_dollar]
      cases s with
      | nil => rfl
      | cons c s =>
        show (if some c = some ',' then _ else none) = Option.map _ (if some c = some ',' then _ else none)
        split <;> rfl

/-- It does not turn lazy. -/
theorem ofBounds_dollar (bounds : Nat × Option Nat) (spaced : Bool) (s more : List Char) :
    ofBounds bounds spaced (s ++ '$' :: more) =
      ((ofBounds bounds spaced s).1, (ofBounds bounds spaced s).2 ++ '$' :: more) := by
  fun_cases ofBounds bounds spaced s with
  | case1 rest => rfl
  | case2 =>
    rename_i h
    rw [ofBounds]
    exact not_dollar (by decide) h

theorem firm_ofBounds (bounds : Nat × Option Nat) (spaced : Bool) :
    Firm fun s => some (ofBounds bounds spaced s) := by
  intro s rest t more h
  show some (ofBounds bounds spaced (s ++ '$' :: more)) = _
  rw [ofBounds_dollar, Option.some.inj h]

/-- What follows a number ends the text. -/
theorem suffix_of_number {n : Nat} (h : number? d s = some (n, rest)) : rest <:+ s := by
  have htrimmed (s : List Char) : trimmed d s <:+ s := by
    cases d with
    | regular => exact List.dropWhile_suffix _
    | extended => exact List.suffix_rfl
  obtain ⟨⟨_, t⟩, hdigits, h⟩ := Option.map_eq_some_iff.mp h
  cases h
  refine (htrimmed t).trans (List.IsSuffix.trans ?_ (htrimmed s))
  rw [Digits.eq_dropWhile_of_number hdigits]
  exact List.dropWhile_suffix _

/-- The rest of a count has its closing brace. -/
theorem brace_mem_of_most {m : Nat} {x : (Nat × Option Nat) × List Char} (h : most? d m s = some x) :
    '\x7d' ∈ s := by
  fun_cases most? d m s with
  | case1 => exact List.mem_cons_self
  | case2 => exact List.mem_cons_of_mem _ List.mem_cons_self
  | case3 rest _ n rest' hn =>
    exact List.mem_cons_of_mem _ ((suffix_of_number hn).subset List.mem_cons_self)
  | case4 rest hrest hn =>
    rw [most?] at h
    · split at h
      · exact (hn _ _ ‹_›).elim
      · cases h
    · exact hrest
  | case5 =>
    rw [most?] at h
    · cases h
    all_goals assumption

/-- A count that is read has its closing brace. -/
theorem brace_mem_of_bounds {x : (Nat × Option Nat) × List Char} (h : bounds? d s = some x) :
    '\x7d' ∈ s := by
  unfold bounds? at h
  split at h
  · exact (suffix_of_number ‹_›).subset (brace_mem_of_most h)
  · cases h
  · obtain ⟨-, h⟩ := Option.ite_none_right_eq_some.mp h
    exact brace_mem_of_most h

/-- White space before the closing brace stands before the dollar sign. -/
theorem spacedBraces_dollar (h : '\x7d' ∈ s) (more : List Char) :
    spacedBraces (s ++ '$' :: more) = spacedBraces s := by
  rw [spacedBraces, List.takeWhile_append, if_neg]
  · rfl
  · intro hlength
    have hself := (List.takeWhile_prefix _).eq_of_length hlength
    exact of_decide_eq_true (List.takeWhile_eq_self_iff.mp hself _ h) rfl

/-- What a brace begins does not change. -/
theorem firm_brace {atom : Bool} : Firm (brace? d atom) := by
  intro s rest t more h
  unfold brace? at h ⊢
  have hbounds : (if atom = true ∨ d = .regular then bounds? d (s ++ '$' :: more) else none) =
      (if atom = true ∨ d = .regular then bounds? d s else none).map
        fun x => (x.1, x.2 ++ '$' :: more) := by
    rw [bounds_dollar]
    split <;> rfl
  rw [hbounds]
  split at h
  · rename_i bounds rest' heq
    have hbrace : '\x7d' ∈ s := by
      split at heq
      · exact brace_mem_of_bounds heq
      · cases heq
    rw [heq]
    refine (congrArg some (ofBounds_dollar ..)).trans ?_
    rw [spacedBraces_dollar hbrace, Option.some.inj h]
  · cases h
  · rename_i heq
    rw [heq]
    cases h
    rfl

/-- Nor does what a bracket opens. -/
theorem firm_opening : Firm opening? := by
  intro s rest t more h
  unfold opening? at h
  split at h
  case h_7 hquestion =>
    cases h
    have hne : ∀ rest, s ++ '$' :: more = '?' :: rest → False := not_dollar (by decide) hquestion
    rw [opening?]
    all_goals exact fun rest => hne _
  all_goals cases h <;> rfl

/-- Nor does an escape. -/
theorem firm_escape : Firm (escape? d) := by
  intro s rest c more h
  unfold escape? at h
  split at h
  · cases h
  · split at h
    · rename_i htake hdrop
      obtain ⟨c, hc, h⟩ := Option.map_eq_some_iff.mp h
      cases h
      rw [List.cons_append, List.cons_append, escape?, takeWhile_dollar (by decide), htake,
        dropWhile_dollar (by decide), hdrop]
      show (ofDigits? d _).map _ = _
      rw [hc]
      rfl
    · cases h
  · rename_i hbrace
    split at h
    · rename_i ha hb
      obtain ⟨c, hc, h⟩ := Option.map_eq_some_iff.mp h
      cases h
      rw [List.cons_append, List.cons_append, List.cons_append, escape?, ha, hb]
      · show (ofCode? _).map _ = _
        rw [hc]
        rfl
      · exact hbrace
    · cases h
  · rw [Option.ite_none_right_eq_some] at h
    obtain ⟨hc, h⟩ := h
    cases h
    have hx : c ≠ 'x' := by
      rintro rfl
      exact absurd hc (by decide)
    rw [List.cons_append, escape?, if_pos hc]
    · exact fun _ h => absurd h hx
    · exact fun _ _ _ h => absurd h hx

theorem firm_classChar : Firm (classChar? d) := by
  intro s rest c more h
  unfold classChar? at h
  split at h
  · cases h
  · exact firm_escape more h
  · rename_i hbackslash
    rw [Option.ite_none_left_eq_some] at h
    obtain ⟨hbracket, h⟩ := h
    cases h
    rw [List.cons_append, classChar?, if_neg hbracket]
    exact hbackslash

/-- Nor does a sign between sets, for a dollar sign doubles nothing. -/
theorem isSetSign_dollar (s more : List Char) : isSetSign (s ++ '$' :: more) = isSetSign s := by
  rcases s with - | ⟨a, - | ⟨b, s⟩⟩
  · cases more with
    | nil => rfl
    | cons b more => exact Bool.and_false _
  · show (a == '$' && _) = false
    by_cases ha : a = '$'
    · rw [ha]
      rfl
    · rw [beq_false_of_ne ha, Bool.false_and]
  · rfl

theorem firm_classItem : Firm (classItem? d) := by
  intro s rest c more h
  unfold classItem? at h ⊢
  obtain ⟨hsign, h⟩ := Option.ite_none_left_eq_some.mp h
  rw [isSetSign_dollar, if_neg hsign]
  exact firm_classChar more h

/-- The rest of a class is closed before the dollar sign, with more fuel as without. -/
theorem classItems_dollar (k : Nat) {fuel : Nat} {done ranges : List (Char × Char)}
    (more : List Char) (h : classItems? d fuel done s = some (ranges, rest)) :
    classItems? d (k + fuel) done (s ++ '$' :: more) = some (ranges, rest ++ '$' :: more) := by
  have hclosing {s : List Char} (h : ∀ rest, s = ']' :: rest → False) :
      ∀ rest, s ++ '$' :: more = ']' :: rest → False := not_dollar (by decide) h
  fun_induction classItems? d fuel done s with
  | case1 | case3 | case5 | case6 | case8 => cases h
  | case2 fuel done rest =>
    cases h
    rfl
  | case4 fuel done s hs lo rest hlo =>
    cases h
    exact classItems_last (hclosing hs) (firm_classItem more hlo)
  | case7 fuel done s hs lo rest hbracket hhyphen hlo hi rest' hhi hle ih =>
    have hlo' : classItem? d (s ++ '$' :: more) = some (lo, '-' :: (rest ++ '$' :: more)) :=
      firm_classItem more hlo
    rw [Nat.add_succ, classItems_range (hclosing hs) hlo' (hclosing hbracket)
      (not_dollar (by decide) hhyphen), firm_classChar more hhi, Option.bind_some, if_pos hle]
    exact ih h
  | case9 fuel done s hs c rest _ _ hhyphen hc ih =>
    rw [Nat.add_succ, classItems_single (hclosing hs) (firm_classItem more hc)
      (not_dollar (by decide) hhyphen)]
    exact ih h

/-- The ranges of a class, after its opening bracket and the sign that negates it. -/
def ranges? (d : Dialect) (s : List Char) : Option (List (Char × Char) × List Char) :=
  if s.head? = some ']' then classItems? d (s.tail.length + 1) [(']', ']')] s.tail
  else
    classItems? d ((s.dropWhile (· = '-')).length + 1) ((s.takeWhile (· = '-')).map fun c => (c, c))
      (s.dropWhile (· = '-'))

/-- The text after the sign that negates a class, if it is there. -/
def afterCaret (s : List Char) : List Char := if s.head? = some '^' then s.tail else s

/-- A class is its ranges, after a sign that may negate them. -/
theorem class_eq (s : List Char) : class? d s =
    (ranges? d (afterCaret s)).map fun x => (⟨x.1, decide (s.head? = some '^')⟩, x.2) := by
  unfold class?
  split
  rename_i negated t hcaret
  obtain ⟨rfl, rfl⟩ : negated = decide (s.head? = some '^') ∧ t = afterCaret s := by
    unfold afterCaret
    split at hcaret
    · cases hcaret
      exact ⟨rfl, rfl⟩
    · rename_i hs
      cases hcaret
      have hne : s.head? ≠ some '^' := fun h =>
        (List.head?_eq_some_iff.mp h).elim fun rest h => hs rest h
      exact ⟨(decide_eq_false hne).symm, (if_neg hne).symm⟩
  generalize afterCaret s = t
  dsimp only
  rw [ranges?]
  split
  · rfl
  · rename_i ht
    rw [drop_takeWhile, if_neg]
    intro h
    obtain ⟨t, rfl⟩ := List.head?_eq_some_iff.mp h
    exact ht t rfl rfl

theorem firm_ranges : Firm (ranges? d) := by
  intro s rest ranges more h
  unfold ranges? at h ⊢
  have hlength (s : List Char) : (s ++ '$' :: more).length + 1 = more.length + 1 + (s.length + 1) := by
    rw [List.length_append, List.length_cons]
    omega
  cases s with
  | nil => cases h
  | cons c s =>
    rw [List.cons_append, List.head?_cons] at *
    split
    · rename_i hc
      rw [if_pos hc] at h
      rw [List.tail_cons, hlength]
      exact classItems_dollar _ more h
    · rename_i hc
      rw [if_neg hc] at h
      rw [← List.cons_append, takeWhile_dollar (by decide), dropWhile_dollar (by decide), hlength]
      exact classItems_dollar _ more h

/-- A class does not change. -/
theorem firm_class : Firm (class? d) := by
  intro s rest set more h
  have hhead : ((s ++ '$' :: more).head? = some '^') = (s.head? = some '^') := by
    cases s with
    | nil => simp
    | cons c s => rfl
  have hafter : afterCaret (s ++ '$' :: more) = afterCaret s ++ '$' :: more := by
    unfold afterCaret
    simp only [hhead]
    split
    · rename_i hs
      obtain ⟨s, rfl⟩ := List.head?_eq_some_iff.mp hs
      rfl
    · rfl
  rw [class_eq] at h
  rw [class_eq, hafter]
  simp only [hhead]
  exact (firm_ranges.map fun ranges => (⟨ranges, decide (s.head? = some '^')⟩ : CharSet)) more h

theorem firm_backslash : Firm (backslash? d) := by
  intro s rest t more h
  unfold backslash? at h ⊢
  rw [digits_dollar]
  split at h
  · rename_i heq
    rw [heq]
    cases h
    rfl
  · rename_i heq
    rw [heq]
    exact (firm_escape.map Token.char) more h

/-- **No token changes by what a dollar sign begins behind it.** -/
theorem firm_next {atom : Bool} : Firm (next? d atom) := by
  intro s rest t more h
  fun_cases next? d atom s
  case case1 => cases h
  case case2 rest => exact firm_opening more h
  case case3 | case4 | case5 | case6 =>
    cases h
    rfl
  case case7 | case8 | case9 => exact firm_ofBounds _ _ more h
  case case10 rest => exact firm_brace more h
  case case11 rest => exact (firm_class.map Token.chars) more h
  case case12 rest => exact firm_backslash more h
  case case13 => cases h
  case case14 =>
    rw [next?] at h
    · cases h
      rw [List.cons_append, next?]
      all_goals assumption
    all_goals assumption

/-- Whether something stands before it only matters for a brace. -/
theorem next_atom {atom atom' : Bool} (h : s.head? ≠ some '\x7b') :
    next? d atom s = next? d atom' s := by
  cases s with
  | nil => rfl
  | cons c s =>
    unfold next?
    split
    case h_10 heq =>
      rw [heq] at h
      exact absurd rfl h
    all_goals rfl

/-- Only a first brace makes a difference between tokens with and without something before them. -/
theorem upTo_atom {fuel : Nat} {atom atom' : Bool} (h : s.head? ≠ some '\x7b') :
    upTo? d fuel atom s = upTo? d fuel atom' s := by
  cases s with
  | nil => cases fuel <;> rfl
  | cons c s =>
    cases fuel with
    | zero => rfl
    | succ fuel =>
      unfold upTo?
      rw [next_atom h]

/-- The tokens of a text, and then those of an anchor and a closing bracket. -/
theorem upTo_anchored (k : Nat) {fuel : Nat} {atom : Bool} {ts : List Token}
    (h : upTo? d fuel atom s = some ts) :
    upTo? d (k + fuel + 2) atom (s ++ ['$', ')']) = some (ts ++ [.stop, .closing]) := by
  have hend (fuel : Nat) (atom : Bool) :
      upTo? d (fuel + 2) atom ['$', ')'] = some [.stop, .closing] := by
    have hnil : upTo? d fuel (endsAtom .closing) [] = some [] := by cases fuel <;> rfl
    have hstop : next? d atom ['$', ')'] = some (.stop, [')']) := rfl
    have hclosing : next? d (endsAtom .stop) [')'] = some (.closing, []) := rfl
    rw [upTo_succ hstop, upTo_succ hclosing, hnil]
    rfl
  induction fuel generalizing atom s ts with
  | zero =>
    cases s with
    | nil =>
      cases h
      exact hend k atom
    | cons => cases h
  | succ fuel ih =>
    cases s with
    | nil =>
      cases h
      exact hend (k + (fuel + 1)) atom
    | cons c s =>
      rw [upTo?] at h
      · split at h
        · cases h
        · rename_i t rest hnext
          obtain ⟨ts, hts, rfl⟩ := Option.map_eq_some_iff.mp h
          rw [← Nat.add_assoc, Nat.add_right_comm _ 1 2, upTo_succ (firm_next [')'] hnext), ih hts]
          rfl
      · intro h
        cases h

/-- **The tokens of an anchored text are those of the text, between anchors and brackets.** -/
theorem all_anchored {s : String} {ts : List Token} (hs : s.toList.head? ≠ some '\x7b')
    (h : all? d s.toList = some ts) :
    all? d (anchored s).toList = some (.opening .plain :: .start :: (ts ++ [.stop, .closing])) := by
  have htext : (anchored s).toList = '(' :: '?' :: ':' :: '^' :: (s.toList ++ ['$', ')']) := by
    rw [anchored, String.toList_append, String.toList_append]
    rfl
  have hfuel : (anchored s).toList.length = 2 + s.toList.length + 2 + 1 + 1 := by
    rw [htext]
    simp only [List.length_cons, List.length_append, List.length_nil]
    omega
  have hopening : next? d false ('(' :: '?' :: ':' :: '^' :: (s.toList ++ ['$', ')'])) =
      some (.opening .plain, '^' :: (s.toList ++ ['$', ')'])) := rfl
  have hstart : next? d (endsAtom (.opening .plain)) ('^' :: (s.toList ++ ['$', ')'])) =
      some (.start, s.toList ++ ['$', ')']) := rfl
  rw [all?, hfuel, htext, upTo_succ hopening, upTo_succ hstart]
  show Option.map _ (Option.map _ (upTo? d _ true _)) = _
  rw [upTo_anchored 2 ((upTo_atom hs).trans h)]
  rfl

end Token

end MailPattern
