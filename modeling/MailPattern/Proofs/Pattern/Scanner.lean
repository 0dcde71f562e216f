import MailPattern.Proofs.Pattern.Greedy

/-!
# Proofs — Pattern — Scanner

Scanners, which take characters from the front of a text and never go back: a run of characters is
taken as far as it goes, and the first of several scanners that applies is the one that counts.

A pattern takes what a scanner takes (`Pattern.Takes`) if its preferred match ends there, at every
position of every text.  A pattern without choice does so piece by piece; one that is greedy does if
the scanner takes the longest prefix after which something can follow
(`Pattern.Greedy.takes_longest`).
-/

namespace MailPattern

/-- How many characters are taken from the front of a text, if any can be. -/
abbrev Scanner := List Char → Option Nat

namespace Scanner

/-- Nothing more is taken. -/
def done : Scanner := fun _ => some 0

/-- One character that passes the test, and then the rest. -/
def after (test : Char → Bool) (rest : Scanner) : Scanner
  | [] => none
  | c :: text => if test c then (rest text).map (1 + ·) else none

/-- The rest after the first `n` characters. -/
def skip (n : Nat) (rest : Scanner) : Scanner := fun text => (rest (text.drop n)).map (n + ·)

/-- All characters that pass the test up to one that does not, so many at least, and then the rest. -/
def run (least : Nat) (test : Char → Bool) (rest : Scanner) : Scanner := fun text =>
  let n := (text.takeWhile test).length
  if least ≤ n then rest.skip n text else none

/-- A given word up to case. -/
def word (w : List Char) : Scanner := fun text =>
  if (text.take w.length).map Folding.fold = w.map Folding.fold then some w.length else none

/-- The longest prefix that passes the test and that the rest can follow. -/
def longest (test : List Char → Bool) (rest : Scanner) : Scanner := fun text =>
  (Pattern.longest (fun n => test (text.take n) && (rest (text.drop n)).isSome) text.length).bind
    fun n => rest.skip n text

/-- The first scanner that applies. -/
def first (scanners : List Scanner) : Scanner := fun text => scanners.findSome? (· text)

variable {test : Char → Bool} {rest : Scanner} {text : List Char}

theorem length_takeWhile_le : (text.takeWhile test).length ≤ text.length :=
  List.IsPrefix.length_le <| List.takeWhile_prefix test

/-- All characters of a prefix pass the test if the run goes as far. -/
theorem all_take {n : Nat} (hn : n ≤ text.length) :
    (text.take n).all test = true ↔ n ≤ (text.takeWhile test).length := by
  induction text generalizing n with
  | nil =>
    obtain rfl := Nat.le_zero.mp hn
    simp
  | cons c text ih =>
    cases n with
    | zero => simp
    | succ n =>
      rw [List.take_succ_cons, List.all_cons, Bool.and_eq_true, ih (Nat.le_of_succ_le_succ hn),
        List.takeWhile_cons]
      cases test c <;> simp

/-- The rest can follow a run only at its end. -/
def EndsRun (test : Char → Bool) (rest : Scanner) : Prop :=
  ∀ c text, test c = true → rest (c :: text) = none

theorem EndsRun.after {test' : Char → Bool} (h : ∀ c, test c = true → test' c = false) :
    EndsRun test (rest.after test') := fun c text hc => if_neg (by simp [h c hc])

theorem EndsRun.eq_none (h : rest.EndsRun test) {n : Nat} (hn : n < (text.takeWhile test).length) :
    rest (text.drop n) = none := by
  have hlt := hn.trans_le length_takeWhile_le
  rw [List.drop_eq_getElem_cons hlt]
  refine h _ _ ?_
  have := (all_take (n := n + 1) hlt).mpr hn
  exact List.all_eq_true.mp this _ (List.mem_take_iff_getElem.mpr ⟨n, by omega, rfl⟩)

/-- The longest run that the rest can follow is the whole run, if the rest can follow it nowhere else
or anywhere. -/
theorem longest_run {least : Nat} (h : rest.EndsRun test ∨ ∀ text, (rest text).isSome = true) :
    longest (fun w => least ≤ w.length && w.all test) rest = run least test rest := by
  funext text
  have htest : ∀ k, k ≤ text.length →
      ((least ≤ (text.take k).length && (text.take k).all test) = true ↔
        least ≤ k ∧ k ≤ (text.takeWhile test).length) := by
    intro k hk
    rw [Bool.and_eq_true, decide_eq_true_iff, all_take hk, List.length_take_of_le hk]
  have hle : (text.takeWhile test).length ≤ text.length := length_takeWhile_le
  rw [longest, run]
  by_cases hleast : least ≤ (text.takeWhile test).length
  · rw [if_pos hleast]
    cases hrest : rest (text.drop (text.takeWhile test).length) with
    | some n =>
      rw [Pattern.longest_eq_some hle (by rw [(htest _ hle).mpr ⟨hleast, le_rfl⟩, hrest]; rfl)
        fun k hk hk' => ((htest k hk).mp (Bool.and_eq_true_iff.mp hk').1).2]
      rfl
    | none =>
      have hends := h.resolve_right fun h => Option.isSome_iff_ne_none.mp (h _) hrest
      rw [Pattern.longest_eq_none fun k hk => ?_, skip, hrest]
      · rfl
      · rw [← Bool.not_eq_true, Bool.and_eq_true, htest k hk]
        rintro ⟨⟨-, hkn⟩, hsome⟩
        rcases Nat.eq_or_lt_of_le hkn with rfl | hlt
        · rw [hrest] at hsome
          cases hsome
        · rw [hends.eq_none hlt] at hsome
          cases hsome
  · rw [if_neg hleast, Pattern.longest_eq_none fun k hk => ?_]
    · rfl
    · rw [← Bool.not_eq_true, Bool.and_eq_true, htest k hk]
      rintro ⟨⟨hk, hkn⟩, -⟩
      exact hleast (hk.trans hkn)

theorem word_cons (c : Char) (w : List Char) :
    (word w).after (CharSet.single c).has = word (c :: w) := by
  funext text
  cases text with
  | nil => rfl
  | cons a text =>
    have hhas : (CharSet.single c).has a = true ↔ Folding.fold a = Folding.fold c :=
      CharSet.has_single_iff
    rw [after, word, word, List.length_cons, List.take_succ_cons, List.map_cons, List.map_cons]
    by_cases hac : Folding.fold a = Folding.fold c
    · rw [if_pos (hhas.mpr hac), hac]
      split <;> simp_all [Nat.add_comm]
    · rw [if_neg fun h => hac (hhas.mp h), if_neg fun h => hac (List.cons.inj h).1]

theorem after_single {c : Char} (hc : Uncased c) :
    rest.after (CharSet.single c).has = rest.after (· == c) := by
  have hhas : (CharSet.single c).has = (· == c) := by
    funext a
    rw [Bool.eq_iff_iff, CharSet.has_single_iff, hc.fold_eq_iff, beq_iff_eq]
  rw [hhas]

end Scanner

namespace Pattern

variable {p q : Pattern} {ps : List Pattern} {scan rest : Scanner}

/-- The preferred match ends where the scanner stops. -/
def Takes (p : Pattern) (scan : Scanner) : Prop :=
  ∀ (text : List Char) (i : Nat), i ≤ text.length →
    (p.ends (readings true text) i).head? = (scan (text.drop i)).map (i + ·)

/-- One part after the other: of the ends of the first, the first that the second can follow. -/
theorem head?_ends_cat (s : List Reading) (i : Nat) :
    ((cat p q).ends s i).head? = (p.ends s i).findSome? fun m => (q.ends s m).head? :=
  List.head?_flatMap

theorem takes_cons (h : (cat p (ofItems ps)).Takes scan) : (ofItems (p :: ps)).Takes scan := by
  intro text i hi
  rw [ends_ofItems_cons]
  exact h text i hi

theorem takes_empty : empty.Takes .done := fun _ _ _ => rfl

theorem Takes.chars (h : q.Takes rest) (set : CharSet) :
    (cat (.chars set) q).Takes (rest.after set.has) := by
  intro text i hi
  have hend : (Pattern.chars set).ends (readings true text) i =
      if text[i]?.any set.has then [i + 1] else [] := by
    rw [readings_true, ends, Ends.one, List.getElem?_map, Option.any_map]
    rfl
  rw [head?_ends_cat, hend]
  rcases Nat.eq_or_lt_of_le hi with rfl | hlt
  · simp [Scanner.after]
  · rw [List.getElem?_eq_getElem hlt, List.drop_eq_getElem_cons hlt, Scanner.after, Option.any_some]
    cases set.has text[i] with
    | false => rfl
    | true =>
      rw [if_pos rfl, if_pos rfl, List.findSome?_singleton, h text _ hlt, Option.map_map]
      exact congrArg (Option.map · _) (funext fun n => Nat.add_assoc i 1 n)

theorem takes_literal (w : List Char) : (ofItems (w.map char)).Takes (.word w) := by
  induction w with
  | nil => exact takes_empty
  | cons c w ih =>
    rw [← Scanner.word_cons]
    exact takes_cons (ih.chars (.single c))

/-- Of several branches the first that applies is taken. -/
theorem takes_ofBranches {bs : List Pattern} {scans : List Scanner} (hne : bs ≠ [])
    (h : List.Forall₂ Takes bs scans) : (ofBranches bs).Takes (.first scans) := by
  intro text i hi
  rw [ends_ofBranches hne, List.head?_flatMap, Scanner.first]
  clear hne
  induction h with
  | nil => rfl
  | cons hb _ ih =>
    rename_i scan _ _ _
    rw [List.findSome?_cons, List.findSome?_cons, hb text i hi, ih]
    cases scan (text.drop i) <;> rfl

/-- **A greedy pattern takes the longest prefix that it spells and that the rest can follow.** -/
theorem Greedy.takes_longest (h : p.Greedy) (hp : p.Textual) {test : List Char → Bool}
    (htest : ∀ w, p.Spelled w ↔ test w = true) (hq : q.Takes rest) :
    (cat p q).Takes (.longest test rest) := by
  intro text i hi
  have hrest : ∀ n, n ≤ text.length - i →
      (q.ends (readings true text) (i + n)).head? =
        (rest ((text.drop i).drop n)).map (i + n + ·) := by
    intro n hn
    rw [List.drop_drop]
    exact hq text (i + n) (by omega)
  have hlongest : longest (fun n => test ((text.drop i).take n) &&
        ((q.ends (readings true text) (i + n)).head?).isSome) (text.length - i) =
      longest (fun n => test ((text.drop i).take n) && (rest ((text.drop i).drop n)).isSome)
        (text.length - i) :=
    longest_congr fun n hn => by rw [hrest n hn, Option.isSome_map]
  rw [head?_ends_cat, h.findSome?_ends hp htest hi, hlongest, Scanner.longest, List.length_drop]
  cases hn : longest (fun n => test ((text.drop i).take n) &&
      (rest ((text.drop i).drop n)).isSome) (text.length - i) with
  | none => rfl
  | some n =>
    rw [Option.bind_some, Option.bind_some, hrest n (longest_eq_some_iff.mp hn).1, Scanner.skip,
      Option.map_map]
    exact congrArg (Option.map · _) (funext fun k => Nat.add_assoc i n k)

/-- A greedy pattern takes the longest prefix that it spells. -/
theorem Greedy.takes (h : p.Greedy) (hp : p.Textual) {test : List Char → Bool}
    (htest : ∀ w, p.Spelled w ↔ test w = true) : p.Takes (.longest test .done) := by
  have hcat := h.takes_longest hp htest takes_empty
  intro text i hi
  rw [← hcat text i hi]
  exact congrArg List.head? (congrFun (Ends.andThen_stay _).symm i)

/-- A run of characters is taken as far as it goes, if the rest can follow it nowhere else or
anywhere. -/
theorem Takes.run (h : q.Takes rest) (set : CharSet) {least : Nat} (hl : least ≤ Count.limit)
    (hrest : rest.EndsRun set.has ∨ ∀ text, (rest text).isSome = true) :
    (cat (repeated ⟨least, none, true⟩ (.chars set)) q).Takes (.run least set.has rest) := by
  rw [← Scanner.longest_run hrest]
  have ht : (repeated ⟨least, none, true⟩ (.chars set)).Textual :=
    ⟨rfl, List.forall_mem_singleton.mpr (by simp [Count.fits, hl])⟩
  refine (greedy_repeated_chars set rfl).takes_longest ht (fun w => ?_) h
  simp [spelled_repeated_chars, Count.Allows]

end Pattern

end MailPattern
