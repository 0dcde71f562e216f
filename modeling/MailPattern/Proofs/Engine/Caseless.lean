import Mathlib
import MailPattern.Proofs.Address.Matching
import MailPattern.Proofs.Engine.Iterating
import MailPattern.Proofs.Engine.Reporting
import MailPattern.Proofs.Pattern.Orbits

/-!
# Proofs — Engine — Caseless

A regex that ignores case reports the same spans, in characters, in texts that fold alike
(`Engine.caseless_invariant`), however many bytes their characters take.

The sets of its sweep are closed under folding (`Program.caseless_rows`), so they take a character by
itself exactly if they take it up to case.  So the sweep finds the same in a text read character by
character as in the text read up to case (`Sweep.find?_caseless`), and read up to case texts that
fold alike are the same.
-/

namespace MailPattern

open Pattern

theorem drop_readings (caseless : Bool) (text : List Char) (i : Nat) :
    (readings caseless text).drop i = readings caseless (text.drop i) := by
  rw [readings_eq, readings_eq, List.map_drop]

theorem readings_cons (caseless : Bool) (c : Char) (text : List Char) :
    readings caseless (c :: text) = CharSet.reading caseless c :: readings caseless text := by
  rw [readings_eq, readings_eq, List.map_cons]

/-! ### Sweeps -/

namespace Sweep

variable {w : Sweep} (hw : ∀ row ∈ w.rows, row.set.Caseless)
include hw

/-- The sets take a character by itself as they take it up to case. -/
theorem advance_caseless (c : Char) (here : Here) (ts : List Thread) :
    ∀ (seen : Nat) (f : Front),
      w.advance [c] here seen ts f = w.advance (Folding.variants c) here seen ts f := by
  induction ts with
  | nil =>
    intro seen f
    rw [advance, advance]
  | cons t ts ih =>
    intro seen f
    rw [advance, advance]
    simp only [ih]
    split
    · rfl
    · cases hrow : w.rows[t.point]? with
      | none => dsimp only
      | some row =>
        dsimp only
        rw [(hw row (Array.mem_of_getElem? hrow)).admits c]

theorem go_caseless (anywhere : Bool) (text : List Char) :
    ∀ (i : Nat) (front : Front) (best : Option Answer),
      w.go anywhere (readings false text) i front best =
        w.go anywhere (readings true text) i front best := by
  induction text with
  | nil =>
    intro i front best
    rw [readings_eq, readings_eq, List.map_nil, List.map_nil]
  | cons c text ih =>
    intro i front best
    have hempty : (readings false text).isEmpty = (readings true text).isEmpty := by
      rw [readings_eq, readings_eq, List.isEmpty_map, List.isEmpty_map]
    rw [readings_cons, readings_cons, CharSet.reading_true, CharSet.reading_false, go_cons, go_cons,
      hempty]
    simp only [advance_caseless hw, ih]

/-- **What is found in a text character by character is found up to case.** -/
theorem find?_caseless (text : List Char) (i : Nat) :
    w.find? (readings false text) i = w.find? (readings true text) i := by
  rw [find?, find?, go_caseless hw]

end Sweep

namespace Program

/-- The sets of the program for a pattern up to case. -/
theorem caseless_rows {p : Pattern} {n : Normal} (hv : p.Valid) (hn : p.normal? true = some n) :
    ∀ row ∈ (n.unrolled false).sweep.rows, row.set.Caseless :=
  Regular.over_rows CharSet.caseless_nil _ _ _ _
    (Normal.over_unrolled (caseless_normal hv hn) false) (by simp)

end Program

/-! ### Regexes -/

/-- The regex takes no account of case. -/
structure Regex.Caseless (r : Regex) : Prop where
  /-- What it finds up to case it finds character by character. -/
  find (text : List Char) (limit : Backtrack.Limit) :
    r.program.find limit (.ofReadings (readings false text)) = r.program.find limit (r.subject text)
  /-- In texts that fold alike it matches alike -/
  isMatch {text text' : String} (h : text.toList.map Folding.fold = text'.toList.map Folding.fold)
    (limit : Backtrack.Limit) : r.isMatch text limit = r.isMatch text' limit
  /-- and comes to the same spans, in characters, -/
  spans {text text' : String} (h : text.toList.map Folding.fold = text'.toList.map Folding.fold)
    (limit : Backtrack.Limit) : r.spans text.toList limit = r.spans text'.toList limit
  /-- step by step. -/
  nexts {text text' : String} (h : text.toList.map Folding.fold = text'.toList.map Folding.fold)
    (calls : Nat) (limit : Backtrack.Limit) : ∃ steps : List (Option Span),
      (r.nexts text calls limit).value = steps.map (Option.map (Match.ofSpan text.toList)) ∧
      (r.nexts text' calls limit).value = steps.map (Option.map (Match.ofSpan text'.toList))

/-- What a step reports of a span depends on the text, but not which span it is. -/
theorem Regex.value_go (r : Regex) (chars : List Char) (find : Nat → Finding) (calls : Nat) :
    (nexts.go r chars find calls {}).value =
      ((Iteration.take find (!r.flags.global) calls {}).1.map some ++
        List.replicate (calls - (Iteration.take find (!r.flags.global) calls {}).1.length) none).map
          (Option.map (Match.ofSpan chars)) := by
  rw [go_eq]
  simp

/-- **A regex takes no account of case when its sets do not.** -/
theorem Regex.caseless_of_sweep {r : Regex} {w : Sweep} (hr : r.program = .sweep w)
    (hcase : r.flags.caseless = true) (hw : ∀ row ∈ w.rows, row.set.Caseless) : r.Caseless := by
  have hsubject : ∀ text, r.subject text = .ofReadings (readings true text) := by
    intro text
    rw [subject, hr, hcase]
    rfl
  have same {text text' : String}
      (h : text.toList.map Folding.fold = text'.toList.map Folding.fold) :
      r.subject text.toList = r.subject text'.toList := by
    rw [hsubject, hsubject, readings_congr h]
  have length {text text' : String}
      (h : text.toList.map Folding.fold = text'.toList.map Folding.fold) :
      text.toList.length = text'.toList.length := by
    simpa using congrArg List.length h
  constructor
  · -- only here do the two readings of one text differ
    intro text limit
    funext i
    rw [hsubject, hr]
    show (Program.sweep w).search false limit text i = (Program.sweep w).search true limit text i
    rw [Program.search_sweep, Program.search_sweep, drop_readings, drop_readings,
      Sweep.find?_caseless hw]
  · intro text text' h limit
    rw [isMatch, isMatch, same h]
  · intro text text' h limit
    rw [spans, spans, same h, length h]
  · intro text text' h calls limit
    exact ⟨_, value_go .., by rw [Regex.nexts, ← same h]; exact value_go ..⟩

/-- The safe engine takes every pattern of its dialect that is light. -/
theorem Engine.exists_safe_compile {s : String} {p : Pattern} (flags : Flags)
    (hread : read? .regular s = some p) (hp : p.isPlain = true) (hfits : p.Fits)
    (h : p.heft + 32 ≤ Normal.maxWeight) : ∃ r, (Engine.safe.compile s flags).value = .ok r := by
  obtain ⟨r, hr, -⟩ :=
    @Engine.compile_of_heft .safe _ _ flags hread hp hfits (depth_of_read hread) h
  exact ⟨r, hr⟩

/-- **Searching up to case is invariant under folding of the text**, for every pattern that neither
looks around nor recalls, and so for all options. -/
theorem Engine.caseless_invariant :
    (∀ (engine : Engine) (s : String) (flags : Flags) (p : Pattern) (r : Regex),
      read? engine.dialect s = some p → p.isPlain = true → flags.caseless = true →
      (engine.compile s flags).value = .ok r → r.Caseless) ∧
    ∀ (o : Options) (s : Selector), o.Compiled s Regex.Caseless := by
  constructor
  · intro engine s flags p r hread hp hcase h
    obtain ⟨n, hn, rfl⟩ := exists_of_compile hread hp h
    rw [hcase] at hn
    exact Regex.caseless_of_sweep rfl hcase (Program.caseless_rows (valid_of_read hread) hn)
  · intro o s
    refine o.compiled_of_regex fun engine => ?_
    exact Regex.caseless_of_sweep rfl o.caseless_compileArgs
      (Program.caseless_rows o.valid_searched o.normal_searched)

/-- A negated class and a letter, and texts that fold alike with characters of one, two and three
bytes. -/
theorem Engine.caseless_class : ∃ (p : Pattern) (r : Regex), read? .regular "[^k]s" = some p ∧
    (Engine.safe.compile "[^k]s" { caseless := true }).value = .ok r ∧ r.Caseless ∧
    (r.spans "aſ".toList).1 = (r.spans "AS".toList).1 ∧
    (r.isMatch "\u212aS").value = (r.isMatch "ks").value := by
  have hp : read? .regular "[^k]s" = some (.cat (.chars ⟨[('k', 'k')], true⟩) (.char 's')) := by
    decide +kernel
  obtain ⟨r, hr⟩ := exists_safe_compile { caseless := true } hp rfl (by decide) (by decide +kernel)
  have hcaseless := caseless_invariant.1 .safe _ _ _ r hp rfl rfl hr
  exact ⟨_, r, hp, hr, hcaseless,
    congrArg Prod.fst (hcaseless.spans (by decide +kernel) backtrackLimit),
    congrArg Logged.value (hcaseless.isMatch (by decide +kernel) backtrackLimit)⟩

end MailPattern
