import Mathlib
import MailPattern.Proofs.Engine.Parity
import MailPattern.Proofs.Engine.Reporting
import MailPattern.Proofs.Search.Backtracking

/-!
# Proofs — Engine — Iterating

What the iteration over the matches of a text reports, for any pattern that an engine takes
(`Engine.iteration_wellFormed`).  The program finds its matches in the text
(`Engine.findsWithin_of_compile`), so they stand in it one behind the other; there are at most as many
as there are positions, and then the iteration has come to its end for good.
-/

namespace MailPattern

open Pattern

/-! ### Steps -/

namespace Regex

variable {r : Regex} {chars : List Char} {find : Nat → Finding} {it : Iteration}

/-- One step and then the others. -/
theorem go_succ (calls : Nat) (it : Iteration) :
    nexts.go r chars find (calls + 1) it =
      let step := it.next find (!r.flags.global)
      let rest := nexts.go r chars find calls step.2
      ⟨step.1.span?.map (Match.ofSpan chars) :: rest.value,
        (if step.1 = .gaveUp then [.gaveUpSearch] else []) ++ rest.events⟩ := by
  rw [nexts.go]
  cases it.next find (!r.flags.global) with
  | mk finding it =>
    cases finding with
    | found s | missing | gaveUp => simp [bind, Logged.bind, pure, Logged.log]

/-- An iteration at its end reports nothing any more. -/
theorem go_done (h : it.done = true) (calls : Nat) :
    nexts.go r chars find calls it = ⟨List.replicate calls none, []⟩ := by
  induction calls with
  | zero => rfl
  | succ calls ih =>
    rw [go_succ, Iteration.next_done h]
    simp only [ih]
    rfl

/-- **The steps report the matches of a run, one after the other, and then nothing.** -/
theorem go_eq (calls : Nat) (it : Iteration) :
    let run := Iteration.take find (!r.flags.global) calls it
    nexts.go r chars find calls it =
      ⟨(run.1.map (Match.ofSpan chars)).map some ++ List.replicate (calls - run.1.length) none,
        if run.2 then [.gaveUpSearch] else []⟩ := by
  induction calls generalizing it with
  | zero => rfl
  | succ calls ih =>
    rw [go_succ, Iteration.take]
    have hdone : (∀ s, (it.next find (!r.flags.global)).1 ≠ .found s) →
        (it.next find (!r.flags.global)).2.done = true := Iteration.done_of_next
    cases hnext : it.next find (!r.flags.global) with
    | mk finding it' =>
      rw [hnext] at hdone
      cases finding with
      | found s => simp [ih, Finding.span?]
      | missing | gaveUp =>
        simp [go_done (hdone (by simp)), Finding.span?, List.replicate_succ]

/-- The first step reports the first match that is found. -/
theorem value_find (r : Regex) (text : String) (limit : Backtrack.Limit) :
    (r.find text limit).value =
      (r.program.find limit (r.subject text.toList) 0).span?.map (Match.ofSpan text.toList) := by
  unfold Regex.find nexts
  rw [Logged.value_bind, go_succ, Iteration.next_eq rfl, Iteration.seek_none]
  cases r.program.find limit (r.subject text.toList) 0 <;> rfl

theorem value_isMatch (r : Regex) (text : String) (limit : Backtrack.Limit) :
    (r.isMatch text limit).value = (r.find text limit).value.isSome := by
  rw [value_find, Option.isSome_map, isMatch]
  cases r.program.find limit (r.subject text.toList) 0 <;> rfl

theorem value_allMatches (r : Regex) (text : String) (limit : Backtrack.Limit) :
    (r.allMatches text limit).value =
      (Iteration.all (r.program.find limit (r.subject text.toList)) (!r.flags.global)
        text.toList.length).1.map (Match.ofSpan text.toList) := rfl

theorem head?_allMatches (r : Regex) (text : String) (limit : Backtrack.Limit) :
    (r.allMatches text limit).value.head? = (r.find text limit).value := by
  rw [value_allMatches, Iteration.all, List.head?_map, Iteration.head?_take, value_find]

/-- Without the global flag all there is to report is the first match. -/
theorem allMatches_single {r : Regex} (h : r.flags.global = false) (text : String)
    (limit : Backtrack.Limit) :
    (r.allMatches text limit).value = (r.find text limit).value.toList := by
  rw [value_allMatches, Iteration.all, value_find, h, Bool.not_false, Iteration.take_single]
  cases r.program.find limit (r.subject text.toList) 0 <;> rfl

/-! ### Iterations -/

/-- The iteration over the matches of a text, each search under the limit. -/
structure WellFormed (r : Regex) (text : String) (limit : Backtrack.Limit) : Prop where
  /-- Every match lies in the text, -/
  standsIn : ∀ m ∈ (r.allMatches text limit).value, m.StandsIn text
  /-- and behind the ones before. -/
  pairwise : (r.allMatches text limit).value.Pairwise Match.Precedes
  length_le : (r.allMatches text limit).value.length ≤ text.length + 1
  /-- The steps report the matches one after the other, and then nothing for ever. -/
  nexts (calls : Nat) : (r.nexts text calls limit).value =
    ((r.allMatches text limit).value.take calls).map some ++
      List.replicate (calls - (r.allMatches text limit).value.length) none
  isMatch : (r.isMatch text limit).value = (r.find text limit).value.isSome
  findAll : (r.findAll text limit).value = (r.allMatches text limit).value.map (·.text)

/-- **An iteration is well formed when the searches find their matches in the text.** -/
theorem wellFormed {text : String} {limit : Backtrack.Limit}
    (hf : FindsWithin text.toList.length (r.program.find limit (r.subject text.toList))) :
    r.WellFormed text limit where
  standsIn m hm := by
    rw [value_allMatches] at hm
    obtain ⟨s, hs, rfl⟩ := List.mem_map.mp hm
    exact Match.standsIn_ofSpan (Iteration.within_take hf _ _ s hs)
  pairwise := by
    rw [value_allMatches]
    refine List.pairwise_map.mpr ((Iteration.pairwise_take hf _ _).imp_of_mem fun _ ht h => ?_)
    exact Match.precedes_ofSpan (Iteration.within_take hf _ _ _ ht) h
  length_le := by
    rw [value_allMatches, List.length_map, ← String.length_toList]
    exact Iteration.length_take_le hf _ _
  nexts calls := by
    unfold Regex.nexts
    rw [go_eq, value_allMatches, Iteration.take_eq_all hf, List.map_take, List.length_take,
      List.length_map, show ∀ n, calls - min calls n = calls - n by omega]
  isMatch := r.value_isMatch text limit
  findAll := rfl

end Regex

namespace Engine

variable {engine : Engine} {s : String} {flags : Flags} {r : Regex}

/-- An engine makes of a pattern a sweep of its normal form, or a plan. -/
theorem ofPattern_cases {caseless : Bool} {p : Pattern} {program : Program}
    (h : Program.ofPattern? caseless p engine = some program) :
    (∃ n, p.normal? caseless = some n ∧ program = .sweep (n.unrolled false).sweep) ∨
      ∃ plan, program = .backtrack plan := by
  have sweeping (h : Program.sweeping? caseless p = some program) :
      ∃ n, p.normal? caseless = some n ∧ program = .sweep (n.unrolled false).sweep := by
    obtain ⟨n, hn, -, hprogram⟩ := Program.sweeping_eq_some.mp h
    exact ⟨n, hn, hprogram⟩
  cases engine with
  | safe => exact .inl (sweeping h)
  | fallback =>
    unfold Program.ofPattern? Program.planned? at h
    dsimp only at h
    split at h
    · obtain ⟨plan, -, hplan⟩ := Option.map_eq_some_iff.mp h
      exact .inr ⟨plan, hplan.symm⟩
    · split at h
      · exact .inl (sweeping h)
      · cases h

/-- **What an engine makes of a pattern finds its matches in the text.** -/
theorem findsWithin_of_compile (h : (engine.compile s flags).value = .ok r) (text : List Char)
    (limit : Backtrack.Limit) :
    FindsWithin text.length (r.program.find limit (r.subject text)) := by
  obtain ⟨p, program, hread, hprogram, rfl⟩ := exists_pattern_of_compile h
  obtain ⟨n, hn, rfl⟩ | ⟨plan, rfl⟩ := ofPattern_cases hprogram
  · have hsweeps : Regex.Sweeps ⟨engine, s, flags, .sweep (n.unrolled false).sweep⟩ p :=
      ⟨valid_of_read hread, n, hn, rfl⟩
    exact hsweeps.findsWithin text limit
  · have hlen := length_readings false text
    exact hlen ▸ Backtrack.findsWithin (readings false text) plan limit

end Engine

end MailPattern
