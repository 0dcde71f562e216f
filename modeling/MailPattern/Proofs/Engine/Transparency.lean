import MailPattern.Engine.Selector
import MailPattern.Proofs.Engine.Parity

/-!
# Proofs — Engine — Transparency

Whether it shows which engine a selector chooses (`Selector.transparent`).  A selector compiles to what
the safe engine makes of the pattern or to what the fallback engine makes of it
(`Selector.compile_cases`), so it does not show where these agree or the safe engine refuses the
pattern.

They agree on what both dialects read alike (`Selector.compile_of_transferable`).  `^*` the safe engine
takes and the fallback engine refuses.
-/

namespace MailPattern

open Pattern

namespace Engine

variable {engine : Engine} {s : String} {flags : Flags} {r : Regex}

/-- A regex tells which engine made it, of which pattern and with which flags. -/
theorem compile_ok (h : (engine.compile s flags).value = .ok r) :
    r.engine = engine ∧ r.pattern = s ∧ r.flags = flags := by
  obtain ⟨p, program, -, -, rfl⟩ := exists_pattern_of_compile h
  exact ⟨rfl, rfl, rfl⟩

/-- All that can go wrong is that the engine refuses the pattern. -/
theorem compile_error {e : BuildError} (h : (engine.compile s flags).value = .error e) :
    e = .rejected engine := by
  unfold Engine.compile at h
  split at h
  · cases h
    rfl
  · cases h

end Engine

/-- The results of two compilations cannot be told apart but by the names of engines in regexes. -/
def Regex.SameResult : Except BuildError Regex → Except BuildError Regex → Prop
  | .ok r, .ok r' => r.Agrees r'
  | .error e, .error e' => e = e'
  | _, _ => False

/-- Two results are the same if a third is the same as both. -/
theorem Regex.SameResult.common {x y z : Except BuildError Regex} (h : Regex.SameResult x z)
    (h' : Regex.SameResult y z) : Regex.SameResult x y := by
  cases z with
  | ok r =>
    cases x with
    | error => exact h.elim
    | ok =>
      cases y with
      | error => exact h'.elim
      | ok => exact Regex.Agrees.trans h (Regex.Agrees.symm h')
  | error e =>
    cases x with
    | ok => exact h.elim
    | error =>
      cases y with
      | ok => exact h'.elim
      | error => exact Eq.trans h (Eq.symm h')

/-- The text is of a pattern that both dialects read alike, or not of a regular one. -/
def Pattern.Transferable (s : String) : Prop :=
  ∀ p, read? .regular s = some p →
    Token.tight s.toList ∧ Token.shortNumbers s.toList ∧ p.Portable

namespace Selector

variable {pattern : String} {flags : Flags}

/-- What is compiled is what the safe engine makes of the pattern, or what the fallback engine
does. -/
theorem compile_cases (s : Selector) (pattern : String) (flags : Flags) (useSafe : Bool) :
    (∃ r, (Engine.safe.compile pattern flags).value = .ok r ∧
      (s.compile pattern flags useSafe).value.1 = .ok r) ∨
    (s.compile pattern flags useSafe).value.1 = (Engine.fallback.compile pattern flags).value := by
  simp only [Selector.compile, Logged.value_bind]
  cases (s.select useSafe).value.1 with
  | safe =>
    cases hr : (Engine.safe.compile pattern flags).value with
    | ok r => exact .inl ⟨r, rfl, rfl⟩
    | error e => exact .inr rfl
  | fallback =>
    right
    cases hr : (Engine.fallback.compile pattern flags).value <;> rfl

/-- Whatever the safe engine takes, the fallback engine takes, and both make the same of it. -/
theorem compile_of_transferable (h : Pattern.Transferable pattern) {r : Regex}
    (hr : (Engine.safe.compile pattern flags).value = .ok r) :
    (Engine.fallback.compile pattern flags).value = .ok { r with engine := .fallback } := by
  obtain ⟨p, program, hread, -, -⟩ := Engine.exists_pattern_of_compile hr
  have hp := h p hread
  rw [Engine.fallback_compile hread (countedOnce_of_repeats hp.2.2.repeats) hp.1 hr, if_pos hp.2]

/-- What is compiled is then what the fallback engine makes of the pattern. -/
theorem sameResult_fallback (h : Pattern.Transferable pattern ∨
      ∀ r, (Engine.safe.compile pattern flags).value ≠ .ok r) (s : Selector) (useSafe : Bool) :
    Regex.SameResult (s.compile pattern flags useSafe).value.1
      (Engine.fallback.compile pattern flags).value := by
  rcases s.compile_cases pattern flags useSafe with ⟨r, hr, heq⟩ | heq
  · -- the safe engine has made it, and only of a transferable pattern could it
    rcases h with h | h
    · rw [heq, compile_of_transferable h hr]
      exact (r.agrees_engine .fallback).symm
    · exact absurd hr (h r)
  · rw [heq]
    cases (Engine.fallback.compile pattern flags).value with
    | ok r => exact .refl r
    | error e => rfl

end Selector

end MailPattern
