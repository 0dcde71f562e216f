import Mathlib
import MailPattern.Proofs.Engine.Iterating
import MailPattern.Proofs.Search.Limits

/-!
# Proofs — Engine — Giving up

What a regex reports when searches give up (`Regex.givingUp`).  The spans reported are the first ones
that are reported without a limit, and the first ones that are reported under a higher limit; what is
matched is matched without a limit; and a search that gives up is the last one.

This holds however the work of a search is counted (`Regex.Curbed`).  A count that only grows along a
search has passed the limit by the end of the search if it ever does, so all that matters of it is
what it comes to from each position.  The count of the ways taken back is one such count
(`Program.find_eq_capped`).
-/

namespace MailPattern

open Backtrack

/-- **A limit on the ways taken back cuts off the searches that cost more**, and does nothing else. -/
theorem Program.find_eq_capped (program : Program) (subject : Subject) :
    ∃ cost, ∀ limit, program.find limit subject = capped (program.find none subject) cost limit := by
  cases program with
  | sweep w => exact ⟨fun _ => 0, fun limit => by funext i; simp [capped, Program.find]⟩
  | backtrack p => exact Backtrack.find_eq_capped subject p

namespace Regex

/-- What the iteration over the matches of a text comes to when the searches `full` may give up and
are then `find`. -/
structure Curbed (r : Regex) (chars : List Char) (find full : Nat → Finding) : Prop where
  /-- What is matched is matched as well when nothing gives up. -/
  first (s : Span) (h : find 0 = .found s) : full 0 = .found s
  /-- The spans reported are the first ones, -/
  spans : (Iteration.all find (!r.flags.global) chars.length).1 <+:
    (Iteration.all full (!r.flags.global) chars.length).1
  /-- and all of them if no search gives up. -/
  whole (h : (Iteration.all find (!r.flags.global) chars.length).2 = false) :
    Iteration.all find (!r.flags.global) chars.length =
      Iteration.all full (!r.flags.global) chars.length
  /-- Once a search has given up, every later step reports nothing. -/
  ended (calls more : Nat) (h : .gaveUpSearch ∈ (nexts.go r chars find calls {}).events) :
    nexts.go r chars find (calls + more) {} =
      ⟨(nexts.go r chars find calls {}).value ++ List.replicate more none,
        (nexts.go r chars find calls {}).events⟩

variable {r : Regex} {chars : List Char} {find full : Nat → Finding}

/-- Steps after a search that has given up report nothing. -/
theorem go_add_of_gaveUp {calls : Nat} (more : Nat)
    (h : .gaveUpSearch ∈ (nexts.go r chars find calls {}).events) :
    nexts.go r chars find (calls + more) {} =
      ⟨(nexts.go r chars find calls {}).value ++ List.replicate more none,
        (nexts.go r chars find calls {}).events⟩ := by
  simp only [go_eq] at h ⊢
  have hgave : (Iteration.take find (!r.flags.global) calls {}).2 = true := by
    by_contra hno
    simp [hno] at h
  -- so the run has come to its end, and a longer one reports the same
  have hlt := Iteration.length_lt_of_gaveUp calls {} hgave
  rw [Iteration.take_of_length_lt (Nat.le_add_right calls more) hlt, List.append_assoc,
    List.replicate_append_replicate, show ∀ n < calls, calls - n + more = calls + more - n by omega]
  exact hlt

theorem curbed (h : Cuts find full) : r.Curbed chars find full where
  first s hs := by
    obtain h0 | h0 := h 0
    · rw [h0] at hs
      cases hs
    · rw [← h0, hs]
  spans := (Iteration.take_cuts h _ {}).1
  whole := (Iteration.take_cuts h _ {}).2
  ended _ more := go_add_of_gaveUp more

/-- **Giving up is sound**, for every pattern and every limit.  The searches under the limits are those
without a limit, capped by a count of their own; and capped by any count they leave an iteration
that reports the first of the matches only and ends where a search gives up. -/
theorem givingUp (r : Regex) (text : String) :
    (∃ count, ∀ limit, r.program.find limit (r.subject text.toList) =
      capped (r.program.find none (r.subject text.toList)) count limit) ∧
    (∀ (count : Nat → Nat) (limit more : Limit), limit.AtMost more →
      r.Curbed text.toList (capped (r.program.find none (r.subject text.toList)) count limit)
        (capped (r.program.find none (r.subject text.toList)) count more)) ∧
    ∀ limit more : Limit, limit.AtMost more →
      ((r.isMatch text limit).value = true → (r.isMatch text more).value = true) ∧
      (r.allMatches text limit).value <+: (r.allMatches text more).value ∧
      ∀ calls later, .gaveUpSearch ∈ (r.nexts text calls limit).events →
        r.nexts text (calls + later) limit =
          ⟨(r.nexts text calls limit).value ++ List.replicate later none,
            (r.nexts text calls limit).events⟩ := by
  obtain ⟨count, hcount⟩ := r.program.find_eq_capped (r.subject text.toList)
  refine ⟨⟨count, hcount⟩, fun count limit more h => curbed (cuts_capped h _ count), ?_⟩
  intro limit more h
  have hcurbed : r.Curbed text.toList (r.program.find limit (r.subject text.toList))
      (r.program.find more (r.subject text.toList)) := by
    rw [hcount limit, hcount more]
    exact curbed (cuts_capped h _ count)
  refine ⟨fun hmatch => ?_, hcurbed.spans.map _, hcurbed.ended⟩
  rw [value_isMatch, value_find] at hmatch ⊢
  cases hfind : r.program.find limit (r.subject text.toList) 0 with
  | found s => rw [hcurbed.first s hfind]; rfl
  | missing | gaveUp => simp [hfind, Finding.span?] at hmatch

/-- Under a limit of one way taken back the search for the second match gives up. -/
theorem givingUp_look : ∃ r, (Engine.fallback.compile "a(?!b)" { global := true }).value = .ok r ∧
    (r.allMatches "a ab a" (some 1)).value = [⟨0, 1, "a"⟩] ∧
    (r.allMatches "a ab a" (some 1)).value <+: (r.allMatches "a ab a" none).value ∧
    (r.allMatches "a ab a" none).value = [⟨0, 1, "a"⟩, ⟨5, 6, "a"⟩] ∧
    (r.nexts "a ab a" 2 (some 1)).events = [.gaveUpSearch] ∧
    ∀ later, (r.nexts "a ab a" (2 + later) (some 1)).value =
      (r.nexts "a ab a" 2 (some 1)).value ++ List.replicate later none := by
  obtain ⟨r, hr⟩ : ∃ r, (Engine.fallback.compile "a(?!b)" { global := true }).value = .ok r :=
    Engine.exists_compile (by cbv)
  have hlimited : (Engine.fallback.compile "a(?!b)" { global := true }).value.toOption.map
      (fun r => ((r.allMatches "a ab a" (some 1)).value, (r.nexts "a ab a" 2 (some 1)).events)) =
        some ([⟨0, 1, "a"⟩], [.gaveUpSearch]) := by cbv
  have hfree : (Engine.fallback.compile "a(?!b)" { global := true }).value.toOption.map
      (fun r => (r.allMatches "a ab a" none).value) = some [⟨0, 1, "a"⟩, ⟨5, 6, "a"⟩] := by cbv
  rw [hr] at hlimited hfree
  obtain ⟨hone, hgave⟩ := Prod.mk.inj (Option.some.inj hlimited)
  obtain ⟨-, hbegins, hended⟩ := (givingUp r "a ab a").2.2 (some 1) none trivial
  exact ⟨r, hr, hone, hbegins, Option.some.inj hfree, hgave, fun later =>
    congrArg Logged.value (hended 2 later (hgave ▸ List.mem_singleton_self _))⟩

end Regex

end MailPattern
