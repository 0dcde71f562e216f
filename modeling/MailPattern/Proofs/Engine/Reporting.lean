import MailPattern.Proofs.Engine.Bytes
import MailPattern.Proofs.Engine.Planned
import MailPattern.Proofs.Engine.Sweeping
import MailPattern.Proofs.Pattern.Weight

/-!
# Proofs — Engine — Reporting

What a regex reports that sweeps for a pattern (`Regex.Sweeps`), told by the ends of the pattern.  It
matches a text if the pattern does somewhere in it (`Regex.Sweeps.isMatch_iff`), and what it
reports are matches (`Regex.Sweeps.sound`), each the one that the pattern prefers where it starts
(`Regex.Sweeps.preferred`).

Both engines sweep for a pattern that neither looks around nor recalls, unless it nests too deep or is
too heavy (`Engine.compile_of_heft`).
-/

namespace MailPattern

open Pattern

/-- The regex sweeps for the pattern. -/
structure Regex.Sweeps (r : Regex) (p : Pattern) : Prop where
  valid : p.Valid
  program : ∃ n, p.normal? r.flags.caseless = some n ∧ r.program = .sweep (n.unrolled false).sweep

/-- A pattern that neither looks around nor recalls compiles to a sweep for its normal form, if that is
not too heavy and the fallback engine does not take it to nest too deep. -/
theorem Engine.compile_of_weight {engine : Engine} {s : String} {flags : Flags} {p : Pattern}
    {n : Normal} (hread : read? engine.dialect s = some p) (hp : p.isPlain = true)
    (hdepth : engine = .fallback → p.part.depth ≤ maxDepth)
    (hn : p.normal? flags.caseless = some n) (hweight : n.weight ≤ Normal.maxWeight) :
    (engine.compile s flags).value = .ok ⟨engine, s, flags, .sweep (n.unrolled false).sweep⟩ := by
  have hsweeping := Program.sweeping_eq_some.mpr ⟨n, hn, hweight, rfl⟩
  have hprogram : Program.ofPattern? flags.caseless p engine =
      some (.sweep (n.unrolled false).sweep) := by
    cases engine with
    | safe => exact hsweeping
    | fallback => rw [Program.ofPattern?, Program.planned_of_plain hp, if_pos (hdepth rfl), hsweeping]
  rw [Engine.compile, hread, Option.bind_some, hprogram]

/-- **Every engine takes a light pattern**, and sweeps for it. -/
theorem Engine.compile_of_heft {engine : Engine} {s : String} {p : Pattern} (flags : Flags)
    (hread : read? engine.dialect s = some p) (hp : p.isPlain = true) (hfits : p.Fits)
    (hdepth : p.depth ≤ maxDepth) (hheft : p.heft + 32 ≤ Normal.maxWeight) :
    ∃ r, (engine.compile s flags).value = .ok r ∧ r.flags = flags ∧ r.Sweeps p := by
  obtain ⟨n, hn⟩ := Option.isSome_iff_exists.mp ((@isSome_normal flags.caseless p).mpr ⟨hp, hfits⟩)
  refine ⟨_, compile_of_weight hread hp ?_ hn ((weight_le_heft hn).trans hheft), rfl,
    valid_of_read hread, n, hn, rfl⟩
  rintro rfl
  exact (depth_part_le (bracketed_of_read hread)).trans hdepth

/-- Every span reported is found by a search. -/
theorem Regex.found_of_mem_spans {r : Regex} {text : List Char} {span : Span}
    (h : span ∈ (r.spans text).1) :
    ∃ i, (r.program.find backtrackLimit (r.subject text) i).span? = some span := by
  obtain ⟨i, hi⟩ := Iteration.found_of_mem_take _ _ span h
  exact ⟨i, congrArg Finding.span? hi⟩

namespace Regex.Sweeps

variable {r : Regex} {p : Pattern} (h : r.Sweeps p) {text : List Char} {span : Span}
include h

/-- The search of the regex is one of a program for the pattern. -/
theorem exists_search (text : List Char) (limit : Backtrack.Limit) :
    ∃ n, p.normal? r.flags.caseless = some n ∧ r.program.find limit (r.subject text) =
      (Program.sweep (n.unrolled false).sweep).search r.flags.caseless limit text := by
  obtain ⟨n, hn, hprogram⟩ := h.program
  refine ⟨n, hn, ?_⟩
  rw [Regex.subject, hprogram]
  rfl

theorem finds (text : List Char) (limit : Backtrack.Limit) :
    Finds (p.ends (readings r.flags.caseless text)) text.length fun i =>
      (r.program.find limit (r.subject text) i).span? := by
  obtain ⟨n, hn, hsearch⟩ := h.exists_search text limit
  rw [hsearch]
  exact Program.finds h.valid hn text limit

/-- A regex that sweeps never gives up. -/
theorem ne_gaveUp (text : List Char) (limit : Backtrack.Limit) (i : Nat) :
    r.program.find limit (r.subject text) i ≠ .gaveUp := by
  obtain ⟨n, -, hsearch⟩ := h.exists_search text limit
  rw [hsearch]
  exact Program.search_ne_gaveUp _ i

theorem findsWithin (text : List Char) (limit : Backtrack.Limit) :
    FindsWithin text.length (r.program.find limit (r.subject text)) := by
  intro i span hspan
  have hlen := length_readings r.flags.caseless text
  obtain ⟨hi, hle, hstop, -⟩ :=
    (h.finds text limit).found (i := i) (s := span) (congrArg Finding.span? hspan)
  obtain ⟨hstart, hstop⟩ := forward_ends _ p _ (hle.trans_eq hlen.symm) _ hstop
  exact ⟨hi, hstart, hstop.trans_eq hlen⟩

/-- A text is matched if the pattern matches somewhere in it. -/
theorem isMatch_iff (text : String) (limit : Backtrack.Limit) :
    (r.isMatch text limit).value = true ↔
      ∃ i ≤ text.toList.length, p.ends (readings r.flags.caseless text.toList) i ≠ [] := by
  have hnone := (h.finds text.toList limit).none_iff (i := 0)
  have hiff : (∃ i ≤ text.toList.length, p.ends (readings r.flags.caseless text.toList) i ≠ []) ↔
      (r.program.find limit (r.subject text.toList) 0).span? ≠ none := by
    rw [Ne, hnone]
    simp only [not_forall, exists_prop]
    exact exists_congr fun i => by simp
  rw [hiff, Regex.isMatch]
  cases hfind : r.program.find limit (r.subject text.toList) 0 with
  | found s => simp [Finding.span?]
  | missing => simp [Finding.span?]
  | gaveUp => exact absurd hfind (h.ne_gaveUp _ limit 0)

/-- **What is reported are matches,** -/
theorem sound (hspan : span ∈ (r.spans text).1) : span.start ≤ text.length ∧
    span.stop ∈ p.ends (readings r.flags.caseless text) span.start := by
  obtain ⟨i, hi⟩ := found_of_mem_spans hspan
  obtain ⟨-, hle, hstop, -⟩ := (h.finds text backtrackLimit).found hi
  exact ⟨hle, hstop⟩

/-- A search finds the match that the pattern prefers where it starts. -/
theorem prefers (hp : p.Productive) (hs : p.Steady r.flags.caseless) {i : Nat}
    (hi : (r.program.find backtrackLimit (r.subject text) i).span? = some span) :
    (p.ends (readings r.flags.caseless text) span.start).head? = some span.stop := by
  obtain ⟨n, hn, hsearch⟩ := h.exists_search text backtrackLimit
  rw [hsearch] at hi
  exact Program.prefers h.valid hn hp hs hi

/-- **each the one that the pattern prefers where it starts.** -/
theorem preferred (hp : p.Productive) (hs : p.Steady r.flags.caseless)
    (hspan : span ∈ (r.spans text).1) :
    (p.ends (readings r.flags.caseless text) span.start).head? = some span.stop := by
  obtain ⟨i, hi⟩ := found_of_mem_spans hspan
  exact h.prefers hp hs hi

/-- A regex that matches reports something. -/
theorem spans_ne_nil {i : Nat} (hi : i ≤ text.length)
    (hne : p.ends (readings r.flags.caseless text) i ≠ []) : (r.spans text).1 ≠ [] := by
  intro hnil
  have hhead : (r.spans text).1.head? = _ := Iteration.head?_take
  rw [hnil, List.head?_nil] at hhead
  exact hne ((h.finds text backtrackLimit).none_iff.mp hhead.symm i (Nat.zero_le _) hi)

/-- The spans of an iteration lie one behind the other. -/
theorem pairwise_spans (text : List Char) : (r.spans text).1.Pairwise Span.Precedes :=
  Iteration.pairwise_take (h.findsWithin text backtrackLimit) _ _

/-- If every match takes a character, a global regex reports them one after the other. -/
theorem successive (hglobal : r.flags.global = true)
    (htakes : ∀ s i, i ≤ s.length → i ∉ p.ends s i) (text : List Char) :
    Successive (fun i => (r.program.find backtrackLimit (r.subject text) i).span?) 0
      (r.spans text).1 := by
  have hlen := length_readings r.flags.caseless text
  have hall := @Iteration.successive_all (r.program.find backtrackLimit (r.subject text))
    (p.ends (readings r.flags.caseless text)) (readings r.flags.caseless text)
    (h.ne_gaveUp text backtrackLimit) (hlen ▸ h.finds text backtrackLimit) (p.forward_ends _)
    fun i hi => htakes _ i hi
  rw [hlen] at hall
  rw [Regex.spans, hglobal]
  exact hall.1

end Regex.Sweeps

end MailPattern
