import MailPattern.Engine.Regex
import MailPattern.Proofs.Pattern.Language
import MailPattern.Proofs.Search.Leftmost
import MailPattern.Proofs.Search.Successive

/-!
# Proofs — Engine — Sweeping

A program that sweeps for a pattern finds its leftmost matches (`Program.finds`) and never gives up.
Of the matches that start where the one found does, it is the preferred one of the normal form if
the pattern is productive (`Program.prefers_normal`), and that of the pattern itself if it is
also steady (`Program.prefers`).
-/

namespace MailPattern

/-- What is swept for: the smallest form of the normal form of the pattern, if it is not too heavy. -/
theorem Program.sweeping_eq_some {caseless : Bool} {p : Pattern} {program : Program} :
    sweeping? caseless p = some program ↔
      ∃ n, p.normal? caseless = some n ∧ n.weight ≤ Normal.maxWeight ∧
        program = .sweep (n.unrolled false).sweep := by
  simp only [sweeping?, Option.map_eq_some_iff, Option.bind_eq_some_iff, Normal.regular?,
    Option.ite_none_right_eq_some, Option.some.injEq]
  constructor
  · rintro ⟨r, ⟨n, hn, hw, rfl⟩, rfl⟩
    exact ⟨n, hn, hw, rfl⟩
  · rintro ⟨n, hn, hw, rfl⟩
    exact ⟨_, ⟨n, hn, hw, rfl⟩, rfl⟩

namespace Program

variable {caseless : Bool} {p : Pattern} {n : Normal} {text : List Char} {limit : Backtrack.Limit}

/-- The search of a program in a text. -/
def search (program : Program) (caseless : Bool) (limit : Backtrack.Limit) (text : List Char) :
    Nat → Finding :=
  program.find limit (program.subject caseless text)

theorem search_sweep (w : Sweep) (i : Nat) :
    (Program.sweep w).search caseless limit text i =
      if text.length < i then .missing
      else
        match w.find? ((readings caseless text).drop i) i with
        | some s => .found s
        | none => .missing := by
  have hsize : (Subject.ofReadings (readings caseless text)).size = text.length :=
    length_readings caseless text
  simp only [search, find, subject, hsize]
  split
  · rfl
  · have hrest := Subject.rest_ofReadings (s := readings caseless text) (i := i)
      (by rw [length_readings]; omega)
    cases h : w.find? ((readings caseless text).drop i) i <;> rw [hrest, h]

theorem search_ne_gaveUp (w : Sweep) (i : Nat) :
    (Program.sweep w).search caseless limit text i ≠ .gaveUp := by
  rw [search_sweep]
  split
  · exact nofun
  · split <;> exact nofun

/-- A match found by sweeping. -/
theorem found_iff {w : Sweep} {i : Nat} {s : Span} :
    ((Program.sweep w).search caseless limit text i).span? = some s ↔
      i ≤ text.length ∧ w.find? ((readings caseless text).drop i) i = some s := by
  rw [search_sweep]
  split
  · exact ⟨nofun, fun h => absurd h.1 (by omega)⟩
  · cases w.find? ((readings caseless text).drop i) i with
    | none => simp [Finding.span?]
    | some t => simp [Finding.span?, Nat.not_lt.mp ‹_›]

theorem missing_iff {w : Sweep} {i : Nat} :
    ((Program.sweep w).search caseless limit text i).span? = none ↔
      (i ≤ text.length → w.find? ((readings caseless text).drop i) i = none) := by
  simp only [Option.eq_none_iff_forall_not_mem, Option.mem_def, found_iff, not_and]
  exact ⟨fun h hi s => h s hi, fun h s hi => h hi s⟩

/-- **Sweeping finds a match that starts leftmost, if there is any.** -/
theorem finds (hv : p.Valid) (hn : p.normal? caseless = some n) (text : List Char)
    (limit : Backtrack.Limit) :
    Finds (p.ends (readings caseless text)) text.length fun i =>
      ((Program.sweep (n.unrolled false).sweep).search caseless limit text i).span? := by
  have halike := (n.alike_unrolled (readings caseless text) fun h : False => h.elim).trans
    (Pattern.alike_normal hv hn (fun h : False => h.elim) text)
  have hlen := length_readings caseless text
  have hnil : ∀ j, j ≤ text.length →
      ((n.unrolled false).ends (readings caseless text) j = [] ↔
        p.ends (readings caseless text) j = []) := fun j hj => (halike j (by omega)).nil_iff
  constructor
  · intro i
    rw [missing_iff]
    constructor
    · intro h j hij hj
      have := (Regular.find?_eq_none (by omega)).mp (h (hij.trans hj)) j hij (by omega)
      exact (hnil j hj).mp this
    · intro h hi
      exact (Regular.find?_eq_none (by omega)).mpr fun j hij hj =>
        (hnil j (by omega)).mpr (h j hij (by omega))
  · intro i s h
    obtain ⟨hi, h⟩ := found_iff.mp h
    obtain ⟨his, hle, hstop, hleft⟩ := Regular.find?_eq_some (by omega) h
    exact ⟨his, by omega, ((halike _ hle).mem _).mp hstop, fun j hij hj =>
      (hnil j (by omega)).mp (hleft j hij hj)⟩

/-- **For a productive pattern it is the preferred match of the normal form.** -/
theorem prefers_normal (hv : p.Valid) (hn : p.normal? caseless = some n) (hp : p.Productive)
    {i : Nat} {s : Span}
    (h : ((Program.sweep (n.unrolled false).sweep).search caseless limit text i).span? = some s) :
    (n.ends (readings caseless text) s.start).head? = some s.stop := by
  obtain ⟨hi, h⟩ := found_iff.mp h
  have hlen := length_readings caseless text
  have hprod := Pattern.productive_normal hv hn hp
  obtain ⟨-, hle, -, -⟩ := Regular.find?_eq_some (by omega) h
  have halike := n.alike_unrolled (readings caseless text) fun _ : True => hprod
  rw [← (halike _ hle).head? trivial]
  exact Regular.find?_preferred (Normal.productive_unrolled hprod) (by omega) h

/-- **If the pattern is steady too, it is the preferred match of the pattern.** -/
theorem prefers (hv : p.Valid) (hn : p.normal? caseless = some n) (hp : p.Productive)
    (hs : p.Steady caseless) {i : Nat} {s : Span}
    (h : ((Program.sweep (n.unrolled false).sweep).search caseless limit text i).span? = some s) :
    (p.ends (readings caseless text) s.start).head? = some s.stop := by
  have hlen := length_readings caseless text
  have hle := ((finds hv hn text limit).found h).2.1
  have halike := Pattern.alike_normal hv hn (fun _ : True => hs) text
  rw [← (halike _ (by omega)).head? trivial]
  exact prefers_normal hv hn hp h

end Program

end MailPattern
