import MailPattern.Proofs.Search.Ends
import MailPattern.Search.Iteration

/-!
# Proofs — Search — Successive

What an iteration reports when every match takes a character: the first match from the beginning
on, then the first from its end on, and so forth (`Iteration.successive_all`).  `Successive` says
so without counting steps, and determines the matches (`Successive.unique`).

If each search finds a match that starts leftmost (`Finds`), then every position at which a match
could start lies in one of those reported (`Successive.covers`).
-/

namespace MailPattern

/-- The first match from a position on, then the first one from its end on, until there is none. -/
inductive Successive (first : Nat → Option Span) : Nat → List Span → Prop
  | nil {i : Nat} (h : first i = none) : Successive first i []
  | cons {i : Nat} {s : Span} {spans : List Span} (h : first i = some s)
      (rest : Successive first s.stop spans) : Successive first i (s :: spans)

/-- The search finds a match with one of the ends `a`, and one that starts leftmost, if there is any
in a text of `size` characters. -/
structure Finds (a : Ends) (size : Nat) (first : Nat → Option Span) : Prop where
  none_iff {i : Nat} : first i = none ↔ ∀ j, i ≤ j → j ≤ size → a j = []
  found {i : Nat} {s : Span} (h : first i = some s) :
    i ≤ s.start ∧ s.start ≤ size ∧ s.stop ∈ a s.start ∧ ∀ j, i ≤ j → j < s.start → a j = []

namespace Successive

variable {first first' : Nat → Option Span} {i : Nat} {spans spans' : List Span}

theorem unique (h : Successive first i spans) (h' : Successive first i spans') : spans = spans' := by
  induction h generalizing spans' with
  | nil h =>
    cases h' with
    | nil => rfl
    | cons h' => exact nomatch h.symm.trans h'
  | cons h _ ih =>
    cases h' with
    | nil h' => exact nomatch h.symm.trans h'
    | cons h' rest' =>
      cases h.symm.trans h'
      rw [ih rest']

theorem head?_eq (h : Successive first i spans) : spans.head? = first i := by
  cases h with
  | nil h | cons h => exact h.symm

theorem sound {a : Ends} {size : Nat} (hf : Finds a size first) (h : Successive first i spans) :
    ∀ s ∈ spans, s.start ≤ size ∧ s.stop ∈ a s.start := by
  induction h with
  | nil => simp
  | cons h _ ih =>
    obtain ⟨-, hle, hstop, -⟩ := hf.found h
    exact List.forall_mem_cons.mpr ⟨⟨hle, hstop⟩, ih⟩

/-- **No match starts outside those reported.** -/
theorem covers {a : Ends} {size : Nat} (hf : Finds a size first) (h : Successive first i spans)
    {j : Nat} (hij : i ≤ j) (hj : j ≤ size) (ha : a j ≠ []) :
    ∃ s ∈ spans, s.start ≤ j ∧ j < s.stop := by
  induction h with
  | nil h => exact absurd (hf.none_iff.mp h j hij hj) ha
  | cons h _ ih =>
    rename_i s _ _
    obtain ⟨-, -, -, hleft⟩ := hf.found h
    have hstart : s.start ≤ j := Nat.not_lt.mp fun hlt => ha (hleft j hij hlt)
    by_cases hstop : j < s.stop
    · exact ⟨s, List.mem_cons_self, hstart, hstop⟩
    · obtain ⟨t, ht, hcover⟩ := ih (Nat.not_lt.mp hstop)
      exact ⟨t, List.mem_cons_of_mem _ ht, hcover⟩

end Successive

namespace Iteration

variable {find : Nat → Finding} {a : Ends} {s : List Reading}

theorem seek_eq {i : Nat} {last : Option Nat}
    (hne : ∀ t, find i = .found t → t.start < t.stop) : seek find i last = find i := by
  unfold seek
  cases h : find i with
  | found t =>
    have : (t.start == t.stop) = false := beq_false_of_ne (hne t h).ne
    simp [Span.isEmpty, this]
  | missing | gaveUp => rfl

theorem successive_take (hfind : ∀ i, find i ≠ .gaveUp)
    (hne : ∀ i t, find i = .found t → i ≤ t.start ∧ t.start < t.stop ∧ t.stop ≤ s.length) :
    ∀ n it, it.done = false → it.resume ≤ s.length → s.length + 1 ≤ it.resume + n →
      Successive (fun i => (find i).span?) it.resume (take find false n it).1 ∧
        (take find false n it).2 = false := by
  intro n
  induction n with
  | zero =>
    intro it _ hle hn
    omega
  | succ n ih =>
    intro it hdone hle hn
    have hlt : ∀ t, find it.resume = .found t → t.start < t.stop := fun t h => (hne _ t h).2.1
    cases h : find it.resume with
    | gaveUp => exact absurd h (hfind _)
    | missing =>
      have hnext : next find false it = (.missing, { it with done := true }) := by
        rw [next_eq hdone, seek_eq hlt, h]
      rw [take, hnext]
      exact ⟨.nil (by simp [h, Finding.span?]), rfl⟩
    | found t =>
      have hnext : next find false it = (.found t, after false t) := by
        rw [next_eq hdone, seek_eq hlt, h]
      rw [take, hnext]
      obtain ⟨hi, hlt, hstop⟩ := hne _ t h
      have hresume : (after false t).resume = t.stop := by
        have : (t.start == t.stop) = false := beq_false_of_ne hlt.ne
        simp [after, Span.isEmpty, this]
      obtain ⟨hrest, hgave⟩ := ih (after false t) rfl (by omega) (by omega)
      rw [hresume] at hrest
      exact ⟨.cons (by simp [h, Finding.span?]) hrest, hgave⟩

/-- **When every match takes a character, an iteration reports the first match, and then again and
again the first one from the end of the last on.** -/
theorem successive_all (hfind : ∀ i, find i ≠ .gaveUp)
    (hf : Finds a s.length fun i => (find i).span?) (ha : Ends.Forward s a)
    (hne : ∀ i, i ≤ s.length → i ∉ a i) :
    Successive (fun i => (find i).span?) 0 (all find false s.length).1 ∧
      (all find false s.length).2 = false := by
  refine successive_take (s := s) hfind (fun i t h => ?_) _ {} rfl (Nat.zero_le _) (by simp)
  obtain ⟨hi, hle, hstop, -⟩ := hf.found (i := i) (s := t) (by simp [h, Finding.span?])
  have hforward := ha _ hle _ hstop
  have : t.stop ≠ t.start := fun h => hne _ hle (h ▸ hstop)
  exact ⟨hi, by omega, hforward.2⟩

/-- An iteration for one match reports the first. -/
theorem all_single (size : Nat) :
    all find true size = ((find 0).span?.toList, decide (find 0 = .gaveUp)) := by
  rw [all, take, next_eq rfl, seek_none]
  cases find 0 <;> rfl

end Iteration

end MailPattern
