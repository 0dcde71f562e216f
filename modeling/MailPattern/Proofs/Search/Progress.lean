import Mathlib.Data.List.Nodup
import Mathlib.Data.List.Perm.Subperm
import Mathlib.Order.Nat
import MailPattern.Search.Iteration

/-!
# Proofs — Search — Progress

How an iteration gets on when each search finds its match in the text, at the position searched from
or later (`FindsWithin`).  Every match lies behind the one before (`Span.Precedes`): a step keeps this
(`Iteration.precedes_next`), so a run does (`Iteration.pairwise_take`).  There is at most one match
for each position, so an iteration comes to its end (`Iteration.length_take_le`) and the count of
steps that `Iteration.all` allows does not cut it short (`Iteration.take_eq_all`).
-/

namespace MailPattern

/-- The second span stands behind the first: it starts at the end of the first or later, further on
than its start, and does not touch it when it is empty. -/
structure Span.Precedes (s t : Span) : Prop where
  stop_le : s.stop ≤ t.start
  start_lt : s.start < t.start
  apart : t.start = t.stop → t.start ≠ s.stop

/-- The span lies in a text of `size` characters. -/
structure Span.Within (size : Nat) (s : Span) : Prop where
  start_le : s.start ≤ s.stop
  stop_le : s.stop ≤ size

/-- Each search finds its match in a text of `size` characters, at the position or later. -/
def FindsWithin (size : Nat) (find : Nat → Finding) : Prop :=
  ∀ i s, find i = .found s → i ≤ s.start ∧ s.Within size

theorem Span.Precedes.trans {s t u : Span} (ht : t.start ≤ t.stop) (h : s.Precedes t)
    (h' : t.Precedes u) : s.Precedes u where
  stop_le := h.stop_le.trans (ht.trans h'.stop_le)
  start_lt := h.start_lt.trans h'.start_lt
  apart _ := (h.stop_le.trans_lt h'.start_lt).ne'

namespace Iteration

variable {find : Nat → Finding} {single : Bool} {size n m : Nat} {it it' : Iteration} {s t : Span}

/-! ### Steps -/

/-- A match reported is the one sought, and the state after it follows from it. -/
theorem next_found (h : next find single it = (.found s, it')) :
    it.done = false ∧ seek find it.resume it.last = .found s ∧ it' = after single s := by
  unfold next at h
  split at h
  · simp at h
  · next hdone =>
    split at h
    · next hseek =>
      cases h
      exact ⟨by simpa using hdone, hseek, rfl⟩
    · next hseek =>
      simp only [Prod.mk.injEq] at h
      exact absurd h.1 (hseek s)

/-- Without a match the iteration is at its end. -/
theorem done_of_next (h : ∀ s, (next find single it).1 ≠ .found s) :
    (next find single it).2.done = true := by
  unfold next at h ⊢
  by_cases hdone : it.done
  · simp [hdone]
  · cases hseek : seek find it.resume it.last <;> simp_all

/-- What is sought is found at the position or later, and is not an empty match at `last`. -/
theorem seek_found (hf : FindsWithin size find) {resume : Nat} {last : Option Nat}
    (h : seek find resume last = .found t) :
    t.Within size ∧ (resume ≤ t.start ∨ ∃ e, last = some e ∧ e < t.start) ∧
      (t.start = t.stop → last ≠ some t.stop) := by
  obtain ⟨hfind, hapart⟩ | ⟨e, hlast, hfind⟩ := seek_cases h
  · obtain ⟨hstart, hin⟩ := hf _ _ hfind
    exact ⟨hin, .inl hstart, hapart⟩
  · obtain ⟨hstart, hin⟩ := hf _ _ hfind
    refine ⟨hin, .inr ⟨e, hlast, hstart⟩, fun hstop htouch => ?_⟩
    have : e = t.stop := Option.some.inj (hlast.symm.trans htouch)
    omega

/-- The next search starts behind the start of the last match, and not before its end. -/
theorem resume_after (hs : s.start ≤ s.stop) :
    s.stop ≤ (after single s).resume ∧ s.start < (after single s).resume := by
  unfold after
  by_cases h : s.start = s.stop
  · simp [Span.isEmpty, h]
  · have hlt := lt_of_le_of_ne hs h
    simp [Span.isEmpty, h, hlt]

/-- **A step's match lies in the text, behind the match before.** -/
theorem precedes_next (hf : FindsWithin size find) (hs : s.start ≤ s.stop)
    (h : next find single (after false s) = (.found t, it')) :
    s.Precedes t ∧ t.Within size := by
  obtain ⟨-, hseek, -⟩ := next_found h
  obtain ⟨hin, hstart, hapart⟩ := seek_found hf hseek
  obtain ⟨hstop, hlt⟩ := @resume_after false s hs
  have hbehind : s.stop ≤ t.start ∧ s.start < t.start := by
    obtain hstart | ⟨e, he, hstart⟩ := hstart
    · exact ⟨hstop.trans hstart, hlt.trans_le hstart⟩
    · obtain rfl : s.stop = e := Option.some.inj he
      exact ⟨hstart.le, hs.trans_lt hstart⟩
  refine ⟨⟨hbehind.1, hbehind.2, fun hempty htouch => hapart hempty ?_⟩, hin⟩
  rw [← hempty, htouch]
  rfl

/-! ### Runs -/

theorem take_done (h : it.done = true) : take find single n it = ([], false) := by
  cases n with
  | zero => rfl
  | succ n => rw [take, next_done h]

/-- A match of a run is the first one, or a match of the run after the first. -/
theorem mem_take_succ (h : t ∈ (take find single (n + 1) it).1) :
    ∃ s, next find single it = (.found s, after single s) ∧
      (t = s ∨ t ∈ (take find single n (after single s)).1) := by
  rw [take] at h
  split at h
  · next s it' hnext =>
    obtain rfl := (next_found hnext).2.2
    exact ⟨s, hnext, by simpa using h⟩
  · simp at h
  · simp at h

/-- What is sought is found by a search. -/
theorem found_of_seek {resume : Nat} {last : Option Nat} (h : seek find resume last = .found t) :
    ∃ i, find i = .found t := by
  obtain ⟨hfind, -⟩ | ⟨e, -, hfind⟩ := seek_cases h
  · exact ⟨_, hfind⟩
  · exact ⟨_, hfind⟩

/-- **Every match of a run is found by a search.** -/
theorem found_of_mem_take : ∀ n it, ∀ t ∈ (take find single n it).1, ∃ i, find i = .found t := by
  intro n
  induction n with
  | zero => simp
  | succ n ih =>
    intro it t ht
    obtain ⟨s, hnext, rfl | ht⟩ := mem_take_succ ht
    · exact found_of_seek (next_found hnext).2.1
    · exact ih _ t ht

/-- A run reports the first match first. -/
theorem head?_take : (take find single (n + 1) {}).1.head? = (find 0).span? := by
  rw [take, next_eq rfl, seek_none]
  cases find 0 <;> rfl

/-- A run for one match reports no other. -/
theorem take_single : (take find true (n + 1) {}).1 = (find 0).span?.toList := by
  rw [take, next_eq rfl, seek_none]
  cases find 0 with
  | found s =>
    have hdone : (after true s).done = true := rfl
    simp [take_done hdone, Finding.span?]
  | missing | gaveUp => rfl

theorem mem_take_after (hf : FindsWithin size find) :
    ∀ n s, s.start ≤ s.stop → ∀ t ∈ (take find single n (after single s)).1,
      s.Precedes t ∧ t.Within size := by
  intro n
  induction n with
  | zero => simp
  | succ n ih =>
    intro s hs t ht
    obtain ⟨u, hnext, htu⟩ := mem_take_succ ht
    -- with `single` there is no step after a match
    obtain rfl : single = false := by simpa [after] using (next_found hnext).1
    obtain ⟨hsu, hu⟩ := precedes_next hf hs hnext
    obtain rfl | ht := htu
    · exact ⟨hsu, hu⟩
    · obtain ⟨hut, ht⟩ := ih u hu.start_le t ht
      exact ⟨hsu.trans hu.start_le hut, ht⟩

/-- **Every match of a run lies in the text,** -/
theorem within_take (hf : FindsWithin size find) :
    ∀ n it, ∀ s ∈ (take find single n it).1, s.Within size := by
  intro n
  cases n with
  | zero => simp
  | succ n =>
    intro it s hs
    obtain ⟨u, hnext, hsu⟩ := mem_take_succ hs
    have hu := (seek_found hf (next_found hnext).2.1).1
    obtain rfl | hs := hsu
    · exact hu
    · exact (mem_take_after hf n u hu.start_le s hs).2

/-- **and behind the ones before.** -/
theorem pairwise_take (hf : FindsWithin size find) :
    ∀ n it, (take find single n it).1.Pairwise Span.Precedes := by
  intro n
  induction n with
  | zero => simp
  | succ n ih =>
    intro it
    rw [take]
    split
    · next s it' hnext =>
      obtain ⟨-, hseek, rfl⟩ := next_found hnext
      have hs := (seek_found hf hseek).1
      exact List.pairwise_cons.mpr
        ⟨fun t ht => (mem_take_after hf n s hs.start_le t ht).1, ih _⟩
    · exact .nil
    · exact .nil

/-- Spans one behind the other are at most one for each position. -/
theorem length_le_of_pairwise {spans : List Span} (h : spans.Pairwise Span.Precedes)
    (hin : ∀ s ∈ spans, s.Within size) : spans.length ≤ size + 1 := by
  -- the starts are different positions of the text
  have hnodup : (spans.map Span.start).Nodup :=
    (List.pairwise_map.mpr (h.imp fun h => h.start_lt)).imp ne_of_lt
  have hsub : spans.map Span.start ⊆ List.range (size + 1) := by
    intro i hi
    obtain ⟨s, hs, rfl⟩ := List.mem_map.mp hi
    have := hin s hs
    exact List.mem_range.mpr (Nat.lt_succ_of_le (this.start_le.trans this.stop_le))
  simpa using (hnodup.subperm hsub).length_le

theorem length_take_le (hf : FindsWithin size find) (n : Nat) (it : Iteration) :
    (take find single n it).1.length ≤ size + 1 :=
  length_le_of_pairwise (pairwise_take hf n it) (within_take hf n it)

/-! ### Counting steps -/

/-- A run of fewer steps reports the first matches of a longer one, -/
theorem take_fst_of_le (h : n ≤ m) (it : Iteration) :
    (take find single n it).1 = (take find single m it).1.take n := by
  induction n generalizing m it with
  | zero => simp
  | succ n ih =>
    obtain ⟨m, rfl⟩ : ∃ k, m = k + 1 := ⟨m - 1, by omega⟩
    rw [take, take]
    split
    · simp [ih (Nat.le_of_succ_le_succ h)]
    · simp
    · simp

/-- and the same, if it has come to the end. -/
theorem take_of_length_lt (hm : n ≤ m) (h : (take find single n it).1.length < n) :
    take find single m it = take find single n it := by
  induction n generalizing m it with
  | zero => simp at h
  | succ n ih =>
    obtain ⟨m, rfl⟩ : ∃ k, m = k + 1 := ⟨m - 1, by omega⟩
    rw [take] at h ⊢
    rw [take]
    split at h
    · rw [ih (Nat.le_of_succ_le_succ hm) (by simpa using h)]
    · rfl
    · rfl

/-- **No count of steps comes to more matches than the one for all matches.** -/
theorem take_eq_all (hf : FindsWithin size find) (n : Nat) :
    (take find single n {}).1 = (all find single size).1.take n := by
  obtain hn | hn := Nat.le_total n (size + 2)
  · exact take_fst_of_le hn {}
  · have hlen : (take find single (size + 2) {}).1.length ≤ size + 1 := length_take_le hf _ _
    rw [take_of_length_lt hn (by omega), all, List.take_of_length_le (by omega)]

end Iteration

end MailPattern
