import MailPattern.Proofs.Search.Leftmost
import MailPattern.Proofs.Search.Progress
import MailPattern.Search.Backtrack

/-!
# Proofs — Search — Backtracking

Where the matches end that the search by trying one way after the other comes to, for any plan.
Whatever a way comes to, what is still to be matched comes to, at the position or further on in the
text (`Backtrack.Advances`).  Looking around goes back, but the way goes on from where it stood.
So the search finds its matches in the text, at the position searched from or later
(`Backtrack.findsWithin`).
-/

namespace MailPattern

/-- The answer of a sweep stands in the rest of the text, or is the answer so far. -/
theorem Sweep.stop_of_go {w : Sweep} {anywhere : Bool} {a : Sweep.Answer} {low : Nat} :
    ∀ (rest : List Reading) (i : Nat) (front : Front) (best : Option Sweep.Answer), low ≤ i →
      w.go anywhere rest i front best = some a →
      best = some a ∨ low ≤ a.stop ∧ a.stop ≤ i + rest.length := by
  -- the answer after the front at `i`
  have here {i : Nat} {f : Front} {best : Option Answer} (h : answer f i best = some a) :
      best = some a ∨ a.stop = i := by
    unfold answer at h
    cases hended : f.ended with
    | none => exact .inl (by simpa [hended] using h)
    | some way =>
      rw [hended] at h
      cases h
      exact .inr rfl
  intro rest
  induction rest with
  | nil =>
    intro i front best hi h
    rw [go_nil] at h
    exact (here h).imp_right fun h => ⟨by omega, h.le⟩
  | cons c rest ih =>
    intro i front best hi h
    rw [go_cons] at h
    simp only [List.length_cons]
    dsimp only at h
    split at h
    · exact (here h).imp_right fun _ => ⟨by omega, by omega⟩
    · obtain h | ⟨hlow, hle⟩ := ih _ _ _ (by omega) h
      · exact (here h).imp_right fun _ => ⟨by omega, by omega⟩
      · exact .inr ⟨hlow, by omega⟩

theorem Sweep.stop_of_matchAt {w : Sweep} {rest : List Reading} {i : Nat} {a : Sweep.Answer}
    (h : w.matchAt? rest i = some a) : i ≤ a.stop ∧ a.stop ≤ i + rest.length := by
  obtain h | h := stop_of_go _ _ _ _ le_rfl h
  · cases h
  · exact h

namespace Backtrack

variable {size i j n : Nat} {m : Memory} {k : Continuation} {a b : Attempt}

/-- Under some limit the way comes to a match that ends at `j`. -/
def Attempt.EndsAt (a : Attempt) (j : Nat) : Prop := ∃ limit left, a limit = .matched j left

namespace Attempt

theorem not_endsAt_fail : ¬ EndsAt fail j := by
  rintro ⟨limit, left, h⟩
  cases h

theorem EndsAt.orElse (h : (a.orElse b).EndsAt j) : a.EndsAt j ∨ b.EndsAt j := by
  obtain ⟨limit, left, h⟩ := h
  unfold Attempt.orElse at h
  split at h
  · split at h
    · exact .inr ⟨_, _, h⟩
    · cases h
  · exact .inl ⟨_, _, h⟩

theorem EndsAt.exclude (h : (a.exclude b).EndsAt j) : b.EndsAt j := by
  obtain ⟨limit, left, h⟩ := h
  unfold Attempt.exclude at h
  split at h
  · cases h
  · split at h
    · exact ⟨_, _, h⟩
    · cases h
  · cases h

theorem EndsAt.prefer {greedy : Bool} (h : (Backtrack.prefer greedy a b).EndsAt j) :
    a.EndsAt j ∨ b.EndsAt j := by
  cases greedy with
  | true => exact h.orElse
  | false => exact h.orElse.symm

end Attempt

/-- From `i` on, in a text of `size` characters, what is still to be matched comes to a match that
ends at `j`. -/
def Continuation.Reaches (k : Continuation) (size i j : Nat) : Prop :=
  ∃ i' m, i ≤ i' ∧ i' ≤ size ∧ (k i' m).EndsAt j

theorem Continuation.Reaches.of_le {i' : Nat} (h : k.Reaches size i' j) (hi : i ≤ i') :
    k.Reaches size i j := by
  obtain ⟨i'', m, hle, hsize, h⟩ := h
  exact ⟨i'', m, hi.trans hle, hsize, h⟩

/-- Whatever the way through a part comes to, what is still to be matched comes to from there on. -/
def Advances (size : Nat) (body : Continuation → Continuation) : Prop :=
  ∀ k i m j, i ≤ size → (body k i m).EndsAt j → k.Reaches size i j

section Loops

variable {body : Continuation → Continuation} (hbody : Advances size body)
include hbody

theorem Advances.times (n : Nat) : Advances size fun k => times body n k := by
  induction n with
  | zero => exact fun k i m j hi h => ⟨i, m, le_rfl, hi, h⟩
  | succ n ih =>
    intro k i m j hi h
    obtain ⟨i', m', hle, hsize, h⟩ := hbody _ i m j hi h
    exact (ih k i' m' j hsize h).of_le hle

theorem Advances.upTo (greedy : Bool) (n : Nat) :
    Advances size fun k => upTo body greedy n k := by
  induction n with
  | zero => exact fun k i m j hi h => ⟨i, m, le_rfl, hi, h⟩
  | succ n ih =>
    intro k i m j hi h
    obtain h | h := h.prefer
    · obtain ⟨i', m', hle, hsize, h⟩ := hbody _ i m j hi h
      exact (ih k i' m' j hsize h).of_le hle
    · exact ⟨i, m, le_rfl, hi, h⟩

theorem Advances.stalling (loop least : Nat) (greedy : Bool) (n : Nat) :
    ∀ count, Advances size fun k => stalling body loop least greedy k n count := by
  induction n with
  | zero => exact fun _ k i m j hi h => ⟨i, m, le_rfl, hi, h⟩
  | succ n ih =>
    intro count k i m j hi h
    -- one more round, and the loop after it
    have round {m : Memory}
        (h : (body (Backtrack.stalling body loop least greedy k n (count + 1)) i m).EndsAt j) :
        k.Reaches size i j := by
      obtain ⟨i', m', hle, hsize, h⟩ := hbody _ i m j hi h
      exact (ih (count + 1) k i' m' j hsize h).of_le hle
    simp only [Backtrack.stalling] at h
    split at h
    · exact ⟨i, m, le_rfl, hi, h⟩
    · split at h
      · exact round h
      · obtain h | h := h.prefer
        · exact round h
        · exact ⟨i, _, le_rfl, hi, h⟩

end Loops

variable (text : List Reading)

/-- **The way through a plan goes on from the position or further on.** -/
theorem advances_run (p : Plan) :
    Advances text.length fun k => run (.ofReadings text) p k := by
  have hsize : (Subject.ofReadings text).size = text.length := by simp [Subject.ofReadings, Subject.size]
  induction p with
  | empty => exact fun k i m j hi h => ⟨i, m, le_rfl, hi, h⟩
  | chars set =>
    intro k i m j hi h
    simp only [run] at h
    split at h
    · next c hc =>
      have hlt : i < text.length := by
        obtain ⟨hlt, -⟩ := Array.getElem?_eq_some_iff.mp hc
        simpa [Subject.ofReadings] using hlt
      split at h
      · exact ⟨i + 1, m, Nat.le_succ i, hlt, h⟩
      · exact absurd h Attempt.not_endsAt_fail
    · exact absurd h Attempt.not_endsAt_fail
  | start | stop =>
    intro k i m j hi h
    simp only [run] at h
    split at h
    · exact ⟨i, m, le_rfl, hi, h⟩
    · exact absurd h Attempt.not_endsAt_fail
  | settled sweep groups =>
    intro k i m j hi h
    simp only [run] at h
    split at h
    · next a ha =>
      rw [Subject.rest_ofReadings text hi] at ha
      obtain ⟨hle, hstop⟩ := Sweep.stop_of_matchAt ha
      rw [List.length_drop] at hstop
      exact ⟨a.stop, _, hle, by omega, h⟩
    · exact absurd h Attempt.not_endsAt_fail
  | cat p q ihp ihq =>
    intro k i m j hi h
    obtain ⟨i', m', hle, hin, h⟩ := ihp _ i m j hi h
    exact (ihq k i' m' j hin h).of_le hle
  | alt p q ihp ihq =>
    intro k i m j hi h
    obtain h | h := Attempt.EndsAt.orElse h
    · exact ihp k i m j hi h
    · exact ihq k i m j hi h
  | group n p ih =>
    intro k i m j hi h
    obtain ⟨i', m', hle, hin, h⟩ := ih _ i _ j hi h
    exact ⟨i', _, hle, hin, h⟩
  | repeated c p ih =>
    intro k i m j hi h
    simp only [run, many_eq_upTo] at h
    split at h
    · obtain ⟨i', m', hle, hin, h⟩ := ih.times c.least _ i m j hi h
      exact (ih.upTo c.greedy _ k i' m' j hin h).of_le hle
    · obtain ⟨i', m', hle, hin, h⟩ := ih.times _ _ i m j hi h
      exact (ih.upTo c.greedy _ k i' m' j hin h).of_le hle
  | stalling loop least greedy p ih =>
    exact fun k i m j hi h => ih.stalling loop least greedy _ 0 k i m j hi h
  | look back negative p ih =>
    intro k i m j hi h
    simp only [run] at h
    split at h
    · exact ⟨i, m, le_rfl, hi, h.exclude⟩
    · split at h
      · -- what is matched behind `i` is followed by what is still to be matched at `i`
        obtain ⟨_, m', _, _, h⟩ := ih _ (i - back) m j (by omega) h
        exact ⟨i, m', le_rfl, hi, h⟩
      · exact absurd h Attempt.not_endsAt_fail
  | «recall» n =>
    intro k i m j hi h
    simp only [run] at h
    split at h
    · split at h
      · next hslice =>
        exact ⟨_, m, Nat.le_add_right .., hslice.2.1.trans_eq hsize, h⟩
      · exact absurd h Attempt.not_endsAt_fail
    · exact absurd h Attempt.not_endsAt_fail

theorem start_le_of_from (p : Plan) (limit : Limit) {s : Span} (hn : i + n ≤ text.length + 1)
    (h : from? (.ofReadings text) p n i limit = .found s) : i ≤ s.start ∧ s.Within text.length := by
  induction n generalizing i limit with
  | zero => cases h
  | succ n ih =>
    unfold from? at h
    split at h
    · next j left hrun =>
      cases h
      obtain ⟨i', m', hle, hin, limit', left', h⟩ :=
        advances_run text p done i [] j (by omega) ⟨limit, left, hrun⟩
      cases h
      exact ⟨le_rfl, hle, hin⟩
    · cases h
    · split at h
      · obtain ⟨hle, hin⟩ := ih _ (by omega) h
        exact ⟨by omega, hin⟩
      · cases h

/-- **The search finds its match in the text, at the position searched from or later.** -/
theorem findsWithin (p : Plan) (limit : Limit) :
    FindsWithin text.length (find (.ofReadings text) p limit) := by
  intro i s h
  have hsize : (Subject.ofReadings text).size = text.length := by simp [Subject.ofReadings, Subject.size]
  rw [find, hsize] at h
  obtain hi | hi := Nat.le_total i (text.length + 1)
  · exact start_le_of_from text p limit (by omega) h
  · rw [Nat.sub_eq_zero_of_le hi] at h
    cases h

end Backtrack

end MailPattern
