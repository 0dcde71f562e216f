import MailPattern.Pattern.Regular
import Mathlib.Tactic

/-!
# Proofs — Search — Ends

Where the matches that start at a position end, as a list with the preferred end first.  A search
that tries one way after the other comes to these ends in this order, and the ends it comes to
first are the ones it reports; the same end may stand in the list more than once.

`Ends` has one operation for each part of a pattern, and `Regular.ends` puts them together.  A
loop goes on as long as its rounds take characters (`Ends.many`); `many_eq` unrolls one round.
-/

namespace MailPattern

/-- Where the matches that start at a position end, the preferred end first. -/
abbrev Ends := Nat → List Nat

namespace Ends

/-- Nothing is taken. -/
def stay : Ends := fun i => [i]

/-- One character of the text is taken if the set admits it. -/
def one (s : List Reading) (set : CharSet) : Ends := fun i =>
  if (s[i]?).any set.admits then [i + 1] else []

/-- The beginning of the text. -/
def atStart : Ends := fun i => if i = 0 then [i] else []

/-- The end of the text. -/
def atStop (s : List Reading) : Ends := fun i => if i = s.length then [i] else []

/-- One after the other. -/
def andThen (a b : Ends) : Ends := fun i => (a i).flatMap b

/-- Either, in the order that `greedy` prefers. -/
def prefer (greedy : Bool) (more less : Ends) : Ends := fun i =>
  if greedy then more i ++ less i else less i ++ more i

/-- `n` rounds. -/
def times (a : Ends) : Nat → Ends
  | 0 => stay
  | n + 1 => a.andThen (a.times n)

/-- At most `n` rounds. -/
def upTo (greedy : Bool) (a : Ends) : Nat → Ends
  | 0 => stay
  | n + 1 => prefer greedy (a.andThen (upTo greedy a n)) stay

/-- The ends that a character is taken to. -/
def taking (a : Ends) : Ends := fun i => (a i).filter (i < ·)

/-- At most `n` rounds, each of which takes a character. -/
def rounds (greedy : Bool) (a : Ends) : Nat → Ends
  | 0 => stay
  | n + 1 => prefer greedy (a.taking.andThen (rounds greedy a n)) stay

/-- Any number of rounds, each of which takes a character. -/
def many (s : List Reading) (greedy : Bool) (a : Ends) : Ends := fun i =>
  rounds greedy a (s.length - i) i

/-- No end lies before its start or beyond the text. -/
def Forward (s : List Reading) (a : Ends) : Prop :=
  ∀ i, i ≤ s.length → ∀ j ∈ a i, i ≤ j ∧ j ≤ s.length

/-- One character is taken exactly where one stands that the set admits. -/
theorem mem_one {s : List Reading} {set : CharSet} {i j : Nat} :
    j ∈ one s set i ↔ j = i + 1 ∧ ∃ c, s[i]? = some c ∧ set.admits c = true := by
  unfold one
  cases s[i]? with
  | none => simp
  | some c => by_cases h : set.admits c <;> simp [h]

/-- Either alternative's ends are ends, whichever is preferred. -/
theorem mem_prefer {greedy : Bool} {a b : Ends} {i j : Nat} :
    j ∈ prefer greedy a b i ↔ j ∈ a i ∨ j ∈ b i := by
  cases greedy <;> simp [prefer, or_comm]

/-- The ends that take a character are those behind the start. -/
theorem mem_taking {a : Ends} {i j : Nat} : j ∈ a.taking i ↔ j ∈ a i ∧ i < j := by
  simp [taking]

/-- Only the ends that a character is taken to go on. -/
theorem flatMap_taking {α : Type} (a : Ends) (i : Nat) (f : Nat → List α) :
    (a.taking i).flatMap f = (a i).flatMap fun j => if i < j then f j else [] := by
  rw [taking]
  induction a i with
  | nil => rfl
  | cons j js ih => by_cases h : i < j <;> simp [h, ih]

/-! ### Staying within the text -/

section Forward

variable {s : List Reading} {a b : Ends}

theorem forward_stay : Forward s stay := fun i hi j hj => by
  obtain rfl : j = i := by simpa [stay] using hj
  exact ⟨le_rfl, hi⟩

theorem forward_one (set : CharSet) : Forward s (one s set) := fun i _ j hj => by
  obtain ⟨rfl, c, hc, -⟩ := mem_one.mp hj
  have := (List.getElem?_eq_some_iff.mp hc).1
  omega

theorem forward_atStart : Forward s atStart := fun i hi j hj => by
  unfold atStart at hj
  split at hj <;> simp at hj
  omega

theorem forward_atStop : Forward s (atStop s) := fun i hi j hj => by
  unfold atStop at hj
  split at hj <;> simp at hj
  omega

/-- What goes forward part by part goes forward. -/
theorem Forward.andThen (ha : Forward s a) (hb : Forward s b) : Forward s (a.andThen b) :=
  fun i hi j hj => by
    obtain ⟨m, hm, hj⟩ := List.mem_flatMap.mp hj
    obtain ⟨him, hm⟩ := ha i hi m hm
    obtain ⟨hmj, hj⟩ := hb m hm j hj
    exact ⟨him.trans hmj, hj⟩

theorem Forward.prefer {greedy : Bool} (ha : Forward s a) (hb : Forward s b) :
    Forward s (prefer greedy a b) := fun i hi j hj =>
  (mem_prefer.mp hj).elim (ha i hi j) (hb i hi j)

theorem Forward.times (ha : Forward s a) : ∀ n, Forward s (a.times n)
  | 0 => forward_stay
  | n + 1 => ha.andThen (ha.times n)

theorem Forward.upTo {greedy : Bool} (ha : Forward s a) : ∀ n, Forward s (upTo greedy a n)
  | 0 => forward_stay
  | n + 1 => (ha.andThen (ha.upTo n)).prefer forward_stay

theorem Forward.taking (ha : Forward s a) : Forward s a.taking := fun i hi j hj =>
  ha i hi j (mem_taking.mp hj).1

/-- Rounds of what goes forward go forward. -/
theorem Forward.rounds {greedy : Bool} (ha : Forward s a) : ∀ n, Forward s (rounds greedy a n)
  | 0 => forward_stay
  | n + 1 => (ha.taking.andThen (ha.rounds n)).prefer forward_stay

/-- So does any number of them. -/
theorem Forward.many {greedy : Bool} (ha : Forward s a) : Forward s (many s greedy a) :=
  fun i => ha.rounds _ i

end Forward

/-! ### Loops -/

/-- More rounds than there are characters left make no difference. -/
theorem rounds_eq {s : List Reading} {a : Ends} (ha : Forward s a) (greedy : Bool) :
    ∀ n m i, i ≤ s.length → s.length - i ≤ n → s.length - i ≤ m →
      rounds greedy a n i = rounds greedy a m i := by
  have last : ∀ n, rounds greedy a n s.length = [s.length] := by
    intro n
    cases n with
    | zero => rfl
    | succ n =>
      have : a.taking s.length = [] := by
        rw [List.eq_nil_iff_forall_not_mem]
        intro j hj
        obtain ⟨hj, hlt⟩ := mem_taking.mp hj
        have := ha _ le_rfl j hj
        omega
      cases greedy <;> simp [rounds, prefer, andThen, this, stay]
  intro n
  induction n with
  | zero =>
    intro m i hi hn _
    obtain rfl : i = s.length := by omega
    rw [last, last]
  | succ n ih =>
    intro m i hi hn hm
    by_cases hlast : i = s.length
    · rw [hlast, last, last]
    · obtain ⟨m, rfl⟩ : ∃ k, m = k + 1 := ⟨m - 1, by omega⟩
      have step : a.taking.andThen (rounds greedy a n) i =
          a.taking.andThen (rounds greedy a m) i := by
        refine List.flatMap_congr fun j hj => ?_
        obtain ⟨hj, hlt⟩ := mem_taking.mp hj
        have := ha i hi j hj
        exact ih m j this.2 (by omega) (by omega)
      simp only [rounds, prefer, step]

/-- One round of a loop. -/
theorem many_eq {s : List Reading} {a : Ends} (ha : Forward s a) (greedy : Bool) {i : Nat}
    (hi : i ≤ s.length) :
    many s greedy a i = prefer greedy (a.taking.andThen (many s greedy a)) stay i := by
  have step : a.taking.andThen (rounds greedy a (s.length - i)) i =
      a.taking.andThen (many s greedy a) i := by
    refine List.flatMap_congr fun j hj => ?_
    have := ha.taking i hi j hj
    exact rounds_eq ha greedy _ _ j this.2 (by omega) le_rfl
  rw [many, rounds_eq ha greedy _ (s.length - i + 1) i hi le_rfl (by omega)]
  simp only [rounds, prefer, step]

end Ends

/-- Where the matches of a regular pattern end. -/
def Regular.ends (s : List Reading) : Regular → Ends
  | .empty => .stay
  | .chars set => .one s set
  | .start => .atStart
  | .stop => .atStop s
  | .cat r t => (r.ends s).andThen (t.ends s)
  | .alt r t => .prefer true (r.ends s) (t.ends s)
  | .fork r | .group _ r => r.ends s
  | .optional greedy r => .prefer greedy (r.ends s) .stay
  | .loop greedy true r => .many s greedy (r.ends s)
  | .loop greedy false r => fun i =>
    (r.ends s i).flatMap fun j => if j = i then [j] else Ends.many s greedy (r.ends s) j

/-- The ends of a regular pattern lie behind the start, and in the text. -/
theorem Regular.forward_ends (s : List Reading) (r : Regular) : Ends.Forward s (r.ends s) := by
  induction r with
  | empty => exact Ends.forward_stay
  | chars set => exact Ends.forward_one set
  | start => exact Ends.forward_atStart
  | stop => exact Ends.forward_atStop
  | cat r t ihr iht => exact ihr.andThen iht
  | alt r t ihr iht => exact ihr.prefer iht
  | fork r ih | group _ r ih => exact ih
  | optional greedy r ih => exact ih.prefer Ends.forward_stay
  | loop greedy skippable r ih =>
    cases skippable with
    | true => exact ih.many
    | false =>
      intro i hi j hj
      obtain ⟨m, hm, hj⟩ := List.mem_flatMap.mp hj
      obtain ⟨him, hm⟩ := ih i hi m hm
      split at hj
      · obtain rfl : j = m := by simpa using hj
        exact ⟨him, hm⟩
      · obtain ⟨hmj, hj⟩ := ih.many m hm j hj
        exact ⟨him.trans hmj, hj⟩

end MailPattern
