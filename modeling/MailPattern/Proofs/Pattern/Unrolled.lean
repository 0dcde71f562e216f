import MailPattern.Proofs.Search.Alike
import MailPattern.Proofs.Search.Order

/-!
# Proofs — Pattern — Unrolled

The smallest form of a normal form comes to the same ends (`Normal.alike_unrolled`).  Which of them
is met first also stays the same as long as the pattern is productive: no repetition without a
bound has a body that may take no character.  A body that may, and does, ends a loop of the
smallest form at once.

A pattern that may take no character does so in the empty text, where every anchor stands.  So to be
productive is said of the empty text alone.
-/

namespace MailPattern

/-- Where the matches of a normal form end. -/
def Normal.ends (s : List Reading) : Normal → Ends
  | .empty => .stay
  | .literal t => .inSequence (t.map fun c => .one s (.single c))
  | .chars set => .one s set
  | .start => .atStart
  | .stop => .atStop s
  | .cat p q => (p.ends s).andThen (q.ends s)
  | .alt p q => .prefer true (p.ends s) (q.ends s)
  | .group _ p => p.ends s
  | .repeated c p => .counted s c (p.ends s)

/-- The body of every repetition without a bound takes a character. -/
def Normal.Productive : Normal → Prop
  | .empty | .literal _ | .chars _ | .start | .stop => True
  | .cat p q | .alt p q => p.Productive ∧ q.Productive
  | .group _ p => p.Productive
  | .repeated c p => p.Productive ∧ (c.most = none → 0 ∉ p.ends [] 0)

/-- The ends of a normal form lie behind the start, and in the text. -/
theorem Normal.forward_ends (s : List Reading) (p : Normal) : Ends.Forward s (p.ends s) := by
  induction p with
  | empty => exact Ends.forward_stay
  | literal t =>
    refine Ends.forward_inSequence fun a ha => ?_
    obtain ⟨c, -, rfl⟩ := List.mem_map.mp ha
    exact Ends.forward_one _
  | chars set => exact Ends.forward_one set
  | start => exact Ends.forward_atStart
  | stop => exact Ends.forward_atStop
  | cat p q ihp ihq => exact ihp.andThen ihq
  | alt p q ihp ihq => exact ihp.prefer ihq
  | group _ p ih => exact ih
  | repeated c p ih => exact ih.counted c

namespace Ends

variable {ordered : Prop} {s : List Reading} {a : Ends}

/-- The rounds of a loop that is gone through once or more. -/
def loop (s : List Reading) (greedy : Bool) (a : Ends) : Ends := fun i =>
  (a i).flatMap fun j => if j = i then [j] else many s greedy a j

/-- A loop is one round and then any number. -/
theorem alike_loop (ha : Forward s a) (hp : ordered → ∀ i, i ≤ s.length → i ∉ a i)
    (greedy : Bool) : Alike ordered s (loop s greedy a) (a.andThen (many s greedy a)) := by
  intro i hi
  refine ⟨fun k => ?_, fun o f => ?_⟩
  · simp only [loop, andThen, List.mem_flatMap]
    constructor
    · rintro ⟨j, hj, hk⟩
      refine ⟨j, hj, ?_⟩
      split at hk
      · obtain rfl := List.mem_singleton.mp hk
        rw [many_eq ha greedy (ha i hi k hj).2, mem_prefer]
        exact .inr (List.mem_singleton.mpr rfl)
      · exact hk
    · rintro ⟨j, hj, hk⟩
      by_cases hji : j = i
      · subst hji
        rw [many_eq ha greedy hi, mem_prefer] at hk
        rcases hk with hk | hk
        · obtain ⟨m, hm, hk⟩ := List.mem_flatMap.mp hk
          obtain ⟨hm, hlt⟩ := mem_taking.mp hm
          exact ⟨m, hm, by rwa [if_neg (by omega)]⟩
        · exact ⟨j, hj, by rwa [if_pos rfl]⟩
      · exact ⟨j, hj, by rwa [if_neg hji]⟩
  · rw [loop, andThen, findSome?_flatMap, findSome?_flatMap]
    refine findSome?_congr fun j hj => ?_
    rw [if_neg fun h : j = i => hp o i hi (h ▸ hj)]

/-- Any number of rounds are one and then more, or none. -/
theorem alike_prefer_many (ha : Forward s a) (hp : ordered → ∀ i, i ≤ s.length → i ∉ a i)
    (greedy : Bool) :
    Alike ordered s (prefer greedy (a.andThen (many s greedy a)) stay) (many s greedy a) := by
  intro i hi
  rw [many_eq ha greedy hi]
  refine ⟨fun k => ?_, fun o f => ?_⟩
  · simp only [mem_prefer, andThen, List.mem_flatMap, mem_taking]
    constructor
    · rintro (⟨j, hj, hk⟩ | hk)
      · by_cases hji : j = i
        · rw [hji, many_eq ha greedy hi, mem_prefer, andThen, List.mem_flatMap] at hk
          simpa only [mem_taking] using hk
        · exact .inl ⟨j, ⟨hj, by have := ha i hi j hj; omega⟩, hk⟩
      · exact .inr hk
    · rintro (⟨j, hj, hk⟩ | hk)
      · exact .inl ⟨j, hj.1, hk⟩
      · exact .inr hk
  · have : a.taking i = a i := by
      refine List.filter_eq_self.mpr fun j hj => decide_eq_true ?_
      have := (ha i hi j hj).1
      have : j ≠ i := fun h => hp o i hi (h ▸ hj)
      omega
    simp only [prefer, andThen, this]

end Ends

namespace Regular

variable {s : List Reading}

theorem ends_seq (r t : Regular) : (seq r t).ends s = (r.ends s).andThen (t.ends s) := by
  unfold seq
  split
  · exact (Ends.stay_andThen _).symm
  · exact (Ends.andThen_stay _).symm
  · rfl

theorem ends_literal (t : List Char) :
    (literal t).ends s = .inSequence (t.map fun c => .one s (.single c)) := by
  induction t with
  | nil => rfl
  | cons c t ih =>
    show (seq (.chars (.single c)) (literal t)).ends s = _
    rw [ends_seq, ih]
    rfl

theorem ends_choices (r : Regular) : r.choices.ends s = r.ends s := by
  cases r <;> rfl

/-- Written out, a number of rounds has the ends of the rounds. -/
theorem ends_times (r : Regular) (n : Nat) : (r.times n).ends s = (r.ends s).times n := by
  induction n with
  | zero => rfl
  | succ n ih =>
    show (seq r (r.times n)).ends s = (r.ends s).andThen ((r.ends s).times n)
    rw [ends_seq, ih]

/-- So has a number of rounds at most. -/
theorem ends_upTo (greedy : Bool) (r : Regular) (n : Nat) :
    (upTo greedy r n).ends s = .upTo greedy (r.ends s) n := by
  induction n with
  | zero => rfl
  | succ n ih =>
    show Ends.prefer greedy ((seq r (upTo greedy r n)).ends s) .stay =
      .prefer greedy ((r.ends s).andThen (.upTo greedy (r.ends s) n)) .stay
    rw [ends_seq, ih]

/-- A count with a bound is written out as the rounds that must be and those that may be. -/
theorem counted_some (m n : Nat) (greedy takesSome : Bool) (r : Regular) :
    counted ⟨m, some n, greedy⟩ takesSome r = seq (r.times m) (upTo greedy r (n - m)) := by
  cases m <;> rfl

/-- A count that is written out has the ends of the repetition, in their order unless rounds without a
bound may take nothing. -/
theorem alike_counted {ordered : Prop} (c : Count) (takesSome : Bool) (r : Regular)
    (hp : ordered → c.most = none → ∀ i, i ≤ s.length → i ∉ r.ends s i) :
    Ends.Alike ordered s ((counted c takesSome r).ends s) (.counted s c (r.ends s)) := by
  obtain ⟨least, most, greedy⟩ := c
  have hr := r.forward_ends s
  cases most with
  | some n =>
    refine .of_eq ?_
    rw [counted_some, ends_seq, ends_times, ends_upTo]
    rfl
  | none =>
    have hloop := Ends.alike_loop hr (fun o => hp o rfl) greedy
    cases least with
    | zero =>
      rw [Ends.counted, Ends.times, Ends.stay_andThen]
      cases takesSome with
      | true => exact .refl _
      | false =>
        exact (hloop.prefer (.refl _)).trans (Ends.alike_prefer_many hr (fun o => hp o rfl) greedy)
    | succ n =>
      rw [Ends.counted, Ends.times_succ', Ends.andThen_assoc]
      show Ends.Alike ordered s ((seq (r.times n) (.loop greedy false r)).ends s) _
      rw [ends_seq, ends_times]
      exact .andThen (hr.times n) (.refl _) hloop

/-! ### Nothing taken -/

/-- A pattern that may take no character takes none in the empty text. -/
theorem mem_ends_empty {r : Regular} (hr : r.nullable = true) : 0 ∈ r.ends [] 0 := by
  induction r with
  | empty | start | stop => exact List.mem_singleton.mpr rfl
  | chars => cases hr
  | cat r t ihr iht =>
    obtain ⟨hr, ht⟩ := Bool.and_eq_true_iff.mp hr
    exact List.mem_flatMap.mpr ⟨0, ihr hr, iht ht⟩
  | alt r t ihr iht =>
    exact Ends.mem_prefer.mpr ((Bool.or_eq_true_iff.mp hr).imp ihr iht)
  | fork r ih | group _ r ih => exact ih hr
  | optional => exact Ends.mem_prefer.mpr (.inr (List.mem_singleton.mpr rfl))
  | loop greedy skippable r ih =>
    cases skippable with
    | true => exact List.mem_singleton.mpr rfl
    | false => exact List.mem_flatMap.mpr ⟨0, ih hr, List.mem_singleton.mpr rfl⟩

/-- A pattern that is not nullable takes a character wherever it matches. -/
theorem not_mem_ends {r : Regular} (hr : r.nullable = false) {i : Nat} (hi : i ≤ s.length) :
    i ∉ r.ends s i := by
  induction r with
  | empty | start | stop | optional => simp [nullable] at hr
  | chars set =>
    intro h
    have := (Ends.mem_one.mp h).1
    omega
  | cat r t ihr iht =>
    intro h
    obtain ⟨j, hj, h⟩ := List.mem_flatMap.mp h
    have hij := r.forward_ends s i hi j hj
    obtain rfl : j = i := by have := t.forward_ends s j hij.2 i h; omega
    rcases Bool.and_eq_false_iff.mp hr with hr | ht
    · exact ihr hr hj
    · exact iht ht h
  | alt r t ihr iht =>
    obtain ⟨hr, ht⟩ := Bool.or_eq_false_iff.mp hr
    exact fun h => (Ends.mem_prefer.mp h).elim (ihr hr) (iht ht)
  | fork r ih | group _ r ih => exact ih hr
  | loop greedy skippable r ih =>
    obtain ⟨rfl, hr⟩ := Bool.or_eq_false_iff.mp hr
    intro h
    obtain ⟨j, hj, h⟩ := List.mem_flatMap.mp h
    have hij := r.forward_ends s i hi j hj
    split at h
    · exact ih hr (by rwa [‹j = i›] at hj)
    · have := (r.forward_ends s).many j hij.2 i h
      omega

/-! ### Productive patterns -/

theorem productive_seq {r t : Regular} (hr : r.Productive) (ht : t.Productive) :
    (seq r t).Productive := by
  unfold seq
  split
  · exact ht
  · exact hr
  · exact ⟨hr, ht⟩

theorem productive_literal (t : List Char) : (literal t).Productive := by
  induction t with
  | nil => trivial
  | cons c t ih => exact productive_seq trivial ih

theorem productive_choices {r : Regular} (hr : r.Productive) : r.choices.Productive := by
  cases r <;> exact hr

theorem productive_times {r : Regular} (hr : r.Productive) (n : Nat) : (r.times n).Productive := by
  induction n with
  | zero => trivial
  | succ n ih => exact productive_seq hr ih

theorem productive_upTo {r : Regular} (hr : r.Productive) (greedy : Bool) (n : Nat) :
    (upTo greedy r n).Productive := by
  induction n with
  | zero => trivial
  | succ n ih => exact productive_seq hr ih

/-- A count that is written out is productive if what it repeats is, and takes a character where there
is no bound. -/
theorem productive_counted {r : Regular} (hr : r.Productive) (c : Count) (takesSome : Bool)
    (hn : c.most = none → r.nullable = false) : (counted c takesSome r).Productive := by
  obtain ⟨least, most, greedy⟩ := c
  cases most with
  | some n =>
    rw [counted_some]
    exact productive_seq (productive_times hr _) (productive_upTo hr _ _)
  | none =>
    cases least with
    | zero => cases takesSome <;> exact ⟨hn rfl, hr⟩
    | succ n => exact productive_seq (productive_times hr n) ⟨hn rfl, hr⟩

end Regular

namespace Normal

/-- The smallest form has the ends of the normal form, by what is known of its parts. -/
theorem alike_unrolled_of {ordered : Prop} {s : List Reading} (p : Normal)
    (hp : ordered → p.Productive)
    (hn : ordered → ∀ q : Normal, 0 ∉ q.ends [] 0 → ∀ i, i ≤ s.length →
      i ∉ (q.unrolled false).ends s i) :
    Ends.Alike ordered s ((p.unrolled false).ends s) (p.ends s) := by
  induction p with
  | empty | chars | start | stop => exact .refl _
  | literal t => exact .of_eq (Regular.ends_literal t)
  | cat p q ihp ihq =>
    exact (ihp fun o => (hp o).1).andThen (Regular.forward_ends s _) (ihq fun o => (hp o).2)
  | alt p q ihp ihq =>
    show Ends.Alike ordered s
      (.prefer true ((p.unrolled false).ends s) ((q.unrolled false).choices.ends s))
      (.prefer true (p.ends s) (q.ends s))
    rw [Regular.ends_choices]
    exact (ihp fun o => (hp o).1).prefer (ihq fun o => (hp o).2)
  | group _ p ih => exact ih hp
  | repeated c p ih =>
    refine (Regular.alike_counted c p.takesSome (p.unrolled false) ?_).trans
      ((ih fun o => (hp o).1).counted (Regular.forward_ends s _) c)
    exact fun o hc => hn o p ((hp o).2 hc)

/-- What takes a character in the empty text takes one everywhere. -/
theorem not_nullable {p : Normal} (hp : 0 ∉ p.ends [] 0) : (p.unrolled false).nullable = false := by
  refine Bool.eq_false_iff.mpr fun h => hp ?_
  have := p.alike_unrolled_of (s := []) (fun h : False => h.elim) (fun h : False => h.elim)
  exact ((this 0 (Nat.zero_le _)).mem 0).mp (Regular.mem_ends_empty h)

/-- **The smallest form has the ends of the normal form, and of a productive one it prefers the
same.** -/
theorem alike_unrolled {ordered : Prop} (s : List Reading) {p : Normal}
    (hp : ordered → p.Productive) :
    Ends.Alike ordered s ((p.unrolled false).ends s) (p.ends s) :=
  p.alike_unrolled_of hp fun _ _ hq _ hi => Regular.not_mem_ends (not_nullable hq) hi

/-- The smallest form of a productive pattern is productive. -/
theorem productive_unrolled {p : Normal} (hp : p.Productive) : (p.unrolled false).Productive := by
  induction p with
  | empty | chars | start | stop => trivial
  | literal t => exact Regular.productive_literal t
  | cat p q ihp ihq => exact ⟨ihp hp.1, ihq hp.2⟩
  | alt p q ihp ihq => exact ⟨ihp hp.1, Regular.productive_choices (ihq hp.2)⟩
  | group _ p ih => exact ih hp
  | repeated c p ih =>
    exact Regular.productive_counted (ih hp.1) c _ fun hc => not_nullable (hp.2 hc)

end Normal

end MailPattern
