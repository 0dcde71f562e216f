import MailPattern.Proofs.Search.Progress
import MailPattern.Search.Backtrack

/-!
# Proofs — Search — Limits

What a limit on the ways taken back does to a search and to an iteration.

The ways that a search takes back do not depend on the limit: whatever is tried has one outcome at one
cost, and comes to no answer exactly under a limit below the cost (`Attempt.Priced`).  This holds of
every plan, part by part (`priced_run`).  So a search under a limit is the search without one, cut
off where it costs more (`find_eq_capped`).

An iteration ends at the first search that gives up.  So it reports the first of the matches that it
would report if the searches that give up came to an answer (`Iteration.take_cuts`).
-/

namespace MailPattern

namespace Backtrack

/-! ### Limits -/

/-- So many ways may be taken back. -/
def Limit.allows : Limit → Nat → Bool
  | none, _ => true
  | some n, cost => cost ≤ n

/-- What is left of the limit after so many ways. -/
def Limit.less (limit : Limit) (cost : Nat) : Limit := limit.map (· - cost)

/-- The second limit is no lower. -/
def Limit.AtMost : Limit → Limit → Prop
  | _, none => True
  | none, some _ => False
  | some n, some m => n ≤ m

namespace Limit

variable {limit : Limit} {a b : Nat}

@[simp] theorem allows_zero : limit.allows 0 = true := by cases limit <;> rfl

@[simp] theorem less_zero : limit.less 0 = limit := by cases limit <;> rfl

/-- To spend is to give away one, if it is allowed. -/
theorem spend?_eq : limit.spend? = if limit.allows 1 then some (limit.less 1) else none := by
  obtain _ | _ | n := limit <;> simp [spend?, allows, less]

/-- A sum is allowed if its parts are, one after the other. -/
theorem allows_add : limit.allows (a + b) = (limit.allows a && (limit.less a).allows b) := by
  cases limit with
  | none => rfl
  | some n =>
    simp only [allows, less, Option.map_some, ← Bool.decide_and, decide_eq_decide]
    omega

/-- A sum is taken away part by part. -/
theorem less_add : limit.less (a + b) = (limit.less a).less b := by
  cases limit with
  | none => rfl
  | some n => simp [less, Nat.sub_sub]

/-- What a limit allows a higher one allows. -/
theorem AtMost.allows {more : Limit} {cost : Nat} (h : limit.AtMost more)
    (hcost : limit.allows cost = true) : more.allows cost = true := by
  cases more with
  | none => rfl
  | some m =>
    cases limit with
    | none => cases h
    | some n => exact decide_eq_true ((of_decide_eq_true hcost).trans h)

end Limit

/-! ### Costs -/

/-- The way that comes to a match that ends at `stop`, or to none, after `cost` ways are taken back. -/
def Attempt.at (outcome : Option Nat) (cost : Nat) : Attempt := fun limit =>
  if limit.allows cost then
    match outcome with
    | some stop => .matched stop (limit.less cost)
    | none => .failed (limit.less cost)
  else .gaveUp

/-- The way has one outcome, at one cost. -/
def Attempt.Priced (a : Attempt) : Prop := ∃ outcome cost, a = .at outcome cost

variable {a b : Attempt} {o : Option Nat} {j c d : Nat}

namespace Attempt

/-- After a match nothing else is tried. -/
theorem orElse_matched : (Attempt.at (some j) c).orElse b = .at (some j) c := by
  funext limit
  unfold Attempt.orElse Attempt.at
  by_cases h : limit.allows c <;> simp [h]

/-- A match that is excluded is a failure, for the same price. -/
theorem exclude_matched : (Attempt.at (some j) c).exclude b = .at none c := by
  funext limit
  unfold Attempt.exclude Attempt.at
  by_cases h : limit.allows c <;> simp [h]

/-- A way that fails is taken back before the next one is tried. -/
theorem orElse_failed : (Attempt.at none c).orElse (.at o d) = .at o (c + 1 + d) := by
  funext limit
  unfold Attempt.orElse Attempt.at
  simp only [Limit.allows_add, Limit.less_add, Limit.spend?_eq]
  by_cases h : limit.allows c
  · by_cases h1 : (limit.less c).allows 1 <;> simp [h, h1]
  · simp [h]

theorem exclude_failed : (Attempt.at none c).exclude b = (Attempt.at none c).orElse b := by
  funext limit
  unfold Attempt.exclude Attempt.orElse Attempt.at
  by_cases h : limit.allows c <;> simp [h]

/-- To fail costs nothing. -/
theorem priced_fail : Priced fail := ⟨none, 0, by funext limit; simp [fail, Attempt.at]⟩

/-- An attempt after another costs what both do, or what the first one does if that matches. -/
theorem Priced.orElse (ha : a.Priced) (hb : b.Priced) : (a.orElse b).Priced := by
  obtain ⟨_ | j, c, rfl⟩ := ha
  · obtain ⟨o, d, rfl⟩ := hb
    exact ⟨o, c + 1 + d, orElse_failed⟩
  · exact ⟨some j, c, orElse_matched⟩

theorem Priced.exclude (ha : a.Priced) (hb : b.Priced) : (a.exclude b).Priced := by
  obtain ⟨_ | j, c, rfl⟩ := ha
  · rw [exclude_failed]
    exact Priced.orElse ⟨none, c, rfl⟩ hb
  · exact ⟨none, c, exclude_matched⟩

/-- Either order has its price. -/
theorem Priced.prefer {greedy : Bool} (ha : a.Priced) (hb : b.Priced) :
    (prefer greedy a b).Priced := by
  cases greedy with
  | true => exact ha.orElse hb
  | false => exact hb.orElse ha

end Attempt

/-- What is still to be matched has one outcome, at one cost, from each position on. -/
def Continuation.Priced (k : Continuation) : Prop := ∀ i m, (k i m).Priced

theorem Continuation.priced_done : Continuation.Priced done := fun i _ =>
  ⟨some i, 0, by funext limit; simp [done, Attempt.at]⟩

section Loops

variable {body : Continuation → Continuation} {k : Continuation}
  (hbody : ∀ k : Continuation, k.Priced → (body k).Priced)
include hbody

/-- So many rounds have their price, if the body and what follows have. -/
theorem Continuation.Priced.times (hk : k.Priced) (n : Nat) : Priced (times body n k) := by
  induction n with
  | zero => exact hk
  | succ n ih => exact hbody _ ih

/-- So do rounds up to a number. -/
theorem Continuation.Priced.upTo (hk : k.Priced) (greedy : Bool) (n : Nat) :
    Priced (upTo body greedy n k) := by
  induction n with
  | zero => exact hk
  | succ n ih => exact fun i m => (hbody _ ih i m).prefer (hk i m)

/-- And rounds that may take nothing. -/
theorem Continuation.Priced.stalling (hk : k.Priced) (loop least : Nat) (greedy : Bool) (n : Nat) :
    ∀ count, Priced (stalling body loop least greedy k n count) := by
  induction n with
  | zero => exact fun _ => hk
  | succ n ih =>
    intro count i m
    simp only [Backtrack.stalling]
    split
    · exact hk i m
    · split
      · exact hbody _ (ih _) i m
      · exact (hbody _ (ih _) i _).prefer (hk i _)

end Loops

/-- **Every plan has one outcome, at one cost, if what follows it does.** -/
theorem priced_run (s : Subject) (p : Plan) :
    ∀ k : Continuation, k.Priced → Continuation.Priced (run s p k) := by
  induction p with
  | empty => exact fun k hk => hk
  | chars set =>
    intro k hk i m
    simp only [run]
    split
    · split
      · exact hk _ _
      · exact Attempt.priced_fail
    · exact Attempt.priced_fail
  | start | stop =>
    intro k hk i m
    simp only [run]
    split
    · exact hk i m
    · exact Attempt.priced_fail
  | settled sweep groups =>
    intro k hk i m
    simp only [run]
    split
    · exact hk _ _
    · exact Attempt.priced_fail
  | cat p q ihp ihq => exact fun k hk => ihp _ (ihq k hk)
  | alt p q ihp ihq => exact fun k hk i m => (ihp k hk i m).orElse (ihq k hk i m)
  | group n p ih => exact fun k hk i m => ih _ (fun j m => hk j _) i _
  | repeated c p ih =>
    intro k hk i m
    -- what follows the first rounds is the loop, and has its price by the same premise
    simp only [run, many_eq_upTo]
    split
    · exact Continuation.Priced.times ih (fun i m => hk.upTo ih c.greedy _ i m) _ i m
    · exact (hk.upTo ih c.greedy _).times ih _ i m
  | stalling loop least greedy p ih => exact fun k hk i m => hk.stalling ih loop least greedy _ 0 i m
  | look back negative p ih =>
    intro k hk i m
    simp only [run]
    split
    · refine Attempt.Priced.exclude ?_ (hk i m)
      split
      · exact ih _ Continuation.priced_done _ m
      · exact Attempt.priced_fail
    · split
      · exact ih _ (fun _ m => hk i m) _ m
      · exact Attempt.priced_fail
  | «recall» n =>
    intro k hk i m
    simp only [run]
    split
    · split
      · exact hk _ m
      · exact Attempt.priced_fail
    · exact Attempt.priced_fail

/-- The search from each position, given up where it costs more than the limit allows. -/
def capped (find : Nat → Finding) (cost : Nat → Nat) (limit : Limit) : Nat → Finding := fun i =>
  if limit.allows (cost i) then find i else .gaveUp

/-- A search from a position on has a finding and a price, and gives up exactly below the price. -/
theorem exists_cost_from (s : Subject) (p : Plan) (n : Nat) :
    ∀ i, ∃ finding cost, ∀ limit : Limit,
      from? s p n i limit = if limit.allows cost then finding else .gaveUp := by
  induction n with
  | zero => exact fun i => ⟨.missing, 0, fun limit => by simp [from?]⟩
  | succ n ih =>
    intro i
    obtain ⟨outcome, c, hrun⟩ := priced_run s p done Continuation.priced_done i []
    cases outcome with
    | some j =>
      refine ⟨.found ⟨i, j⟩, c, fun limit => ?_⟩
      rw [from?, hrun, Attempt.at]
      by_cases h : limit.allows c <;> simp [h]
    | none =>
      -- the failure here is one more way taken back
      obtain ⟨finding, d, hfrom⟩ := ih (i + 1)
      refine ⟨finding, c + 1 + d, fun limit => ?_⟩
      rw [from?, hrun, Attempt.at]
      simp only [Limit.allows_add, Limit.less_add, Limit.spend?_eq]
      by_cases h : limit.allows c
      · by_cases h1 : (limit.less c).allows 1 <;> simp [h, h1, hfrom]
      · simp [h]

/-- **A search under a limit is the search without one, given up where it costs more.** -/
theorem find_eq_capped (s : Subject) (p : Plan) :
    ∃ cost, ∀ limit, find s p limit = capped (find s p none) cost limit := by
  have hcost (i : Nat) : ∃ cost, ∀ limit : Limit,
      find s p limit i = if limit.allows cost then find s p none i else .gaveUp := by
    obtain ⟨finding, cost, h⟩ := exists_cost_from s p (s.size + 1 - i) i
    have hnone : find s p none i = finding := h none
    exact ⟨cost, fun limit => hnone ▸ h limit⟩
  choose cost hcost using hcost
  exact ⟨cost, fun limit => funext fun i => hcost i limit⟩

end Backtrack

/-! ### Iterations -/

/-- Each of the first searches comes to the answer of the second, or gives up. -/
def Cuts (find full : Nat → Finding) : Prop := ∀ i, find i = .gaveUp ∨ find i = full i

/-- A lower limit cuts off more. -/
theorem Backtrack.cuts_capped {limit more : Limit} (h : limit.AtMost more) (find : Nat → Finding)
    (cost : Nat → Nat) : Cuts (capped find cost limit) (capped find cost more) := by
  intro i
  by_cases hi : limit.allows (cost i)
  · exact .inr (by simp [capped, hi, h.allows hi])
  · exact .inl (by simp [capped, hi])

namespace Iteration

variable {find full : Nat → Finding} {single : Bool} (h : Cuts find full)
include h

/-- A step of the search finds what it finds without a limit, or gives up. -/
theorem seek_cuts (resume : Nat) (last : Option Nat) :
    seek find resume last = .gaveUp ∨ seek find resume last = seek full resume last := by
  unfold seek
  obtain hfind | hfind := h resume
  · exact .inl (by rw [hfind])
  · rw [hfind]
    cases full resume with
    | found s =>
      dsimp only
      split
      · exact h _
      · exact .inr rfl
    | missing | gaveUp => exact .inr rfl

/-- So does a step of the iteration. -/
theorem next_cuts (it : Iteration) :
    (next find single it).1 = .gaveUp ∨ next find single it = next full single it := by
  unfold next
  split
  · exact .inr rfl
  · obtain hseek | hseek := seek_cuts h it.resume it.last
    · exact .inl (by rw [hseek])
    · exact .inr (by rw [hseek])

/-- **Until a search gives up, an iteration reports what it would report otherwise.** -/
theorem take_cuts (n : Nat) : ∀ it,
    (take find single n it).1 <+: (take full single n it).1 ∧
      ((take find single n it).2 = false → take find single n it = take full single n it) := by
  induction n with
  | zero => exact fun it => ⟨List.prefix_rfl, fun _ => rfl⟩
  | succ n ih =>
    intro it
    rw [take, take]
    obtain hnext | hnext := @next_cuts find full single h it
    · -- a step that gives up is the last one and reports nothing
      cases hstep : next find single it with
      | mk finding it' =>
        obtain rfl : finding = .gaveUp := by simpa [hstep] using hnext
        exact ⟨List.nil_prefix, by simp⟩
    · rw [hnext]
      cases hstep : next full single it with
      | mk finding it' =>
        cases finding with
        | found s =>
          obtain ⟨hbegins, hwhole⟩ := ih it'
          refine ⟨by simpa using hbegins, fun hgave => ?_⟩
          simp only at hgave ⊢
          rw [hwhole hgave]
        | missing | gaveUp => exact ⟨List.prefix_rfl, fun _ => rfl⟩

omit h in
/-- A run in which a search gives up has come to its end. -/
theorem length_lt_of_gaveUp (n : Nat) :
    ∀ it, (take find single n it).2 = true → (take find single n it).1.length < n := by
  induction n with
  | zero => simp
  | succ n ih =>
    intro it hgave
    rw [take] at hgave ⊢
    split at hgave
    · exact Nat.succ_lt_succ (ih _ hgave)
    · exact Nat.succ_pos n
    · exact Nat.succ_pos n

end Iteration

end MailPattern
