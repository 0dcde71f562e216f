import MailPattern.Proofs.Search.Goals

/-!
# Proofs — Search — Order

The marks of the sweep and the order of its goals, for patterns in which the body of every loop
takes a character (`Regular.Productive`).

A walk adds its goals to the front in the order of `Regular.lead`, except that it passes no fork a
second time.  That loses nothing as long as everything from the fork on is in the front already.
A fork whose walk is still under way would not be such a one; but no walk comes back to it.  Each
fork has a *rank*, the number of forks on the longest walk from it on (`Regular.forks`), and what
is walked from a fork has smaller ranks.  So the invariant `Front.Settled` speaks of the marked
forks up to a rank, and `Walk.Orderly` says what one walk does under it (`orderly_walk`).
-/

namespace MailPattern

namespace Front

/-- The goals of a front with the ways to them, the preferred first. -/
def goals (f : Front) : List (Goal × Way) :=
  f.threads.reverse.map (fun t => (.point t.point, t.way)) ++
    (f.ended.map fun w => (.finish, w)).toList

/-- The first value that a goal of the front has, and where the way to that goal started. -/
def first {α : Type} (value : Goal → Option α) (f : Front) : Option (Nat × α) :=
  f.goals.findSome? fun a => (value a.1).map (a.2.origin, ·)

/-- If one of the goals has a value, some goal of the front has one, where the end of the pattern
always has a value. -/
def Covers (α : Type) (f : Front) (goals : List Goal) : Prop :=
  ∀ value : Goal → Option α, (value .finish).isSome →
    (goals.findSome? value).isSome → (f.first value).isSome

/-- The fork with number `p` has been passed. -/
def Marked (f : Front) (p : Nat) : Prop := f.passed.testBit p = true

/-- Passing a fork marks it and leaves the other marks as they are. -/
theorem marked_mark {f : Front} {p q : Nat} :
    Marked { f with passed := f.passed ||| (1 <<< p) } q ↔ f.Marked q ∨ q = p := by
  simp only [Marked, Nat.testBit_or, Nat.one_shiftLeft, Nat.testBit_two_pow, Bool.or_eq_true,
    decide_eq_true_eq]
  exact or_congr_right eq_comm

theorem not_marked_empty (p : Nat) : ¬ Marked {} p := by simp [Marked]

/-- A front that has ended has a value, if the end has one. -/
theorem first_isSome_of_ended {α : Type} {f : Front} (h : f.ended.isSome)
    {value : Goal → Option α} (hv : (value .finish).isSome) : (f.first value).isSome := by
  obtain ⟨w, hw⟩ := Option.isSome_iff_exists.mp h
  rw [first, List.findSome?_isSome_iff]
  exact ⟨(.finish, w), by simp [goals, hw], by simpa using hv⟩

theorem covers_nil {α : Type} (f : Front) : Covers α f [] := fun _ _ h => by simp at h

/-- Whatever value is looked for, the second front has the first one's, and after that what the
goals have for a way that started at `origin`. -/
def Extends (α : Type) (f f' : Front) (origin : Nat) (goals : List Goal) : Prop :=
  ∀ value : Goal → Option α, (value .finish).isSome →
    f'.first value = (f.first value).or ((goals.findSome? value).map (origin, ·))

/-- What a front is extended by it covers. -/
theorem Extends.covers {α : Type} {f f' : Front} {origin : Nat} {goals : List Goal}
    (h : Extends α f f' origin goals) : Covers α f' goals :=
  fun value hv hg => by
    obtain ⟨a, ha⟩ := Option.isSome_iff_exists.mp hg
    rw [h value hv, ha]
    cases f.first value <;> rfl

/-- A front that is extended covers what it covered. -/
theorem Extends.mono {α : Type} {f f' : Front} {origin : Nat} {goals goals' : List Goal}
    (h : Extends α f f' origin goals) (hc : Covers α f goals') : Covers α f' goals' :=
  fun value hv hg => by
    rw [h value hv]
    obtain ⟨a, ha⟩ := Option.isSome_iff_exists.mp (hc value hv hg)
    simp [ha]

/-- Goals that are covered add nothing. -/
theorem Covers.extends {α : Type} {f : Front} {origin : Nat} {goals : List Goal}
    (h : Covers α f goals) : Extends α f f origin goals := fun value hv => by
  cases hf : f.first value with
  | some a => simp
  | none =>
    have := mt (h value hv)
    simp only [hf, Option.isSome_none, Bool.false_eq_true, not_false_eq_true,
      Option.not_isSome_iff_eq_none, forall_const] at this
    simp [this]

/-- Two extensions by a walk are one by the goals of both. -/
theorem Extends.trans {α : Type} {f f' f'' : Front} {origin : Nat} {goals goals' : List Goal}
    (h : Extends α f f' origin goals) (h' : Extends α f' f'' origin goals') :
    Extends α f f'' origin (goals ++ goals') := fun value hv => by
  rw [h' value hv, h value hv, List.findSome?_append, Option.or_assoc]
  cases goals.findSome? value <;> simp

end Front

namespace Regular

/-- The pattern may match the empty text. -/
def nullable : Regular → Bool
  | .empty | .start | .stop | .optional .. => true
  | .chars _ => false
  | .cat r s => r.nullable && s.nullable
  | .alt r s => r.nullable || s.nullable
  | .fork r | .group _ r => r.nullable
  | .loop _ skippable r => skippable || r.nullable

/-- The body of every loop takes a character. -/
def Productive : Regular → Prop
  | .empty | .start | .stop | .chars _ => True
  | .cat r s | .alt r s => r.Productive ∧ s.Productive
  | .fork r | .group _ r | .optional _ r => r.Productive
  | .loop _ _ r => r.nullable = false ∧ r.Productive

/-- The number of forks on the longest walk through `r`, when `n` is that of the walks after it. -/
def depth : Regular → Nat → Nat
  | .empty, n | .start, n | .stop, n => n
  | .chars _, _ => 0
  | .cat r s, n => r.depth (s.depth n)
  | .alt r s, n => max (r.depth n) (s.depth n)
  | .fork r, n => r.depth n + 1
  | .optional _ r, n | .loop _ true r, n => max (r.depth n) n + 1
  | .loop _ false r, n => r.depth n
  | .group _ r, n => r.depth n

/-- The rank of each fork of `r` and the goals from there on, when what follows `r` has the rank `n`
and the goals `after`. -/
def forks : Regular → Nat → Nat → List Goal → Here → List (Nat × List Goal)
  | .empty, _, _, _, _ | .start, _, _, _, _ | .stop, _, _, _, _ => []
  | .chars _, _, _, _, _ => [(0, [])]
  | .cat r s, base, n, after, h =>
    r.forks base (s.depth n) (s.lead (base + r.points) after h) h ++
      s.forks (base + r.points) n after h
  | .alt r s, base, n, after, h =>
    r.forks base n after h ++ s.forks (base + r.points) n after h
  | .fork r, base, n, after, h =>
    (r.depth n + 1, r.lead (base + 1) after h) :: r.forks (base + 1) n after h
  | .optional greedy r, base, n, after, h =>
    (max (r.depth n) n + 1, inOrder greedy (r.lead (base + 1) after h) after) ::
      r.forks (base + 1) n after h
  | .loop greedy _ r, base, n, after, h =>
    (max (r.depth n) n + 1, r.again greedy base after h) ::
      r.forks (base + 1) (max (r.depth n) n + 1) (r.again greedy base after h) h
  | .group _ r, base, n, after, h => r.forks base n after h

/-- As many forks are listed as the pattern numbers. -/
theorem length_forks (r : Regular) :
    ∀ base n after h, (r.forks base n after h).length = r.points := by
  induction r with
  | empty | start | stop | chars => intros; rfl
  | cat r s ihr ihs | alt r s ihr ihs => intros; simp [forks, points, ihr, ihs]
  | fork r ih | optional _ r ih | loop _ _ r ih => intros; simp [forks, points, ih]
  | group _ r ih => intros; simp [forks, points, ih]

/-- What takes a character does not come to what follows it. -/
theorem lead_of_not_nullable {r : Regular} (hr : r.nullable = false) :
    ∀ base after after' h, r.lead base after h = r.lead base after' h := by
  induction r with
  | empty | start | stop | optional => simp [nullable] at hr
  | chars => intros; rfl
  | cat r s ihr ihs =>
    intro base after after' h
    rcases (Bool.and_eq_false_iff.mp hr) with hr | hs
    · exact ihr hr _ _ _ _
    · rw [lead, lead, ihs hs _ after after']
  | alt r s ihr ihs =>
    intro base after after' h
    obtain ⟨hr, hs⟩ := Bool.or_eq_false_iff.mp hr
    rw [lead, lead, ihr hr _ after after', ihs hs _ after after']
  | fork r ih | group _ r ih => intro base after after' h; exact ih hr _ _ _ _
  | loop _ skippable r ih =>
    obtain ⟨rfl, hr⟩ := Bool.or_eq_false_iff.mp hr
    intro base after after' h
    exact ih hr _ _ _ _

/-- Where a character must be taken no walk comes to the forks of what follows. -/
theorem depth_of_not_nullable {r : Regular} (hr : r.nullable = false) :
    ∀ n n', r.depth n = r.depth n' := by
  induction r with
  | empty | start | stop | optional => simp [nullable] at hr
  | chars => intros; rfl
  | cat r s ihr ihs =>
    intro n n'
    rcases (Bool.and_eq_false_iff.mp hr) with hr | hs
    · exact ihr hr _ _
    · rw [depth, depth, ihs hs n n']
  | alt r s ihr ihs =>
    intro n n'
    obtain ⟨hr, hs⟩ := Bool.or_eq_false_iff.mp hr
    rw [depth, depth, ihr hr n n', ihs hs n n']
  | fork r ih => intro n n'; rw [depth, depth, ih hr n n']
  | group _ r ih => intro n n'; exact ih hr _ _
  | loop _ skippable r ih =>
    obtain ⟨rfl, hr⟩ := Bool.or_eq_false_iff.mp hr
    intro n n'
    exact ih hr _ _

end Regular

/-! ### Passing a fork -/

/-- A fork that is marked is not passed again, nor any once the end has been reached. -/
theorem Walk.pass_of_marked {p : Nat} {k : Walk} {h : Here} {w : Way} {f : Front}
    (hs : (f.ended.isSome || f.passed.testBit p) = true) : Walk.pass p k h w f = f := by
  rw [Walk.pass, if_pos hs]

/-- A fork that is not passed yet is marked, and the walk goes on. -/
theorem Walk.pass_of_not_marked {p : Nat} {k : Walk} {h : Here} {w : Way} {f : Front}
    (hs : ¬ (f.ended.isSome || f.passed.testBit p) = true) :
    Walk.pass p k h w f = k h w { f with passed := f.passed ||| (1 <<< p) } := by
  rw [Walk.pass, if_neg hs]

/-! ### Walks in order -/

/-- The marked forks up to rank `n` are settled: the goals from there on are covered. -/
def Front.Settled (α : Type) (forks : List (Nat × List Goal)) (n : Nat) (f : Front) : Prop :=
  ∀ p rank goals, forks[p]? = some (rank, goals) → rank ≤ n → f.Marked p → f.Covers α goals

/-- A walk from one position that adds these goals in order.  It keeps the forks up to rank `n`
settled and marks no others. -/
structure Walk.Orderly (α : Type) (forks : List (Nat × List Goal)) (h : Here) (k : Walk)
    (goals : List Goal) (n : Nat) : Prop where
  extend : ∀ w (f : Front), f.Settled α forks n → f.Extends α (k h w f) w.origin goals
  settle : ∀ w (f : Front), f.Settled α forks n → (k h w f).Settled α forks n
  keep : ∀ w (f : Front) p rank goals, forks[p]? = some (rank, goals) → n < rank →
    ((k h w f).Marked p ↔ f.Marked p)

namespace Walk.Orderly

variable {α : Type} {forks : List (Nat × List Goal)} {h : Here} {k l : Walk}
  {goals goals' : List Goal} {n m : Nat}

theorem nowhere : Orderly α forks h Walk.nowhere [] n where
  extend _ f _ := (f.covers_nil).extends
  settle _ _ hf := hf
  keep _ _ _ _ _ _ _ := Iff.rfl

/-- A walk that adds one goal to the front and marks nothing. -/
theorem of_goal {g : Goal} (hk : ∀ w (f : Front), f.Extends α (k h w f) w.origin [g])
    (hp : ∀ w f, (k h w f).passed = f.passed) : Orderly α forks h k [g] n where
  extend w f _ := hk w f
  settle w f hf p rank goals hF hn hm := by
    refine (hk w f).mono (hf p rank goals hF hn ?_)
    rwa [Front.Marked, hp w f] at hm
  keep w f p _ _ _ _ := by rw [Front.Marked, Front.Marked, hp w f]

theorem finish : Orderly α forks h Walk.finish [.finish] n := by
  refine of_goal (fun w f value hv => ?_) fun w f => ?_
  · by_cases he : f.ended.isSome
    · obtain ⟨a, ha⟩ := Option.isSome_iff_exists.mp (Front.first_isSome_of_ended he hv)
      simp [Walk.finish, he, ha]
    · simp only [Option.not_isSome_iff_eq_none] at he
      simp [Walk.finish, he, Front.first, Front.goals, List.findSome?_append]
  · unfold Walk.finish
    split <;> rfl

/-- A walk that comes to a point adds that point. -/
theorem arrive (p : Nat) : Orderly α forks h (Walk.arrive p) [.point p] n := by
  refine of_goal (fun w f value hv => ?_) fun w f => ?_
  · by_cases he : f.ended.isSome
    · obtain ⟨a, ha⟩ := Option.isSome_iff_exists.mp (Front.first_isSome_of_ended he hv)
      simp [Walk.arrive, he, ha]
    · simp only [Option.not_isSome_iff_eq_none] at he
      simp [Walk.arrive, he, Front.first, Front.goals, List.findSome?_append]
  · unfold Walk.arrive
    split <;> rfl

/-- What is orderly up to a rank is orderly up to a greater one. -/
theorem mono (hk : Orderly α forks h k goals n) (hnm : n ≤ m) : Orderly α forks h k goals m where
  extend w f hf := hk.extend w f fun p rank goals hF hr => hf p rank goals hF (hr.trans hnm)
  settle w f hf p rank goals hF hr hm := by
    have hfn : f.Settled α forks n := fun p rank goals hF hr => hf p rank goals hF (hr.trans hnm)
    by_cases hrn : rank ≤ n
    · exact hk.settle w f hfn p rank goals hF hrn hm
    · rw [hk.keep w f p rank goals hF (by omega)] at hm
      exact (hk.extend w f hfn).mono (hf p rank goals hF hr hm)
  keep w f p rank goals hF hr := hk.keep w f p rank goals hF (by omega)

/-- One walk and then another. -/
theorem both (hk : Orderly α forks h k goals n) (hl : Orderly α forks h l goals' n) :
    Orderly α forks h (fun h w f => l h w (k h w f)) (goals ++ goals') n where
  extend w f hf := (hk.extend w f hf).trans (hl.extend w _ (hk.settle w f hf))
  settle w f hf := hl.settle w _ (hk.settle w f hf)
  keep w f p rank goals hF hr :=
    (hl.keep w _ p rank goals hF hr).trans (hk.keep w f p rank goals hF hr)

/-- Of two walks the preferred one adds its goals first. -/
theorem prefer {greedy : Bool} (hk : Orderly α forks h k goals n)
    (hl : Orderly α forks h l goals' n) :
    Orderly α forks h (Walk.prefer greedy k l) (inOrder greedy goals goals') n := by
  cases greedy with
  | true => exact hk.both hl
  | false => exact hl.both hk

/-- A walk that is taken under a condition on the position. -/
theorem guard (hk : Orderly α forks h k goals n) (at? : Here → Prop) [DecidablePred at?] :
    Orderly α forks h (fun h w f => if at? h then k h w f else f) (if at? h then goals else [])
      n := by
  by_cases hh : at? h <;> refine ⟨fun w f hf => ?_, fun w f hf => ?_, fun w f => ?_⟩ <;>
    simp only [hh, if_true, if_false]
  · exact hk.extend w f hf
  · exact hk.settle w f hf
  · exact hk.keep w f
  · exact f.covers_nil.extends
  · exact hf
  · exact fun _ _ _ _ _ => trivial

theorem note (s : Slot) (hk : Orderly α forks h k goals n) :
    Orderly α forks h (Walk.note s k) goals n where
  extend _ f hf := hk.extend _ f hf
  settle _ f hf := hk.settle _ f hf
  keep _ f := hk.keep _ f

/-- A fork is passed with everything of smaller rank from there on, or it has been settled. -/
theorem pass {p : Nat} (hk : Orderly α forks h k goals n) (hF : forks[p]? = some (m, goals))
    (hnm : n < m) : Orderly α forks h (Walk.pass p k) goals m := by
  -- the fork itself is marked before it is settled, but its rank is not below `n`
  have enter : ∀ f : Front, f.Settled α forks m →
      Front.Settled α forks n { f with passed := f.passed ||| (1 <<< p) } := by
    intro f hf q rank goals' hq hr hm
    rcases Front.marked_mark.mp hm with hm | rfl
    · exact hf q rank goals' hq (by omega) hm
    · rw [hF] at hq
      cases hq
      omega
  refine ⟨fun w f hf => ?_, fun w f hf => ?_, fun w f q rank goals' hq hr => ?_⟩
  · by_cases hs : (f.ended.isSome || f.passed.testBit p) = true
    · rw [Walk.pass_of_marked hs]
      refine Front.Covers.extends ?_
      rcases Bool.or_eq_true_iff.mp hs with he | hm
      · exact fun value hv _ => Front.first_isSome_of_ended he hv
      · exact hf p m goals hF le_rfl hm
    · rw [Walk.pass_of_not_marked hs]
      exact hk.extend w _ (enter f hf)
  · by_cases hs : (f.ended.isSome || f.passed.testBit p) = true
    · rwa [Walk.pass_of_marked hs]
    · rw [Walk.pass_of_not_marked hs]
      intro q rank goals' hq hr hm
      by_cases hrn : rank ≤ n
      · exact hk.settle w _ (enter f hf) q rank goals' hq hrn hm
      · rw [hk.keep w _ q rank goals' hq (by omega)] at hm
        rcases Front.marked_mark.mp hm with hm | rfl
        · exact (hk.extend w _ (enter f hf)).mono (hf q rank goals' hq hr hm)
        · rw [hF] at hq
          cases hq
          exact (hk.extend w _ (enter f hf)).covers
  · by_cases hs : (f.ended.isSome || f.passed.testBit p) = true
    · rw [Walk.pass_of_marked hs]
    · rw [Walk.pass_of_not_marked hs, hk.keep w _ q rank goals' hq (by omega), Front.marked_mark]
      refine or_iff_left ?_
      rintro rfl
      rw [hF] at hq
      cases hq
      omega

end Walk.Orderly

/-- **The walk through a productive pattern adds the pattern's goals in order.**  What takes a
character asks nothing of the walk after it. -/
theorem Regular.orderly_walk {α : Type} {forks : List (Nat × List Goal)} {h : Here} :
    ∀ (r : Regular) (base n : Nat) (after : List Goal) (k : Walk), r.Productive →
      StandsAt forks base (r.forks base n after h) →
      (r.nullable = true → Walk.Orderly α forks h k after n) →
      Walk.Orderly α forks h (r.walk base k) (r.lead base after h) (r.depth n) := by
  intro r
  induction r with
  | empty => intro base n after k _ _ hk; exact hk rfl
  | chars set => intro base n after k _ _ _; exact .arrive base
  | start =>
    intro base n after k _ _ hk
    exact (hk rfl).guard (fun h => h.index = 0)
  | stop =>
    intro base n after k _ _ hk
    exact (hk rfl).guard (fun h => h.last = true)
  | cat r s ihr ihs =>
    intro base n after k hp ht hk
    have hts := ht.right
    rw [length_forks] at hts
    refine ihr _ _ _ _ hp.1 ht.left fun hr => ihs _ _ _ _ hp.2 hts fun hs => hk ?_
    rw [nullable, hr, hs]
    rfl
  | alt r s ihr ihs =>
    intro base n after k hp ht hk
    have hts := ht.right
    rw [length_forks] at hts
    have hr := ihr _ _ _ k hp.1 ht.left fun hr => hk (by rw [nullable, hr]; rfl)
    have hs := ihs _ _ _ k hp.2 hts fun hs => hk (by rw [nullable, hs, Bool.or_true])
    exact (hr.mono (le_max_left _ _)).both (hs.mono (le_max_right _ _))
  | fork r ih =>
    intro base n after k hp ht hk
    exact (ih _ _ _ _ hp ht.tail hk).pass ht.head (Nat.lt_succ_self _)
  | optional greedy r ih =>
    intro base n after k hp ht hk
    have hr := ih _ _ _ k hp ht.tail fun _ => hk rfl
    refine Walk.Orderly.pass (n := max (r.depth n) n) ?_ ht.head (Nat.lt_succ_self _)
    exact (hr.mono (le_max_left _ _)).prefer ((hk rfl).mono (le_max_right _ _))
  | loop greedy skippable r ih =>
    intro base n after k hp ht hk
    -- the body takes a character, so any walk will do after it
    have body := fun l => ih _ _ _ l hp.2 ht.tail fun hr => absurd hr (by simp [hp.1])
    cases skippable with
    | true =>
      have hr : Walk.Orderly α forks h (r.walk (base + 1) .nowhere) (r.lead (base + 1) [] h)
          (r.depth n) := by
        rw [lead_of_not_nullable hp.1 _ _ (r.again greedy base after h) h,
          depth_of_not_nullable hp.1 _ (max (r.depth n) n + 1)]
        exact body _
      refine Walk.Orderly.pass (n := max (r.depth n) n) ?_ ht.head (Nat.lt_succ_self _)
      exact (hr.mono (le_max_left _ _)).prefer ((hk rfl).mono (le_max_right _ _))
    | false =>
      rw [lead, depth, lead_of_not_nullable hp.1 _ _ (r.again greedy base after h) h,
        depth_of_not_nullable hp.1 _ (max (r.depth n) n + 1)]
      exact body _
  | group i r ih =>
    intro base n after k hp ht hk
    exact (ih _ _ _ _ hp ht fun hr => (hk hr).note _).note _

end MailPattern
