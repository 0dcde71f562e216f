import MailPattern.Proofs.Search.Order

/-!
# Proofs — Search — Closure

The marks of the sweep for every pattern, whatever the bodies of its loops take.

Here a walk may come back to a fork that is still under way, and then the order of its goals
depends on the way it came.  Which goals are added does not.  The forks and goals are the *nodes*
of a graph: `Regular.heads` are the nodes a walk through a pattern comes to first, and
`Regular.arms` are those it comes to next from each fork.  A walk visits its heads, and when it
ends, the arms of every fork that it marked have been visited (`visits_walk`).  So once no walk is
under way the marks are closed under arms (`Front.Closed`), and a visited head covers all goals
behind it (`covered_of_heads`).
-/

namespace MailPattern

/-! ### What is added -/

/-- A walk that adds only goals of the list, for the way that it is given. -/
def Walk.Adds (h : Here) (k : Walk) (goals : List Goal) : Prop :=
  ∀ w f, ∃ new, (k h w f).goals = f.goals ++ new ∧
    ∀ a ∈ new, a.2.origin = w.origin ∧ a.1 ∈ goals

namespace Walk.Adds

variable {h : Here} {k l : Walk} {goals goals' : List Goal}

/-- Going nowhere adds nothing. -/
theorem nowhere : Adds h Walk.nowhere goals := fun _ f =>
  ⟨[], by simp [Walk.nowhere], by simp⟩

/-- Finishing adds the end. -/
theorem finish : Adds h Walk.finish [.finish] := fun w f => by
  by_cases he : f.ended.isSome
  · exact ⟨[], by simp [Walk.finish, he], by simp⟩
  · simp only [Option.not_isSome_iff_eq_none] at he
    exact ⟨[(.finish, w)], by simp [Walk.finish, he, Front.goals], by simp⟩

/-- Arriving at a point adds the point. -/
theorem arrive (p : Nat) : Adds h (Walk.arrive p) [.point p] := fun w f => by
  by_cases he : f.ended.isSome
  · exact ⟨[], by simp [Walk.arrive, he], by simp⟩
  · simp only [Option.not_isSome_iff_eq_none] at he
    exact ⟨[(.point p, w)], by simp [Walk.arrive, he, Front.goals], by simp⟩

/-- What adds some goals adds no others than more goals. -/
theorem mono (hk : Adds h k goals) (hs : goals ⊆ goals') : Adds h k goals' := fun w f => by
  obtain ⟨new, he, hn⟩ := hk w f
  exact ⟨new, he, fun a ha => ⟨(hn a ha).1, hs (hn a ha).2⟩⟩

/-- To go two ways that add the same goals adds these. -/
theorem both (hk : Adds h k goals) (hl : Adds h l goals) :
    Adds h (fun h w f => l h w (k h w f)) goals := fun w f => by
  obtain ⟨new, he, hn⟩ := hk w f
  obtain ⟨new', he', hn'⟩ := hl w (k h w f)
  refine ⟨new ++ new', by rw [he', he, List.append_assoc], fun a ha => ?_⟩
  exact (List.mem_append.mp ha).elim (hn a) (hn' a)

/-- To prefer one way to another adds the goals of both, in this order. -/
theorem prefer {greedy : Bool} (hk : Adds h k goals) (hl : Adds h l goals') :
    Adds h (Walk.prefer greedy k l) (inOrder greedy goals goals') := by
  have hk' : Adds h k (inOrder greedy goals goals') := hk.mono fun _ ha => mem_inOrder.mpr (.inl ha)
  have hl' : Adds h l (inOrder greedy goals goals') := hl.mono fun _ ha => mem_inOrder.mpr (.inr ha)
  cases greedy with
  | true => exact hk'.both hl'
  | false => exact hl'.both hk'

/-- Saving a position adds nothing. -/
theorem note (s : Slot) (hk : Adds h k goals) : Adds h (Walk.note s k) goals :=
  fun _ f => hk _ f

/-- What is done only in some places adds its goals only there. -/
theorem guard (hk : Adds h k goals) (at? : Here → Prop) [DecidablePred at?] :
    Adds h (fun h w f => if at? h then k h w f else f) (if at? h then goals else []) :=
  fun w f => by
    by_cases hh : at? h
    · simpa only [hh, if_true] using hk w f
    · exact ⟨[], by simp [hh], by simp⟩

/-- A fork that may have been passed adds what it leads to, or nothing new. -/
theorem pass (p : Nat) (hk : Adds h k goals) : Adds h (Walk.pass p k) goals := fun w f => by
  unfold Walk.pass
  split
  · exact ⟨[], by simp, by simp⟩
  · exact hk w _

end Walk.Adds

/-- Walking a pattern adds what it leads to. -/
theorem Regular.adds_walk {h : Here} :
    ∀ (r : Regular) (base : Nat) (after : List Goal) (k : Walk), Walk.Adds h k after →
      Walk.Adds h (r.walk base k) (r.lead base after h) := by
  intro r
  induction r with
  | empty => intro base after k hk; exact hk
  | chars => intro base after k _; exact .arrive base
  | start => intro base after k hk; exact hk.guard (fun h => h.index = 0)
  | stop => intro base after k hk; exact hk.guard (fun h => h.last = true)
  | cat r s ihr ihs => intro base after k hk; exact ihr _ _ _ (ihs _ _ _ hk)
  | alt r s ihr ihs =>
    intro base after k hk
    have hr := (ihr base _ _ hk).mono (List.subset_append_left _ (s.lead (base + r.points) after h))
    have hs := (ihs (base + r.points) _ _ hk).mono
      (List.subset_append_right (r.lead base after h) _)
    exact hr.both hs
  | fork r ih => intro base after k hk; exact (ih _ _ _ hk).pass _
  | optional greedy r ih => intro base after k hk; exact ((ih _ _ _ hk).prefer hk).pass _
  | loop greedy skippable r ih =>
    intro base after k hk
    cases skippable with
    | true => exact ((ih _ _ _ .nowhere).prefer hk).pass _
    | false => exact ih _ _ _ (hk.pass _)
  | group i r ih => intro base after k hk; exact (ih _ _ _ (hk.note _)).note _

/-! ### Nodes -/

/-- Where a walk comes to next: a fork or a goal. -/
inductive Node where
  | fork (p : Nat)
  | goal (g : Goal)
deriving DecidableEq, Repr

/-- The front has come to the node.  Once it is ended nothing more is looked at. -/
def Front.Visited (f : Front) : Node → Prop
  | .fork p => f.ended.isSome ∨ f.Marked p
  | .goal g => f.ended.isSome ∨ ∃ w, (g, w) ∈ f.goals

/-- Once the end is reached, everything counts as visited. -/
theorem Front.visited_of_ended {f : Front} (h : f.ended.isSome) : ∀ n, f.Visited n
  | .fork _ => .inl h
  | .goal _ => .inl h

namespace Regular

/-- The nodes that the walk through `r` comes to first, when those after `r` are `after`. -/
def heads : Regular → Nat → List Node → Here → List Node
  | .empty, _, after, _ => after
  | .chars _, base, _, _ => [.goal (.point base)]
  | .start, _, after, h => if h.index = 0 then after else []
  | .stop, _, after, h => if h.last then after else []
  | .cat r s, base, after, h => r.heads base (s.heads (base + r.points) after h) h
  | .alt r s, base, after, h => r.heads base after h ++ s.heads (base + r.points) after h
  | .fork _, base, _, _ | .optional _ _, base, _, _ | .loop _ true _, base, _, _ => [.fork base]
  | .loop _ false r, base, _, h => r.heads (base + 1) [.fork base] h
  | .group _ r, base, after, h => r.heads base after h

/-- The nodes that a walk comes to next from each fork of `r`. -/
def arms : Regular → Nat → List Node → Here → List (List Node)
  | .empty, _, _, _ | .start, _, _, _ | .stop, _, _, _ => []
  | .chars _, _, _, _ => [[]]
  | .cat r s, base, after, h =>
    r.arms base (s.heads (base + r.points) after h) h ++ s.arms (base + r.points) after h
  | .alt r s, base, after, h => r.arms base after h ++ s.arms (base + r.points) after h
  | .fork r, base, after, h => r.heads (base + 1) after h :: r.arms (base + 1) after h
  | .optional _ r, base, after, h =>
    (r.heads (base + 1) after h ++ after) :: r.arms (base + 1) after h
  | .loop _ _ r, base, after, h =>
    (r.heads (base + 1) [.fork base] h ++ after) :: r.arms (base + 1) [.fork base] h
  | .group _ r, base, after, h => r.arms base after h

/-- Every point of a pattern has its arms. -/
theorem length_arms (r : Regular) : ∀ base after h, (r.arms base after h).length = r.points := by
  induction r with
  | empty | start | stop | chars => intros; rfl
  | cat r s ihr ihs | alt r s ihr ihs => intros; simp [arms, points, ihr, ihs]
  | fork r ih | optional _ r ih | loop _ _ r ih => intros; simp [arms, points, ih]
  | group _ r ih => intros; simp [arms, points, ih]

end Regular

/-! ### What is visited -/

/-- A walk that, from a front that has visited `known`, visits all of `nodes` and the arms of every
fork that it marks. -/
structure Walk.Visits (arms : List (List Node)) (h : Here) (known : List Node) (k : Walk)
    (nodes : List Node) : Prop where
  mono : ∀ w (f : Front), (∀ n ∈ known, f.Visited n) → ∀ n, f.Visited n → (k h w f).Visited n
  visit : ∀ w (f : Front), (∀ n ∈ known, f.Visited n) → ∀ n ∈ nodes, (k h w f).Visited n
  close : ∀ w (f : Front), (∀ n ∈ known, f.Visited n) → ∀ p a, arms[p]? = some a →
    (k h w f).Marked p → f.Marked p ∨ ∀ n ∈ a, (k h w f).Visited n

namespace Walk.Visits

variable {arms : List (List Node)} {h : Here} {known known' : List Node} {k l : Walk}
  {nodes nodes' : List Node}

theorem nowhere (hs : nodes ⊆ known) : Visits arms h known Walk.nowhere nodes where
  mono _ _ _ _ hn := hn
  visit _ _ hf n hn := hf n (hs hn)
  close _ _ _ _ _ _ hm := .inl hm

/-- A walk that adds one goal and marks nothing. -/
theorem of_goal {g : Goal} (hk : Adds h k [g]) (hp : ∀ w f, (k h w f).passed = f.passed)
    (he : ∀ w f, f.ended.isSome → (k h w f).ended.isSome)
    (hg : ∀ w f, (k h w f).Visited (.goal g)) : Visits arms h known k [.goal g] where
  mono w f _ n hn := by
    cases n with
    | fork p =>
      rcases hn with hn | hn
      · exact .inl (he w f hn)
      · exact .inr (by rwa [Front.Marked, hp w f])
    | goal g =>
      rcases hn with hn | ⟨w', hn⟩
      · exact .inl (he w f hn)
      · obtain ⟨new, hgoals, -⟩ := hk w f
        exact .inr ⟨w', by rw [hgoals]; exact List.mem_append_left _ hn⟩
  visit w f _ n hn := by
    obtain rfl := List.mem_singleton.mp hn
    exact hg w f
  close w f _ p _ _ hm := .inl (by rwa [Front.Marked, hp w f] at hm)

theorem finish : Visits arms h known Walk.finish [.goal .finish] := by
  refine of_goal .finish (fun w f => ?_) (fun w f he => ?_) fun w f => .inl ?_ <;>
    unfold Walk.finish
  · split <;> rfl
  · simp [he]
  · split <;> simp_all

theorem arrive (p : Nat) : Visits arms h known (Walk.arrive p) [.goal (.point p)] := by
  refine of_goal (.arrive p) (fun w f => ?_) (fun w f he => ?_) fun w f => ?_ <;>
    unfold Walk.arrive
  · split <;> rfl
  · simp [he]
  · split
    · next he => exact .inl he
    · exact .inr ⟨w, by simp [Front.goals]⟩

/-- What visits some nodes visits fewer. -/
theorem subset (hk : Visits arms h known k nodes) (hs : nodes' ⊆ nodes) :
    Visits arms h known k nodes' where
  mono := hk.mono
  visit w f hf n hn := hk.visit w f hf n (hs hn)
  close := hk.close

/-- And does so when more are known. -/
theorem weaken (hk : Visits arms h known k nodes) (hs : known ⊆ known') :
    Visits arms h known' k nodes where
  mono w f hf := hk.mono w f fun n hn => hf n (hs hn)
  visit w f hf := hk.visit w f fun n hn => hf n (hs hn)
  close w f hf := hk.close w f fun n hn => hf n (hs hn)

/-- One walk and then another. -/
theorem both (hk : Visits arms h known k nodes) (hl : Visits arms h known l nodes') :
    Visits arms h known (fun h w f => l h w (k h w f)) (nodes ++ nodes') := by
  have next : ∀ w (f : Front), (∀ n ∈ known, f.Visited n) →
      ∀ n ∈ known, (k h w f).Visited n := fun w f hf n hn => hk.mono w f hf n (hf n hn)
  refine ⟨fun w f hf n hn => ?_, fun w f hf n hn => ?_, fun w f hf p a ha hm => ?_⟩
  · exact hl.mono w _ (next w f hf) n (hk.mono w f hf n hn)
  · rcases List.mem_append.mp hn with hn | hn
    · exact hl.mono w _ (next w f hf) n (hk.visit w f hf n hn)
    · exact hl.visit w _ (next w f hf) n hn
  · rcases hl.close w _ (next w f hf) p a ha hm with hm | hv
    · refine (hk.close w f hf p a ha hm).imp_right fun hv n hn => ?_
      exact hl.mono w _ (next w f hf) n (hv n hn)
    · exact .inr hv

theorem prefer {greedy : Bool} (hk : Visits arms h known k nodes)
    (hl : Visits arms h known l nodes') :
    Visits arms h known (Walk.prefer greedy k l) (nodes ++ nodes') := by
  cases greedy with
  | true => exact hk.both hl
  | false =>
    refine (hl.both hk).subset fun n hn => ?_
    exact List.mem_append.mpr (List.mem_append.mp hn).symm

theorem note (s : Slot) (hk : Visits arms h known k nodes) :
    Visits arms h known (Walk.note s k) nodes where
  mono _ f := hk.mono _ f
  visit _ f := hk.visit _ f
  close _ f := hk.close _ f

theorem guard (hk : Visits arms h known k nodes) (at? : Here → Prop) [DecidablePred at?] :
    Visits arms h known (fun h w f => if at? h then k h w f else f)
      (if at? h then nodes else []) := by
  by_cases hh : at? h <;> refine ⟨fun w f hf => ?_, fun w f hf => ?_, fun w f hf => ?_⟩ <;>
    simp only [hh, if_true, if_false]
  · exact hk.mono w f hf
  · exact hk.visit w f hf
  · exact hk.close w f hf
  · exact fun _ hn => hn
  · exact fun _ hn => absurd hn List.not_mem_nil
  · exact fun _ _ _ hm => .inl hm

/-- Passing a fork visits it, and its arms if they are what is walked from there on. -/
theorem pass {p : Nat} (hp : arms[p]? = some nodes)
    (hk : Visits arms h (.fork p :: known) k nodes) :
    Visits arms h known (Walk.pass p k) [.fork p] := by
  have mark : ∀ (f : Front) n, f.Visited n →
      Front.Visited { f with passed := f.passed ||| (1 <<< p) } n := by
    intro f n hn
    cases n with
    | fork q => exact hn.imp_right fun hm => Front.marked_mark.mpr (.inl hm)
    | goal g => exact hn
  have enter : ∀ f : Front, (∀ n ∈ known, f.Visited n) → ∀ n ∈ Node.fork p :: known,
      Front.Visited { f with passed := f.passed ||| (1 <<< p) } n := by
    intro f hf n hn
    rcases List.mem_cons.mp hn with rfl | hn
    · exact .inr (Front.marked_mark.mpr (.inr rfl))
    · exact mark f n (hf n hn)
  refine ⟨fun w f hf n hn => ?_, fun w f hf n hn => ?_, fun w f hf q a ha hm => ?_⟩
  · by_cases hs : (f.ended.isSome || f.passed.testBit p) = true
    · rwa [Walk.pass_of_marked hs]
    · rw [Walk.pass_of_not_marked hs]
      exact hk.mono w _ (enter f hf) n (mark f n hn)
  · obtain rfl := List.mem_singleton.mp hn
    by_cases hs : (f.ended.isSome || f.passed.testBit p) = true
    · rw [Walk.pass_of_marked hs]
      exact Bool.or_eq_true_iff.mp hs
    · rw [Walk.pass_of_not_marked hs]
      exact hk.mono w _ (enter f hf) _ (enter f hf _ List.mem_cons_self)
  · by_cases hs : (f.ended.isSome || f.passed.testBit p) = true
    · rw [Walk.pass_of_marked hs] at hm
      exact .inl hm
    · rw [Walk.pass_of_not_marked hs] at hm ⊢
      rcases hk.close w _ (enter f hf) q a ha hm with hm | hv
      · rcases Front.marked_mark.mp hm with hm | rfl
        · exact .inl hm
        · rw [hp] at ha
          cases ha
          exact .inr (hk.visit w _ (enter f hf))
      · exact .inr hv

end Walk.Visits

/-- **A walk through a pattern visits its heads, and the arms of every fork that it marks.** -/
theorem Regular.visits_walk {h : Here} :
    ∀ (r : Regular) (arms : List (List Node)) (base : Nat) (after known : List Node) (k : Walk),
      StandsAt arms base (r.arms base after h) → Walk.Visits arms h known k after →
      Walk.Visits arms h known (r.walk base k) (r.heads base after h) := by
  intro r
  induction r with
  | empty => intro arms base after known k _ hk; exact hk
  | chars => intro arms base after known k _ _; exact .arrive base
  | start => intro arms base after known k _ hk; exact hk.guard (fun h => h.index = 0)
  | stop => intro arms base after known k _ hk; exact hk.guard (fun h => h.last = true)
  | cat r s ihr ihs =>
    intro arms base after known k ha hk
    have has := ha.right
    rw [length_arms] at has
    exact ihr _ _ _ _ _ ha.left (ihs _ _ _ _ _ has hk)
  | alt r s ihr ihs =>
    intro arms base after known k ha hk
    have has := ha.right
    rw [length_arms] at has
    exact (ihr _ _ _ _ _ ha.left hk).both (ihs _ _ _ _ _ has hk)
  | fork r ih =>
    intro arms base after known k ha hk
    exact .pass ha.head (ih _ _ _ _ _ ha.tail (hk.weaken (List.subset_cons_self _ _)))
  | optional greedy r ih =>
    intro arms base after known k ha hk
    have hk' := hk.weaken (List.subset_cons_self (.fork base) _)
    exact .pass ha.head ((ih _ _ _ _ _ ha.tail hk').prefer hk')
  | loop greedy skippable r ih =>
    intro arms base after known k ha hk
    have hk' := hk.weaken (List.subset_cons_self (.fork base) _)
    cases skippable with
    | true =>
      refine .pass ha.head (Walk.Visits.prefer (ih _ _ _ _ _ ha.tail (.nowhere ?_)) hk')
      exact List.cons_subset_cons _ (List.nil_subset _)
    | false =>
      -- on its first round the body is visited before the fork of the loop, whose arms lead back
      -- into the body; until the round ends only the way out of the loop counts as its arms
      obtain ⟨hlt, hbase⟩ := List.getElem?_eq_some_iff.mp ha.head
      have other : ∀ p a, p ≠ base → arms[p]? = some a → (arms.set base after)[p]? = some a :=
        fun p a hp ha => by rw [List.getElem?_set_ne (Ne.symm hp), ha]
      have self : (arms.set base after)[base]? = some after := by simp [hlt]
      have out : Walk.Visits (arms.set base after) h known (Walk.pass base k) [.fork base] := by
        refine .pass self ⟨hk'.mono, hk'.visit, fun w f hf p a hp hm => ?_⟩
        by_cases hpb : p = base
        · rw [hpb, self] at hp
          cases hp
          exact .inr (hk'.visit w f hf)
        · rw [List.getElem?_set_ne (Ne.symm hpb)] at hp
          exact hk'.close w f hf p a hp hm
      have body := ih _ _ _ known _ (by
        rw [StandsAt, List.drop_set_of_lt (Nat.lt_succ_self _)]
        exact ha.tail) out
      refine ⟨body.mono, body.visit, fun w f hf p a hp hm => ?_⟩
      by_cases hpb : p = base
      · subst hpb
        rw [ha.head] at hp
        cases hp
        refine (body.close w f hf p _ self hm).imp_right fun hv n hn => ?_
        exact (List.mem_append.mp hn).elim (body.visit w f hf n) (hv n)
      · exact body.close w f hf p a (other p a hpb hp) hm
  | group i r ih =>
    intro arms base after known k ha hk
    exact (ih _ _ _ _ _ ha (hk.note _)).note _

/-! ### What is closed -/

/-- The arms of every marked fork have been visited. -/
def Front.Closed (arms : List (List Node)) (f : Front) : Prop :=
  ∀ p a, arms[p]? = some a → f.Marked p → ∀ n ∈ a, f.Visited n

/-- A walk that visits all it leads to keeps a front closed. -/
theorem Walk.Visits.closed {arms : List (List Node)} {h : Here} {k : Walk} {nodes : List Node}
    (hk : Walk.Visits arms h [] k nodes) (w : Way) {f : Front} (hf : f.Closed arms) :
    (k h w f).Closed arms := fun p a ha hm n hn => by
  have hknown : ∀ n ∈ ([] : List Node), f.Visited n := fun _ hn => absurd hn List.not_mem_nil
  rcases hk.close w f hknown p a ha hm with hm | hv
  · exact hk.mono w f hknown n (hf p a ha hm n hn)
  · exact hv n hn

/-- Behind visited heads all goals are in the front. -/
theorem Regular.covered_of_heads {h : Here} {arms : List (List Node)} {f : Front}
    (hf : f.Closed arms) :
    ∀ (r : Regular) (base : Nat) (after : List Node) (goals : List Goal),
      StandsAt arms base (r.arms base after h) →
      ((∀ n ∈ after, f.Visited n) → ∀ g ∈ goals, f.Visited (.goal g)) →
      (∀ n ∈ r.heads base after h, f.Visited n) →
      ∀ g ∈ r.lead base goals h, f.Visited (.goal g) := by
  have arm : ∀ {p a}, arms[p]? = some a → f.Visited (.fork p) → ∀ n ∈ a, f.Visited n := by
    intro p a ha hv n hn
    exact hv.elim (fun he => Front.visited_of_ended he n) fun hm => hf p a ha hm n hn
  intro r
  induction r with
  | empty => intro base after goals _ hg hh; exact hg hh
  | chars =>
    intro base after goals _ _ hh g hg
    obtain rfl := List.mem_singleton.mp hg
    exact hh _ List.mem_cons_self
  | start =>
    intro base after goals _ hg hh
    by_cases h0 : h.index = 0
    · simp only [heads, lead, h0, if_true] at hh ⊢
      exact hg hh
    · simp [lead, h0]
  | stop =>
    intro base after goals _ hg hh
    by_cases h0 : h.last = true
    · simp only [heads, lead, h0, if_true] at hh ⊢
      exact hg hh
    · simp [lead, h0]
  | cat r s ihr ihs =>
    intro base after goals ha hg hh
    have has := ha.right
    rw [length_arms] at has
    exact ihr _ _ _ ha.left (ihs _ _ _ has hg) hh
  | alt r s ihr ihs =>
    intro base after goals ha hg hh g hgl
    have has := ha.right
    rw [length_arms] at has
    rcases List.mem_append.mp hgl with hgl | hgl
    · exact ihr _ _ _ ha.left hg (fun n hn => hh n (List.mem_append_left _ hn)) g hgl
    · exact ihs _ _ _ has hg (fun n hn => hh n (List.mem_append_right _ hn)) g hgl
  | fork r ih =>
    intro base after goals ha hg hh
    exact ih _ _ _ ha.tail hg (arm ha.head (hh _ List.mem_cons_self))
  | optional greedy r ih =>
    intro base after goals ha hg hh g hgl
    have hv := arm ha.head (hh _ List.mem_cons_self)
    rcases mem_inOrder.mp hgl with hgl | hgl
    · exact ih _ _ _ ha.tail hg (fun n hn => hv n (List.mem_append_left _ hn)) g hgl
    · exact hg (fun n hn => hv n (List.mem_append_right _ hn)) g hgl
  | loop greedy skippable r ih =>
    intro base after goals ha hg hh g hgl
    cases skippable with
    | true =>
      have hv := arm ha.head (hh _ List.mem_cons_self)
      rcases mem_inOrder.mp hgl with hgl | hgl
      · exact ih _ _ [] ha.tail (fun _ g hg => absurd hg List.not_mem_nil)
          (fun n hn => hv n (List.mem_append_left _ hn)) g hgl
      · exact hg (fun n hn => hv n (List.mem_append_right _ hn)) g hgl
    | false =>
      -- the fork of the loop is a head behind the body, and its second arm leads out of the loop
      refine ih _ _ _ ha.tail (fun hb => hg fun n hn => ?_) hh g hgl
      exact arm ha.head (hb _ List.mem_cons_self) n (List.mem_append_right _ hn)
  | group i r ih => intro base after goals ha hg hh; exact ih _ _ _ ha hg hh

/-- Where order does not count, a walk extends the front by the goals that it adds and covers. -/
theorem Front.extends_of_covered {h : Here} {k : Walk} {goals : List Goal} {w : Way} {f : Front}
    (hk : Walk.Adds h k goals) (hc : ∀ g ∈ goals, (k h w f).Visited (.goal g)) :
    f.Extends Unit (k h w f) w.origin goals := fun value hv => by
  obtain ⟨new, he, hn⟩ := hk w f
  have split : (k h w f).first value =
      (f.first value).or (new.findSome? fun a => (value a.1).map (a.2.origin, ·)) := by
    rw [first, he, List.findSome?_append, first]
  rw [split]
  cases hf : f.first value with
  | some a => rfl
  | none =>
    simp only [Option.none_or]
    cases hg : goals.findSome? value with
    | none =>
      rw [List.findSome?_eq_none_iff] at hg
      rw [Option.map_none, List.findSome?_eq_none_iff]
      exact fun a ha => by rw [hg _ (hn a ha).2]; rfl
    | some u =>
      obtain ⟨g, hmem, hgv⟩ := List.exists_of_findSome?_eq_some hg
      have found : ((k h w f).first value).isSome := by
        rcases hc g hmem with he | ⟨w', hw'⟩
        · exact first_isSome_of_ended he hv
        · rw [first, List.findSome?_isSome_iff]
          exact ⟨_, hw', by simp [hgv]⟩
      rw [split, hf, Option.none_or] at found
      obtain ⟨b, hb⟩ := Option.isSome_iff_exists.mp found
      obtain ⟨a, ha, hab⟩ := List.exists_of_findSome?_eq_some hb
      rw [hb, ← hab, (hn a ha).1]
      obtain ⟨v, hv', -⟩ := Option.map_eq_some_iff.mp hab
      rw [hv']

end MailPattern
