import MailPattern.Proofs.Search.Ends
import MailPattern.Search.Sweep

/-!
# Proofs — Search — Goals

The sweep without its marks.  A walk from a position comes to *goals*, the sets that have to take
the next character and the end of the pattern, and `Regular.lead` lists them with the preferred
goal first.  `Regular.table` has a line for each point: its set, and the goals after it.  Then
`explore` reads the rest of the text from a goal on and lists the ends it comes to.

Nothing is left out when a fork is passed twice, so `explore_lead` is an equality of lists: the
ends explored from the goals of a pattern are the ends of the pattern, in the same order, for
every pattern and also where the body of a loop takes no character.
-/

namespace MailPattern

/-- Where a walk comes to: the set with number `p`, or the end of the pattern. -/
inductive Goal where
  | point (p : Nat)
  | finish
deriving DecidableEq, Repr

/-- Both lists, in the order that `greedy` prefers. -/
def inOrder {α : Type} (greedy : Bool) (more less : List α) : List α :=
  if greedy then more ++ less else less ++ more

theorem mem_inOrder {α : Type} {greedy : Bool} {more less : List α} {a : α} :
    a ∈ inOrder greedy more less ↔ a ∈ more ∨ a ∈ less := by
  cases greedy <;> simp [inOrder, or_comm]

theorem flatMap_inOrder {α β : Type} (greedy : Bool) (more less : List α) (f : α → List β) :
    (inOrder greedy more less).flatMap f =
      inOrder greedy (more.flatMap f) (less.flatMap f) := by
  cases greedy <;> simp [inOrder]

namespace Regular

/-- The goals that the walk through `r` comes to, when those after `r` are `after`. -/
def lead : Regular → Nat → List Goal → Here → List Goal
  | .empty, _, after, _ => after
  | .chars _, base, _, _ => [.point base]
  | .start, _, after, h => if h.index = 0 then after else []
  | .stop, _, after, h => if h.last then after else []
  | .cat r s, base, after, h => r.lead base (s.lead (base + r.points) after h) h
  | .alt r s, base, after, h => r.lead base after h ++ s.lead (base + r.points) after h
  | .fork r, base, after, h => r.lead (base + 1) after h
  | .optional greedy r, base, after, h => inOrder greedy (r.lead (base + 1) after h) after
  | .loop greedy true r, base, after, h => inOrder greedy (r.lead (base + 1) [] h) after
  | .loop _ false r, base, after, h => r.lead (base + 1) after h
  | .group _ r, base, after, h => r.lead base after h

/-- The goals after one round of the loop over `r`: another round, or what follows the loop. -/
def again (greedy : Bool) (r : Regular) (base : Nat) (after : List Goal) (h : Here) : List Goal :=
  inOrder greedy (r.lead (base + 1) [] h) after

/-- The set of each point of `r` and the goals after it, when `after` follows `r`.  At a fork no
character is taken. -/
def table : Regular → Nat → (Here → List Goal) → List (CharSet × (Here → List Goal))
  | .empty, _, _ | .start, _, _ | .stop, _, _ => []
  | .chars set, _, after => [(set, after)]
  | .cat r s, base, after =>
    r.table base (fun h => s.lead (base + r.points) (after h) h) ++
      s.table (base + r.points) after
  | .alt r s, base, after => r.table base after ++ s.table (base + r.points) after
  | .fork r, base, after | .optional _ r, base, after =>
    (⟨[], false⟩, fun _ => []) :: r.table (base + 1) after
  | .loop greedy _ r, base, after =>
    (⟨[], false⟩, fun _ => []) :: r.table (base + 1) fun h => r.again greedy base (after h) h
  | .group _ r, base, after => r.table base after

theorem length_table (r : Regular) : ∀ base after, (r.table base after).length = r.points := by
  induction r with
  | empty | start | stop | chars => intros; rfl
  | cat r s ihr ihs | alt r s ihr ihs => intros; simp [table, points, ihr, ihs]
  | fork r ih | optional _ r ih | loop _ _ r ih => intros; simp [table, points, ih]
  | group _ r ih => intros; simp [table, points, ih]

end Regular

/-- The lines of `part` stand in the table `whole` from `base` on. -/
def StandsAt {α : Type} (whole : List α) (base : Nat) (part : List α) : Prop :=
  part <+: whole.drop base

namespace StandsAt

variable {α : Type} {whole part part' : List α} {base : Nat} {a : α}

theorem refl (whole : List α) : StandsAt whole 0 whole := by
  simp [StandsAt]

theorem left (h : StandsAt whole base (part ++ part')) : StandsAt whole base part :=
  (List.prefix_append part part').trans h

theorem right (h : StandsAt whole base (part ++ part')) :
    StandsAt whole (base + part.length) part' := by
  obtain ⟨rest, h⟩ := h
  refine ⟨rest, ?_⟩
  rw [← List.drop_drop, ← h]
  simp

theorem tail (h : StandsAt whole base (a :: part)) : StandsAt whole (base + 1) part :=
  @right _ _ [a] _ _ h

theorem head (h : StandsAt whole base (a :: part)) : whole[base]? = some a := by
  obtain ⟨rest, h⟩ := h
  have : (whole.drop base)[0]? = some a := by rw [← h]; rfl
  simpa using this

end StandsAt

/-! ### Exploring -/

/-- The ends that are come to from a goal, where `rest` is the text from position `i` on. -/
def explore (table : List (CharSet × (Here → List Goal))) : List Reading → Nat → Goal → List Nat
  | _, i, .finish => [i]
  | [], _, .point _ => []
  | c :: rest, i, .point p =>
    match table[p]? with
    | some (set, after) =>
      if set.admits c then (after ⟨i + 1, rest.isEmpty⟩).flatMap (explore table rest (i + 1))
      else []
    | none => []

/-- The position `i` of the text `s`. -/
def here (s : List Reading) (i : Nat) : Here := ⟨i, (s.drop i).isEmpty⟩

/-- The ends come to from some goals at position `i` of the text. -/
def exploreAll (table : List (CharSet × (Here → List Goal))) (s : List Reading) (goals : List Goal)
    (i : Nat) : List Nat :=
  goals.flatMap (explore table (s.drop i) i)

section Explore

variable {table : List (CharSet × (Here → List Goal))} {s : List Reading}

theorem exploreAll_append (goals goals' : List Goal) (i : Nat) :
    exploreAll table s (goals ++ goals') i =
      exploreAll table s goals i ++ exploreAll table s goals' i := by
  simp [exploreAll]

theorem exploreAll_inOrder (greedy : Bool) (more less : List Goal) (i : Nat) :
    exploreAll table s (inOrder greedy more less) i =
      inOrder greedy (exploreAll table s more i) (exploreAll table s less i) :=
  flatMap_inOrder greedy more less _

/-- From a set, the goals after it are explored at the next position. -/
theorem exploreAll_point {set : CharSet} {after : Here → List Goal} {p i : Nat}
    (hp : table[p]? = some (set, after)) :
    exploreAll table s [.point p] i =
      (Ends.one s set i).flatMap fun j => exploreAll table s (after (here s j)) j := by
  cases hi : s[i]? with
  | none =>
    have : s.drop i = [] := by simpa using hi
    simp [exploreAll, Ends.one, hi, this, explore]
  | some c =>
    have hd : s.drop i = c :: s.drop (i + 1) := by
      obtain ⟨hlt, rfl⟩ := List.getElem?_eq_some_iff.mp hi
      exact List.drop_eq_getElem_cons hlt
    have step : explore table (s.drop i) i (.point p) =
        if set.admits c then exploreAll table s (after (here s (i + 1))) (i + 1) else [] := by
      rw [hd, explore]
      simp only [hp]
      rfl
    by_cases hc : set.admits c <;> simp [exploreAll, step, Ends.one, hi, hc]

end Explore

/-- After a round of a loop come the rounds that `Ends.many` has. -/
theorem exploreAll_again {table : List (CharSet × (Here → List Goal))} {s : List Reading}
    {r : Regular} {base : Nat} {after : Here → List Goal} (greedy : Bool)
    (ih : ∀ i, i ≤ s.length → exploreAll table s (r.lead (base + 1) [] (here s i)) i =
      ((r.ends s).taking i).flatMap fun j =>
        exploreAll table s (r.again greedy base (after (here s j)) (here s j)) j) :
    ∀ i, i ≤ s.length →
      exploreAll table s (r.again greedy base (after (here s i)) (here s i)) i =
        (Ends.many s greedy (r.ends s) i).flatMap fun j =>
          exploreAll table s (after (here s j)) j := by
  intro i hi
  induction hn : s.length - i using Nat.strong_induction_on generalizing i with
  | _ n ihn =>
    have more : exploreAll table s (r.lead (base + 1) [] (here s i)) i =
        ((r.ends s).taking.andThen (Ends.many s greedy (r.ends s)) i).flatMap fun j =>
          exploreAll table s (after (here s j)) j := by
      rw [ih i hi, Ends.andThen, List.flatMap_assoc]
      refine List.flatMap_congr fun j hj => ?_
      have hlt := (Ends.mem_taking.mp hj).2
      have hle := ((r.forward_ends s).taking i hi j hj).2
      exact ihn _ (by omega) j hle rfl
    rw [Regular.again, exploreAll_inOrder, more, Ends.many_eq (r.forward_ends s) greedy hi]
    cases greedy <;> simp [inOrder, Ends.prefer, Ends.stay]

/-- A loop is explored as its body is: a pass that takes no character goes on to the goals
`first`, and every other one to another round or to what follows the loop. -/
theorem exploreAll_loop {table : List (CharSet × (Here → List Goal))} {s : List Reading}
    {r : Regular} {base : Nat} {after : Here → List Goal} (greedy skippable : Bool)
    (ih : ∀ (first : List Goal) (i : Nat), i ≤ s.length →
      exploreAll table s (r.lead (base + 1) first (here s i)) i =
        (r.ends s i).flatMap fun j =>
          if j = i then exploreAll table s first i
          else exploreAll table s (r.again greedy base (after (here s j)) (here s j)) j)
    (first : List Goal) {i : Nat} (hi : i ≤ s.length) :
    exploreAll table s ((Regular.loop greedy skippable r).lead base first (here s i)) i =
      ((Regular.loop greedy skippable r).ends s i).flatMap fun j =>
        if j = i then exploreAll table s first i
        else exploreAll table s (after (here s j)) j := by
  have round : ∀ i, i ≤ s.length → exploreAll table s (r.lead (base + 1) [] (here s i)) i =
      ((r.ends s).taking i).flatMap fun j =>
        exploreAll table s (r.again greedy base (after (here s j)) (here s j)) j := by
    intro i hi
    rw [ih [] i hi, Ends.flatMap_taking]
    refine List.flatMap_congr fun j hj => ?_
    have := (r.forward_ends s i hi j hj).1
    by_cases h : j = i
    · simp [h, exploreAll]
    · simp [h, show i < j by omega]
  -- the rounds after one that ends at `j` take characters, so none comes back to `i`
  have rest : ∀ j, i < j → j ≤ s.length →
      exploreAll table s (r.again greedy base (after (here s j)) (here s j)) j =
        (Ends.many s greedy (r.ends s) j).flatMap fun m =>
          if m = i then exploreAll table s first i else exploreAll table s (after (here s m)) m := by
    intro j hij hj
    rw [exploreAll_again greedy round j hj]
    refine List.flatMap_congr fun m hm => ?_
    have := ((r.forward_ends s).many j hj m hm).1
    rw [if_neg (show m ≠ i by omega)]
  cases skippable with
  | false =>
    rw [Regular.lead, ih first i hi, Regular.ends, List.flatMap_assoc]
    refine List.flatMap_congr fun j hj => ?_
    obtain ⟨hij, hj⟩ := r.forward_ends s i hi j hj
    by_cases h : j = i
    · simp [h]
    · rw [if_neg h, if_neg h, rest j (by omega) hj]
  | true =>
    have more : exploreAll table s (r.lead (base + 1) [] (here s i)) i =
        ((r.ends s).taking.andThen (Ends.many s greedy (r.ends s)) i).flatMap fun j =>
          if j = i then exploreAll table s first i
          else exploreAll table s (after (here s j)) j := by
      rw [round i hi, Ends.andThen, List.flatMap_assoc]
      refine List.flatMap_congr fun j hj => ?_
      exact rest j (Ends.mem_taking.mp hj).2 ((r.forward_ends s).taking i hi j hj).2
    rw [Regular.lead, exploreAll_inOrder, more, Regular.ends,
      Ends.many_eq (r.forward_ends s) greedy hi]
    cases greedy <;> simp [inOrder, Ends.prefer, Ends.stay]

/-- **What is explored from a pattern are its ends.**  An end at the starting position itself goes on
to the goals `first`, every other one to those that `after` gives. -/
theorem explore_lead {table : List (CharSet × (Here → List Goal))} {s : List Reading} :
    ∀ (r : Regular) (base : Nat) (after : Here → List Goal),
      StandsAt table base (r.table base after) →
      ∀ (first : List Goal) (i : Nat), i ≤ s.length →
        exploreAll table s (r.lead base first (here s i)) i =
          (r.ends s i).flatMap fun j =>
            if j = i then exploreAll table s first i
            else exploreAll table s (after (here s j)) j := by
  intro r
  induction r with
  | empty => intro base after _ first i _; simp [Regular.lead, Regular.ends, Ends.stay]
  | chars set =>
    intro base after ht first i hi
    rw [Regular.lead, exploreAll_point ht.head, Regular.ends]
    refine List.flatMap_congr fun j hj => ?_
    obtain ⟨rfl, -⟩ := Ends.mem_one.mp hj
    simp
  | start =>
    intro base after _ first i _
    by_cases h : i = 0 <;> simp [Regular.lead, Regular.ends, Ends.atStart, h, here, exploreAll]
  | stop =>
    intro base after _ first i hi
    by_cases h : i = s.length
    · simp [Regular.lead, Regular.ends, Ends.atStop, h, here]
    · have hlt : ¬ s.length ≤ i := by omega
      simp [Regular.lead, Regular.ends, Ends.atStop, h, hlt, here, exploreAll]
  | cat r t ihr iht =>
    intro base after ht first i hi
    have htr := ht.left
    have htt := ht.right
    rw [Regular.length_table] at htt
    rw [Regular.lead, ihr base _ htr _ i hi, Regular.ends, Ends.andThen, List.flatMap_assoc]
    refine List.flatMap_congr fun j hj => ?_
    obtain ⟨hij, hj⟩ := r.forward_ends s i hi j hj
    by_cases h : j = i
    · subst h
      simp [iht _ _ htt _ j hi]
    · rw [if_neg h, iht _ _ htt _ j hj]
      refine List.flatMap_congr fun m hm => ?_
      have := (t.forward_ends s j hj m hm).1
      rw [if_neg (show m ≠ i by omega)]
      split
      · next hmj => rw [hmj]
      · rfl
  | alt r t ihr iht =>
    intro base after ht first i hi
    have htt := ht.right
    rw [Regular.length_table] at htt
    rw [Regular.lead, exploreAll_append, ihr base _ ht.left first i hi, iht _ _ htt first i hi]
    simp [Regular.ends, Ends.prefer]
  | fork r ih => intro base after ht first i hi; exact ih _ _ ht.tail first i hi
  | group n r ih => intro base after ht first i hi; exact ih _ _ ht first i hi
  | optional greedy r ih =>
    intro base after ht first i hi
    rw [Regular.lead, exploreAll_inOrder, ih _ _ ht.tail first i hi]
    cases greedy <;> simp [inOrder, Regular.ends, Ends.prefer, Ends.stay]
  | loop greedy skippable r ih =>
    intro base after ht first i hi
    exact exploreAll_loop greedy skippable (ih _ _ ht.tail) first hi

/-- The ends explored from the beginning of a pattern are the ends of the pattern. -/
theorem exploreAll_lead (r : Regular) (s : List Reading) {i : Nat} (hi : i ≤ s.length) :
    exploreAll (r.table 0 fun _ => [.finish]) s (r.lead 0 [.finish] (here s i)) i = r.ends s i := by
  rw [explore_lead r 0 _ (StandsAt.refl _) _ i hi]
  have : ∀ j ∈ r.ends s i, (if j = i
      then exploreAll (r.table 0 fun _ => [.finish]) s [.finish] i
      else exploreAll (r.table 0 fun _ => [.finish]) s [.finish] j) = [j] := by
    intro j _
    by_cases h : j = i <;> simp [h, exploreAll, explore]
  rw [List.flatMap_congr this]
  simp

end MailPattern
