import MailPattern.Proofs.Search.Closure

/-!
# Proofs — Search — Rows

What the rows of a sweep add to a front.  `Sweep.Realizes` says that the walks of a sweep add the
goals of a table to any front that satisfies an invariant, in the order of the table or in some
order: a value is looked for in the goals, and where `Unit` is the type of the values no order
can be seen.

The sweep for a productive pattern keeps the order of the pattern's table
(`Regular.realizes_of_productive`), and every sweep has its goals (`Regular.realizes`).
-/

namespace MailPattern

/-- From every front that satisfies the invariant the walk adds these goals in order, and the
invariant is kept. -/
def Walk.Realizes (α : Type) (inv : Here → Front → Prop) (k : Walk) (goals : Here → List Goal) :
    Prop :=
  ∀ h w f, inv h f → f.Extends α (k h w f) w.origin (goals h) ∧ inv h (k h w f)

/-- The walks of a sweep do what the table says. -/
structure Sweep.Realizes (α : Type) (inv : Here → Front → Prop) (w : Sweep)
    (table : List (CharSet × (Here → List Goal))) (lead : Here → List Goal) : Prop where
  rows : List.Forall₂ (fun row line => row.set = line.1 ∧ row.next.Realizes α inv line.2)
    w.rows.toList table
  first : w.first.Realizes α inv lead
  empty : ∀ h, inv h {}

namespace Regular

/-- The table of the whole pattern. -/
def lines (r : Regular) : List (CharSet × (Here → List Goal)) := r.table 0 fun _ => [.finish]

/-! ### The rows of a sweep -/

/-- One more row, and the line that it goes with. -/
theorem rel_push {R : Row → CharSet × (Here → List Goal) → Prop} {done : Array Row} {row : Row}
    {lines : List (CharSet × (Here → List Goal))} {line : CharSet × (Here → List Goal)}
    (hd : List.Forall₂ R done.toList lines) (h : R row line) :
    List.Forall₂ R (done.push row).toList (lines ++ [line]) := by
  rw [Array.toList_push]
  exact List.rel_append hd (.cons h .nil)

/-- The walks after the sets of a productive pattern add their goals in order. -/
theorem orderly_rows {α : Type} {forks : Here → List (Nat × List Goal)} :
    ∀ (r : Regular) (base n : Nat) (after : Here → List Goal) (k : Walk) (done : Array Row)
      (lines : List (CharSet × (Here → List Goal))), r.Productive →
      (∀ h, StandsAt (forks h) base (r.forks base n (after h) h)) →
      (∀ h, Walk.Orderly α (forks h) h k (after h) n) →
      List.Forall₂ (fun row line => row.set = line.1 ∧
        ∀ h, ∃ n, Walk.Orderly α (forks h) h row.next (line.2 h) n) done.toList lines →
      List.Forall₂ (fun row line => row.set = line.1 ∧
        ∀ h, ∃ n, Walk.Orderly α (forks h) h row.next (line.2 h) n)
        (r.rows base k done).toList (lines ++ r.table base after) := by
  intro r
  induction r with
  | empty | start | stop =>
    intro base n after k done lines _ _ _ hd
    simpa [rows, table] using hd
  | chars set =>
    intro base n after k done lines _ _ hk hd
    exact rel_push hd ⟨rfl, fun h => ⟨n, hk h⟩⟩
  | cat r s ihr ihs =>
    intro base n after k done lines hp hf hk hd
    have hfs := fun h => (hf h).right
    simp only [length_forks] at hfs
    rw [rows, table, ← List.append_assoc]
    refine ihs _ _ _ _ _ _ hp.2 hfs hk (ihr _ _ _ _ _ _ hp.1 (fun h => (hf h).left) ?_ hd)
    exact fun h => orderly_walk s _ _ _ k hp.2 (hfs h) fun _ => hk h
  | alt r s ihr ihs =>
    intro base n after k done lines hp hf hk hd
    have hfs := fun h => (hf h).right
    simp only [length_forks] at hfs
    rw [rows, table, ← List.append_assoc]
    exact ihs _ _ _ _ _ _ hp.2 hfs hk (ihr _ _ _ _ _ _ hp.1 (fun h => (hf h).left) hk hd)
  | fork r ih | optional _ r ih =>
    intro base n after k done lines hp hf hk hd
    rw [rows, table, List.append_cons]
    exact ih _ _ _ _ _ _ hp (fun h => (hf h).tail) hk (rel_push hd ⟨rfl, fun _ => ⟨0, .nowhere⟩⟩)
  | loop greedy skippable r ih =>
    intro base n after k done lines hp hf hk hd
    rw [rows, table, List.append_cons]
    -- after the body the loop is gone through again, which may be skipped then
    refine ih _ _ _ _ _ _ hp.2 (fun h => (hf h).tail) (fun h => ?_) (rel_push hd ⟨rfl, fun _ => ⟨0, .nowhere⟩⟩)
    exact orderly_walk (.loop greedy true r) base n (after h) k hp (hf h) fun _ => hk h
  | group _ r ih =>
    intro base n after k done lines hp hf hk hd
    exact ih _ _ _ _ _ _ hp hf (fun h => (hk h).note _) hd

/-- The sweep for a productive pattern adds the goals of its table in order. -/
theorem realizes_of_productive (α : Type) {r : Regular} (hp : r.Productive) :
    ∃ inv, r.sweep.Realizes α inv r.lines (r.lead 0 [.finish]) := by
  have realize : ∀ {k : Walk} {goals : Here → List Goal},
      (∀ h, ∃ n, Walk.Orderly α (r.forks 0 0 [.finish] h) h k (goals h) n) →
      k.Realizes α (fun h f => ∀ n, f.Settled α (r.forks 0 0 [.finish] h) n) goals := by
    intro k goals hk h w f hf
    obtain ⟨n, hk⟩ := hk h
    refine ⟨hk.extend w f (hf n), fun m p rank goals hF hr => ?_⟩
    exact (hk.mono (le_max_left n m)).settle w f (hf _) p rank goals hF (le_max_of_le_right hr)
  refine ⟨fun h f => ∀ n, f.Settled α (r.forks 0 0 [.finish] h) n, ?_, ?_, ?_⟩
  · refine (orderly_rows r 0 0 _ .finish #[] [] hp (fun h => .refl _) (fun h => .finish)
      .nil).imp fun row line h => ⟨h.1, realize h.2⟩
  · exact realize fun h => ⟨_, orderly_walk r 0 0 _ .finish hp (.refl _) fun _ => .finish⟩
  · exact fun h n p _ _ _ _ hm => absurd hm (Front.not_marked_empty p)

end Regular

/-- From a closed front that has visited the nodes all the goals are in the front. -/
def Behind (arms : List (List Node)) (nodes : List Node) (goals : List Goal) : Prop :=
  ∀ f : Front, f.Closed arms → (∀ n ∈ nodes, f.Visited n) → ∀ g ∈ goals, f.Visited (.goal g)

/-- A walk that visits nodes behind which its goals lie. -/
def Walk.Reaches (arms : List (List Node)) (h : Here) (k : Walk) (goals : List Goal) : Prop :=
  ∃ nodes, Walk.Visits arms h [] k nodes ∧ Behind arms nodes goals

namespace Regular

theorem reaches_walk {h : Here} {arms : List (List Node)} (r : Regular) {base : Nat}
    {after : List Node} {goals : List Goal} {k : Walk}
    (ha : StandsAt arms base (r.arms base after h)) (hk : Walk.Visits arms h [] k after)
    (hb : Behind arms after goals) : Walk.Reaches arms h (r.walk base k) (r.lead base goals h) :=
  ⟨_, visits_walk r _ _ _ _ _ ha hk, fun f hf => covered_of_heads hf r _ _ _ ha (hb f hf)⟩

/-- The walks after the sets of a pattern add no other goals than the table's. -/
theorem adds_rows :
    ∀ (r : Regular) (base : Nat) (after : Here → List Goal) (k : Walk) (done : Array Row)
      (lines : List (CharSet × (Here → List Goal))), (∀ h, Walk.Adds h k (after h)) →
      List.Forall₂ (fun row line => row.set = line.1 ∧ ∀ h, Walk.Adds h row.next (line.2 h))
        done.toList lines →
      List.Forall₂ (fun row line => row.set = line.1 ∧ ∀ h, Walk.Adds h row.next (line.2 h))
        (r.rows base k done).toList (lines ++ r.table base after) := by
  intro r
  induction r with
  | empty | start | stop => intro base after k done lines _ hd; simpa [rows, table] using hd
  | chars set =>
    intro base after k done lines hk hd
    exact rel_push hd ⟨rfl, hk⟩
  | cat r s ihr ihs =>
    intro base after k done lines hk hd
    rw [rows, table, ← List.append_assoc]
    exact ihs _ _ _ _ _ hk (ihr _ _ _ _ _ (fun h => adds_walk s _ _ k (hk h)) hd)
  | alt r s ihr ihs =>
    intro base after k done lines hk hd
    rw [rows, table, ← List.append_assoc]
    exact ihs _ _ _ _ _ hk (ihr _ _ _ _ _ hk hd)
  | fork r ih | optional _ r ih =>
    intro base after k done lines hk hd
    rw [rows, table, List.append_cons]
    exact ih _ _ _ _ _ hk (rel_push hd ⟨rfl, fun _ => .nowhere⟩)
  | loop greedy skippable r ih =>
    intro base after k done lines hk hd
    rw [rows, table, List.append_cons]
    refine ih _ _ _ _ _ (fun h => ?_) (rel_push hd ⟨rfl, fun _ => .nowhere⟩)
    exact adds_walk (.loop greedy true r) base (after h) k (hk h)
  | group _ r ih =>
    intro base after k done lines hk hd
    exact ih _ _ _ _ _ (fun h => (hk h).note _) hd

/-- The walks after the sets of a pattern reach all goals of the table. -/
theorem reaches_rows {arms : Here → List (List Node)} :
    ∀ (r : Regular) (base : Nat) (after : Here → List Goal) (nodes : Here → List Node) (k : Walk)
      (done : Array Row) (lines : List (CharSet × (Here → List Goal))),
      (∀ h, StandsAt (arms h) base (r.arms base (nodes h) h)) →
      (∀ h, Walk.Visits (arms h) h [] k (nodes h)) →
      (∀ h, Behind (arms h) (nodes h) (after h)) →
      List.Forall₂ (fun row line => ∀ h, Walk.Reaches (arms h) h row.next (line.2 h))
        done.toList lines →
      List.Forall₂ (fun row line => ∀ h, Walk.Reaches (arms h) h row.next (line.2 h))
        (r.rows base k done).toList (lines ++ r.table base after) := by
  have fork : ∀ h, Walk.Reaches (arms h) h Row.fork.next [] := fun h =>
    ⟨[], .nowhere (List.nil_subset _), fun _ _ _ _ hg => absurd hg List.not_mem_nil⟩
  intro r
  induction r with
  | empty | start | stop =>
    intro base after nodes k done lines _ _ _ hd
    simpa [rows, table] using hd
  | chars set =>
    intro base after nodes k done lines _ hk hb hd
    exact rel_push hd fun h => ⟨_, hk h, hb h⟩
  | cat r s ihr ihs =>
    intro base after nodes k done lines ha hk hb hd
    have has := fun h => (ha h).right
    simp only [length_arms] at has
    rw [rows, table, ← List.append_assoc]
    refine ihs _ _ _ _ _ _ has hk hb (ihr _ _ _ _ _ _ (fun h => (ha h).left) (fun h => ?_)
      (fun h f hf => ?_) hd)
    · exact visits_walk s _ _ _ _ _ (has h) (hk h)
    · exact covered_of_heads hf s _ _ _ (has h) (hb h f hf)
  | alt r s ihr ihs =>
    intro base after nodes k done lines ha hk hb hd
    have has := fun h => (ha h).right
    simp only [length_arms] at has
    rw [rows, table, ← List.append_assoc]
    exact ihs _ _ _ _ _ _ has hk hb (ihr _ _ _ _ _ _ (fun h => (ha h).left) hk hb hd)
  | fork r ih | optional _ r ih =>
    intro base after nodes k done lines ha hk hb hd
    rw [rows, table, List.append_cons]
    exact ih _ _ _ _ _ _ (fun h => (ha h).tail) hk hb (rel_push hd fork)
  | loop greedy skippable r ih =>
    intro base after nodes k done lines ha hk hb hd
    rw [rows, table, List.append_cons]
    refine ih _ _ _ _ _ _ (fun h => (ha h).tail) (fun h => ?_) (fun h f hf => ?_) (rel_push hd fork)
    · exact visits_walk (.loop greedy true r) _ _ _ _ _ (ha h) (hk h)
    · exact covered_of_heads hf (.loop greedy true r) base _ _ (ha h) (hb h f hf)
  | group _ r ih =>
    intro base after nodes k done lines ha hk hb hd
    exact ih _ _ _ _ _ _ ha (fun h => (hk h).note _) hb hd

/-- Every sweep adds the goals of its table, in some order. -/
theorem realizes (r : Regular) : ∃ inv, r.sweep.Realizes Unit inv r.lines (r.lead 0 [.finish]) := by
  have realize : ∀ {k : Walk} {goals : Here → List Goal}, (∀ h, Walk.Adds h k (goals h)) →
      (∀ h, Walk.Reaches (r.arms 0 [.goal .finish] h) h k (goals h)) →
      k.Realizes Unit (fun h f => f.Closed (r.arms 0 [.goal .finish] h)) goals := by
    intro k goals hadd hk h w f hf
    obtain ⟨nodes, hv, hb⟩ := hk h
    have hc := hv.closed w hf
    refine ⟨Front.extends_of_covered (hadd h) (hb _ hc ?_), hc⟩
    exact hv.visit w f fun _ hn => absurd hn List.not_mem_nil
  have behind : ∀ arms, Behind arms [.goal .finish] [.finish] := fun arms f _ hv g hg => by
    obtain rfl := List.mem_singleton.mp hg
    exact hv _ List.mem_cons_self
  refine ⟨fun h f => f.Closed (r.arms 0 [.goal .finish] h), ?_, ?_, ?_⟩
  · have hadd := adds_rows r 0 (fun _ => [.finish]) .finish #[] [] (fun h => .finish) .nil
    have hreach := reaches_rows r 0 (fun _ => [.finish]) (fun _ => [.goal .finish]) .finish #[] []
      (fun h => .refl (r.arms 0 [.goal .finish] h)) (fun h => .finish) (fun h => behind _) .nil
    rw [List.forall₂_iff_get] at hadd hreach ⊢
    refine ⟨hadd.1, fun i h₁ h₂ => ⟨(hadd.2 i h₁ h₂).1, ?_⟩⟩
    exact realize (hadd.2 i h₁ h₂).2 (hreach.2 i h₁ h₂)
  · exact realize (fun h => adds_walk r _ _ _ .finish)
      fun h => reaches_walk r (.refl _) .finish (behind _)
  · exact fun h p _ _ hm => absurd hm (Front.not_marked_empty p)

end Regular

end MailPattern
