import MailPattern.Proofs.Search.Alike

/-!
# Proofs — Search — Descending

Ends in descending order: of those that pass a test, the greatest is tried first (`Descends`).  Then
the preferred match is the longest, and the one that is taken when something has to follow is
the longest that it can follow.

Greedy repetitions keep the order when a round that ends early cannot be followed by another
(`Ends.Clear`).  One part after the other keeps it when the second reaches no further from an early end
of the first than from a later one (`Descends.flatMap`).
-/

namespace MailPattern

/-- Whatever the test, the first end that passes it is the greatest that does. -/
def Descends (l : List Nat) : Prop :=
  ∀ (test : Nat → Bool) (x : Nat), l.find? test = some x → ∀ y ∈ l, test y = true → y ≤ x

namespace Descends

variable {l m : List Nat}

theorem nil : Descends [] := fun _ _ h => nomatch h

theorem singleton (x : Nat) : Descends [x] := by
  intro test y h z hz _
  obtain rfl := List.mem_singleton.mp hz
  have := List.mem_of_find?_eq_some h
  rw [List.mem_singleton.mp this]

/-- An order without choice. -/
theorem of_subsingleton (h : ∀ x ∈ l, ∀ y ∈ l, y ≤ x) : Descends l :=
  fun _ x hx y hy _ => h x (List.mem_of_find?_eq_some hx) y hy

theorem append (hl : Descends l) (hm : Descends m) (h : ∀ x ∈ l, ∀ y ∈ m, y ≤ x) :
    Descends (l ++ m) := by
  intro test x hx y hy hy'
  rw [List.find?_append] at hx
  cases hfind : l.find? test with
  | some z =>
    rw [hfind, Option.some_or, Option.some.injEq] at hx
    subst hx
    rcases List.mem_append.mp hy with hy | hy
    · exact hl test z hfind y hy hy'
    · exact h z (List.mem_of_find?_eq_some hfind) y hy
  | none =>
    rw [hfind, Option.none_or] at hx
    rcases List.mem_append.mp hy with hy | hy
    · exact absurd hy' (List.find?_eq_none.mp hfind y hy)
    · exact hm test x hx y hy hy'

theorem filter (hl : Descends l) (p : Nat → Bool) : Descends (l.filter p) := by
  intro test x hx y hy hy'
  rw [List.find?_filter] at hx
  obtain ⟨hy, hp⟩ := List.mem_filter.mp hy
  exact hl _ x hx y hy (by simp [hp, hy'])

/-- The first end at which a part can follow is the greatest. -/
theorem of_findSome? {α : Type} {f : Nat → Option α} {b : α} (hl : Descends l)
    (h : l.findSome? f = some b) :
    ∃ m ∈ l, f m = some b ∧ ∀ m' ∈ l, (f m').isSome = true → m' ≤ m := by
  obtain ⟨l₁, m, l₂, rfl, hm, hnone⟩ := List.findSome?_eq_some_iff.mp h
  refine ⟨m, List.mem_append_right _ List.mem_cons_self, hm, ?_⟩
  refine hl (fun m => (f m).isSome) m (List.find?_eq_some_iff_append.mpr ⟨by simp [hm], l₁, l₂, rfl, ?_⟩)
  exact fun a ha => by simp [hnone a ha]

/-- One part after the other: the second reaches no further from an early end of the first than
from a later one that it can follow. -/
theorem flatMap {f : Nat → List Nat} (hl : Descends l) (hf : ∀ m ∈ l, Descends (f m))
    (hle : ∀ m ∈ l, ∀ x ∈ f m, m ≤ x)
    (hreach : ∀ m ∈ l, ∀ m' ∈ l, m' < m → f m ≠ [] → ∀ y ∈ f m', m < y → y ∈ f m) :
    Descends (l.flatMap f) := by
  intro test x hx y hy hy'
  rw [List.find?_flatMap] at hx
  obtain ⟨m, hm, hfind, hmax⟩ := hl.of_findSome? hx
  have hxm := List.mem_of_find?_eq_some hfind
  obtain ⟨m', hm', hy⟩ := List.mem_flatMap.mp hy
  have hle' : m' ≤ m := hmax m' hm' (List.find?_isSome.mpr ⟨y, hy, hy'⟩)
  by_cases hym : y ≤ m
  · exact hym.trans (hle m hm x hxm)
  · refine hf m hm test x hfind y ?_ hy'
    rcases Nat.eq_or_lt_of_le hle' with rfl | hlt
    · exact hy
    · exact hreach m hm m' hm' hlt (List.ne_nil_of_mem hxm) y hy (by omega)

/-- A choice keeps the order when no later branch goes further than an earlier one. -/
theorem choice {α : Type} {branches : List α} {f : α → List Nat}
    (hf : ∀ b ∈ branches, Descends (f b))
    (h : branches.Pairwise fun b c => ∀ x ∈ f b, ∀ y ∈ f c, y ≤ x) :
    Descends (branches.flatMap f) := by
  induction branches with
  | nil => exact nil
  | cons b bs ih =>
    obtain ⟨hb, hbs⟩ := List.forall_mem_cons.mp hf
    obtain ⟨hfirst, hrest⟩ := List.pairwise_cons.mp h
    refine hb.append (ih hbs hrest) fun x hx y hy => ?_
    obtain ⟨c, hc, hy⟩ := List.mem_flatMap.mp hy
    exact hfirst c hc x hx y hy

end Descends

namespace Ends

variable {s : List Reading} {a b : Ends}

/-- The ends come in descending order. -/
def Descending (s : List Reading) (a : Ends) : Prop := ∀ i, i ≤ s.length → Descends (a i)

/-- At an end that is not the last one, the same cannot begin again. -/
def Clear (s : List Reading) (a : Ends) : Prop :=
  ∀ i, i ≤ s.length → ∀ m ∈ a i, ∀ m' ∈ a i, m' < m → a m' = []

theorem descending_stay : Descending s stay := fun i _ => .singleton i

theorem Descending.andThen (ha : Descending s a) (hf : Forward s a) (hb : Descending s b)
    (hg : Forward s b)
    (hreach : ∀ i, i ≤ s.length → ∀ m ∈ a i, ∀ m' ∈ a i, m' < m → b m ≠ [] →
      ∀ y ∈ b m', m < y → y ∈ b m) : Descending s (a.andThen b) := fun i hi =>
  (ha i hi).flatMap (fun m hm => hb m (hf i hi m hm).2)
    (fun m hm x hx => (hg m (hf i hi m hm).2 x hx).1) (hreach i hi)

/-! ### Repetitions -/

section Repeated

variable (ha : Descending s a) (hf : Forward s a) (hc : Clear s a)

include hf hc

/-- After rounds that end early no round begins. -/
theorem Clear.times {n i m m' : Nat} (hi : i ≤ s.length) (hm : m ∈ a.times n i)
    (hm' : m' ∈ a.times n i) (hlt : m' < m) : a m' = [] := by
  induction n generalizing i with
  | zero =>
    rw [List.mem_singleton.mp hm, List.mem_singleton.mp hm'] at hlt
    exact absurd hlt (Nat.lt_irrefl _)
  | succ n ih =>
    obtain ⟨k, hk, hm⟩ := List.mem_flatMap.mp hm
    obtain ⟨k', hk', hm'⟩ := List.mem_flatMap.mp hm'
    have hki := hf i hi k hk
    have hki' := hf i hi k' hk'
    by_cases hkk : k' = k
    · subst hkk
      exact ih hki.2 hm hm'
    · cases n with
      | zero =>
        rw [List.mem_singleton.mp hm, List.mem_singleton.mp hm'] at hlt
        rw [List.mem_singleton.mp hm']
        exact hc i hi k hk k' hk' hlt
      | succ n =>
        -- the earlier of the two first rounds is not followed by another
        rcases Nat.lt_or_gt_of_ne hkk with hlt' | hlt'
        · obtain ⟨_, h, -⟩ := List.mem_flatMap.mp hm'
          rw [hc i hi k hk k' hk' hlt'] at h
          cases h
        · obtain ⟨_, h, -⟩ := List.mem_flatMap.mp hm
          rw [hc i hi k' hk' k hk hlt'] at h
          cases h

omit hc in
theorem stays_of_nil {greedy : Bool} {i : Nat} (hi : i ≤ s.length) (hnil : a i = []) :
    (∀ n, upTo greedy a n i = [i]) ∧ many s greedy a i = [i] := by
  have htaking : a.taking i = [] := by rw [taking, hnil, List.filter_nil]
  constructor
  · intro n
    cases n with
    | zero => rfl
    | succ n => cases greedy <;> simp [upTo, prefer, Ends.andThen, hnil, stay]
  · rw [many_eq hf greedy hi]
    cases greedy <;> simp [prefer, Ends.andThen, htaking, stay]

include ha

theorem Descending.times : ∀ n, Descending s (a.times n)
  | 0 => descending_stay
  | n + 1 => by
    refine ha.andThen hf (Descending.times n) (hf.times n) fun i hi m hm m' hm' hlt _ y hy hym => ?_
    have hnil := hc i hi m hm m' hm' hlt
    cases n with
    | zero =>
      rw [List.mem_singleton.mp hy] at hym
      omega
    | succ n =>
      rw [Ends.times, Ends.andThen, hnil] at hy
      cases hy

theorem Descending.upTo : ∀ n, Descending s (upTo true a n)
  | 0 => descending_stay
  | n + 1 => by
    have hmore : Descending s (a.andThen (Ends.upTo true a n)) := by
      refine ha.andThen hf (Descending.upTo n) (hf.upTo n) fun i hi m hm m' hm' hlt _ y hy hym => ?_
      rw [(stays_of_nil hf (hf i hi m' hm').2 (hc i hi m hm m' hm' hlt)).1] at hy
      rw [List.mem_singleton.mp hy] at hym
      omega
    intro i hi
    refine (hmore i hi).append (.singleton i) fun x hx y hy => ?_
    rw [List.mem_singleton.mp hy]
    exact ((hf.andThen (hf.upTo n)) i hi x hx).1

theorem Descending.many : Descending s (many s true a) := by
  have key : ∀ k i, i ≤ s.length → s.length - i ≤ k → Descends (Ends.many s true a i) := by
    intro k
    induction k with
    | zero =>
      intro i hi hk
      obtain rfl : i = s.length := by omega
      rw [Ends.many, Nat.sub_self]
      exact .singleton _
    | succ k ih =>
      intro i hi hk
      have htaking : ∀ m ∈ a.taking i, m ∈ a i ∧ i < m := fun m hm => mem_taking.mp hm
      rw [many_eq hf true hi]
      refine Descends.append ?_ (.singleton i) fun x hx y hy => ?_
      · refine Descends.flatMap ?_ (fun m hm => ?_) (fun m hm x hx => ?_) fun m hm m' hm' hlt _ y hy hym => ?_
        · exact (ha i hi).filter _
        · have := hf i hi m (htaking m hm).1
          exact ih m this.2 (by have := (htaking m hm).2; omega)
        · exact (hf.many m (hf i hi m (htaking m hm).1).2 x hx).1
        · have hm'' := (htaking m' hm').1
          rw [(stays_of_nil hf (hf i hi m' hm'').2
            (hc i hi m (htaking m hm).1 m' hm'' hlt)).2] at hy
          rw [List.mem_singleton.mp hy] at hym
          omega
      · rw [List.mem_singleton.mp hy]
        obtain ⟨m, hm, hx⟩ := List.mem_flatMap.mp hx
        have := hf.many m (hf i hi m (htaking m hm).1).2 x hx
        have := (htaking m hm).2
        omega
  exact fun i hi => key _ i hi le_rfl

/-- **A greedy repetition keeps the order.** -/
theorem Descending.counted {c : Count} (hg : c.greedy = true) : Descending s (counted s c a) := by
  have after {b : Ends} (hb : Descending s b) (hfb : Forward s b)
      (hstay : ∀ i, i ≤ s.length → a i = [] → b i = [i]) :
      Descending s ((a.times c.least).andThen b) := by
    refine (Descending.times ha hf hc c.least).andThen (hf.times _) hb hfb
      fun i hi m hm m' hm' hlt _ y hy hym => ?_
    rw [hstay m' (hf.times _ i hi m' hm').2 (hc.times hf hi hm hm' hlt)] at hy
    rw [List.mem_singleton.mp hy] at hym
    omega
  rw [Ends.counted, hg]
  cases c.most with
  | none =>
    exact after (Descending.many ha hf hc) hf.many fun i hi h => (stays_of_nil hf hi h).2
  | some n =>
    exact after (Descending.upTo ha hf hc _) (hf.upTo _) fun i hi h => (stays_of_nil hf hi h).1 _

end Repeated

end Ends

end MailPattern
