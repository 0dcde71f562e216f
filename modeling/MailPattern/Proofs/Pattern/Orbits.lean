import MailPattern.Proofs.Pattern.Meaning

/-!
# Proofs — Pattern — Orbits

What is searched for when case is ignored holds with each character every character that folds
alike.  A class is closed when it is resolved, the negated ones too (`CharSet.caseless_resolve`); a
character becomes the set of its variants (`CharSet.caseless_variants`); and unions keep this
(`CharSet.caseless_union`).  So all sets in the normal form of a pattern are closed
(`Pattern.caseless_normal`), and all in its smallest form (`Normal.over_unrolled`).
-/

namespace MailPattern

namespace CharSet

/-- The set is not negated, and takes no account of case: it admits a character by itself exactly if
it admits one of its variants. -/
structure Caseless (set : CharSet) : Prop where
  negated : set.negated = false
  admits (c : Char) : set.admits [c] = set.admits (Folding.variants c)

/-- A set that is not negated admits a character by itself where the ranges list it. -/
theorem admits_self_iff {set : CharSet} (h : set.negated = false) {c : Char} :
    set.admits [c] = true ↔ Within set.ranges c := by
  rw [admits_iff h]
  simp only [List.mem_singleton, exists_eq_left]

/-- A class is closed under folding alike when it is resolved, a negated one too. -/
theorem caseless_resolve {set : CharSet} (hset : set.Valid) : (set.resolve true).Caseless where
  negated := rfl
  admits c := by
    rw [Bool.eq_iff_iff, admits_self_iff rfl, within_resolve hset, ← admits_resolve hset,
      reading_true]

/-- A union of closed sets is closed. -/
theorem caseless_union {sets : List CharSet} (h : ∀ set ∈ sets, set.Caseless) :
    (union sets).Caseless where
  negated := rfl
  admits c := by
    have hneg : ∀ set ∈ sets, set.negated = false := fun set hset => (h set hset).negated
    rw [Bool.eq_iff_iff, admits_union hneg, admits_union hneg]
    refine exists_congr fun set => and_congr_right fun hset => ?_
    rw [(h set hset).admits]

theorem caseless_nil : Caseless ⟨[], false⟩ := union_nil ▸ caseless_union (by simp)

/-- The variants of a character are a closed set. -/
theorem caseless_variants (c : Char) : (union ((Folding.variants c).map single)).Caseless where
  negated := rfl
  admits d := by
    have hneg : ∀ set ∈ (Folding.variants c).map single, set.negated = false := by
      intro set hset
      obtain ⟨e, -, rfl⟩ := List.mem_map.mp hset
      rfl
    have hunion := admits_union_variants c d
    rw [reading_true] at hunion
    rw [hunion, Bool.eq_iff_iff, admits_union hneg, admits_iff (s := single c) rfl]
    have hsingle (e : Char) : (single e).admits [d] = true ↔ Within (single e).ranges d :=
      admits_self_iff rfl
    simp only [List.mem_map, exists_exists_and_eq_and, hsingle, within_single, exists_eq_right,
      exists_eq_right', Folding.mem_variants_iff]
    exact eq_comm

end CharSet

/-! ### Smallest forms -/

namespace Regular

/-- Every set in the pattern has the property. -/
def Over (Q : CharSet → Prop) : Regular → Prop
  | .empty | .start | .stop => True
  | .chars set => Q set
  | .cat r s | .alt r s => r.Over Q ∧ s.Over Q
  | .fork r | .optional _ r | .loop _ _ r | .group _ r => r.Over Q

variable {Q : CharSet → Prop} {r s : Regular}

theorem over_seq (hr : r.Over Q) (hs : s.Over Q) : (seq r s).Over Q := by
  unfold seq
  split
  · exact hs
  · exact hr
  · exact ⟨hr, hs⟩

theorem over_literal {t : List Char} (h : ∀ c ∈ t, Q (.single c)) : (literal t).Over Q := by
  induction t with
  | nil => trivial
  | cons c t ih =>
    obtain ⟨hc, ht⟩ := List.forall_mem_cons.mp h
    exact over_seq hc (ih ht)

theorem over_choices (hr : r.Over Q) : r.choices.Over Q := by
  cases r <;> exact hr

theorem over_times (hr : r.Over Q) (n : Nat) : (r.times n).Over Q := by
  induction n with
  | zero => trivial
  | succ n ih => exact over_seq hr ih

/-- At most so many rounds have the sets of one. -/
theorem over_upTo (hr : r.Over Q) (greedy : Bool) (n : Nat) : (upTo greedy r n).Over Q := by
  induction n with
  | zero => trivial
  | succ n ih => exact over_seq hr ih

/-- So has a count that is written out. -/
theorem over_counted (hr : r.Over Q) (c : Count) (takesSome : Bool) :
    (counted c takesSome r).Over Q := by
  unfold counted
  split
  · split <;> exact hr
  · exact over_seq (over_times hr _) hr
  · exact over_seq (over_times hr _) (over_upTo hr _ _)

/-- The rows of a sweep hold the sets of the pattern, and the empty set. -/
theorem over_rows (hempty : Q ⟨[], false⟩) :
    ∀ (r : Regular) (base : Nat) (k : Walk) (done : Array Row), r.Over Q →
      (∀ row ∈ done, Q row.set) → ∀ row ∈ r.rows base k done, Q row.set := by
  have push {done : Array Row} {row : Row} (hd : ∀ row ∈ done, Q row.set) (h : Q row.set) :
      ∀ row' ∈ done.push row, Q row'.set := by
    intro row' hrow
    obtain hrow | rfl := Array.mem_push.mp hrow
    · exact hd row' hrow
    · exact h
  intro r
  induction r with
  | empty | start | stop => exact fun base k done _ hd => hd
  | chars set => exact fun base k done hr hd => push hd hr
  | cat r s ihr ihs => exact fun base k done hr hd => ihs _ _ _ hr.2 (ihr _ _ _ hr.1 hd)
  | alt r s ihr ihs => exact fun base k done hr hd => ihs _ _ _ hr.2 (ihr _ _ _ hr.1 hd)
  | fork r ih | optional _ r ih | loop _ _ r ih =>
    exact fun base k done hr hd => ih _ _ _ hr (push hd hempty)
  | group _ r ih => exact fun base k done hr hd => ih _ _ _ hr hd

end Regular

/-! ### Normal forms -/

namespace Normal

/-- Every set in the pattern has the property, and that of each character of a literal. -/
def Over (Q : CharSet → Prop) : Normal → Prop
  | .empty | .start | .stop => True
  | .literal t => ∀ c ∈ t, Q (.single c)
  | .chars set => Q set
  | .cat p q | .alt p q => p.Over Q ∧ q.Over Q
  | .group _ p | .repeated _ p => p.Over Q

variable {Q : CharSet → Prop} {p : Normal}

/-- The smallest form has no sets but those of the normal form. -/
theorem over_unrolled (hp : p.Over Q) (groups : Bool) : (p.unrolled groups).Over Q := by
  induction p with
  | empty | start | stop => trivial
  | literal t => exact Regular.over_literal hp
  | chars set => exact hp
  | cat p q ihp ihq => exact ⟨ihp hp.1, ihq hp.2⟩
  | alt p q ihp ihq => exact ⟨ihp hp.1, Regular.over_choices (ihq hp.2)⟩
  | group _ p ih =>
    unfold unrolled
    split <;> exact ih hp
  | repeated c p ih => exact Regular.over_counted (ih hp) c _

theorem over_times (hp : p.Over Q) (c : Count) : (times c p).Over Q := by
  unfold times
  dsimp only
  split
  · trivial
  · split <;> exact hp

/-- A normal form has closed sets exactly if its parts have. -/
theorem hereditary_caseless : Hereditary CharSet.Caseless (Over CharSet.Caseless) :=
  ⟨trivial, Iff.rfl, Iff.rfl, Iff.rfl, Iff.rfl, CharSet.caseless_union⟩

/-- What is put together of closed normal forms is closed. -/
theorem relates_caseless (s : List Reading) :
    (liftings true).Relates s fun x _ => ∀ n, x.1 = some n → n.Over CharSet.Caseless where
  char c n hn := by
    cases hn
    rw [ofChar, if_pos rfl]
    exact hereditary_caseless.ofSet rfl (CharSet.caseless_variants c)
  start n hn := by
    cases hn
    trivial
  stop n hn := by
    cases hn
    trivial
  sequence h n hn := by
    obtain ⟨ns, hns, rfl⟩ := Option.map_eq_some_iff.mp hn
    exact hereditary_caseless.sequence (all_of_mapM h hns)
  choice h n hn := by
    obtain ⟨ns, hns, rfl⟩ := Option.map_eq_some_iff.mp hn
    exact hereditary_caseless.choice (all_of_mapM h hns)
  group k x a h n hn := by
    obtain ⟨m, hm, rfl⟩ := Option.map_eq_some_iff.mp hn
    exact h m hm

end Normal

/-- **The normal form up to case holds with each character every one that folds alike.** -/
theorem Pattern.caseless_normal {p : Pattern} {n : Normal} (hv : p.Valid)
    (hn : p.normal? true = some n) : n.Over CharSet.Caseless := by
  refine (Normal.relates_caseless []).apply p (fun set hset n hn => ?_) (fun c q _ x hx n hn => ?_)
    (.inr ⟨fun _ _ _ n hn => ?_, fun _ n hn => ?_⟩) n ((fst_liftings true p).trans hn)
  · cases hn
    exact Normal.hereditary_caseless.ofSet rfl (CharSet.caseless_resolve (hv set hset))
  · obtain ⟨-, m, hm, rfl⟩ := eq_times hn
    exact Normal.over_times (hx m hm) c
  · cases hn
  · cases hn

end MailPattern
