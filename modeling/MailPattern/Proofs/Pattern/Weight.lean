import MailPattern.Proofs.Pattern.Closing
import MailPattern.Proofs.Pattern.Steady

/-!
# Proofs — Pattern — Weight

How heavy the normal form of a pattern is at most, told from the pattern itself
(`Pattern.weight_le_heft`).

The weight of a set depends on what is in it, so that making one set of several branches may add to
it.  `Normal.bulk` counts every range alike; it bounds the weight, and putting a sequence or an
alternation into its normal form never adds more to it than a little for each part.  In
particular, what all branches share is counted once before them and not in each of them.
-/

namespace MailPattern

namespace Normal

/-! ### Bulk -/

/-- What a repetition counts for when its body counts for `n`. -/
def repeatedBulk (c : Count) (n : Nat) : Nat := max c.least (c.most.getD 1) * (n + 40) + 112

/-- A repetition counts for more the higher its numbers and the heavier its body. -/
theorem repeatedBulk_mono {c c' : Count} {m n : Nat} (hleast : c.least ≤ c'.least)
    (hmost : c.most.getD 1 ≤ c'.most.getD 1) (h : m ≤ n) : repeatedBulk c m ≤ repeatedBulk c' n :=
  Nat.add_le_add_right
    (Nat.mul_le_mul (max_le_max hleast hmost) (Nat.add_le_add_right h 40)) 112

/-- A bound of the weight that counts the ranges of sets, whatever is in them. -/
def bulk : Normal → Nat
  | .empty => 32
  | .literal s => 64 + 160 * s.length
  | .chars set => 64 + 160 * set.ranges.length
  | .start | .stop => 64
  | .cat p q => p.bulk + q.bulk
  | .alt p q => p.bulk + q.bulk + 72
  | .group _ p => p.bulk + 64
  | .repeated c p => repeatedBulk c p.bulk

theorem foldl_add_le {α : Type} {f : α → Nat} {k : Nat} (hf : ∀ a, f a ≤ k) (as : List α) (n : Nat) :
    as.foldl (fun n a => n + f a) n ≤ n + k * as.length := by
  induction as generalizing n with
  | nil => exact le_rfl
  | cons a as ih =>
    have := hf a
    rw [List.foldl_cons, List.length_cons, Nat.mul_succ]
    exact (ih _).trans (by omega)

/-- A set weighs no more than its ranges allow. -/
theorem setWeight_le (set : CharSet) : setWeight set ≤ 64 + 160 * set.ranges.length := by
  unfold setWeight
  split
  · split <;> omega
  · have := foldl_add_le (f := fun r : Char × Char => 40 * r.2.utf8Size) (k := 160)
      (fun r => by have := Char.utf8Size_le_four r.2; omega) set.ranges 32
    omega

/-- Rounds that must be taken and those that may weigh no more together than the larger number allows.
-/
theorem weight_counted_le (m n : Nat) {w b : Nat} (h : w ≤ b) :
    m * w + (n - m) * (w + 40) ≤ max m n * (b + 40) := by
  calc m * w + (n - m) * (w + 40)
      ≤ m * (b + 40) + (n - m) * (b + 40) := Nat.add_le_add
        (Nat.mul_le_mul_left m (by omega)) (Nat.mul_le_mul_left _ (by omega))
    _ = max m n * (b + 40) := by rw [← Nat.add_mul, show m + (n - m) = max m n by omega]

/-- What a normal form counts for bounds its weight. -/
theorem weight_le_bulk (p : Normal) : p.weight ≤ p.bulk := by
  induction p with
  | empty => exact le_rfl
  | literal s =>
    have := foldl_add_le (f := fun c : Char => 32 * c.utf8Size) (k := 128)
      (fun c => by have := Char.utf8Size_le_four c; omega) s 0
    show s.foldl (fun n c => n + 32 * c.utf8Size) 0 ≤ 64 + 160 * s.length
    omega
  | chars set => exact setWeight_le set
  | start | stop => show 32 ≤ 64; omega
  | cat p q ihp ihq => exact Nat.add_le_add ihp ihq
  | alt p q ihp ihq =>
    show p.weight + q.weight + (if q.isAlt then 4 else 72) ≤ p.bulk + q.bulk + 72
    split <;> omega
  | group _ p ih => exact Nat.add_le_add_right ih 64
  | repeated c p ih =>
    obtain ⟨least, most, greedy⟩ := c
    have htimes := Nat.mul_le_mul_left least (Nat.add_le_add_right ih 40)
    -- the cases are those of `weight`, which counts a repetition as the engine unrolls it
    match least, most with
    | 0, none =>
      show p.weight + (if p.takesSome then 40 else 112) ≤ 1 * (p.bulk + 40) + 112
      split <;> omega
    | m + 1, none =>
      show (m + 1) * p.weight + 40 ≤ max (m + 1) 1 * (p.bulk + 40) + 112
      rw [max_eq_left (Nat.succ_pos m)]
      rw [Nat.mul_add] at htimes
      omega
    | 0, some 0 =>
      refine (Nat.add_le_add_right (weight_counted_le 0 0 ih) 32).trans ?_
      show max 0 0 * _ + 32 ≤ max 0 0 * _ + 112
      omega
    | 0, some 1 => show p.weight + 72 ≤ 1 * (p.bulk + 40) + 112; omega
    | 0, some (n + 2) =>
      refine (Nat.add_le_add_right (weight_counted_le 0 (n + 2) ih) 32).trans ?_
      show max 0 (n + 2) * _ + 32 ≤ max 0 (n + 2) * _ + 112
      omega
    | m + 1, some n =>
      refine (Nat.add_le_add_right (weight_counted_le (m + 1) n ih) 32).trans ?_
      show max (m + 1) n * _ + 32 ≤ max (m + 1) n * _ + 112
      omega

/-! ### Sequences -/

section Sum

variable {f : Normal → Nat} (hf : ∀ p q, f (.cat p q) = f p + f q)
include hf

/-- The items of a pattern do not measure more than the pattern, in any measure that counts parts once.
-/
theorem sum_items_le (p : Normal) : (p.items.map f).sum ≤ f p := by
  induction p with
  | empty => exact Nat.zero_le _
  | cat p q ihp ihq =>
    rw [items, List.map_append, List.sum_append, hf]
    exact Nat.add_le_add ihp ihq
  | _ => exact (List.sum_singleton).le

theorem sum_ofItems {ps : List Normal} (h : ps ≠ []) : f (ofItems ps) = (ps.map f).sum := by
  induction ps with
  | nil => exact absurd rfl h
  | cons p ps ih =>
    cases ps with
    | nil => exact List.sum_singleton.symm
    | cons q qs =>
      rw [List.map_cons, List.sum_cons, ← ih (List.cons_ne_nil q qs)]
      exact hf _ _

end Sum

/-- Joining two literals adds nothing. -/
theorem sum_prepend_le (p : Normal) (ps : List Normal) :
    ((prepend p ps).map bulk).sum ≤ p.bulk + (ps.map bulk).sum := by
  unfold prepend
  split
  · simp only [List.map_cons, List.sum_cons, bulk, List.length_append]
    omega
  · exact le_rfl

theorem sum_foldr_prepend_le (ps : List Normal) :
    ((ps.foldr prepend []).map bulk).sum ≤ (ps.map bulk).sum := by
  induction ps with
  | nil => exact le_rfl
  | cons p ps ih =>
    rw [List.foldr_cons, List.map_cons, List.sum_cons]
    exact (sum_prepend_le p _).trans (Nat.add_le_add_left ih _)

theorem sum_flatMap_items_le (ps : List Normal) :
    ((ps.flatMap items).map bulk).sum ≤ (ps.map bulk).sum := by
  induction ps with
  | nil => exact le_rfl
  | cons p ps ih =>
    rw [List.flatMap_cons, List.map_append, List.sum_append, List.map_cons, List.sum_cons]
    exact Nat.add_le_add (sum_items_le (fun _ _ => rfl) p) ih

/-- A sequence counts for no more than its parts and a little. -/
theorem bulk_sequence_le (ps : List Normal) : (sequence ps).bulk ≤ (ps.map bulk).sum + 32 := by
  have hsum := (sum_foldr_prepend_le (ps.flatMap items)).trans (sum_flatMap_items_le ps)
  rw [sequence]
  cases hps : (ps.flatMap items).foldr prepend [] with
  | nil => exact Nat.le_add_left 32 _
  | cons q qs =>
    rw [sum_ofItems (f := bulk) (fun _ _ => rfl) (List.cons_ne_nil q qs), ← hps]
    exact hsum.trans (Nat.le_add_right _ 32)

/-- If the first part has items, not even for that. -/
theorem bulk_sequence_le_of_items {p : Normal} (hp : p.items ≠ []) (ps : List Normal) :
    (sequence (p :: ps)).bulk ≤ ((p :: ps).map bulk).sum := by
  have hsum := (sum_foldr_prepend_le ((p :: ps).flatMap items)).trans (sum_flatMap_items_le (p :: ps))
  have hne : ((p :: ps).flatMap items).foldr prepend [] ≠ [] := by
    obtain ⟨q, qs, hq⟩ := List.exists_cons_of_ne_nil
      (List.append_ne_nil_of_left_ne_nil hp (ps.flatMap items))
    rw [List.flatMap_cons, hq, List.foldr_cons]
    unfold prepend
    split <;> exact List.cons_ne_nil _ _
  rw [sequence, sum_ofItems (f := bulk) (fun _ _ => rfl) hne]
  exact hsum

/-! ### Alternations -/

/-- Every item counts for something. -/
theorem le_bulk_of_mem_items {p q : Normal} (h : q ∈ p.items) : 64 ≤ q.bulk := by
  induction p with
  | empty => cases h
  | cat p r ihp ihr => exact (List.mem_append.mp h).elim ihp ihr
  | literal | chars | start | stop | alt | group | repeated =>
    obtain rfl := List.mem_singleton.mp h
    simp only [bulk, repeatedBulk]
    omega

/-- What the branches of an alternation count for, with what it takes to choose. -/
def sumBranches (ps : List Normal) : Nat := (ps.map (bulk · + 72)).sum

theorem sumBranches_append (ps qs : List Normal) :
    sumBranches (ps ++ qs) = sumBranches ps + sumBranches qs := by
  rw [sumBranches, List.map_append, List.sum_append]
  rfl

theorem sumBranches_cons (p : Normal) (ps : List Normal) :
    sumBranches (p :: ps) = p.bulk + 72 + sumBranches ps := List.sum_cons

/-- The branches of a pattern count for the pattern and the choice of it. -/
theorem sumBranches_branches (p : Normal) : sumBranches p.branches = p.bulk + 72 := by
  induction p with
  | alt p q ihp ihq =>
    rw [branches, sumBranches_append, ihp, ihq]
    show _ = p.bulk + q.bulk + 72 + 72
    omega
  | _ => exact List.sum_singleton

/-- Flattening alternations among the branches adds nothing. -/
theorem sumBranches_flatMap (ps : List Normal) :
    sumBranches (ps.flatMap branches) = sumBranches ps := by
  induction ps with
  | nil => rfl
  | cons p ps ih =>
    rw [List.flatMap_cons, sumBranches_append, sumBranches_branches, ih, sumBranches_cons]

/-- An alternation counts for no more than its branches and a little. -/
theorem bulk_ofBranches_le (ps : List Normal) : (ofBranches ps).bulk ≤ sumBranches ps + 64 := by
  induction ps with
  | nil => exact le_rfl
  | cons p ps ih =>
    rw [sumBranches_cons]
    cases ps with
    | nil => show p.bulk ≤ _; omega
    | cons q qs =>
      show p.bulk + (ofBranches (q :: qs)).bulk + 72 ≤ _
      omega

theorem bulk_ofSet_le (set : CharSet) : (ofSet set).bulk ≤ 64 + 160 * set.ranges.length := by
  unfold ofSet
  split
  · rename_i h
    rw [h]
    split
    · exact le_rfl
    · simp only [bulk, h]
      exact le_rfl
  · exact le_rfl

/-- The set that some branches come to. -/
theorem bulk_union_le {f : Normal → Option CharSet} {bs : List Normal} {sets : List CharSet}
    (hf : ∀ p set, f p = some set → p.bulk = 64 + 160 * set.ranges.length)
    (h : bs.mapM f = some sets) : (ofSet (.union sets)).bulk ≤ sumBranches bs + 64 := by
  have hsum : 160 * (sets.map (·.ranges.length)).sum ≤ sumBranches bs := by
    have hall := forall₂_of_mapM h
    clear h
    induction hall with
    | nil => exact le_rfl
    | cons hp _ ih =>
      have := hf _ _ hp
      rw [sumBranches_cons, List.map_cons, List.sum_cons]
      omega
  have := bulk_ofSet_le (.union sets)
  have := CharSet.length_union_le sets
  omega

/-- One character counts for the ranges of its set. -/
theorem bulk_of_single? {p : Normal} {set : CharSet} (h : p.single? = some set) :
    p.bulk = 64 + 160 * set.ranges.length := by
  unfold single? at h
  split at h
  · cases h
    rfl
  · cases h

theorem bulk_of_set? {p : Normal} {set : CharSet} (h : p.set? = some set) :
    p.bulk = 64 + 160 * set.ranges.length := by
  unfold set? at h
  split at h
  · cases h
    rfl
  · cases h

/-- Taking out what all branches share leaves less to count, as there are two branches at least. -/
theorem sumBranches_rests_le {shared : List Normal} {bs : List Normal}
    (h : ∀ b ∈ bs, shared <+: b.items) :
    sumBranches (bs.map fun b => sequence (b.items.drop shared.length)) +
      bs.length * (shared.map bulk).sum ≤ sumBranches bs + 32 * bs.length := by
  induction bs with
  | nil => simp [sumBranches]
  | cons b bs ih =>
    obtain ⟨⟨rest, hb⟩, hbs⟩ := List.forall_mem_cons.mp h
    have hrest := bulk_sequence_le rest
    have hsum := sum_items_le (f := bulk) (fun _ _ => rfl) b
    have hdrop : b.items.drop shared.length = rest := by rw [← hb, List.drop_left]
    rw [← hb, List.map_append, List.sum_append] at hsum
    rw [List.map_cons, sumBranches_cons, sumBranches_cons, List.length_cons, Nat.succ_mul, hdrop]
    have := ih hbs
    omega

/-- Taking out what all branches share adds nothing, for it is counted once then. -/
theorem bulk_choiceWithin_le (fuel : Nat) (ps : List Normal) :
    (choiceWithin fuel ps).bulk ≤ sumBranches ps + 64 := by
  induction fuel using Nat.strong_induction_on generalizing ps with
  | _ fuel ih =>
    rw [← sumBranches_flatMap]
    refine choiceWithin_cases (motive := fun n => n.bulk ≤ sumBranches (ps.flatMap branches) + 64)
      fuel ps (fun p hp => ?_) (fun sets hsets => ?_) (fun m p items hm hshared hlifted => ?_)
      (bulk_ofBranches_le _)
    · rw [hp, sumBranches_cons]
      omega
    · exact hsets.elim (bulk_union_le fun _ _ => bulk_of_single?) (bulk_union_le fun _ _ => bulk_of_set?)
    · have hbegins : ∀ b ∈ ps.flatMap branches, p :: items <+: b.items := fun b hb =>
        hshared ▸ beginning_isPrefix hb
      -- of a single branch, or of none, nothing is taken out
      have hmany : 2 ≤ (ps.flatMap branches).length := by
        by_contra hfew
        rw [hm, liftedWithin, if_pos] at hlifted
        · cases hlifted
        · cases hbs : ps.flatMap branches with
          | nil => exact .inr (.inl rfl)
          | cons b bs =>
            rw [hbs, List.length_cons] at hfew
            exact .inl (by rw [List.length_cons]; omega)
      obtain ⟨b, hb⟩ := List.exists_mem_of_length_pos (Nat.lt_of_lt_of_le Nat.zero_lt_two hmany)
      have hmem : p ∈ b.items := (hbegins b hb).subset List.mem_cons_self
      have hbulk : 64 ≤ ((p :: items).map bulk).sum :=
        (le_bulk_of_mem_items hmem).trans (Nat.le_add_right _ _)
      have hrests := sumBranches_rests_le hbegins
      have hchoice := ih m (by omega) ((ps.flatMap branches).map fun b =>
        sequence (b.items.drop (items.length + 1)))
      have hseq := bulk_sequence_le_of_items (p := p)
        (by rw [items_of_mem_items hmem]; exact List.cons_ne_nil p [])
        (items ++ [choiceWithin m ((ps.flatMap branches).map fun b =>
          sequence (b.items.drop (items.length + 1)))])
      rw [← List.cons_append, List.map_append, List.sum_append, List.map_singleton,
        List.sum_singleton] at hseq
      -- what is shared is counted once instead of `n + 2` times, which pays for the rests
      obtain ⟨n, hn⟩ := Nat.exists_eq_add_of_le hmany
      have hmore := Nat.mul_le_mul_left (n + 1) hbulk
      rw [hn, show 2 + n = n + 1 + 1 by omega, Nat.succ_mul] at hrests
      rw [List.length_cons] at hrests
      omega

theorem bulk_choice_le (ps : List Normal) : (choice ps).bulk ≤ sumBranches ps + 64 :=
  bulk_choiceWithin_le _ ps

/-! ### Repetitions -/

/-- A repetition counts for what its body does, as often as it may be taken. -/
theorem bulk_times_le (c : Count) (p : Normal) : (times c p).bulk ≤ repeatedBulk c p.bulk := by
  obtain ⟨hleast, hmost⟩ : (bounded c p).least ≤ c.least ∧
      (bounded c p).most.getD 1 ≤ c.most.getD 1 := by
    unfold bounded
    split
    · exact ⟨min_le_left _ _, min_le_left _ _⟩
    · exact ⟨le_rfl, le_rfl⟩
  have hle : repeatedBulk (bounded c p) p.bulk ≤ repeatedBulk c p.bulk :=
    repeatedBulk_mono hleast hmost le_rfl
  rw [times]
  split
  · show 32 ≤ repeatedBulk c p.bulk
    unfold repeatedBulk
    omega
  · split
    · rename_i honce
      refine le_trans ?_ hle
      rw [repeatedBulk, honce.1, honce.2]
      show p.bulk ≤ 1 * (p.bulk + 40) + 112
      omega
    · exact hle

end Normal

/-! ### Patterns -/

namespace Normal

/-- What a part counts for that may have no normal form. -/
def bulk? (x : Option Normal) : Nat := (x.map bulk).getD 0

end Normal

/-- What the outermost parts of a pattern count for. -/
def Parts.bulk : Parts (Option Normal) → Nat
  | .sequence xs => (xs.map Normal.bulk?).sum
  | .choice _ xs => (xs.map (Normal.bulk? · + 72)).sum + 64

namespace Normal

variable {caseless : Bool} {xs : List (Option Normal)} {ps qs : Parts (Option Normal)}

/-- A bound for parts with normal forms is one for parts that may have none, which count for nothing. -/
theorem bulk?_map_mapM_le {f : List Normal → Normal} {g : Option Normal → Nat} {h : Normal → Nat}
    {k : Nat} (hg : ∀ n, h n = g (some n)) (hf : ∀ ns, (f ns).bulk ≤ (ns.map h).sum + k) :
    bulk? ((xs.mapM id).map f) ≤ (xs.map g).sum + k := by
  cases hxs : xs.mapM id with
  | none => exact Nat.zero_le _
  | some ns =>
    have hsum : (ns.map h).sum = (xs.map g).sum := by
      have hall := forall₂_of_mapM hxs
      clear hxs
      induction hall with
      | nil => rfl
      | cons hx _ ih =>
        obtain rfl : _ = some _ := hx
        rw [List.map_cons, List.map_cons, List.sum_cons, List.sum_cons, ih, hg]
    exact hsum ▸ hf ns

theorem bulk?_sequence_le :
    bulk? ((interpretation caseless).sequence xs) ≤ (xs.map bulk?).sum + 32 :=
  bulk?_map_mapM_le (fun _ => rfl) bulk_sequence_le

theorem bulk?_choice_le :
    bulk? ((interpretation caseless).choice xs) ≤ (xs.map (bulk? · + 72)).sum + 64 :=
  bulk?_map_mapM_le (fun _ => rfl) bulk_choice_le

theorem bulk?_whole_le : bulk? ((interpretation caseless).whole ps) ≤ ps.bulk + 32 := by
  match ps with
  | .sequence [x] => exact List.sum_singleton.ge.trans (Nat.le_add_right _ 32)
  | .sequence [] | .sequence (_ :: _ :: _) => exact bulk?_sequence_le
  | .choice _ xs => exact bulk?_choice_le.trans (Nat.le_add_right _ _)

/-- The items of a pattern count for no more than its parts. -/
theorem sum_items_parts_le : (((interpretation caseless).items ps).map bulk?).sum ≤ ps.bulk := by
  cases ps with
  | sequence xs => exact le_rfl
  | choice b xs => exact List.sum_singleton.le.trans bulk?_choice_le

/-- Nor do its branches, but for what it takes to choose. -/
theorem sum_branches_parts_le :
    (((interpretation caseless).branches ps).map (bulk? · + 72)).sum ≤ ps.bulk + 104 := by
  match ps with
  | .choice false xs => exact (Nat.le_add_right _ 64).trans (Nat.le_add_right _ 104)
  | .choice true xs => exact List.sum_singleton.le.trans (Nat.add_le_add_right bulk?_whole_le 72)
  | .sequence xs => exact List.sum_singleton.le.trans (Nat.add_le_add_right bulk?_whole_le 72)

/-- Parts in a row count for no more than both. -/
theorem bulk_append_le : ((interpretation caseless).append ps qs).bulk ≤ ps.bulk + qs.bulk := by
  unfold Interpretation.append
  split
  · exact Nat.le_add_left _ _
  · exact Nat.le_add_right _ _
  · rw [Parts.bulk, List.map_append, List.sum_append]
    exact Nat.add_le_add sum_items_parts_le sum_items_parts_le

theorem bulk_bracketed_le : ((interpretation caseless).bracketed ps).bulk ≤ ps.bulk + 32 := by
  match ps with
  | .sequence [] | .sequence [_] | .choice _ _ => exact Nat.le_add_right _ _
  | .sequence (_ :: _ :: _) => exact List.sum_singleton.le.trans bulk?_sequence_le

theorem bulk?_group_le (n : Nat) (x : Option Normal) :
    bulk? ((interpretation caseless).group n x) ≤ bulk? x + 64 := by
  cases x with
  | none => exact Nat.zero_le _
  | some p => exact le_rfl

theorem bulk?_repeated_le (c : Count) (x : Option Normal) :
    bulk? ((interpretation caseless).repeated c x) ≤ repeatedBulk c (bulk? x) := by
  show bulk? (if c.fits then x.map (times c) else none) ≤ _
  cases x with
  | none => split <;> exact Nat.zero_le _
  | some p =>
    split
    · exact bulk_times_le c p
    · exact Nat.zero_le _

/-- A character has few variants. -/
theorem bulk_ofChar_le (c : Char) : (ofChar caseless c).bulk ≤ 704 := by
  unfold ofChar
  split
  · refine (bulk_ofSet_le _).trans ?_
    have hunion := CharSet.length_union_le ((Folding.variants c).map .single)
    have hsingle : (((Folding.variants c).map CharSet.single).map (·.ranges.length)).sum ≤ 4 := by
      have hone : ((·.ranges.length) ∘ CharSet.single) = fun _ => 1 := rfl
      rw [List.map_map, hone, List.map_const', List.sum_replicate, smul_eq_mul, Nat.mul_one]
      exact Folding.length_variants_le c
    omega
  · show 64 + 160 * 1 ≤ 704
    decide

end Normal

namespace Pattern

/-- A bound of the weight of the normal form, told part by part. -/
def heft : Pattern → Nat
  | .empty | .look .. | .recall _ => 0
  | .char _ => 704
  | .chars set => 64 + 160 * (set.ranges.length + CharSet.added set.ranges + 1)
  | .start | .stop => 64
  | .cat p q => p.heft + q.heft
  | .alt p q => p.heft + q.heft + 272
  | .group none p => p.heft + 32
  | .group (some _) p => p.heft + 96
  | .repeated c p => Normal.repeatedBulk c (p.heft + 32)

/-- The parts of a pattern count for no more than its heft. -/
theorem bulk_parts_le (caseless : Bool) (p : Pattern) :
    ((Normal.interpretation caseless).parts p).bulk ≤ p.heft := by
  induction p with
  | empty => exact le_rfl
  | char c => exact List.sum_singleton.le.trans (Normal.bulk_ofChar_le c)
  | chars set =>
    refine List.sum_singleton.le.trans ((Normal.bulk_ofSet_le _).trans ?_)
    have := CharSet.length_resolve_le caseless set
    show _ ≤ 64 + 160 * _
    omega
  | start | stop => exact List.sum_singleton.le
  | cat p q ihp ihq => exact Normal.bulk_append_le.trans (Nat.add_le_add ihp ihq)
  | alt p q ihp ihq =>
    rw [Interpretation.parts, Parts.bulk, List.map_append, List.sum_append, heft]
    have := @Normal.sum_branches_parts_le caseless ((Normal.interpretation caseless).parts p)
    have := @Normal.sum_branches_parts_le caseless ((Normal.interpretation caseless).parts q)
    omega
  | group index p ih =>
    cases index with
    | none => exact Normal.bulk_bracketed_le.trans (Nat.add_le_add_right ih 32)
    | some n =>
      refine List.sum_singleton.le.trans ((Normal.bulk?_group_le n _).trans ?_)
      exact Nat.add_le_add_right (Normal.bulk?_whole_le.trans (Nat.add_le_add_right ih 32)) 64
  | repeated c p ih =>
    refine List.sum_singleton.le.trans ((Normal.bulk?_repeated_le c _).trans ?_)
    exact Normal.repeatedBulk_mono le_rfl le_rfl
      (Normal.bulk?_whole_le.trans (Nat.add_le_add_right ih 32))
  | look => exact List.sum_singleton.le
  | _ => exact List.sum_singleton.le

/-- **The normal form of a pattern is no heavier than its parts let it be.** -/
theorem weight_le_heft {caseless : Bool} {p : Pattern} {n : Normal} (h : p.normal? caseless = some n) :
    n.weight ≤ p.heft + 32 := by
  have hwhole := @Normal.bulk?_whole_le caseless ((Normal.interpretation caseless).parts p)
  rw [show (Normal.interpretation caseless).whole ((Normal.interpretation caseless).parts p) = some n
    from h] at hwhole
  exact n.weight_le_bulk.trans (hwhole.trans (Nat.add_le_add_right (p.bulk_parts_le caseless) 32))

end Pattern

end MailPattern
