import MailPattern.Proofs.Pattern.Spelling
import Mathlib.Data.List.MinMax

/-!
# Proofs — Pattern — Closing

How many ranges a resolved set has at most.  Closing a set under case adds the classes that it
touches: none if the set ends before the letters, those of the letters if it is of ASCII, and else
perhaps all of the table (`CharSet.length_closed_le`).  No class is large, since no more than three
runs send characters to one place (`Folding.countP_reaches_le`).  Merging ranges and taking the gaps
between them makes one more at most.
-/

namespace MailPattern

/-! ### The sizes of classes -/

namespace Folding

/-- The run may send a character to `t`, by its bounds. -/
def Run.reaches (r : Run) (t : Nat) : Bool :=
  decide (r.target ≤ t) && decide (t ≤ r.target + (r.last - r.first))

theorem Run.reaches_iff {r : Run} {t : Nat} :
    r.reaches t = true ↔ r.target ≤ t ∧ t ≤ r.target + (r.last - r.first) := by
  rw [reaches, Bool.and_eq_true, decide_eq_true_eq, decide_eq_true_eq]

/-- By comparisons that are evaluated fast. -/
theorem Run.reaches_eq (r : Run) (t : Nat) :
    r.reaches t = (r.target.ble t && t.ble (r.target + (r.last - r.first))) := by
  rw [Bool.eq_iff_iff, reaches_iff, Bool.and_eq_true, Nat.ble_eq, Nat.ble_eq]

/-- No more than three runs send a character to one place: those that do all reach the place
where the last of them begins to reach. -/
theorem countP_reaches_le (t : Nat) : runs.countP (·.reaches t) ≤ 3 := by
  -- all runs that reach `t` reach the greatest of their targets, too
  have hstarts : (runs.all fun r => (runs.countP (·.reaches r.target)).ble 3) = true := by
    simp only [Run.reaches_eq]
    decide +kernel
  cases hlast : (runs.filter (·.reaches t)).argmax Run.target with
  | none =>
    rw [List.countP_eq_length_filter, List.argmax_eq_none.mp hlast]
    exact Nat.zero_le 3
  | some last =>
    obtain ⟨hmem, hreaches⟩ := List.mem_filter.mp (List.argmax_mem hlast)
    refine (List.countP_mono_left fun r hr hrt => ?_).trans
      (Nat.le_of_ble_eq_true (List.all_eq_true.mp hstarts last hmem))
    have hle : r.target ≤ last.target :=
      List.le_of_mem_argmax (List.mem_filter.mpr ⟨hr, hrt⟩) hlast
    rw [Run.reaches_iff] at hreaches hrt ⊢
    omega

theorem length_variants_le (c : Char) : (variants c).length ≤ 4 := by
  rw [variants_eq, classOf]
  refine (List.length_filter_le ..).trans ?_
  rw [List.length_map, List.length_cons, List.length_filterMap_eq_countP]
  refine Nat.succ_le_succ
    ((List.countP_mono_left fun r _ hr => ?_).trans (countP_reaches_le (foldCode c.toNat)))
  rw [Option.isSome_ite, Run.image, Option.ite_none_right_eq_some, Option.some.injEq, Run.source] at hr
  rw [Run.reaches_iff]
  omega

/-- The classes of what a run sends to another character. -/
def Run.classes (r : Run) : List (List Char) :=
  (List.range ((r.last - r.first) / r.stride + 1)).map fun n =>
    variants (Char.ofNat (r.first + n * r.stride))

theorem length_flatten_classes : classes.flatten.length ≤ 5936 := by
  have hlen : classes.length = 1484 := by
    simp only [classes, List.length_flatMap, List.length_map, List.length_range]
    decide +kernel
  have hle : ∀ cs ∈ classes, cs.length ≤ 4 := by
    intro cs hcs
    obtain ⟨r, -, hcs⟩ := List.mem_flatMap.mp hcs
    obtain ⟨n, -, rfl⟩ := List.mem_map.mp hcs
    exact length_variants_le _
  rw [List.length_flatten]
  refine (List.sum_le_card_nsmul _ 4 fun n hn => ?_).trans ?_
  · obtain ⟨cs, hcs, rfl⟩ := List.mem_map.mp hn
    exact hle cs hcs
  · rw [List.length_map, hlen, smul_eq_mul]

/-! ### Which classes hold ASCII -/

/-- What the classes of a run belong to. -/
theorem exists_of_mem_classes {r : Run} (hr : r ∈ runs) {cs : List Char} (h : cs ∈ r.classes) :
    ∃ c : Char, cs = variants c ∧ r.first ≤ c.toNat ∧ c.toNat ≤ r.last := by
  have hvalid : ∀ r ∈ runs, r.first ≤ r.last ∧
      (r.last < 0xd800 ∨ 0xdfff < r.first ∧ r.last < 0x110000) := by decide +kernel
  obtain ⟨n, hn, rfl⟩ := List.mem_map.mp h
  obtain ⟨hle, hv⟩ := hvalid r hr
  have hmul := Nat.div_mul_le_self (r.last - r.first) r.stride
  have hn := Nat.mul_le_mul_right r.stride (Nat.lt_succ_iff.mp (List.mem_range.mp hn))
  refine ⟨_, rfl, ?_⟩
  rw [toNat_ofNat (by unfold Nat.isValidChar; omega)]
  omega

/-- The run sends to a character of ASCII. -/
def Run.low (r : Run) : Bool := decide (r.target < 0x80)

/-- What folds to ASCII belongs to a run that sends there. -/
theorem low_of_foldCode {r : Run} (hr : r ∈ runs) {n : Nat} (hfirst : r.first ≤ n) (hlast : n ≤ r.last)
    (h : foldCode n < 0x80) : r.low = true := by
  have hruns : ∀ r ∈ runs, r.low = true ∨ 0x80 ≤ r.first ∧ (0x17f < r.first ∨ r.last < 0x17f) ∧
      (0x212a < r.first ∨ r.last < 0x212a) := by decide +kernel
  refine (hruns r hr).resolve_right fun hhigh => ?_
  have := foldCode_to_ascii h
  omega

theorem length_flatten_low : ((runs.filter Run.low).flatMap Run.classes).flatten.length ≤ 60 := by
  have : ∀ r : Run, r.classes = (List.range ((r.last - r.first) / r.stride + 1)).map fun n =>
      classOf (Char.ofNat (r.first + n * r.stride)) := fun r => by
    simp only [Run.classes, variants_eq]
  rw [funext this]
  decide +kernel

end Folding

theorem filter_flatMap_sublist {α β : Type} {f : β → Bool} {g : α → List β} {low : α → Bool}
    {as : List α} (h : ∀ a ∈ as, low a = false → (g a).filter f = []) :
    ((as.flatMap g).filter f).Sublist ((as.filter low).flatMap g) := by
  induction as with
  | nil => exact .slnil
  | cons a as ih =>
    obtain ⟨ha, has⟩ := List.forall_mem_cons.mp h
    rw [List.flatMap_cons, List.filter_append]
    cases hlow : low a with
    | false =>
      rw [ha hlow, List.filter_cons_of_neg (by rw [hlow]; exact Bool.false_ne_true)]
      exact ih has
    | true =>
      rw [List.filter_cons_of_pos hlow, List.flatMap_cons]
      exact List.filter_sublist.append (ih has)

namespace CharSet

variable {ranges : List (Char × Char)}

/-- How many characters are added at most when ranges are closed under case. -/
def added (ranges : List (Char × Char)) : Nat :=
  if ranges.all fun r => decide (r.2.toNat < 0x41) then 0
  else if ranges.all fun r => decide (r.2.toNat < 0x80) then 60
  else 5936

theorem length_closed_le (ranges : List (Char × Char)) :
    (closed ranges).length ≤ ranges.length + added ranges := by
  rw [closed, List.length_append, List.length_map]
  refine Nat.add_le_add_left ?_ _
  have hcovered : ∀ r ∈ Folding.runs, ∀ cs ∈ r.classes, cs.any (CharSet.mk ranges false).covers = true →
      ∃ c d : Char, r.first ≤ c.toNat ∧ c.toNat ≤ r.last ∧ Folding.fold d = Folding.fold c ∧
        ∃ x ∈ ranges, d.toNat ≤ x.2.toNat := by
    intro r hr cs hcs hany
    obtain ⟨c, rfl, hfirst, hlast⟩ := Folding.exists_of_mem_classes hr hcs
    obtain ⟨d, hd, hcovers⟩ := List.any_eq_true.mp hany
    obtain ⟨x, hx, -, hle⟩ := covers_iff.mp hcovers
    exact ⟨c, d, hfirst, hlast, Folding.mem_variants_iff.mp hd, x, hx, le_iff.mp hle⟩
  unfold added
  split
  · rename_i hdigits
    rw [List.filter_eq_nil_iff.mpr]
    · exact le_rfl
    · intro cs hcs hany
      obtain ⟨r, hr, hcs⟩ := List.mem_flatMap.mp hcs
      obtain ⟨c, d, hfirst, -, hfold, x, hx, hle⟩ := hcovered r hr cs hcs hany
      have := of_decide_eq_true (List.all_eq_true.mp hdigits x hx)
      have := Folding.runs_ascii r hr
      rw [uncased_ascii (.inl (by omega)) c hfold.symm] at hfirst
      omega
  · split
    · rename_i hascii
      refine le_trans (List.Sublist.length_le ?_) Folding.length_flatten_low
      refine List.Sublist.flatten (filter_flatMap_sublist fun r hr hlow => ?_)
      refine List.filter_eq_nil_iff.mpr fun cs hcs hany => ?_
      obtain ⟨c, d, hfirst, hlast, hfold, x, hx, hle⟩ := hcovered r hr cs hcs hany
      have := of_decide_eq_true (List.all_eq_true.mp hascii x hx)
      refine Bool.false_ne_true (hlow.symm.trans (Folding.low_of_foldCode hr hfirst hlast ?_))
      rw [← Folding.toNat_fold, ← hfold, Folding.toNat_fold, Folding.foldCode_lower _ (by omega)]
      split <;> omega
    · exact (List.Sublist.flatten List.filter_sublist).length_le.trans Folding.length_flatten_classes

theorem length_mergeFrom_le (r : Char × Char) (rest : List (Char × Char)) :
    (mergeFrom r rest).length ≤ rest.length + 1 := by
  induction rest generalizing r with
  | nil => exact le_rfl
  | cons s rest ih =>
    rw [mergeFrom]
    split
    · exact (ih _).trans (Nat.le_succ _)
    · exact Nat.succ_le_succ (ih s)

theorem length_merged_le (ranges : List (Char × Char)) :
    (merged ranges).length ≤ ranges.length := by
  have hsorted : (ranges.mergeSort fun r s => decide (r.1 ≤ s.1)).length = ranges.length :=
    List.length_mergeSort ranges
  rw [← hsorted]
  unfold merged
  split
  · exact Nat.zero_le _
  · rename_i r rest h
    rw [h]
    exact length_mergeFrom_le r rest

theorem length_gapsFrom_le (next : Char) (ranges : List (Char × Char)) :
    (gapsFrom next ranges).length ≤ ranges.length + 1 := by
  induction ranges generalizing next with
  | nil => exact le_rfl
  | cons r rest ih =>
    have hafter : (if r.2 = last then [] else gapsFrom (above r.2) rest).length ≤ rest.length + 1 := by
      split
      · exact Nat.zero_le _
      · exact ih _
    rw [gapsFrom]
    split
    · exact Nat.succ_le_succ hafter
    · exact hafter.trans (Nat.le_succ _)

/-- **A resolved set has few ranges more than the set.** -/
theorem length_resolve_le (caseless : Bool) (s : CharSet) :
    (s.resolve caseless).ranges.length ≤ s.ranges.length + added s.ranges + 1 := by
  have hranges : (merged (if caseless then closed s.ranges else s.ranges)).length ≤
      s.ranges.length + added s.ranges := by
    refine (length_merged_le _).trans ?_
    split
    · exact length_closed_le _
    · exact Nat.le_add_right _ _
  rw [resolve]
  dsimp only
  split
  · exact (length_gapsFrom_le _ _).trans (Nat.succ_le_succ hranges)
  · exact hranges.trans (Nat.le_succ _)

theorem length_union_le (sets : List CharSet) :
    (union sets).ranges.length ≤ (sets.map (·.ranges.length)).sum := by
  refine (length_merged_le _).trans ?_
  rw [List.length_flatMap]

end CharSet

end MailPattern
