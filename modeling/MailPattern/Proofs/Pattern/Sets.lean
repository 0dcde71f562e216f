import MailPattern.Pattern.Normal
import Mathlib.Tactic

/-!
# Proofs — Pattern — Sets

Resolving a set keeps what it admits, of texts read by themselves and of texts read up to case
(`CharSet.admits_resolve`), and a union admits what one of its sets does
(`CharSet.admits_union`).

Ranges are made one where they meet or touch, so what counts is which character comes after which
(`lt_above`, `le_below`): the codes of surrogates are left out.  Gaps are looked for between
ranges in *ascending* order only.
-/

namespace MailPattern

namespace CharSet

/-- Some range holds the character. -/
def Within (ranges : List (Char × Char)) (c : Char) : Prop := ∃ r ∈ ranges, r.1 ≤ c ∧ c ≤ r.2

/-- No range ends before it starts. -/
def Valid (s : CharSet) : Prop := ∀ r ∈ s.ranges, r.1 ≤ r.2

theorem covers_iff {s : CharSet} {c : Char} : s.covers c = true ↔ Within s.ranges c := by
  simp [covers, Within]

theorem within_cons {r : Char × Char} {ranges : List (Char × Char)} {c : Char} :
    Within (r :: ranges) c ↔ (r.1 ≤ c ∧ c ≤ r.2) ∨ Within ranges c := by
  simp [Within]

theorem within_append {ranges ranges' : List (Char × Char)} {c : Char} :
    Within (ranges ++ ranges') c ↔ Within ranges c ∨ Within ranges' c := by
  simp only [Within, List.mem_append, or_and_right, exists_or]

/-- A set admits a reading of which it holds a variant. -/
theorem admits_iff {s : CharSet} (hs : s.negated = false) {r : Reading} :
    s.admits r = true ↔ ∃ c ∈ r, Within s.ranges c := by
  simp [admits, hs, covers_iff]

/-- A negated set admits a reading of which it names no variant. -/
theorem admits_negated_iff {s : CharSet} (hs : s.negated = true) {r : Reading} :
    s.admits r = true ↔ ∀ c ∈ r, ¬ Within s.ranges c := by
  simp [admits, hs, ← covers_iff]

/-! ### Neighbours -/

theorem le_iff {c d : Char} : c ≤ d ↔ c.toNat ≤ d.toNat := Iff.rfl

theorem lt_iff {c d : Char} : c < d ↔ c.toNat < d.toNat := Iff.rfl

theorem toNat_last : last.toNat = 0x10ffff := rfl

/-- No character comes after the last. -/
theorem le_last (c : Char) : c ≤ last := by
  rw [le_iff, toNat_last]
  have : c.toNat.isValidChar := c.valid
  unfold Nat.isValidChar at this
  omega

/-- The code after a character's is the next, but for the surrogates. -/
theorem toNat_above {c : Char} (hc : c ≠ last) :
    (above c).toNat = if c.toNat = 0xd7ff then 0xe000 else c.toNat + 1 := by
  unfold above
  split
  · rfl
  · refine Folding.toNat_ofNat ?_
    have hv : c.toNat.isValidChar := c.valid
    have hn : c.toNat ≠ 0x10ffff := fun h => hc (Char.toNat_inj.mp (h.trans toNat_last.symm))
    unfold Nat.isValidChar at hv ⊢
    omega

/-- No character lies between one and the one after it. -/
theorem lt_above {c d : Char} (hc : c ≠ last) : d < above c ↔ d ≤ c := by
  have hd : d.toNat.isValidChar := d.valid
  have hv : c.toNat.isValidChar := c.valid
  unfold Nat.isValidChar at hd hv
  rw [lt_iff, le_iff, toNat_above hc]
  split <;> omega

theorem toNat_below {c : Char} (hc : 0 < c.toNat) :
    (below c).toNat = if c.toNat = 0xe000 then 0xd7ff else c.toNat - 1 := by
  unfold below
  split
  · rfl
  · refine Folding.toNat_ofNat ?_
    have hv : c.toNat.isValidChar := c.valid
    unfold Nat.isValidChar at hv ⊢
    omega

/-- What comes before a character goes up to the one below it. -/
theorem le_below {b c d : Char} (hc : b < c) : d ≤ below c ↔ d < c := by
  have hd : d.toNat.isValidChar := d.valid
  have hv : c.toNat.isValidChar := c.valid
  unfold Nat.isValidChar at hd hv
  rw [lt_iff] at hc
  rw [lt_iff, le_iff, toNat_below (by omega)]
  split <;> omega

/-! ### Merged ranges -/

/-- One range in place of two that meet or touch. -/
theorem within_joined {r s : Char × Char} {c : Char} (hs : r.1 ≤ s.1)
    (h : s.1 ≤ r.2 ∨ s.1 = above r.2) :
    (r.1 ≤ c ∧ c ≤ if r.2 ≤ s.2 then s.2 else r.2) ↔
      (r.1 ≤ c ∧ c ≤ r.2) ∨ (s.1 ≤ c ∧ c ≤ s.2) := by
  have touch : ¬ c ≤ r.2 → s.1 ≤ c := by
    intro hc
    rcases h with h | h
    · simp only [le_iff] at *
      omega
    · have hl : r.2 ≠ last := fun hl => hc (hl ▸ le_last c)
      rw [h, le_iff, ← Nat.not_lt]
      exact fun hlt => hc ((lt_above hl).mp hlt)
  by_cases hrs : r.2 ≤ s.2
  · rw [if_pos hrs]
    simp only [le_iff] at *
    omega
  · rw [if_neg hrs]
    simp only [le_iff] at *
    omega

/-- Joining ranges that meet or touch keeps the characters, if the ranges are sorted. -/
theorem within_mergeFrom {c : Char} :
    ∀ (rest : List (Char × Char)) (r : Char × Char),
      (r :: rest).Pairwise (fun r s => r.1 ≤ s.1) →
        (Within (mergeFrom r rest) c ↔ Within (r :: rest) c) := by
  intro rest
  induction rest with
  | nil => exact fun _ _ => Iff.rfl
  | cons s rest ih =>
    intro r hr
    obtain ⟨hr, hrest⟩ := List.pairwise_cons.mp hr
    obtain ⟨hs, hrest'⟩ := List.pairwise_cons.mp hrest
    rw [mergeFrom]
    split
    · refine (ih (r.1, if r.2 ≤ s.2 then s.2 else r.2) (List.pairwise_cons.mpr
        ⟨fun t ht => hr t (List.mem_cons_of_mem s ht), hrest'⟩)).trans ?_
      rw [within_cons, within_joined (hr s List.mem_cons_self) ‹_›, within_cons, within_cons,
        or_assoc]
    · rw [within_cons, ih s hrest, ← within_cons]

theorem pairwise_sorted (ranges : List (Char × Char)) :
    (ranges.mergeSort fun r s => r.1 ≤ s.1).Pairwise (fun r s => r.1 ≤ s.1) := by
  have := @List.pairwise_mergeSort (Char × Char) (fun r s => decide (r.1 ≤ s.1))
    (fun a b c => by simp only [decide_eq_true_eq, le_iff]; omega)
    (fun a b => by simp only [Bool.or_eq_true, decide_eq_true_eq, le_iff]; omega) ranges
  simpa using this

/-- Merged ranges hold the same characters. -/
theorem within_merged {ranges : List (Char × Char)} {c : Char} :
    Within (merged ranges) c ↔ Within ranges c := by
  have hp := pairwise_sorted ranges
  have hm : ∀ r, r ∈ ranges.mergeSort (fun r s => r.1 ≤ s.1) ↔ r ∈ ranges :=
    fun r => List.mem_mergeSort
  unfold merged
  split
  · rename_i h
    rw [h] at hm
    simp only [Within, ← hm]
  · rename_i r rest h
    rw [h] at hm hp
    rw [within_mergeFrom rest r hp]
    simp only [Within, hm]

/-! ### Gaps -/

/-- Ranges from `next` on, each after the ones before. -/
def Ascending (next : Char) : List (Char × Char) → Prop
  | [] => True
  | r :: rest =>
    next ≤ r.1 ∧ r.1 ≤ r.2 ∧ if r.2 = last then rest = [] else Ascending (above r.2) rest

/-- Ascending ranges hold nothing that comes before them. -/
theorem within_of_ascending {c next : Char} :
    ∀ {ranges : List (Char × Char)}, Ascending next ranges → Within ranges c → next ≤ c := by
  intro ranges
  induction ranges generalizing next with
  | nil => exact fun _ h => absurd h (by simp [Within])
  | cons r rest ih =>
    rintro ⟨hnext, hr, hrest⟩ h
    rcases within_cons.mp h with h | h
    · exact Nat.le_trans hnext h.1
    · split at hrest
      · exact absurd h (by simp [hrest, Within])
      · have hc : ¬ c < above r.2 := Nat.not_lt.mpr (ih hrest h)
        rw [lt_above ‹_›] at hc
        simp only [le_iff] at *
        omega

/-- The gaps between ascending ranges hold what these do not. -/
theorem within_gapsFrom {c : Char} :
    ∀ (ranges : List (Char × Char)) (next : Char), Ascending next ranges →
      (Within (gapsFrom next ranges) c ↔ next ≤ c ∧ ¬ Within ranges c) := by
  intro ranges
  induction ranges with
  | nil =>
    intro next _
    simp [gapsFrom, Within, le_last]
  | cons r rest ih =>
    intro next h
    obtain ⟨hnext, hr, hrest⟩ := h
    -- the last character has none above it, so no gap follows the range that holds it
    have hafter : Within (if r.2 = last then [] else gapsFrom (above r.2) rest) c ↔
        ¬ c ≤ r.2 ∧ ¬ Within rest c := by
      split
      · exact iff_of_false (by simp [Within]) fun h => h.1 (‹r.2 = last› ▸ le_last c)
      · rename_i hl
        rw [if_neg hl] at hrest
        rw [ih _ hrest, ← lt_above hl]
        exact and_congr_left' Nat.not_lt.symm
    have hlater : Within rest c → ¬ c ≤ r.2 := by
      intro h
      split at hrest
      · exact absurd h (by simp [hrest, Within])
      · rw [← lt_above ‹_›]
        exact Nat.not_lt.mpr (within_of_ascending hrest h)
    rw [gapsFrom, within_cons]
    split
    · rename_i hlt
      rw [within_cons, hafter, le_below hlt]
      by_cases hw : Within rest c
      · have := hlater hw
        simp only [hw, not_true_eq_false, or_true, and_false, or_false, iff_false, le_iff,
          lt_iff] at hr this ⊢
        omega
      · simp only [hw, not_false_eq_true, or_false, and_true, le_iff, lt_iff] at hnext hr hlt ⊢
        omega
    · rename_i hlt
      rw [hafter]
      by_cases hw : Within rest c
      · simp only [hw, not_true_eq_false, or_true, and_false]
      · simp only [hw, not_false_eq_true, or_false, and_true, le_iff, lt_iff] at hnext hr hlt ⊢
        omega

/-- Merged ranges ascend. -/
theorem ascending_mergeFrom :
    ∀ (rest : List (Char × Char)) (r : Char × Char) (next : Char), next ≤ r.1 → r.1 ≤ r.2 →
      (∀ s ∈ rest, s.1 ≤ s.2) → (r :: rest).Pairwise (fun r s => r.1 ≤ s.1) →
        Ascending next (mergeFrom r rest) := by
  intro rest
  induction rest with
  | nil =>
    intro r next hnext hr _ _
    refine ⟨hnext, hr, ?_⟩
    split
    · rfl
    · trivial
  | cons s rest ih =>
    intro r next hnext hr hv hp
    obtain ⟨hr', hrest⟩ := List.pairwise_cons.mp hp
    obtain ⟨hs, hrest'⟩ := List.pairwise_cons.mp hrest
    have hv' : ∀ t ∈ rest, t.1 ≤ t.2 := fun t ht => hv t (List.mem_cons_of_mem s ht)
    rw [mergeFrom]
    split
    · refine ih _ next hnext ?_ hv' (List.pairwise_cons.mpr
        ⟨fun t ht => hr' t (List.mem_cons_of_mem s ht), hrest'⟩)
      split
      · exact Nat.le_trans hr ‹r.2 ≤ s.2›
      · exact hr
    · rename_i h
      have hl : r.2 ≠ last := fun hl => h (.inl (hl ▸ le_last s.1))
      refine ⟨hnext, hr, ?_⟩
      rw [if_neg hl]
      refine ih s _ ?_ (hv s List.mem_cons_self) hv' hrest
      rw [le_iff, ← Nat.not_lt]
      exact fun hlt => h (.inl ((lt_above hl).mp hlt))

/-- Merged ranges ascend. -/
theorem ascending_merged {ranges : List (Char × Char)} (hv : ∀ r ∈ ranges, r.1 ≤ r.2) :
    Ascending '\x00' (merged ranges) := by
  have hp := pairwise_sorted ranges
  have hm : ∀ r, r ∈ ranges.mergeSort (fun r s => r.1 ≤ s.1) ↔ r ∈ ranges :=
    fun r => List.mem_mergeSort
  unfold merged
  split
  · trivial
  · rename_i r rest h
    rw [h] at hp hm
    exact ascending_mergeFrom rest r _ (Nat.zero_le _) (hv r ((hm r).mp List.mem_cons_self))
      (fun s hs => hv s ((hm s).mp (List.mem_cons_of_mem r hs))) hp

/-! ### Closing under case -/

/-- Some class of the table holds two characters that fold alike. -/
theorem exists_class {c d : Char} (hcd : c ≠ d) (h : Folding.fold c = Folding.fold d) :
    ∃ cs ∈ Folding.classes, c ∈ cs ∧ d ∈ cs := by
  have moved : ∀ e, Folding.fold e ≠ e → Folding.variants e ∈ Folding.classes := by
    intro e he
    have hne : Folding.foldCode e.toNat ≠ e.toNat := fun h =>
      he (Char.toNat_inj.mp ((Folding.toNat_fold e).trans h))
    cases hf : Folding.runs.findSome? (·.image e.toNat) with
    | none => exact absurd (by simp [Folding.foldCode, hf]) hne
    | some t =>
      obtain ⟨r, hr, hi⟩ := List.exists_of_findSome?_eq_some hf
      simp only [Folding.Run.image, Option.ite_none_right_eq_some] at hi
      obtain ⟨⟨hlo, hhi, hmod⟩, -⟩ := hi
      refine List.mem_flatMap.mpr ⟨r, hr, List.mem_map.mpr
        ⟨(e.toNat - r.first) / r.stride, List.mem_range.mpr ?_, ?_⟩⟩
      · exact Nat.lt_succ_of_le (Nat.div_le_div_right (by omega))
      · rw [Nat.div_mul_cancel (Nat.dvd_of_mod_eq_zero hmod), Nat.add_sub_of_le hlo,
          Char.ofNat_toNat]
  by_cases hc : Folding.fold c = c
  · refine ⟨_, moved d fun hd => hcd (hc.symm.trans (h.trans hd)), ?_, ?_⟩
    · exact Folding.mem_variants_iff.mpr h
    · exact Folding.mem_variants_iff.mpr rfl
  · exact ⟨_, moved c hc, Folding.mem_variants_iff.mpr rfl, Folding.mem_variants_iff.mpr h.symm⟩

/-- Closed ranges hold what is the same up to case as something in the ranges. -/
theorem within_closed {ranges : List (Char × Char)} {c : Char} :
    Within (closed ranges) c ↔ ∃ d, Within ranges d ∧ Folding.fold d = Folding.fold c := by
  have hsingle : ∀ cs : List Char, Within (cs.map fun c => (c, c)) c ↔ c ∈ cs := by
    intro cs
    simp only [Within, List.mem_map, exists_exists_and_eq_and]
    exact ⟨fun ⟨d, hd, h₁, h₂⟩ => Char.le_antisymm h₂ h₁ ▸ hd,
      fun h => ⟨c, h, Char.le_refl c, Char.le_refl c⟩⟩
  rw [closed, within_append, hsingle]
  simp only [List.mem_flatten, List.mem_filter, List.any_eq_true, covers_iff]
  constructor
  · rintro (h | ⟨cs, ⟨hcs, d, hd, hw⟩, hc⟩)
    · exact ⟨c, h, rfl⟩
    · refine ⟨d, hw, ?_⟩
      obtain ⟨r, -, hcs⟩ := List.mem_flatMap.mp hcs
      obtain ⟨n, -, rfl⟩ := List.mem_map.mp hcs
      exact (Folding.mem_variants_iff.mp hd).trans (Folding.mem_variants_iff.mp hc).symm
  · rintro ⟨d, hw, hd⟩
    by_cases hcd : d = c
    · exact .inl (hcd ▸ hw)
    · obtain ⟨cs, hcs, hdcs, hccs⟩ := exists_class hcd hd
      exact .inr ⟨cs, ⟨hcs, d, hdcs, hw⟩, hccs⟩

/-- Closing ranges keeps them in order. -/
theorem valid_closed {ranges : List (Char × Char)} (hv : ∀ r ∈ ranges, r.1 ≤ r.2) :
    ∀ r ∈ closed ranges, r.1 ≤ r.2 := by
  intro r hr
  rcases List.mem_append.mp hr with hr | hr
  · exact hv r hr
  · obtain ⟨c, -, rfl⟩ := List.mem_map.mp hr
    exact Char.le_refl c

/-! ### Resolved sets and unions -/

/-- What a character of a text is read as. -/
def reading (caseless : Bool) (c : Char) : Reading := if caseless then Folding.variants c else [c]

theorem reading_true (c : Char) : reading true c = Folding.variants c := if_pos rfl

theorem reading_false (c : Char) : reading false c = [c] := if_neg Bool.false_ne_true

/-- A character is one of its readings. -/
theorem mem_reading (caseless : Bool) (c : Char) : c ∈ reading caseless c := by
  cases caseless with
  | true => rw [reading_true, Folding.mem_variants_iff]
  | false => rw [reading_false, List.mem_singleton]

/-- What a character is read as is read alike. -/
theorem reading_eq_of_mem {caseless : Bool} {c d : Char} (h : d ∈ reading caseless c) :
    reading caseless d = reading caseless c := by
  cases caseless with
  | true =>
    rw [reading_true] at h ⊢
    rw [reading_true, Folding.variants_congr (Folding.mem_variants_iff.mp h)]
  | false =>
    rw [reading_false, List.mem_singleton] at h
    rw [h]

theorem within_single {c d : Char} : Within (single c).ranges d ↔ d = c := by
  rw [← covers_iff, covers_single]

/-- A resolved set holds the characters whose readings the set admits. -/
theorem within_resolve {s : CharSet} (hs : s.Valid) (caseless : Bool) {c : Char} :
    Within (s.resolve caseless).ranges c ↔ s.admits (reading caseless c) = true := by
  have hranges : Within (merged (if caseless then closed s.ranges else s.ranges)) c ↔
      ∃ d ∈ reading caseless c, Within s.ranges d := by
    rw [within_merged]
    cases caseless with
    | true =>
      rw [if_pos rfl, within_closed]
      exact exists_congr fun d => by
        rw [reading_true, Folding.mem_variants_iff, and_comm]
    | false => simp [reading_false]
  have hv : ∀ r ∈ (if caseless then closed s.ranges else s.ranges), r.1 ≤ r.2 := by
    cases caseless with
    | true => exact valid_closed hs
    | false => exact hs
  cases hn : s.negated with
  | false => simp only [resolve, hn, Bool.false_eq_true, if_false, hranges, admits_iff hn]
  | true =>
    simp only [resolve, hn, if_true, within_gapsFrom _ _ (ascending_merged hv), hranges,
      admits_negated_iff hn]
    rw [and_iff_right (show '\x00' ≤ c from Nat.zero_le _)]
    simp only [not_exists, not_and]

/-- **A resolved set admits the characters that the set admits.** -/
theorem admits_resolve {s : CharSet} (hs : s.Valid) (caseless : Bool) (c : Char) :
    (s.resolve caseless).admits (reading caseless c) = s.admits (reading caseless c) := by
  rw [Bool.eq_iff_iff, admits_iff rfl]
  constructor
  · rintro ⟨d, hd, h⟩
    rwa [within_resolve hs, reading_eq_of_mem hd] at h
  · exact fun h => ⟨c, mem_reading caseless c, (within_resolve hs caseless).mpr h⟩

/-- A union admits what one of its sets admits. -/
theorem admits_union {sets : List CharSet} (hs : ∀ s ∈ sets, s.negated = false) {r : Reading} :
    (union sets).admits r = true ↔ ∃ s ∈ sets, s.admits r = true := by
  have hw : ∀ c, Within (union sets).ranges c ↔ ∃ x, (∃ s ∈ sets, x ∈ s.ranges) ∧
      x.1 ≤ c ∧ c ≤ x.2 := fun c => by
    rw [union, within_merged]
    simp only [Within, List.mem_flatMap]
  rw [admits_iff rfl]
  simp only [hw]
  constructor
  · rintro ⟨c, hc, x, ⟨s, hmem, hx⟩, h⟩
    exact ⟨s, hmem, (admits_iff (hs s hmem)).mpr ⟨c, hc, x, hx, h⟩⟩
  · rintro ⟨s, hmem, h⟩
    obtain ⟨c, hc, x, hx, h⟩ := (admits_iff (hs s hmem)).mp h
    exact ⟨c, hc, x, ⟨s, hmem, hx⟩, h⟩

theorem union_nil : union [] = ⟨[], false⟩ := by simp [union, merged]

/-- The variants of a character make a set that admits, up to case, what the character does. -/
theorem admits_union_variants (c d : Char) :
    (union ((Folding.variants c).map single)).admits (reading true d) =
      (single c).admits (reading true d) := by
  rw [Bool.eq_iff_iff, admits_union fun s hs => by
    obtain ⟨e, -, rfl⟩ := List.mem_map.mp hs
    rfl]
  simp only [List.mem_map, exists_exists_and_eq_and, admits_iff (s := single _) rfl, within_single,
    exists_eq_right, reading_true, Folding.mem_variants_iff]
  constructor
  · rintro ⟨e, hc, hd⟩
    exact hc.symm.trans hd
  · exact fun h => ⟨c, rfl, h⟩

/-- The set that leaves no character takes none. -/
theorem not_admits_never (caseless : Bool) (c : Char) :
    CharSet.admits ⟨[('\x00', last)], true⟩ (reading caseless c) = false := by
  rw [← Bool.not_eq_true, admits_negated_iff rfl]
  exact fun h => h c (mem_reading caseless c)
    ⟨_, List.mem_singleton_self _, Nat.zero_le _, le_last c⟩

end CharSet

theorem readings_eq (caseless : Bool) (text : List Char) :
    readings caseless text = text.map (CharSet.reading caseless) := by
  cases caseless with
  | true => exact List.map_congr_left fun c _ => (CharSet.reading_true c).symm
  | false => exact List.map_congr_left fun c _ => (CharSet.reading_false c).symm

theorem length_readings (caseless : Bool) (text : List Char) :
    (readings caseless text).length = text.length := by
  rw [readings_eq, List.length_map]

end MailPattern
