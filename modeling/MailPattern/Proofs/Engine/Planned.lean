import MailPattern.Proofs.Engine.Sweeping
import MailPattern.Proofs.Pattern.Dialects

/-!
# Proofs — Engine — Planned

A pattern that neither looks around nor recalls is not hard (`Pattern.hard_part`), so the fallback
engine sweeps for it as the safe engine does unless it nests too deep (`Program.planned_of_plain`).
It does not take a pattern to nest deeper than its tree, if brackets stand where they must
(`Pattern.depth_part_le`).
-/

namespace MailPattern

namespace Part

/-- The facts of a part do not depend on its plan. -/
theorem turns_toFacts : Part.interpretation.Turns Part.toFacts Facts.interpretation where
  char _ := rfl
  chars _ := rfl
  start := rfl
  stop := rfl
  sequence _ := rfl
  choice _ := rfl
  group _ _ := rfl
  repeated _ _ := rfl
  look _ _ _ := rfl
  recalled _ := rfl

end Part

theorem Pattern.toFacts_part (p : Pattern) : p.part.toFacts = Facts.interpretation.apply p :=
  Part.turns_toFacts.apply p

namespace Facts

/-- What is put together of parts that are not hard is not hard. -/
theorem relates_easy (s : List Reading) :
    Facts.interpretation.Relates s fun f _ => f.hard = false where
  char _ := rfl
  start := rfl
  stop := rfl
  sequence h := List.any_eq_false.mpr fun _ hf =>
    Bool.eq_false_iff.mp (Normal.exists_of_forall₂ h hf).choose_spec.2
  choice h := List.any_eq_false.mpr fun _ hf =>
    Bool.eq_false_iff.mp (Normal.exists_of_forall₂ h hf).choose_spec.2
  group _ _ _ h := h

variable {n : Nat} {fs : List Facts}

theorem depthAt_mono (f : Facts) {k m : Nat} (h : k ≤ m) : f.depthAt k ≤ f.depthAt m := by
  unfold depthAt
  split <;> split <;> omega

theorem depthAt_le (f : Facts) (k : Nat) : f.depthAt k ≤ f.depth + 1 := by
  unfold depthAt
  split <;> omega

theorem depth_le_depthAt (f : Facts) (k : Nat) : f.depth ≤ f.depthAt k := by
  unfold depthAt
  split <;> omega

theorem maxDepthAt_le {k : Nat} (h : ∀ f ∈ fs, f.depthAt k ≤ n) : maxDepthAt k fs ≤ n := by
  have key : ∀ m, m ≤ n → fs.foldl (fun d f => max d (f.depthAt k)) m ≤ n := by
    induction fs with
    | nil => exact fun m hm => hm
    | cons f fs ih =>
      intro m hm
      exact ih (fun g hg => h g (List.mem_cons_of_mem f hg)) _ (max_le hm (h f List.mem_cons_self))
  exact key 0 (Nat.zero_le _)

/-- What stands in a row is one deeper than its items. -/
theorem depthAt_joined_le (h : ∀ f ∈ fs, f.depthAt 2 ≤ n) :
    (Facts.interpretation.joined fs).depthAt 1 ≤ n + 1 := by
  unfold Interpretation.joined
  split
  · rename_i f
    exact (f.depthAt_mono (by decide)).trans ((h f List.mem_cons_self).trans (Nat.le_succ n))
  · have hmax := maxDepthAt_le h
    cases fs with
    | nil => exact Nat.zero_le _
    | cons => exact Nat.succ_le_succ hmax

/-- The parts of a pattern nest no deeper than the pattern does. -/
structure Snug (p : Pattern) (ps : Parts Facts) : Prop where
  whole : (Facts.interpretation.whole ps).depthAt p.binding ≤ p.depth
  items : 1 ≤ p.binding → ∀ f ∈ Facts.interpretation.items ps,
    f.depthAt 2 + (if p.isCat then 1 else 0) ≤ p.depth
  branches : ∀ f ∈ Facts.interpretation.branches ps,
    f.depthAt 1 + (if p.isAlt then 1 else 0) ≤ p.depth

variable {p q : Pattern} {ps qs : Parts Facts}

/-- A pattern that is one item. -/
theorem Snug.single {f : Facts} (hp : 2 ≤ p.binding) (hf : f.depthAt p.binding ≤ p.depth) :
    Snug p (.sequence [f]) := by
  have hcat : p.isCat = false := by cases p <;> first | rfl | exact absurd hp (by simp [Pattern.binding])
  have halt : p.isAlt = false := by cases p <;> first | rfl | exact absurd hp (by simp [Pattern.binding])
  refine ⟨hf, fun _ g hg => ?_, fun g hg => ?_⟩ <;> obtain rfl := List.mem_singleton.mp hg
  · simpa [hcat] using (g.depthAt_mono hp).trans hf
  · simpa [halt] using (g.depthAt_mono (Nat.le_of_succ_le hp)).trans hf

theorem Snug.cat (hp : Snug p ps) (hq : Snug q qs) (hpb : 2 ≤ p.binding) (hqb : 1 ≤ q.binding) :
    Snug (.cat p q) (Facts.interpretation.append ps qs) := by
  have hdepth : (Pattern.cat p q).depth =
      max (p.depth + 1) (if q.isCat then q.depth else q.depth + 1) := rfl
  obtain ⟨d, hd⟩ : ∃ d, (Pattern.cat p q).depth = d + 1 :=
    Nat.exists_eq_succ_of_ne_zero (by omega)
  have hpi : ∀ f ∈ Facts.interpretation.items ps, f.depthAt 2 ≤ d := by
    intro f hf
    have := hp.items (Nat.le_of_succ_le hpb) f hf
    omega
  have hqi : ∀ f ∈ Facts.interpretation.items qs, f.depthAt 2 ≤ d := by
    intro f hf
    have := hq.items hqb f hf
    cases hc : q.isCat <;>
      simp only [hc, Bool.false_eq_true, if_true, if_false] at this hdepth <;> omega
  have hle : p.depth ≤ d + 1 ∧ q.depth ≤ d + 1 := by
    split at hdepth <;> omega
  have keep : ∀ {r : Pattern} {rs : Parts Facts}, Snug r rs → 1 ≤ r.binding → r.depth ≤ d + 1 →
      (∀ f ∈ Facts.interpretation.items rs, f.depthAt 2 ≤ d) → Snug (.cat p q) rs := by
    intro r rs hr hb hle hitems
    refine ⟨?_, fun _ f hf => ?_, fun f hf => ?_⟩ <;> rw [hd]
    · exact ((depthAt_mono _ hb).trans hr.whole).trans hle
    · exact Nat.succ_le_succ (hitems f hf)
    · exact (Nat.le_of_add_right_le (hr.branches f hf)).trans hle
  unfold Interpretation.append
  split
  · exact keep hq hqb hle.2 hqi
  · exact keep hp (Nat.le_of_succ_le hpb) hle.1 hpi
  · have hall := List.forall_mem_append.mpr ⟨hpi, hqi⟩
    refine ⟨?_, fun _ f hf => ?_, fun f hf => ?_⟩ <;> rw [hd]
    · exact depthAt_joined_le hall
    · exact Nat.succ_le_succ (hall f hf)
    · obtain rfl := List.mem_singleton.mp hf
      exact depthAt_joined_le hall

theorem Snug.alt (hp : Snug p ps) (hq : Snug q qs) :
    Snug (.alt p q) (.choice false (Facts.interpretation.branches ps ++
      Facts.interpretation.branches qs)) := by
  have hdepth : (Pattern.alt p q).depth =
      max (p.depth + 1) (if q.isAlt then q.depth else q.depth + 1) := rfl
  obtain ⟨d, hd⟩ : ∃ d, (Pattern.alt p q).depth = d + 1 :=
    Nat.exists_eq_succ_of_ne_zero (by omega)
  have hall : ∀ f ∈ Facts.interpretation.branches ps ++ Facts.interpretation.branches qs,
      f.depthAt 1 ≤ d := by
    refine List.forall_mem_append.mpr ⟨fun f hf => ?_, fun f hf => ?_⟩
    · have := hp.branches f hf
      omega
    · have := hq.branches f hf
      cases ha : q.isAlt <;>
        simp only [ha, Bool.false_eq_true, if_true, if_false] at this hdepth <;> omega
  refine ⟨?_, fun h => absurd (show 1 ≤ 0 from h) (by decide), fun f hf => ?_⟩ <;> rw [hd]
  · exact Nat.succ_le_succ (maxDepthAt_le hall)
  · exact Nat.succ_le_succ (hall f hf)

/-- Brackets leave one part. -/
theorem bracketed_eq_whole (ps : Parts Facts) :
    (∀ f ∈ Facts.interpretation.items (Facts.interpretation.bracketed ps),
      f = Facts.interpretation.whole ps) ∧
    Facts.interpretation.branches (Facts.interpretation.bracketed ps) =
      [Facts.interpretation.whole ps] := by
  match ps with
  | .sequence [] => exact ⟨nofun, rfl⟩
  | .sequence [_] | .sequence (_ :: _ :: _) | .choice _ _ =>
    exact ⟨fun f hf => List.mem_singleton.mp hf, rfl⟩

theorem Snug.bracket (h : Snug p ps) :
    Snug (.group none p) (Facts.interpretation.bracketed ps) := by
  have hwhole : ∀ k, (Facts.interpretation.whole ps).depthAt k ≤ p.depth + 1 := fun k =>
    (depthAt_le _ k).trans (Nat.succ_le_succ ((depth_le_depthAt _ _).trans h.whole))
  obtain ⟨hitems, hbranches⟩ := bracketed_eq_whole ps
  refine ⟨?_, fun _ f hf => ?_, fun f hf => ?_⟩
  · rw [Interpretation.whole_bracketed]
    exact hwhole 3
  · rw [hitems f hf]
    exact hwhole 2
  · rw [hbranches] at hf
    rw [List.mem_singleton.mp hf]
    exact hwhole 1

/-- A pattern whose brackets stand where they must is snug. -/
theorem snug {p : Pattern} (h : p.Bracketed) : Snug p (Facts.interpretation.parts p) := by
  have hitem : 2 ≤ 3 := by decide
  induction p with
  | empty => exact ⟨Nat.zero_le _, fun _ => nofun, fun f hf => by
      obtain rfl := List.mem_singleton.mp hf
      exact Nat.zero_le _⟩
  | char | start | stop => exact .single hitem (Nat.zero_le _)
  | chars set => exact .single hitem (Nat.le_refl _)
  | cat p q ihp ihq => exact (ihp h.2.2.1).cat (ihq h.2.2.2) h.1 h.2.1
  | alt p q ihp ihq => exact (ihp h.2.1).alt (ihq h.2.2)
  | group index p ih =>
    cases index with
    | none => exact (ih h).bracket
    | some n => exact .single hitem (Nat.succ_le_succ ((depth_le_depthAt _ _).trans (ih h).whole))
  | repeated c p ih =>
    exact .single (Nat.le_refl 2) (Nat.succ_le_succ ((depthAt_mono _ h.1).trans (ih h.2).whole))
  | _ => exact .single hitem (Nat.zero_le _)

end Facts

/-- A pattern that neither looks around nor recalls is not hard. -/
theorem Pattern.hard_part {p : Pattern} (hp : p.isPlain = true) : p.part.hard = false := by
  show p.part.toFacts.hard = false
  rw [p.toFacts_part]
  exact (Facts.relates_easy []).apply p (fun _ _ => rfl) (fun _ _ _ _ h => h) (.inl hp)

/-- A pattern whose brackets stand where they must is not taken to nest deeper than it does. -/
theorem Pattern.depth_part_le {p : Pattern} (h : p.Bracketed) : p.part.depth ≤ p.depth := by
  show p.part.toFacts.depth ≤ _
  rw [p.toFacts_part]
  exact (Facts.depth_le_depthAt _ _).trans (Facts.snug h).whole

/-- **For a pattern that neither looks around nor recalls the fallback engine makes the program of
the safe engine**, unless it takes it to nest too deep. -/
theorem Program.planned_of_plain {p : Pattern} (hp : p.isPlain = true) (caseless : Bool) :
    planned? caseless p = if p.part.depth ≤ Pattern.maxDepth then sweeping? caseless p else none := by
  rw [planned?, p.hard_part hp]
  rfl

end MailPattern
