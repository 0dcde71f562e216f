import MailPattern.Proofs.Pattern.Shared

/-!
# Proofs — Pattern — Portable

What the extended dialect makes of a text that the regular one reads (`Pattern.read_extended`).

The dialects differ in what may follow a count.  In the regular one another count repeats the
repetition; in the extended one a brace there stands for itself, so that `a{2}{3}` is two letters and
three characters more.  And in the regular one a count may have white space in its braces.  A pattern
with neither the extended dialect reads alike or not at all.  It refuses characters given by too many
digits (`Token.shortNumbers`), and patterns that repeat what it does not let repeat or nest too many
brackets (`Pattern.Portable`).
-/

namespace MailPattern

/-! ### What is passed on to the parts -/

namespace Pattern

/-- What holds of patterns inside `k` brackets only if it holds of their parts. -/
structure Passed (P : Nat → Pattern → Prop) : Prop where
  empty {k : Nat} {p : Pattern} : P k p → P k .empty
  cat {k : Nat} {p q : Pattern} : P k (.cat p q) → P k p ∧ P k q
  alt {k : Nat} {p q : Pattern} : P k (.alt p q) → P k p ∧ P k q
  group (n : Option Nat) {k : Nat} {p : Pattern} : P k (.group n p) → P (k + 1) p
  repeated (c : Count) {k : Nat} {p : Pattern} : P k (.repeated c p) → P k p
  look (behind negative : Bool) {k : Nat} {p : Pattern} : P k (.look behind negative p) → P (k + 1) p

variable {d : Dialect} {P : Nat → Pattern → Prop} {b b' : Builder}

/-- What holds of a sequence holds of its items. -/
theorem Passed.ofItems (hP : Passed P) {k : Nat} {ps : List Pattern} (h : P k (ofItems ps)) :
    ∀ p ∈ ps, P k p := by
  induction ps with
  | nil => nofun
  | cons p ps ih =>
    cases ps with
    | nil => exact List.forall_mem_singleton.mpr h
    | cons => exact List.forall_mem_cons.mpr ⟨(hP.cat h).1, ih (hP.cat h).2⟩

/-- What holds of an alternation holds of its branches. -/
theorem Passed.ofBranches (hP : Passed P) {k : Nat} {ps : List Pattern} (h : P k (ofBranches ps)) :
    ∀ p ∈ ps, P k p := by
  induction ps with
  | nil => nofun
  | cons p ps ih =>
    cases ps with
    | nil => exact List.forall_mem_singleton.mpr h
    | cons => exact List.forall_mem_cons.mpr ⟨(hP.alt h).1, ih (hP.alt h).2⟩

/-- What holds of the pattern of a level holds of all that has been read there. -/
theorem Passed.level (hP : Passed P) {k : Nat} {l : Level} (h : P k l.pattern) : l.Holds P P k := by
  have hbranches := hP.ofBranches h
  refine ⟨hP.empty h, fun p hp => ?_, fun p hp => ?_⟩
  · exact hP.ofItems (hbranches _ (List.mem_reverse.mpr List.mem_cons_self)) p
      (List.mem_reverse.mpr hp)
  · exact hbranches p (List.mem_reverse.mpr (List.mem_cons_of_mem _ hp))

/-- What has been read stays; so what holds of it in the end held of it before. -/
theorem Passed.before (hP : Passed P) {t : Token} (hb : b.step? d t = some b') (h : b'.Holds P P) :
    b.Holds P P := by
  obtain ⟨⟨hempty, hitems, hbranches⟩, houter⟩ := h
  cases t with
  | char | chars | start | stop =>
    cases hb
    exact ⟨⟨hempty, (List.forall_mem_cons.mp hitems).2, hbranches⟩, houter⟩
  | bar =>
    cases hb
    obtain ⟨hitems, hbranches⟩ := List.forall_mem_cons.mp hbranches
    exact ⟨⟨hempty, fun p hp => hP.ofItems hitems p (List.mem_reverse.mpr hp), hbranches⟩, houter⟩
  | opening kind =>
    obtain ⟨-, rfl⟩ := open_eq_some.mp (step_opening hb).1
    exact houter
  | closing =>
    obtain ⟨kind, index, level, outer, hopen, rfl⟩ := step_closing.mp hb
    obtain ⟨hclosed, hitems⟩ := List.forall_mem_cons.mp hitems
    have hpattern : P (outer.length + 1) b.level.pattern := by
      cases kind with
      | plain | capture => exact hP.group _ hclosed
      | look behind negative => exact hP.look behind negative hclosed
    refine ⟨hP.level ?_, ?_⟩ <;> rw [hopen]
    · exact hpattern
    · exact ⟨⟨hempty, hitems, hbranches⟩, houter⟩
  | count c spaced =>
    obtain ⟨p, items, hcounted, -, rfl⟩ := step_count.mp hb
    obtain ⟨hp, hitems⟩ := List.forall_mem_cons.mp hitems
    refine ⟨⟨hempty, ?_, hbranches⟩, houter⟩
    rw [hcounted]
    exact List.forall_mem_cons.mpr ⟨hP.repeated c hp, hitems⟩
  | «recall» n =>
    obtain ⟨-, rfl⟩ := step_recall hb
    exact ⟨⟨hempty, (List.forall_mem_cons.mp hitems).2, hbranches⟩, houter⟩

/-- So what holds of it after all tokens held of it before them. -/
theorem Passed.beforeAll (hP : Passed P) {ts : List Token} (hb : b.steps? d ts = some b')
    (h : b'.Holds P P) : b.Holds P P := by
  induction ts generalizing b with
  | nil =>
    cases hb
    exact h
  | cons t ts ih =>
    rw [Builder.steps?] at hb
    split at hb
    · cases hb
    · exact hP.before ‹_› (ih hb)

/-- What is repeated stays repeated. -/
theorem passed_repeats (Q : Pattern → Prop) : Passed fun _ => Repeats Q where
  empty _ := nofun
  cat h := List.forall_mem_append.mp h
  alt h := List.forall_mem_append.mp h
  group _ _ _ h := h
  repeated _ _ _ h := (List.forall_mem_cons.mp h).2
  look _ _ _ _ h := h

/-- Brackets stay around what they hold. -/
theorem passed_brackets (n : Nat) : Passed fun k p => p.brackets + k ≤ n where
  empty h := (Nat.add_le_add_right (Nat.zero_le _) _).trans h
  cat h := ⟨(Nat.add_le_add_right (le_max_left ..) _).trans h,
    (Nat.add_le_add_right (le_max_right ..) _).trans h⟩
  alt h := ⟨(Nat.add_le_add_right (le_max_left ..) _).trans h,
    (Nat.add_le_add_right (le_max_right ..) _).trans h⟩
  group _ k p h := by
    have : p.brackets + 1 + k ≤ n := h
    omega
  repeated _ _ _ h := h
  look _ _ k p h := by
    have : p.brackets + 1 + k ≤ n := h
    omega

/-! ### Repetitions that are repeated -/

/-- The pattern is a repetition. -/
def isRepeated : Pattern → Bool
  | .repeated .. => true
  | _ => false

/-- No repetition is repeated directly, without a bracket. -/
def CountedOnce (p : Pattern) : Prop := p.Repeats (·.isRepeated = false)

instance (p : Pattern) : Decidable p.CountedOnce :=
  inferInstanceAs (Decidable (∀ r ∈ p.repetitions, r.2.isRepeated = false))

theorem passed_countedOnce : Passed fun _ => CountedOnce :=
  passed_repeats (·.isRepeated = false)

/-- The extended dialect repeats no repetition directly. -/
theorem countedOnce_of_repeats {p : Pattern} (h : p.Repeats (·.repeatable .extended = true)) :
    p.CountedOnce := by
  intro r hr
  have hrepeatable := h r hr
  cases hp : r.2 with
  | repeated =>
    rw [hp] at hrepeatable
    cases hrepeatable
  | _ => rfl

/-- Where nothing can be counted, either nothing is there or a repetition is. -/
def Builder.Ready (atom : Bool) (b : Builder) : Prop :=
  atom = true ∨ b.level.items = [] ∨ ∃ c p items, b.level.items = .repeated c p :: items

/-- Every step leaves it so: where the token ends no atom, nothing or a repetition stands last. -/
theorem Builder.Ready.step {t : Token} (hb : b.step? d t = some b') : b'.Ready t.endsAtom := by
  cases t with
  | char | chars | start | stop | closing => exact .inl rfl
  | bar =>
    cases hb
    exact .inr (.inl rfl)
  | opening kind =>
    obtain ⟨-, rfl⟩ := open_eq_some.mp (step_opening hb).1
    exact .inr (.inl rfl)
  | count c spaced =>
    obtain ⟨p, items, -, -, rfl⟩ := step_count.mp hb
    exact .inr (.inr ⟨c, p, items, rfl⟩)
  | «recall» n => exact .inl rfl

/-- Nothing is counted there, then. -/
theorem Builder.Ready.not_count {c : Count} {spaced : Bool} (h : b.Ready false)
    (hb : b.step? d (.count c spaced) = some b') :
    ¬ b'.Holds (fun _ => CountedOnce) fun _ => CountedOnce := by
  obtain ⟨p, items, hitems, -, rfl⟩ := step_count.mp hb
  intro hb'
  rcases h with h | h | ⟨c', q, rest, h⟩
  · cases h
  · rw [h] at hitems
    cases hitems
  · rw [h] at hitems
    cases hitems
    exact Bool.noConfusion (hb'.1.items _ List.mem_cons_self _ List.mem_cons_self)

/-- The extended dialect takes the same tokens off the text, or a number in it is too long. -/
theorem upTo_extended {fuel : Nat} {atom : Bool} {s : List Char} {ts : List Token}
    (hready : b.Ready atom) (hts : Token.upTo? .regular fuel atom s = some ts)
    (htight : ∀ t ∈ ts, t.isSpaced = false)
    (hb : b.steps? .regular ts = some b')
    (honce : b'.Holds (fun _ => CountedOnce) fun _ => CountedOnce) :
    Token.upTo? .extended fuel atom s = if Token.shortNumbers s then some ts else none := by
  induction fuel generalizing b atom s ts with
  | zero =>
    cases s with
    | nil => exact hts
    | cons => cases hts
  | succ fuel ih =>
    cases s with
    | nil => exact hts
    | cons c s =>
      rw [Token.upTo?] at hts ⊢
      · split at hts
        · cases hts
        · rename_i t rest hnext
          obtain ⟨ts, hrest, rfl⟩ := Option.map_eq_some_iff.mp hts
          rw [Builder.steps?] at hb
          split at hb
          · cases hb
          · rename_i hstep
            obtain ⟨ht, htight⟩ := List.forall_mem_cons.mp htight
            rcases Token.shared_next hnext ht with (⟨hnext, hshort⟩ | ⟨hnext, hshort⟩) | ⟨rfl, c, rfl⟩
            · rw [hnext, hshort]
              show (Token.upTo? .extended fuel t.endsAtom rest).map _ = _
              rw [ih (Builder.Ready.step hstep) hrest htight hb]
              split <;> rfl
            · rw [hnext, hshort]
              rfl
            · -- a count after a count
              exact absurd (passed_countedOnce.beforeAll hb honce) (hready.not_count hstep)
      · intro h
        cases h
      · intro h
        cases h

/-! ### What the extended dialect admits -/

/-- The extended dialect lets repeat what is repeated, and lets as many brackets open. -/
structure Portable (p : Pattern) : Prop where
  repeats : p.Repeats (·.repeatable .extended = true)
  brackets : p.brackets ≤ Dialect.extended.maxOpen

instance (p : Pattern) : Decidable p.Portable :=
  decidable_of_iff ((∀ r ∈ p.repetitions, r.2.repeatable .extended = true) ∧
    p.brackets ≤ Dialect.extended.maxOpen) ⟨fun h => ⟨h.1, h.2⟩, fun h => ⟨h.1, h.2⟩⟩

/-- What the extended dialect reads of a token, if anything, the regular one reads. -/
theorem step_extended {t : Token} {b₁ b₂ : Builder} (h₁ : b.step? .regular t = some b₁)
    (h₂ : b.step? .extended t = some b₂) : b₂ = b₁ := by
  cases t with
  | char | chars | start | stop | bar => exact Option.some.inj (h₂.symm.trans h₁)
  | opening kind =>
    obtain ⟨-, rfl⟩ := open_eq_some.mp (step_opening h₁).1
    obtain ⟨-, rfl⟩ := open_eq_some.mp (step_opening h₂).1
    rfl
  | closing => exact Option.some.inj (h₂.symm.trans h₁)
  | count c spaced =>
    obtain ⟨p, items, hitems, -, rfl⟩ := step_count.mp h₁
    obtain ⟨p', items', hitems', -, rfl⟩ := step_count.mp h₂
    rw [hitems] at hitems'
    cases hitems'
    rfl
  | «recall» n => cases h₁

/-- What the regular dialect reads of a token the extended one reads, if it admits what comes of
it. -/
theorem step_of_holds {t : Token} (hb : b.step? .regular t = some b')
    (hrepeats : b'.Holds (fun _ => Repeats (·.repeatable .extended = true))
      fun _ => Repeats (·.repeatable .extended = true))
    (hbrackets : b'.Holds (fun k p => p.brackets + k ≤ Dialect.extended.maxOpen)
      fun k p => p.brackets + k ≤ Dialect.extended.maxOpen) :
    b.step? .extended t = some b' := by
  cases t with
  | char | chars | start | stop | bar | closing => exact hb
  | opening kind =>
    have hopen := (step_opening hb).1
    obtain ⟨-, rfl⟩ := open_eq_some.mp hopen
    have hlength : 0 + (b.outer.length + 1) ≤ Dialect.extended.maxOpen := hbrackets.1.empty
    cases kind with
    | look => cases hb
    | plain | capture => exact open_eq_some.mpr ⟨by omega, rfl⟩
  | count c spaced =>
    obtain ⟨p, items, hitems, -, rfl⟩ := step_count.mp hb
    have hp := hrepeats.1.items _ List.mem_cons_self _ List.mem_cons_self
    exact step_count.mpr ⟨p, items, hitems, hp, rfl⟩
  | «recall» n => cases hb

/-- So it reads all tokens that the regular dialect reads, if it admits what comes of them. -/
theorem steps_of_holds {ts : List Token} (hb : b.steps? .regular ts = some b')
    (hrepeats : b'.Holds (fun _ => Repeats (·.repeatable .extended = true))
      fun _ => Repeats (·.repeatable .extended = true))
    (hbrackets : b'.Holds (fun k p => p.brackets + k ≤ Dialect.extended.maxOpen)
      fun k p => p.brackets + k ≤ Dialect.extended.maxOpen) :
    b.steps? .extended ts = some b' := by
  induction ts generalizing b with
  | nil => exact hb
  | cons t ts ih =>
    rw [Builder.steps?] at hb ⊢
    split at hb
    · cases hb
    · rename_i hstep
      rw [step_of_holds hstep ((passed_repeats _).beforeAll hb hrepeats)
        ((passed_brackets _).beforeAll hb hbrackets)]
      exact ih hb

/-- What the extended dialect makes of tokens, if anything, the regular one makes of them. -/
theorem steps_extended {ts : List Token} {b₁ b₂ : Builder} (h₁ : b.steps? .regular ts = some b₁)
    (h₂ : b.steps? .extended ts = some b₂) : b₂ = b₁ := by
  induction ts generalizing b with
  | nil => exact Option.some.inj (h₂.symm.trans h₁)
  | cons t ts ih =>
    rw [Builder.steps?] at h₁ h₂
    split at h₁
    · cases h₁
    · split at h₂
      · cases h₂
      · rename_i hstep _ _ hstep'
        rw [step_extended hstep hstep'] at h₂
        exact ih h₁ h₂

/-- **Of a text that the regular dialect reads as a pattern in which no repetition is repeated
directly and no count has white space in its braces, the extended dialect reads the same pattern**,
if that is portable and no number in the text is too long, and else nothing. -/
theorem read_extended {s : String} {p : Pattern} (h : read? .regular s = some p)
    (hp : p.CountedOnce) (htight : Token.tight s.toList = true) :
    read? .extended s = if Token.shortNumbers s.toList ∧ p.Portable then some p else none := by
  obtain ⟨ts, b, hts, hb, hfinish⟩ := read_eq_some h
  obtain ⟨houter, rfl⟩ := finish_eq_some hfinish
  have holds : ∀ {P : Nat → Pattern → Prop}, Passed P → P 0 b.level.pattern → b.Holds P P := by
    intro P hP h
    unfold Builder.Holds
    rw [houter]
    exact ⟨hP.level h, trivial⟩
  have htokens : Token.all? .extended s.toList =
      if Token.shortNumbers s.toList then some ts else none :=
    upTo_extended (.inr (.inl rfl)) hts ((Token.tight_iff hts).mp htight) hb
      (holds passed_countedOnce hp)
  rw [read?, htokens]
  by_cases hshort : Token.shortNumbers s.toList = true
  · rw [if_pos hshort]
    by_cases hportable : b.level.pattern.Portable
    · rw [if_pos ⟨hshort, hportable⟩]
      have hsteps := steps_of_holds hb (holds (passed_repeats _) hportable.repeats)
        (holds (passed_brackets _) hportable.brackets)
      simp [hsteps, Builder.finish?, houter]
    · rw [if_neg fun h => hportable h.2]
      cases hread : read? .extended s with
      | none =>
        rw [read?, htokens, if_pos hshort] at hread
        exact hread
      | some q =>
        obtain ⟨ts', b', hts', hb', hfinish'⟩ := read_eq_some hread
        rw [htokens, if_pos hshort] at hts'
        cases hts'
        have hq := (finish_eq_some hfinish').2
        rw [steps_extended hb hb'] at hq
        exact absurd ⟨hq ▸ repeatable_of_read hread, hq ▸ brackets_of_read hread⟩ hportable
  · rw [if_neg hshort, if_neg fun h => hshort h.1]

end Pattern

end MailPattern
