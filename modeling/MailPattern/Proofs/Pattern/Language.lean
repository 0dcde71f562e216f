import MailPattern.Proofs.Pattern.Meaning

/-!
# Proofs — Pattern — Language

What a pattern matches, said without any order of search: `p.Matches s i j` when the text from `i`
up to `j` is matched where it stands.  The ends that a search comes to are exactly those of the
matches (`Pattern.mem_ends`).

A pattern has a normal form exactly if it neither looks around nor recalls and its counts can be met
(`Pattern.isSome_normal`).
-/

namespace MailPattern

/-- The count is met by `n` rounds. -/
def Count.Allows (c : Count) (n : Nat) : Prop := c.least ≤ n ∧ ∀ m, c.most = some m → n ≤ m

/-- `n` steps of a relation. -/
def Rounds (R : Nat → Nat → Prop) : Nat → Nat → Nat → Prop
  | 0, i, j => j = i
  | n + 1, i, j => ∃ k, R i k ∧ Rounds R n k j

/-- Some rounds and then others are rounds, as many as both together. -/
theorem Rounds.add {R : Nat → Nat → Prop} {m n i j k : Nat} (h : Rounds R m i j)
    (h' : Rounds R n j k) : Rounds R (m + n) i k := by
  induction m generalizing i with
  | zero =>
    cases h
    rwa [Nat.zero_add]
  | succ m ih =>
    obtain ⟨l, hl, h⟩ := h
    rw [Nat.succ_add]
    exact ⟨l, hl, ih h⟩

/-- Rounds can be cut after any number of them. -/
theorem Rounds.split {R : Nat → Nat → Prop} {m n i k : Nat} (h : Rounds R (m + n) i k) :
    ∃ j, Rounds R m i j ∧ Rounds R n j k := by
  induction m generalizing i with
  | zero => exact ⟨i, rfl, by rwa [Nat.zero_add] at h⟩
  | succ m ih =>
    rw [Nat.succ_add] at h
    obtain ⟨l, hl, h⟩ := h
    obtain ⟨j, hj, h⟩ := ih h
    exact ⟨j, ⟨l, hl, hj⟩, h⟩

namespace Ends

variable {s : List Reading} {a : Ends} {i j : Nat}

/-- The step that a round takes. -/
def Step (a : Ends) (i j : Nat) : Prop := j ∈ a i

/-- Rounds of what goes forward stay in the text. -/
theorem Forward.rounds_le (ha : Forward s a) {n : Nat} (hi : i ≤ s.length)
    (h : Rounds a.Step n i j) : i ≤ j ∧ j ≤ s.length := by
  induction n generalizing i with
  | zero =>
    cases h
    exact ⟨le_rfl, hi⟩
  | succ n ih =>
    obtain ⟨k, hk, h⟩ := h
    have hik := ha i hi k hk
    have := ih hik.2 h
    exact ⟨hik.1.trans this.1, this.2⟩

/-- The ends of `n` rounds are where `n` steps lead. -/
theorem mem_times {n : Nat} : j ∈ a.times n i ↔ Rounds a.Step n i j := by
  induction n generalizing i with
  | zero => exact List.mem_singleton
  | succ n ih => simp only [times, andThen, List.mem_flatMap, ih, Rounds, Step]

/-- The ends of at most `n` rounds are where up to `n` steps lead. -/
theorem mem_upTo {greedy : Bool} {n : Nat} :
    j ∈ upTo greedy a n i ↔ ∃ m ≤ n, Rounds a.Step m i j := by
  induction n generalizing i with
  | zero =>
    refine List.mem_singleton.trans ⟨fun h => ⟨0, le_rfl, h⟩, ?_⟩
    rintro ⟨m, hm, h⟩
    cases Nat.le_zero.mp hm
    exact h
  | succ n ih =>
    simp only [upTo, mem_prefer, andThen, List.mem_flatMap, ih]
    constructor
    · rintro (⟨k, hk, m, hm, h⟩ | h)
      · exact ⟨m + 1, Nat.succ_le_succ hm, k, hk, h⟩
      · exact ⟨0, Nat.zero_le _, List.mem_singleton.mp h⟩
    · rintro ⟨_ | m, hm, h⟩
      · exact .inr (List.mem_singleton.mpr h)
      · obtain ⟨k, hk, h⟩ := h
        exact .inl ⟨k, hk, m, Nat.le_of_succ_le_succ hm, h⟩

/-- The rounds that take nothing may be left out. -/
theorem mem_many (ha : Forward s a) {greedy : Bool} (hi : i ≤ s.length) :
    j ∈ many s greedy a i ↔ ∃ n, Rounds a.Step n i j := by
  constructor
  · have key : ∀ n i, j ∈ rounds greedy a n i → ∃ m, Rounds a.Step m i j := by
      intro n
      induction n with
      | zero => exact fun i h => ⟨0, List.mem_singleton.mp h⟩
      | succ n ih =>
        intro i h
        rcases mem_prefer.mp h with h | h
        · obtain ⟨k, hk, h⟩ := List.mem_flatMap.mp h
          obtain ⟨m, h⟩ := ih k h
          exact ⟨m + 1, k, (mem_taking.mp hk).1, h⟩
        · exact ⟨0, List.mem_singleton.mp h⟩
    exact key _ i
  · rintro ⟨n, h⟩
    induction n generalizing i with
    | zero =>
      cases h
      rw [many_eq ha greedy hi, mem_prefer]
      exact .inr (List.mem_singleton.mpr rfl)
    | succ n ih =>
      obtain ⟨k, hk, h⟩ := h
      have hik := ha i hi k hk
      have hmem := ih hik.2 h
      by_cases hki : k = i
      · rwa [hki] at hmem
      · rw [many_eq ha greedy hi, mem_prefer]
        exact .inl (List.mem_flatMap.mpr ⟨k, mem_taking.mpr ⟨hk, by omega⟩, hmem⟩)

/-- The ends of a counted repetition are where as many steps lead as the count allows. -/
theorem mem_counted (ha : Forward s a) {c : Count} (hc : ∀ n, c.most = some n → c.least ≤ n)
    (hi : i ≤ s.length) :
    j ∈ counted s c a i ↔ ∃ n, c.Allows n ∧ Rounds a.Step n i j := by
  obtain ⟨least, most, greedy⟩ := c
  simp only [counted, andThen, List.mem_flatMap, mem_times]
  cases most with
  | none =>
    constructor
    · rintro ⟨k, hk, h⟩
      obtain ⟨n, h⟩ := (mem_many ha (ha.rounds_le hi hk).2).mp h
      exact ⟨least + n, ⟨Nat.le_add_right _ _, fun _ hn => by cases hn⟩, hk.add h⟩
    · rintro ⟨n, ⟨hn, -⟩, h⟩
      obtain ⟨n, rfl⟩ := Nat.exists_eq_add_of_le hn
      obtain ⟨k, hk, h⟩ := h.split
      exact ⟨k, hk, (mem_many ha (ha.rounds_le hi hk).2).mpr ⟨n, h⟩⟩
  | some m =>
    have hm := hc m rfl
    simp only [mem_upTo]
    constructor
    · rintro ⟨k, hk, n, hn, h⟩
      refine ⟨least + n, ⟨Nat.le_add_right _ _, ?_⟩, hk.add h⟩
      rintro _ ⟨⟩
      simp only at hm
      omega
    · rintro ⟨n, ⟨hn, hle⟩, h⟩
      obtain ⟨n, rfl⟩ := Nat.exists_eq_add_of_le hn
      obtain ⟨k, hk, h⟩ := h.split
      refine ⟨k, hk, n, ?_, h⟩
      have := hle m rfl
      simp only at this
      omega

end Ends

namespace Pattern

/-- The text from `i` up to `j` is matched by the pattern where it stands.  What looks around or
recalls is left aside, as in `Pattern.ends`. -/
def Matches (s : List Reading) : Pattern → Nat → Nat → Prop
  | .empty, i, j => j = i
  | .char c, i, j => j = i + 1 ∧ ∃ r, s[i]? = some r ∧ (CharSet.single c).admits r = true
  | .chars set, i, j => j = i + 1 ∧ ∃ r, s[i]? = some r ∧ set.admits r = true
  | .start, i, j => j = i ∧ i = 0
  | .stop, i, j => j = i ∧ i = s.length
  | .cat p q, i, j => ∃ k, p.Matches s i k ∧ q.Matches s k j
  | .alt p q, i, j => p.Matches s i j ∨ q.Matches s i j
  | .group _ p, i, j => p.Matches s i j
  | .repeated c p, i, j => ∃ n, c.Allows n ∧ Rounds (p.Matches s) n i j
  | .look .., _, _ | .recall _, _, _ => False

/-- Every count can be met, and its numbers are not too large. -/
def Fits (p : Pattern) : Prop := ∀ r ∈ p.repetitions, r.1.fits = true

variable {s : List Reading} {p : Pattern} {i j : Nat}

/-- **The ends of a pattern are those of its matches.** -/
theorem mem_ends (hp : p.Fits) (hi : i ≤ s.length) : j ∈ p.ends s i ↔ p.Matches s i j := by
  induction p generalizing i j with
  | empty => exact List.mem_singleton
  | char | chars => exact Ends.mem_one
  | start =>
    simp only [ends, Ends.atStart, List.mem_ite_nil_right, List.mem_singleton, Matches, and_comm]
  | stop =>
    simp only [ends, Ends.atStop, List.mem_ite_nil_right, List.mem_singleton, Matches, and_comm]
  | cat p q ihp ihq =>
    have hpf : p.Fits := fun r hr => hp r (List.mem_append_left _ hr)
    have hqf : q.Fits := fun r hr => hp r (List.mem_append_right _ hr)
    refine List.mem_flatMap.trans (exists_congr fun k => ?_)
    rw [ihp hpf hi]
    refine and_congr_right fun hk => ihq hqf ?_
    exact (p.forward_ends s i hi k ((ihp hpf hi).mpr hk)).2
  | alt p q ihp ihq =>
    refine Ends.mem_prefer.trans (or_congr (ihp ?_ hi) (ihq ?_ hi))
    · exact fun r hr => hp r (List.mem_append_left _ hr)
    · exact fun r hr => hp r (List.mem_append_right _ hr)
  | group _ p ih => exact ih hp hi
  | repeated c p ih =>
    have hpf : p.Fits := fun r hr => hp r (List.mem_cons_of_mem _ hr)
    have hc : ∀ n, c.most = some n → c.least ≤ n := by
      intro n hn
      have := hp (c, p) List.mem_cons_self
      simp only [Count.fits, hn, Option.all_some, Bool.and_eq_true, decide_eq_true_eq] at this
      exact this.2.1
    refine (Ends.mem_counted (p.forward_ends s) hc hi).trans (exists_congr fun n => ?_)
    refine and_congr_right fun hn => ?_
    clear hc hn
    induction n generalizing i with
    | zero => exact Iff.rfl
    | succ n ihn =>
      refine exists_congr fun k => ?_
      rw [Ends.Step, ih hpf hi]
      refine and_congr_right fun hk => ihn ?_
      exact (p.forward_ends s i hi k ((ih hpf hi).mpr hk)).2
  | _ => exact iff_of_false List.not_mem_nil id

/-- A match ends behind its start, and in the text. -/
theorem matches_le (hp : p.Fits) (hi : i ≤ s.length) (h : p.Matches s i j) :
    i ≤ j ∧ j ≤ s.length :=
  p.forward_ends s i hi j ((mem_ends hp hi).mpr h)

end Pattern

/-! ### Which patterns have a normal form -/

theorem isSome_mapM_id {α : Type} {xs : List (Option α)} :
    (xs.mapM id).isSome ↔ ∀ x ∈ xs, x.isSome := by
  induction xs with
  | nil => simp
  | cons x xs ih =>
    rw [List.mapM_cons, List.forall_mem_cons, ← ih]
    cases x <;> cases xs.mapM id <;> simp

/-- The outermost parts of a pattern, whatever they are put together to. -/
def Parts.list {α : Type} : Parts α → List α
  | .sequence xs | .choice _ xs => xs

namespace Normal

variable {caseless : Bool} {x : Option Normal}

/-- What has a normal form as a whole has one part by part. -/
theorem isSome_of_whole {ps : Parts (Option Normal)}
    (h : ((interpretation caseless).whole ps).isSome) : ∀ x ∈ ps.list, x.isSome := by
  cases ps with
  | choice b xs =>
    rwa [Interpretation.whole, interpretation, Option.isSome_map, isSome_mapM_id] at h
  | sequence xs =>
    rcases xs with _ | ⟨x, _ | ⟨y, xs⟩⟩
    · simp [Parts.list]
    · intro y hy
      obtain rfl := List.mem_singleton.mp hy
      exact h
    · exact isSome_mapM_id.mp ((Option.isSome_map ..).symm.trans h)

theorem isSome_of_items {ps : Parts (Option Normal)}
    (h : ∀ x ∈ (interpretation caseless).items ps, x.isSome) : ∀ x ∈ ps.list, x.isSome := by
  cases ps with
  | sequence xs => exact h
  | choice b xs => exact @isSome_of_whole _ (.choice b xs) (h _ List.mem_cons_self)

theorem isSome_of_branches {ps : Parts (Option Normal)}
    (h : ∀ x ∈ (interpretation caseless).branches ps, x.isSome) : ∀ x ∈ ps.list, x.isSome := by
  match ps with
  | .choice false xs => exact h
  | .choice true xs => exact @isSome_of_whole _ (.choice true xs) (h _ List.mem_cons_self)
  | .sequence xs => exact @isSome_of_whole _ (.sequence xs) (h _ List.mem_cons_self)

theorem isSome_of_bracketed {ps : Parts (Option Normal)}
    (h : ∀ x ∈ ((interpretation caseless).bracketed ps).list, x.isSome) :
    ∀ x ∈ ps.list, x.isSome := by
  match ps with
  | .sequence [] | .sequence [_] | .choice _ _ => exact h
  | .sequence (x :: y :: xs) =>
    exact isSome_mapM_id.mp (Option.isSome_map.symm.trans (h _ List.mem_cons_self))

theorem isSome_of_append {ps qs : Parts (Option Normal)}
    (h : ∀ x ∈ ((interpretation caseless).append ps qs).list, x.isSome) :
    (∀ x ∈ ps.list, x.isSome) ∧ ∀ x ∈ qs.list, x.isSome := by
  unfold Interpretation.append at h
  split at h
  · exact ⟨by simp [Parts.list], h⟩
  · exact ⟨h, by simp [Parts.list]⟩
  · obtain ⟨hp, hq⟩ := List.forall_mem_append.mp h
    exact ⟨isSome_of_items hp, isSome_of_items hq⟩

/-- Each way to put parts together needs a normal form of each of them. -/
theorem relates_isSome (caseless : Bool) :
    (interpretation caseless).Relates [] fun x _ => x.isSome = true where
  char _ := rfl
  start := rfl
  stop := rfl
  sequence h := by
    refine Option.isSome_map.trans (isSome_mapM_id.mpr fun x hx => ?_)
    exact (exists_of_forall₂ h hx).choose_spec.2
  choice h := by
    refine Option.isSome_map.trans (isSome_mapM_id.mpr fun x hx => ?_)
    exact (exists_of_forall₂ h hx).choose_spec.2
  group _ _ _ h := Option.isSome_map.trans h

end Normal

namespace Pattern

variable {caseless : Bool} {p : Pattern}

/-- What has a normal form neither looks around nor recalls, and its counts can be met. -/
theorem plain_and_fits_of_parts
    (h : ∀ x ∈ ((Normal.interpretation caseless).parts p).list, x.isSome) :
    p.isPlain = true ∧ p.Fits := by
  induction p with
  | empty | char | chars | start | stop => exact ⟨rfl, nofun⟩
  | cat p q ihp ihq =>
    obtain ⟨hp, hq⟩ := Normal.isSome_of_append h
    obtain ⟨hp, hpf⟩ := ihp hp
    obtain ⟨hq, hqf⟩ := ihq hq
    exact ⟨Bool.and_eq_true_iff.mpr ⟨hp, hq⟩, List.forall_mem_append.mpr ⟨hpf, hqf⟩⟩
  | alt p q ihp ihq =>
    obtain ⟨hp, hq⟩ := List.forall_mem_append.mp h
    obtain ⟨hp, hpf⟩ := ihp (Normal.isSome_of_branches hp)
    obtain ⟨hq, hqf⟩ := ihq (Normal.isSome_of_branches hq)
    exact ⟨Bool.and_eq_true_iff.mpr ⟨hp, hq⟩, List.forall_mem_append.mpr ⟨hpf, hqf⟩⟩
  | group index p ih =>
    cases index with
    | none => exact ih (Normal.isSome_of_bracketed h)
    | some n =>
      exact ih (Normal.isSome_of_whole (Option.isSome_map.symm.trans (h _ List.mem_cons_self)))
  | repeated c p ih =>
    have h : (if c.fits then ((Normal.interpretation caseless).whole
        ((Normal.interpretation caseless).parts p)).map (Normal.times c) else none).isSome :=
      h _ List.mem_cons_self
    split at h
    · obtain ⟨hp, hpf⟩ := ih (Normal.isSome_of_whole (Option.isSome_map.symm.trans h))
      exact ⟨hp, List.forall_mem_cons.mpr ⟨‹_›, hpf⟩⟩
    · cases h
  | look => exact absurd (h _ List.mem_cons_self) (by exact nofun)
  | _ => exact absurd (h _ List.mem_cons_self) (by exact nofun)

/-- **A pattern has a normal form exactly if it neither looks around nor recalls and its counts can
be met.** -/
theorem isSome_normal : (p.normal? caseless).isSome ↔ p.isPlain = true ∧ p.Fits := by
  constructor
  · exact fun h => plain_and_fits_of_parts (Normal.isSome_of_whole h)
  · rintro ⟨hp, hf⟩
    refine (Normal.relates_isSome caseless).apply p (fun _ _ => rfl) (fun c q hq x hx => ?_) (.inl hp)
    show (if c.fits then x.map (Normal.times c) else none).isSome = true
    rw [if_pos (hf (c, q) hq), Option.isSome_map]
    exact hx

end Pattern

end MailPattern
