import MailPattern.Proofs.Pattern.Sets
import MailPattern.Proofs.Pattern.Unrolled

/-!
# Proofs — Pattern — Forming

What normal forms are put together to has the ends it should: a sequence exactly those of its
parts in turn (`Normal.ends_sequence`), an alternation those of its branches
(`Normal.alike_choice`), and a repetition those of its rounds (`Normal.alike_times`).

Only an alternation may come to prefer another end, and only by what is taken out of its branches
(`Normal.lifted`).  What has one end at most from each position, and so is *rigid*, may be taken
out without that.
-/

namespace MailPattern

/-- What two sets admit alike of the readings of characters they take alike. -/
theorem Ends.one_congr {caseless : Bool} {text : List Char} {set set' : CharSet}
    (h : ∀ c, set.admits (CharSet.reading caseless c) = set'.admits (CharSet.reading caseless c)) :
    one (readings caseless text) set = one (readings caseless text) set' := by
  funext i
  rw [one, one, readings_eq, List.getElem?_map]
  cases text[i]? with
  | none => rfl
  | some c => simp only [Option.map_some, Option.any_some, h]

/-- At most one end from each position. -/
def Ends.Rigid (s : List Reading) (a : Ends) : Prop :=
  ∀ i, i ≤ s.length → ∀ j ∈ a i, ∀ k ∈ a i, j = k

/-- No end but the position itself. -/
def Ends.Idle (s : List Reading) (a : Ends) : Prop := ∀ i, i ≤ s.length → ∀ j ∈ a i, j = i

namespace Ends.Idle

variable {s : List Reading} {a b : Ends}

theorem of_stay : Idle s stay := fun _ _ _ hj => List.mem_singleton.mp hj

/-- Two parts that take no character take none together. -/
theorem andThen (ha : a.Idle s) (hb : b.Idle s) : (a.andThen b).Idle s := fun i hi j hj => by
  obtain ⟨m, hm, hmj⟩ := List.mem_flatMap.mp hj
  have hmi := ha i hi m hm
  exact hb i hi j (hmi ▸ hmj)

theorem prefer {greedy : Bool} (ha : a.Idle s) (hb : b.Idle s) : (prefer greedy a b).Idle s :=
  fun i hi j hj => (mem_prefer.mp hj).elim (ha i hi j) (hb i hi j)

/-- Nor does any number of rounds. -/
theorem times (ha : a.Idle s) : ∀ n, (a.times n).Idle s
  | 0 => Idle.of_stay
  | n + 1 => ha.andThen (ha.times n)

theorem upTo {greedy : Bool} (ha : a.Idle s) : ∀ n, (upTo greedy a n).Idle s
  | 0 => Idle.of_stay
  | n + 1 => (ha.andThen (ha.upTo n)).prefer Idle.of_stay

theorem rounds {greedy : Bool} (ha : a.Idle s) : ∀ n, (rounds greedy a n).Idle s
  | 0 => Idle.of_stay
  | n + 1 => Idle.prefer
      (Idle.andThen (fun i hi j hj => ha i hi j (mem_taking.mp hj).1) (ha.rounds n)) Idle.of_stay

/-- Nor does a repetition. -/
theorem counted (ha : a.Idle s) (c : Count) : (counted s c a).Idle s := by
  refine (ha.times _).andThen ?_
  cases c.most with
  | none => exact fun i => ha.rounds _ i
  | some n => exact ha.upTo _

/-- Rounds that take no character end where one of them does. -/
theorem mem_times (ha : a.Idle s) {n i : Nat} (hi : i ≤ s.length) :
    i ∈ a.times n i ↔ n = 0 ∨ i ∈ a i := by
  induction n with
  | zero => exact iff_of_true (List.mem_singleton.mpr rfl) (.inl rfl)
  | succ n ih =>
    rw [or_iff_right (Nat.succ_ne_zero n)]
    constructor
    · intro h
      obtain ⟨j, hj, -⟩ := List.mem_flatMap.mp h
      exact ha i hi j hj ▸ hj
    · exact fun h => List.mem_flatMap.mpr ⟨i, h, ih.mpr (.inr h)⟩

/-- Rounds that stay where they are can be had unless one is needed and none is there. -/
theorem mem_counted (ha : a.Idle s) (c : Count) {i : Nat} (hi : i ≤ s.length) :
    i ∈ Ends.counted s c a i ↔ c.least = 0 ∨ i ∈ a i := by
  rw [← ha.mem_times hi]
  constructor
  · intro h
    obtain ⟨j, hj, -⟩ := List.mem_flatMap.mp h
    exact ha.times _ i hi j hj ▸ hj
  · refine fun h => List.mem_flatMap.mpr ⟨i, h, ?_⟩
    cases c.most with
    | none => cases hn : s.length - i <;> simp [many, Ends.rounds, hn, stay, mem_prefer]
    | some n => cases hn : n - c.least <;> simp [Ends.upTo, hn, stay, mem_prefer]

end Ends.Idle

/-- Lists of one end only are alike as soon as both have it or both have not. -/
theorem SameEnds.of_idle {ordered : Prop} {l l' : List Nat} {i : Nat} (h : ∀ j ∈ l, j = i)
    (h' : ∀ j ∈ l', j = i) (hi : i ∈ l ↔ i ∈ l') : SameEnds ordered l l' := by
  by_cases hl : i ∈ l
  · exact (copies h (List.ne_nil_of_mem hl)).trans
      (copies h' (List.ne_nil_of_mem (hi.mp hl))).symm
  · have hnil : ∀ {m : List Nat}, (∀ j ∈ m, j = i) → i ∉ m → m = [] := fun h hm =>
      List.eq_nil_iff_forall_not_mem.mpr fun j hj => hm (h j hj ▸ hj)
    exact .of_eq ((hnil h hl).trans (hnil h' fun h => hl (hi.mpr h)).symm)

namespace Normal

/-- At most one end from each position of any text. -/
def Rigid (p : Normal) : Prop := ∀ s, (p.ends s).Rigid s

/-- What all patterns put together from parts that have a property have as well.  Of sets it asks for
the property `Q`, which unions keep. -/
structure Hereditary (Q : CharSet → Prop) (P : Normal → Prop) : Prop where
  empty : P .empty
  literal {t : List Char} : P (.literal t) ↔ ∀ c ∈ t, Q (.single c)
  chars {set : CharSet} : P (.chars set) ↔ Q set
  cat {p q : Normal} : P (.cat p q) ↔ P p ∧ P q
  alt {p q : Normal} : P (.alt p q) ↔ P p ∧ P q
  union {sets : List CharSet} (h : ∀ set ∈ sets, Q set) : Q (.union sets)

/-- No set is negated. -/
def Resolved : Normal → Prop
  | .empty | .literal _ | .start | .stop => True
  | .chars set => set.negated = false
  | .cat p q | .alt p q => p.Resolved ∧ q.Resolved
  | .group _ p | .repeated _ p => p.Resolved

/-- That no set is negated is passed on to what is put together. -/
theorem hereditary_resolved : Hereditary (fun set => set.negated = false) Resolved :=
  ⟨trivial, ⟨fun _ _ _ => rfl, fun _ => trivial⟩, Iff.rfl, Iff.rfl, Iff.rfl, fun _ => rfl⟩

/-- So is that every unbounded repetition takes characters. -/
theorem hereditary_productive : Hereditary (fun _ => True) Productive :=
  ⟨trivial, ⟨fun _ _ _ => trivial, fun _ => trivial⟩, Iff.rfl, Iff.rfl, Iff.rfl, fun _ => trivial⟩

variable {s : List Reading} {Q : CharSet → Prop} {P : Normal → Prop}

/-! ### Sequences -/

/-- A pattern ends where its items in sequence do. -/
theorem ends_items (p : Normal) : Ends.inSequence (p.items.map (ends s)) = p.ends s := by
  induction p with
  | empty => rfl
  | cat p q ihp ihq =>
    rw [items, List.map_append, Ends.inSequence_append, ihp, ihq]
    rfl
  | literal | chars | start | stop | alt | group | repeated => exact Ends.inSequence_singleton _

theorem ends_ofItems (ps : List Normal) : (ofItems ps).ends s = .inSequence (ps.map (ends s)) := by
  induction ps with
  | nil => rfl
  | cons p ps ih =>
    cases ps with
    | nil => exact (Ends.inSequence_singleton _).symm
    | cons q qs =>
      show (p.ends s).andThen ((ofItems (q :: qs)).ends s) = _
      rw [ih]
      rfl

/-- Whether two literals are joined makes no difference to the ends. -/
theorem ends_prepend (p : Normal) (ps : List Normal) :
    Ends.inSequence ((prepend p ps).map (ends s)) =
      (p.ends s).andThen (.inSequence (ps.map (ends s))) := by
  unfold prepend
  split
  · rename_i t u rest
    show (ends s (.literal (t ++ u))).andThen _ = (ends s (.literal t)).andThen
      ((ends s (.literal u)).andThen _)
    rw [← Ends.andThen_assoc, ends, List.map_append, Ends.inSequence_append]
    rfl
  · rfl

/-- **A sequence comes to the ends of its parts in turn.** -/
theorem ends_sequence (ps : List Normal) : (sequence ps).ends s = .inSequence (ps.map (ends s)) := by
  have hprepend : ∀ qs : List Normal,
      Ends.inSequence ((qs.foldr prepend []).map (ends s)) = .inSequence (qs.map (ends s)) := by
    intro qs
    induction qs with
    | nil => rfl
    | cons q qs ih =>
      rw [List.foldr_cons, ends_prepend, ih]
      rfl
  rw [sequence, ends_ofItems, hprepend]
  induction ps with
  | nil => rfl
  | cons p ps ih =>
    rw [List.flatMap_cons, List.map_append, Ends.inSequence_append, ends_items, ih]
    rfl

/-- What holds of a pattern holds of its items. -/
theorem Hereditary.items (hP : Hereditary Q P) {p : Normal} (hp : P p) : ∀ q ∈ p.items, P q := by
  induction p with
  | empty => simp [Normal.items]
  | cat p q ihp ihq =>
    obtain ⟨hp, hq⟩ := hP.cat.mp hp
    exact fun r hr => (List.mem_append.mp hr).elim (ihp hp r) (ihq hq r)
  | literal | chars | start | stop | alt | group | repeated =>
    intro q hq
    obtain rfl := List.mem_singleton.mp hq
    exact hp

theorem Hereditary.ofItems (hP : Hereditary Q P) {ps : List Normal} (hp : ∀ p ∈ ps, P p) :
    P (ofItems ps) := by
  induction ps with
  | nil => exact hP.empty
  | cons p ps ih =>
    cases ps with
    | nil => exact hp p List.mem_cons_self
    | cons q qs =>
      exact hP.cat.mpr ⟨hp p List.mem_cons_self, ih fun r hr => hp r (List.mem_cons_of_mem p hr)⟩

theorem Hereditary.prepend (hP : Hereditary Q P) {p : Normal} {ps : List Normal} (hp : P p)
    (hps : ∀ q ∈ ps, P q) : ∀ q ∈ prepend p ps, P q := by
  unfold Normal.prepend
  split
  · obtain ⟨hq, hqs⟩ := List.forall_mem_cons.mp hps
    refine List.forall_mem_cons.mpr ⟨hP.literal.mpr fun c hc => ?_, hqs⟩
    exact (List.mem_append.mp hc).elim (hP.literal.mp hp c) (hP.literal.mp hq c)
  · exact List.forall_mem_cons.mpr ⟨hp, hps⟩

/-- What holds of all parts holds of their sequence. -/
theorem Hereditary.sequence (hP : Hereditary Q P) {ps : List Normal} (hp : ∀ p ∈ ps, P p) :
    P (sequence ps) := by
  refine hP.ofItems ?_
  have hitems : ∀ q ∈ ps.flatMap Normal.items, P q := by
    intro q hq
    obtain ⟨p, hmem, hq⟩ := List.mem_flatMap.mp hq
    exact hP.items (hp p hmem) q hq
  generalize ps.flatMap Normal.items = qs at hitems
  induction qs with
  | nil => simp
  | cons q qs ih =>
    exact hP.prepend (hitems q List.mem_cons_self)
      (ih fun r hr => hitems r (List.mem_cons_of_mem q hr))

/-! ### Sets and branches -/

/-- A set of one character, as a literal, ends where the set does. -/
theorem ends_ofSet {set : CharSet} (h : set.negated = false) :
    (ofSet set).ends s = .one s set := by
  obtain ⟨ranges, negated⟩ := set
  subst h
  unfold ofSet
  split
  · rename_i lo hi hr
    obtain rfl : ranges = [(lo, hi)] := hr
    split
    · rename_i heq
      subst heq
      exact Ends.inSequence_singleton _
    · rfl
  · rfl

theorem Hereditary.ofSet (hP : Hereditary Q P) {set : CharSet} (h : set.negated = false)
    (hset : Q set) : P (ofSet set) := by
  obtain ⟨ranges, negated⟩ := set
  subst h
  unfold Normal.ofSet
  split
  · rename_i lo hi hr
    obtain rfl : ranges = [(lo, hi)] := hr
    split
    · rename_i heq
      subst heq
      exact hP.literal.mpr fun c hc => List.mem_singleton.mp hc ▸ hset
    · exact hP.chars.mpr hset
  · exact hP.chars.mpr hset

/-- A pattern ends where its branches do. -/
theorem ends_branches (p : Normal) : Ends.inChoice (p.branches.map (ends s)) = p.ends s := by
  induction p with
  | alt p q ihp ihq =>
    rw [branches, List.map_append, Ends.inChoice_append, ihp, ihq]
    rfl
  | empty | literal | chars | start | stop | cat | group | repeated =>
    exact Ends.inChoice_singleton _

/-- Alternations among the branches may be flattened. -/
theorem ends_flatMap_branches (ps : List Normal) :
    Ends.inChoice ((ps.flatMap branches).map (ends s)) = .inChoice (ps.map (ends s)) := by
  induction ps with
  | nil => rfl
  | cons p ps ih =>
    rw [List.flatMap_cons, List.map_append, Ends.inChoice_append, ends_branches, ih]
    rfl

theorem ends_ofBranches (ps : List Normal) :
    (ofBranches ps).ends s = .inChoice (ps.map (ends s)) := by
  induction ps with
  | nil =>
    funext i
    show Ends.one s ⟨[], false⟩ i = []
    cases h : s[i]? <;> simp [Ends.one, h, CharSet.admits, CharSet.covers]
  | cons p ps ih =>
    cases ps with
    | nil => exact (Ends.inChoice_singleton _).symm
    | cons q qs =>
      show Ends.prefer true (p.ends s) ((ofBranches (q :: qs)).ends s) = _
      rw [ih]
      rfl

/-- What holds of a pattern holds of its branches. -/
theorem Hereditary.branches (hP : Hereditary Q P) {p : Normal} (hp : P p) : ∀ q ∈ p.branches, P q := by
  induction p with
  | alt p q ihp ihq =>
    obtain ⟨hp, hq⟩ := hP.alt.mp hp
    exact fun r hr => (List.mem_append.mp hr).elim (ihp hp r) (ihq hq r)
  | empty | literal | chars | start | stop | cat | group | repeated =>
    intro q hq
    obtain rfl := List.mem_singleton.mp hq
    exact hp

/-- What holds of all branches holds of their alternation. -/
theorem Hereditary.ofBranches (hP : Hereditary Q P) {ps : List Normal} (hp : ∀ p ∈ ps, P p) :
    P (ofBranches ps) := by
  induction ps with
  | nil => exact hP.chars.mpr (CharSet.union_nil ▸ hP.union (by simp))
  | cons p ps ih =>
    cases ps with
    | nil => exact hp p List.mem_cons_self
    | cons q qs =>
      exact hP.alt.mpr ⟨hp p List.mem_cons_self, ih fun r hr => hp r (List.mem_cons_of_mem p hr)⟩

/-- A set in place of an alternation of sets. -/
theorem alike_union {ordered : Prop} {sets : List CharSet} (hs : ∀ set ∈ sets, set.negated = false) :
    Ends.Alike ordered s (.one s (.union sets)) (.inChoice (sets.map (.one s))) := by
  intro i _
  have hmem : ∀ j, j ∈ Ends.inChoice (sets.map (.one s)) i ↔ j ∈ Ends.one s (.union sets) i := by
    intro j
    simp only [Ends.inChoice, List.mem_flatMap, List.mem_map, exists_exists_and_eq_and, Ends.mem_one]
    constructor
    · rintro ⟨set, hset, rfl, c, hc, h⟩
      exact ⟨rfl, c, hc, (CharSet.admits_union hs).mpr ⟨set, hset, h⟩⟩
    · rintro ⟨rfl, c, hc, h⟩
      obtain ⟨set, hset, h⟩ := (CharSet.admits_union hs).mp h
      exact ⟨set, hset, rfl, c, hc, h⟩
  by_cases hempty : Ends.inChoice (sets.map (.one s)) i = []
  · refine .of_eq ?_
    rw [hempty, List.eq_nil_iff_forall_not_mem]
    exact fun j hj => absurd ((hmem j).mpr hj) (by simp [hempty])
  · have hone : ∀ j ∈ Ends.inChoice (sets.map (.one s)) i, j = i + 1 := fun j hj =>
      (Ends.mem_one.mp ((hmem j).mp hj)).1
    have hne : Ends.one s (.union sets) i ≠ [] := by
      obtain ⟨j, hj⟩ := List.exists_mem_of_ne_nil _ hempty
      exact List.ne_nil_of_mem ((hmem j).mp hj)
    exact (SameEnds.copies (fun j hj => (Ends.mem_one.mp hj).1) hne).trans
      (SameEnds.copies hone hempty).symm

/-- A list of results has one for each of the list. -/
theorem forall₂_of_mapM {α β : Type} {f : α → Option β} {as : List α} {bs : List β}
    (h : as.mapM f = some bs) : List.Forall₂ (fun a b => f a = some b) as bs := by
  induction as generalizing bs with
  | nil => simp at h; subst h; exact .nil
  | cons a as ih =>
    rw [List.mapM_cons] at h
    obtain ⟨b, hb, h⟩ := Option.bind_eq_some_iff.mp h
    obtain ⟨bs', hbs, h⟩ := Option.bind_eq_some_iff.mp h
    cases h
    exact .cons hb (ih hbs)

theorem exists_of_forall₂ {α β : Type} {R : α → β → Prop} {as : List α} {bs : List β}
    (h : List.Forall₂ R as bs) {a : α} (ha : a ∈ as) : ∃ b ∈ bs, R a b := by
  induction h with
  | nil => cases ha
  | cons hab _ ih =>
    rcases List.mem_cons.mp ha with rfl | ha
    · exact ⟨_, List.mem_cons_self, hab⟩
    · obtain ⟨b, hb, hab⟩ := ih ha
      exact ⟨b, List.mem_cons_of_mem _ hb, hab⟩

/-- A pattern that is one character ends where the set of it does. -/
theorem ends_of_single? {p : Normal} {set : CharSet} (h : p.single? = some set) :
    p.ends s = .one s set := by
  unfold single? at h
  split at h
  · cases h
    exact Ends.inSequence_singleton _
  · cases h

/-- A pattern that is a set ends where the set does. -/
theorem ends_of_set? {p : Normal} {set : CharSet} (h : p.set? = some set) :
    p.ends s = .one s set := by
  unfold set? at h
  split at h
  · cases h
    rfl
  · cases h

/-- Branches that are all sets end where these do. -/
theorem ends_map_of_mapM {f : Normal → Option CharSet} {bs : List Normal} {sets : List CharSet}
    (hf : ∀ b ∈ bs, ∀ set, f b = some set → b.ends s = .one s set ∧ set.negated = false)
    (h : bs.mapM f = some sets) :
    bs.map (ends s) = sets.map (.one s) ∧ ∀ set ∈ sets, set.negated = false := by
  have hall := forall₂_of_mapM h
  clear h
  induction hall with
  | nil => exact ⟨rfl, by simp⟩
  | cons hb _ ih =>
    obtain ⟨hends, hneg⟩ := hf _ List.mem_cons_self _ hb
    obtain ⟨ihends, ihneg⟩ := ih fun b hb => hf b (List.mem_cons_of_mem _ hb)
    exact ⟨by rw [List.map_cons, List.map_cons, hends, ihends], List.forall_mem_cons.mpr ⟨hneg, ihneg⟩⟩

theorem negated_of_single? {p : Normal} {set : CharSet} (h : p.single? = some set) :
    set.negated = false := by
  unfold single? at h
  split at h
  · cases h
    rfl
  · cases h

theorem negated_of_set? {p : Normal} {set : CharSet} (hp : p.Resolved) (h : p.set? = some set) :
    set.negated = false := by
  unfold set? at h
  split at h
  · cases h
    exact hp
  · cases h

/-- What holds of branches holds of the sets that they are. -/
theorem Hereditary.sets (hP : Hereditary Q P) {bs : List Normal} {sets : List CharSet}
    (hbs : ∀ b ∈ bs, P b) (h : bs.mapM single? = some sets ∨ bs.mapM set? = some sets) :
    ∀ set ∈ sets, Q set := by
  intro set hset
  obtain h | h := h
  · obtain ⟨b, hb, hsingle⟩ := exists_of_forall₂ (forall₂_of_mapM h).flip hset
    unfold single? at hsingle
    split at hsingle
    · cases hsingle
      exact hP.literal.mp (hbs _ hb) _ List.mem_cons_self
    · cases hsingle
  · obtain ⟨b, hb, hset⟩ := exists_of_forall₂ (forall₂_of_mapM h).flip hset
    unfold set? at hset
    split at hset
    · cases hset
      exact hP.chars.mp (hbs _ hb)
    · cases hset

/-! ### What branches share -/

/-- What two lists begin with alike begins both. -/
theorem shared_isPrefix (ps qs : List Normal) : shared ps qs <+: ps ∧ shared ps qs <+: qs := by
  induction ps generalizing qs with
  | nil => simp [shared]
  | cons p ps ih =>
    cases qs with
    | nil => simp [shared]
    | cons q qs =>
      rw [shared]
      split
      · subst ‹p = q›
        exact ⟨List.cons_prefix_cons.mpr ⟨rfl, (ih qs).1⟩,
          List.cons_prefix_cons.mpr ⟨rfl, (ih qs).2⟩⟩
      · simp

/-- What all lists begin with alike begins each of them. -/
theorem foldl_shared_isPrefix (first : List Normal) (others : List (List Normal)) :
    ∀ items ∈ first :: others, others.foldl shared first <+: items := by
  induction others generalizing first with
  | nil =>
    intro items h
    obtain rfl := List.mem_singleton.mp h
    exact List.prefix_rfl
  | cons other others ih =>
    have h := ih (shared first other)
    intro items hitems
    have hfirst := h _ List.mem_cons_self
    rcases List.mem_cons.mp hitems with rfl | hitems
    · exact hfirst.trans (shared_isPrefix items other).1
    · rcases List.mem_cons.mp hitems with rfl | hitems
      · exact hfirst.trans (shared_isPrefix first items).2
      · exact h _ (List.mem_cons_of_mem _ hitems)

theorem items_of_items? {p : Normal} {items : List Normal} (h : p.items? = some items) :
    p.items = items := by
  unfold items? at h
  split at h
  · cases h
    rfl
  · cases h

/-- What is taken out stands at the beginning of every branch. -/
theorem beginning_isPrefix {bs : List Normal} {b : Normal} (hb : b ∈ bs) : beginning bs <+: b.items := by
  unfold beginning
  split
  · rename_i first others h
    obtain ⟨items, hmem, hitems⟩ := exists_of_forall₂ (forall₂_of_mapM h) hb
    rw [items_of_items? hitems]
    exact foldl_shared_isPrefix first others items hmem
  · exact List.nil_prefix

/-- What is taken out of an alternation, at most `fuel` times. -/
def liftedWithin : Nat → List Normal → List Normal
  | 0, _ => []
  | fuel + 1, ps =>
    let bs := ps.flatMap branches
    if bs.length = 1 ∨ (bs.mapM single?).isSome ∨ (bs.mapM set?).isSome then []
    else
      match beginning bs with
      | [] => []
      | p :: ps =>
        p :: ps ++ liftedWithin fuel (bs.map fun b => sequence (b.items.drop (ps.length + 1)))

/-- What is taken out of the alternation of the patterns. -/
def lifted (ps : List Normal) : List Normal :=
  liftedWithin (ps.foldl (fun n p => n + p.size) 0) ps

/-- The forms that an alternation comes to: its one branch, a set, what the branches share before
the alternation of their rests, or the branches as they are. -/
theorem choiceWithin_cases {motive : Normal → Prop} (fuel : Nat) (ps : List Normal)
    (one : ∀ p, ps.flatMap branches = [p] → motive p)
    (set : ∀ sets, (ps.flatMap branches).mapM single? = some sets ∨
      (ps.flatMap branches).mapM set? = some sets → motive (ofSet (.union sets)))
    (lift : ∀ m p items, fuel = m + 1 → beginning (ps.flatMap branches) = p :: items →
      liftedWithin fuel ps = p :: items ++ liftedWithin m ((ps.flatMap branches).map fun b =>
        sequence (b.items.drop (items.length + 1))) →
      motive (sequence (p :: items ++ [choiceWithin m ((ps.flatMap branches).map fun b =>
        sequence (b.items.drop (items.length + 1)))])))
    (plain : motive (ofBranches (ps.flatMap branches))) : motive (choiceWithin fuel ps) := by
  unfold choiceWithin
  dsimp only
  split
  · exact one _ ‹_›
  · rename_i hone
    split
    · exact set _ (.inl ‹_›)
    · exact set _ (.inr ‹_›)
    · rename_i hsingle hset
      split
      · rename_i m p items hb
        refine lift m p items rfl hb ?_
        have hlength : (ps.flatMap branches).length ≠ 1 := fun h => by
          obtain ⟨q, hq⟩ := List.length_eq_one_iff.mp h
          exact hone q hq
        have hlifts : ¬ ((ps.flatMap branches).length = 1 ∨
            ((ps.flatMap branches).mapM single?).isSome ∨
            ((ps.flatMap branches).mapM set?).isSome) := by
          rw [hsingle, hset]
          exact fun h => h.elim hlength (fun h => h.elim Bool.noConfusion Bool.noConfusion)
        rw [liftedWithin, if_neg hlifts, hb]
      · exact plain

/-- What is rigid may stand before an alternation or before each of its branches. -/
theorem alike_lift {ordered : Prop} {a : Ends} (ha : ordered → a.Rigid s) (bs : List Ends) :
    Ends.Alike ordered s (a.andThen (.inChoice bs)) (.inChoice (bs.map a.andThen)) := by
  intro i hi
  refine ⟨fun j => ?_, fun o f => ?_⟩
  · simp only [Ends.andThen, Ends.inChoice, List.mem_flatMap, List.mem_map]
    constructor
    · rintro ⟨m, hm, b, hb, hj⟩
      exact ⟨_, ⟨b, hb, rfl⟩, List.mem_flatMap.mpr ⟨m, hm, hj⟩⟩
    · rintro ⟨_, ⟨b, hb, rfl⟩, hj⟩
      obtain ⟨m, hm, hj⟩ := List.mem_flatMap.mp hj
      exact ⟨m, hm, b, hb, hj⟩
  · have hsame : SameEnds True (a.andThen (.inChoice bs) i) (Ends.inChoice (bs.map a.andThen) i) := by
      cases hai : a i with
      | nil =>
        refine .of_eq ?_
        have : ∀ b : Ends, a.andThen b i = [] := fun b => by rw [Ends.andThen, hai, List.flatMap_nil]
        simp [Ends.inChoice, List.flatMap_map, this]
      | cons j js =>
        have hcopies : SameEnds True (a i) [j] := by
          refine .copies (fun k hk => ha o i hi k hk j ?_) (by simp [hai])
          rw [hai]
          exact List.mem_cons_self
        have heach : ∀ b : Ends, SameEnds True (a.andThen b i) (b j) := fun b =>
          (hcopies.flatMap fun k _ => .refl (b k)).trans (.of_eq (List.flatMap_singleton b j))
        refine (heach _).trans ?_
        rw [Ends.inChoice, Ends.inChoice, List.flatMap_map]
        induction bs with
        | nil => exact .refl _
        | cons b bs ih => exact (heach b).symm.append ih
    exact hsame.first trivial f

/-- A sequence of parts with one end at most has one end at most. -/
theorem rigid_inSequence {as : List Ends} (hf : ∀ a ∈ as, a.Forward s) (ha : ∀ a ∈ as, a.Rigid s) :
    (Ends.inSequence as).Rigid s := by
  induction as with
  | nil =>
    intro i _ j hj k hk
    exact (List.mem_singleton.mp hj).trans (List.mem_singleton.mp hk).symm
  | cons a as ih =>
    intro i hi j hj k hk
    obtain ⟨m, hm, hj⟩ := List.mem_flatMap.mp hj
    obtain ⟨m', hm', hk⟩ := List.mem_flatMap.mp hk
    obtain rfl := ha a List.mem_cons_self i hi m hm m' hm'
    exact ih (fun b hb => hf b (List.mem_cons_of_mem a hb))
      (fun b hb => ha b (List.mem_cons_of_mem a hb)) m (hf a List.mem_cons_self i hi m hm).2 j hj k hk

/-- What holds of all branches holds of what is put together of them, however much is taken out. -/
theorem Hereditary.choiceWithin (hP : Hereditary Q P) (fuel : Nat) {ps : List Normal}
    (hp : ∀ p ∈ ps, P p) : P (choiceWithin fuel ps) := by
  induction fuel using Nat.strongRecOn generalizing ps with
  | ind fuel ih =>
    have hbs : ∀ b ∈ ps.flatMap Normal.branches, P b := by
      intro b hb
      obtain ⟨p, hmem, hb⟩ := List.mem_flatMap.mp hb
      exact hP.branches (hp p hmem) b hb
    refine choiceWithin_cases fuel ps ?_ ?_ ?_ (hP.ofBranches hbs)
    · exact fun p h => hbs p (h ▸ List.mem_cons_self)
    · exact fun sets h => hP.ofSet rfl (hP.union (hP.sets hbs h))
    · rintro m p items rfl hb -
      have hrest : ∀ b ∈ ps.flatMap Normal.branches, ∀ n, P (Normal.sequence (b.items.drop n)) :=
        fun b hb n => hP.sequence fun q hq => hP.items (hbs b hb) q (List.mem_of_mem_drop hq)
      refine hP.sequence fun q hq => ?_
      rcases List.mem_append.mp hq with hq | hq
      · cases hbranches : ps.flatMap Normal.branches with
        | nil =>
          rw [hbranches] at hb
          cases hb
        | cons b bs =>
          have hmem : b ∈ ps.flatMap Normal.branches := hbranches ▸ List.mem_cons_self
          exact hP.items (hbs b hmem) q ((hb ▸ beginning_isPrefix hmem).subset hq)
      · obtain rfl := List.mem_singleton.mp hq
        refine ih m (Nat.lt_succ_self m) fun q hq => ?_
        obtain ⟨b, hb, rfl⟩ := List.mem_map.mp hq
        exact hrest b hb _

/-- Branches that begin alike match what they share, and then what is left of one of them. -/
theorem ends_map_of_shared {bs items : List Normal} (h : ∀ b ∈ bs, items <+: b.items) :
    bs.map (ends s) = ((bs.map fun b => sequence (b.items.drop items.length)).map (ends s)).map
      (Ends.inSequence (items.map (ends s))).andThen := by
  rw [List.map_map, List.map_map]
  refine List.map_congr_left fun b hmem => ?_
  obtain ⟨rest, hrest⟩ := h b hmem
  have hdrop : b.items.drop items.length = rest := by
    rw [← hrest]
    exact List.drop_left
  rw [Function.comp, Function.comp, hdrop, ends_sequence, ← Ends.inSequence_append,
    ← List.map_append, hrest, ends_items]

/-- The set that branches of one character come to matches as they do. -/
theorem alike_sets {ordered : Prop} {bs : List Normal} {sets : List CharSet}
    (hbs : ∀ b ∈ bs, b.Resolved)
    (h : bs.mapM single? = some sets ∨ bs.mapM set? = some sets) :
    Ends.Alike ordered s ((ofSet (.union sets)).ends s) (.inChoice (bs.map (ends s))) := by
  obtain ⟨hends, hneg⟩ : bs.map (ends s) = sets.map (.one s) ∧
      ∀ set ∈ sets, set.negated = false := by
    rcases h with h | h
    · exact ends_map_of_mapM (fun b _ set h => ⟨ends_of_single? h, negated_of_single? h⟩) h
    · exact ends_map_of_mapM (fun b hb set h => ⟨ends_of_set? h, negated_of_set? (hbs b hb) h⟩) h
  rw [ends_ofSet rfl, hends]
  exact alike_union hneg

/-- An alternation ends where its branches do, in order if what is taken out has one end at most. -/
theorem alike_choiceWithin {ordered : Prop} (fuel : Nat) {ps : List Normal}
    (hp : ∀ p ∈ ps, p.Resolved) (hl : ordered → ∀ q ∈ liftedWithin fuel ps, q.Rigid) :
    Ends.Alike ordered s ((choiceWithin fuel ps).ends s) (.inChoice (ps.map (ends s))) := by
  induction fuel using Nat.strongRecOn generalizing ps with
  | ind fuel ih =>
    rw [← ends_flatMap_branches]
    have hbs : ∀ b ∈ ps.flatMap branches, b.Resolved := by
      intro b hb
      obtain ⟨p, hmem, hb⟩ := List.mem_flatMap.mp hb
      exact hereditary_resolved.branches (hp p hmem) b hb
    refine choiceWithin_cases fuel ps (motive := fun q => Ends.Alike ordered s (q.ends s) _)
      ?_ ?_ ?_ (.of_eq (ends_ofBranches _))
    · intro p h
      rw [h]
      exact .of_eq (Ends.inChoice_singleton _).symm
    · exact fun sets h => alike_sets hbs h
    · rintro m p items rfl hb hlift
      generalize hrests : (ps.flatMap branches).map (fun b =>
        sequence (b.items.drop (items.length + 1))) = rests at hlift
      have hsplit : (ps.flatMap branches).map (ends s) =
          (rests.map (ends s)).map (Ends.inSequence ((p :: items).map (ends s))).andThen := by
        rw [← hrests]
        exact ends_map_of_shared fun b hmem => hb ▸ beginning_isPrefix hmem
      have hforward : ∀ a ∈ (p :: items).map (ends s), a.Forward s := by
        intro a ha
        obtain ⟨q, -, rfl⟩ := List.mem_map.mp ha
        exact q.forward_ends s
      have hresolved : ∀ q ∈ rests, q.Resolved := by
        intro q hq
        obtain ⟨b, hmem, rfl⟩ := List.mem_map.mp (hrests ▸ hq)
        exact hereditary_resolved.sequence fun r hr =>
          hereditary_resolved.items (hbs b hmem) r (List.mem_of_mem_drop hr)
      -- what is shared goes in front of the choice of the rests, which is where order may be lost
      rw [ends_sequence, List.map_append, Ends.inSequence_append, hsplit]
      refine Ends.Alike.trans ?_ (alike_lift (fun o => rigid_inSequence hforward ?_) _)
      · refine .andThen (Ends.forward_inSequence hforward) (.refl _) ?_
        rw [List.map_singleton, Ends.inSequence_singleton]
        exact ih m (Nat.lt_succ_self m) hresolved fun o q hq =>
          hl o q (hlift ▸ List.mem_append_right _ hq)
      · intro a ha
        obtain ⟨q, hq, rfl⟩ := List.mem_map.mp ha
        exact hl o q (hlift ▸ List.mem_append_left _ hq) s

/-- **An alternation comes to the ends of its branches, and prefers the same if what is taken out of
the branches is rigid.** -/
theorem alike_choice {ordered : Prop} {ps : List Normal} (hp : ∀ p ∈ ps, p.Resolved)
    (hl : ordered → ∀ q ∈ lifted ps, q.Rigid) :
    Ends.Alike ordered s ((choice ps).ends s) (.inChoice (ps.map (ends s))) :=
  alike_choiceWithin _ hp hl

theorem Hereditary.choice (hP : Hereditary Q P) {ps : List Normal} (hp : ∀ p ∈ ps, P p) :
    P (choice ps) :=
  hP.choiceWithin _ hp

/-! ### Repetitions -/

/-- What takes no character by its form stays where it is. -/
theorem idle_of_takesNone {p : Normal} (hp : p.takesNone = true) : (p.ends s).Idle s := by
  induction p with
  | empty => exact Ends.Idle.of_stay
  | literal | chars => cases hp
  | start =>
    intro i _ j hj
    simp only [ends, Ends.atStart, List.mem_ite_nil_right, List.mem_singleton] at hj
    exact hj.2
  | stop =>
    intro i _ j hj
    simp only [ends, Ends.atStop, List.mem_ite_nil_right, List.mem_singleton] at hj
    exact hj.2
  | cat p q ihp ihq =>
    obtain ⟨hp, hq⟩ := Bool.and_eq_true_iff.mp hp
    exact (ihp hp).andThen (ihq hq)
  | alt p q ihp ihq =>
    obtain ⟨hp, hq⟩ := Bool.and_eq_true_iff.mp hp
    exact (ihp hp).prefer (ihq hq)
  | group _ p ih => exact ih hp
  | repeated c p ih => exact (ih hp).counted c

/-- What takes no character needs no second round. -/
theorem alike_bounded {ordered : Prop} (c : Count) (p : Normal) :
    Ends.Alike ordered s (.counted s (bounded c p) (p.ends s)) (.counted s c (p.ends s)) := by
  unfold bounded
  split
  · rename_i hp
    intro i hi
    have hidle := idle_of_takesNone (s := s) hp
    refine .of_idle (hidle.counted _ i hi) (hidle.counted _ i hi) ?_
    rw [hidle.mem_counted _ hi, hidle.mem_counted _ hi]
    exact or_congr_left ⟨fun h => by simp only at h; omega, fun h => by simp only; omega⟩
  · exact .refl _

/-- **A repetition comes to the ends of its rounds.** -/
theorem alike_times {ordered : Prop} {c : Count} (hc : c.fits) (p : Normal) :
    Ends.Alike ordered s ((times c p).ends s) (.counted s c (p.ends s)) := by
  refine Ends.Alike.trans ?_ (alike_bounded c p)
  have hleast : ∀ n, (bounded c p).most = some n → (bounded c p).least ≤ n := by
    obtain ⟨least, most, greedy⟩ := c
    intro n
    unfold bounded
    split
    · cases most with
      | none => intro h; cases h; exact Nat.min_le_right _ _
      | some m =>
        intro h
        cases h
        simp only [Count.fits, Option.all_some, Bool.and_eq_true, decide_eq_true_eq] at hc
        simp only [Option.getD_some]
        omega
    · rintro rfl
      simp only [Count.fits, Option.all_some, Bool.and_eq_true, decide_eq_true_eq] at hc
      exact hc.2.1
  unfold times
  generalize bounded c p = c at hleast
  obtain ⟨least, most, greedy⟩ := c
  dsimp only
  split
  · rename_i hmost
    subst hmost
    obtain rfl : least = 0 := Nat.le_zero.mp (hleast 0 rfl)
    exact .of_eq (Ends.stay_andThen _).symm
  · split
    · obtain ⟨rfl, rfl⟩ := ‹least = 1 ∧ most = some 1›
      refine .of_eq ?_
      show p.ends s = ((p.ends s).andThen .stay).andThen .stay
      rw [Ends.andThen_stay, Ends.andThen_stay]
    · exact .refl _

/-- A repetition holds no negated set if its body holds none. -/
theorem resolved_times {p : Normal} (hp : p.Resolved) (c : Count) : (times c p).Resolved := by
  unfold times
  dsimp only
  split
  · trivial
  · split <;> exact hp

/-- A repetition of a body that takes characters is productive. -/
theorem productive_times {p : Normal} (hp : p.Productive) {c : Count}
    (h : c.most = none → 0 ∉ p.ends [] 0) : (times c p).Productive := by
  unfold times
  dsimp only
  split
  · trivial
  · split
    · exact hp
    · refine ⟨hp, fun hmost => ?_⟩
      unfold bounded at hmost
      split at hmost
      · cases hmost
      · exact h hmost

end Normal

end MailPattern
