import MailPattern.Proofs.Pattern.Meaning

/-!
# Proofs — Pattern — Steady

When a search for the normal form prefers what a search for the pattern does: whatever is taken out of
an alternation has one end at most (`Pattern.Steady`).

Only the items that all branches begin with are taken out.  So it is enough that one branch holds
nothing but characters (`Pattern.steady_of_letters`), or that one branch begins with a repetition
and another does not (`Pattern.steady_of_opens`).
-/

namespace MailPattern

/-! ### Items of a pattern -/

namespace Interpretation

variable {α : Type} (i : Interpretation α)

theorem whole_eq_joined (ps : Parts α) : i.whole ps = i.joined (i.items ps) := by
  cases ps <;> rfl

/-- The items of parts in a row are those of the first and then those of the others. -/
theorem items_append (ps qs : Parts α) : i.items (i.append ps qs) = i.items ps ++ i.items qs := by
  match ps, qs with
  | .sequence [], _ => rfl
  | .sequence (_ :: _), .sequence [] | .choice _ _, .sequence [] => exact (List.append_nil _).symm
  | .sequence (_ :: _), .sequence (_ :: _) | .sequence (_ :: _), .choice _ _ => rfl
  | .choice _ _, .sequence (_ :: _) | .choice _ _, .choice _ _ => rfl

/-- The items that a pattern comes to. -/
def itemsOf (p : Pattern) : List α := i.items (i.parts p)

/-- The whole pattern comes to its items in sequence. -/
theorem apply_eq_joined (p : Pattern) : i.apply p = i.joined (i.itemsOf p) := i.whole_eq_joined _

/-- The items of patterns in sequence are those of each, one after the other. -/
theorem itemsOf_ofItems (ps : List Pattern) :
    i.itemsOf (.ofItems ps) = ps.flatMap i.itemsOf := by
  induction ps with
  | nil => rfl
  | cons p ps ih =>
    cases ps with
    | nil => exact (List.append_nil _).symm
    | cons q qs =>
      show i.items (i.append (i.parts p) (i.parts (.ofItems (q :: qs)))) = _
      rw [items_append, List.flatMap_cons, ← ih]
      rfl

/-- In brackets a pattern is one item, if it has any. -/
theorem itemsOf_bracket {p : Pattern} (h : i.itemsOf p ≠ []) :
    i.itemsOf (.group none p) = [i.apply p] := by
  unfold itemsOf at h ⊢
  rw [parts, apply]
  cases hp : i.parts p with
  | choice => rfl
  | sequence xs =>
    rcases xs with _ | ⟨x, _ | ⟨y, xs⟩⟩
    · rw [hp] at h
      exact absurd rfl h
    · rfl
    · rfl

/-- An alternation has its branches, if none is an alternation without brackets. -/
theorem parts_ofBranches {bs : List Pattern} (hbs : 2 ≤ bs.length)
    (h : ∀ b ∈ bs, i.branches (i.parts b) = [i.apply b]) :
    i.parts (.ofBranches bs) = .choice false (bs.map i.apply) := by
  induction bs with
  | nil => cases hbs
  | cons b bs ih =>
    obtain ⟨hb, hrest⟩ := List.forall_mem_cons.mp h
    match bs, ih, hbs with
    | [c], _, _ =>
      show Parts.choice false (i.branches (i.parts b) ++ i.branches (i.parts c)) = _
      rw [hb, hrest c List.mem_cons_self]
      rfl
    | c :: d :: ds, ih, _ =>
      show Parts.choice false (i.branches (i.parts b) ++
        i.branches (i.parts (.ofBranches (c :: d :: ds)))) = _
      rw [hb, ih (by simp) hrest]
      rfl

end Interpretation

namespace Pattern

/-- Neither a sequence nor an alternation without brackets. -/
def isItem (p : Pattern) : Bool := !p.isCat && !p.isAlt

/-- A sequence of items is one branch. -/
theorem branches_parts_of_isItem {α : Type} (i : Interpretation α) {ps : List Pattern}
    (h : ∀ p ∈ ps, p.isItem = true) :
    i.branches (i.parts (ofItems ps)) = [i.apply (ofItems ps)] := by
  have hbare : ∀ ps : List Pattern, (∀ p ∈ ps, p.isItem = true) →
      ∀ bs, i.parts (ofItems ps) ≠ .choice false bs := by
    have hitem : ∀ p : Pattern, p.isItem = true → ∀ bs, i.parts p ≠ .choice false bs := by
      intro p hp bs
      cases p with
      | cat | alt => cases hp
      | group n p =>
        cases n with
        | none =>
          rw [Interpretation.parts]
          unfold Interpretation.bracketed
          split <;> simp_all
        | some n => exact fun hp => by cases hp
      | _ => exact fun hp => by cases hp
    intro ps
    induction ps with
    | nil => exact fun _ bs hp => by cases hp
    | cons p ps ih =>
      intro hps bs
      obtain ⟨hp, hrest⟩ := List.forall_mem_cons.mp hps
      cases ps with
      | nil => exact hitem p hp bs
      | cons q qs =>
        show i.append (i.parts p) (i.parts (ofItems (q :: qs))) ≠ _
        unfold Interpretation.append
        split
        · exact ih hrest bs
        · exact hitem p hp bs
        · exact fun happ => by cases happ
  unfold Interpretation.branches
  split
  · exact absurd ‹_› (hbare ps h _)
  · rfl

end Pattern

/-! ### What is taken out -/

namespace Normal

/-- The pattern takes given characters. -/
def isLetter : Normal → Bool
  | .literal _ | .chars _ => true
  | _ => false

/-- The pattern is a repetition. -/
def isRepeated : Normal → Bool
  | .repeated .. => true
  | _ => false

/-- Given characters end in one place, if anywhere. -/
theorem rigid_of_isLetter {p : Normal} (h : p.isLetter = true) : p.Rigid := by
  intro s
  have hone : ∀ set : CharSet, (Ends.one s set).Rigid s := fun set i _ j hj k hk =>
    (Ends.mem_one.mp hj).1.trans (Ends.mem_one.mp hk).1.symm
  cases p with
  | literal t =>
    refine rigid_inSequence (fun a ha => ?_) fun a ha => ?_
    · obtain ⟨c, -, rfl⟩ := List.mem_map.mp ha
      exact Ends.forward_one _
    · obtain ⟨c, -, rfl⟩ := List.mem_map.mp ha
      exact hone _
  | chars set => exact hone set
  | _ => cases h

/-- An item is its only item. -/
theorem items_of_mem_items {p q : Normal} (h : q ∈ p.items) : q.items = [q] := by
  induction p with
  | empty => cases h
  | cat p r ihp ihr => exact (List.mem_append.mp h).elim ihp ihr
  | literal | chars | start | stop | alt | group | repeated =>
    obtain rfl := List.mem_singleton.mp h
    rfl

theorem items_of_isLetter {p : Normal} (h : p.isLetter = true) : p.items = [p] := by
  cases p with
  | literal | chars => rfl
  | _ => cases h

theorem items_ofItems {ps : List Normal} (h : ∀ p ∈ ps, p.items = [p]) : (ofItems ps).items = ps := by
  induction ps with
  | nil => rfl
  | cons p ps ih =>
    obtain ⟨hp, hps⟩ := List.forall_mem_cons.mp h
    cases ps with
    | nil => exact hp
    | cons q qs =>
      show p.items ++ (ofItems (q :: qs)).items = _
      rw [hp, ih hps]
      rfl

/-- Literals may be joined, and everything else stays as it is. -/
theorem forall_mem_foldr_prepend {P : Normal → Prop} (hP : ∀ t, P (.literal t)) {ps : List Normal}
    (h : ∀ p ∈ ps, P p) : ∀ p ∈ ps.foldr prepend [], P p := by
  induction ps with
  | nil => exact nofun
  | cons p ps ih =>
    obtain ⟨hp, hps⟩ := List.forall_mem_cons.mp h
    rw [List.foldr_cons]
    unfold prepend
    split
    · rename_i heq
      exact List.forall_mem_cons.mpr ⟨hP _, fun q hq => ih hps q (heq ▸ List.mem_cons_of_mem _ hq)⟩
    · exact List.forall_mem_cons.mpr ⟨hp, ih hps⟩

/-- The items of a sequence are those of its parts, with neighbouring literals joined. -/
theorem items_sequence (ps : List Normal) :
    (sequence ps).items = (ps.flatMap items).foldr prepend [] := by
  refine items_ofItems (forall_mem_foldr_prepend (fun _ => rfl) fun p hp => ?_)
  obtain ⟨q, -, hp⟩ := List.mem_flatMap.mp hp
  exact items_of_mem_items hp

/-- A sequence of characters has no other items. -/
theorem isLetter_of_mem_sequence {ps : List Normal}
    (h : ∀ p ∈ ps, ∀ q ∈ p.items, q.isLetter = true) : ∀ q ∈ (sequence ps).items, q.isLetter = true := by
  rw [items_sequence]
  refine forall_mem_foldr_prepend (fun _ => rfl) fun q hq => ?_
  obtain ⟨p, hp, hq⟩ := List.mem_flatMap.mp hq
  exact h p hp q hq

theorem branches_ne_nil (p : Normal) : p.branches ≠ [] := by
  induction p with
  | alt p q ihp _ => exact List.append_ne_nil_of_left_ne_nil ihp _
  | _ => exact List.cons_ne_nil _ _

/-- A sequence of characters has no branches but itself. -/
theorem branches_of_isLetter {p : Normal} (h : ∀ q ∈ p.items, q.isLetter = true) :
    p.branches = [p] := by
  cases p with
  | alt p q => cases h _ List.mem_cons_self
  | _ => rfl

/-- If one branch holds nothing but characters, so does what is taken out. -/
theorem rigid_liftedWithin (fuel : Nat) {ps : List Normal} {b : Normal}
    (hb : b ∈ ps.flatMap branches) (h : ∀ q ∈ b.items, q.isLetter = true) :
    ∀ q ∈ liftedWithin fuel ps, q.Rigid := by
  induction fuel generalizing ps b with
  | zero => exact nofun
  | succ fuel ih =>
    intro q hq
    rw [liftedWithin] at hq
    split at hq
    · cases hq
    · split at hq
      · cases hq
      · rename_i p items hbegin
        rcases List.mem_append.mp hq with hq | hq
        · exact rigid_of_isLetter (h q ((hbegin ▸ beginning_isPrefix hb).subset hq))
        · have hrest : ∀ r ∈ (sequence (b.items.drop (items.length + 1))).items,
              r.isLetter = true := by
            refine isLetter_of_mem_sequence fun r hr t ht => ?_
            have hr := List.mem_of_mem_drop hr
            rw [items_of_mem_items hr, List.mem_singleton] at ht
            exact ht ▸ h r hr
          refine ih (List.mem_flatMap.mpr ⟨_, List.mem_map.mpr ⟨b, hb, rfl⟩, ?_⟩) hrest q hq
          rw [branches_of_isLetter hrest]
          exact List.mem_singleton_self _

/-- The first item is a repetition, or is not. -/
def Starts (r : Bool) (p : Normal) : Prop := ∃ q, p.items.head? = some q ∧ q.isRepeated = r

/-- A sequence begins as its first part does, with a repetition or not. -/
theorem Starts.sequence {r : Bool} {p : Normal} (h : p.Starts r) (ps : List Normal) :
    (sequence (p :: ps)).Starts r := by
  obtain ⟨q, hq, hr⟩ := h
  obtain ⟨items, hitems⟩ := List.head?_eq_some_iff.mp hq
  rw [Starts, items_sequence, List.flatMap_cons, hitems, List.cons_append, List.foldr_cons]
  unfold prepend
  split
  · exact ⟨_, rfl, hr⟩
  · exact ⟨_, rfl, hr⟩

theorem Starts.of_isLetter {p : Normal} (h : p.isLetter = true) : p.Starts false := by
  refine ⟨p, by rw [items_of_isLetter h]; rfl, ?_⟩
  cases p with
  | literal | chars => rfl
  | _ => cases h

theorem isLetter_ofSet (set : CharSet) : (ofSet set).isLetter = true := by
  unfold ofSet
  split
  · split <;> rfl
  · rfl

/-- Nothing is taken out if one branch begins with a repetition and another does not. -/
theorem lifted_eq_nil {ps : List Normal} {b b' : Normal} (hb : b ∈ ps.flatMap branches)
    (hb' : b' ∈ ps.flatMap branches) (h : b.Starts true) (h' : b'.Starts false) : lifted ps = [] := by
  have hbegin : beginning (ps.flatMap branches) = [] := by
    cases hbegin : beginning (ps.flatMap branches) with
    | nil => rfl
    | cons p items =>
      obtain ⟨q, hq, hr⟩ := h
      obtain ⟨q', hq', hr'⟩ := h'
      obtain ⟨rest, hrest⟩ := hbegin ▸ beginning_isPrefix hb
      obtain ⟨rest', hrest'⟩ := hbegin ▸ beginning_isPrefix hb'
      rw [← hrest] at hq
      rw [← hrest'] at hq'
      obtain rfl := Option.some.inj hq
      obtain rfl := Option.some.inj hq'
      rw [hr] at hr'
      cases hr'
  unfold lifted
  cases ps.foldl (fun n p => n + p.size) 0 with
  | zero => rfl
  | succ fuel =>
    rw [liftedWithin, hbegin]
    split <;> rfl

/-- An alternation begins with no repetition if one of its branches does not. -/
theorem Starts.choice {ps : List Normal} {b : Normal} (hb : b ∈ ps.flatMap branches)
    (hlen : (ps.flatMap branches).length ≠ 1) (h : b.Starts false) : (choice ps).Starts false := by
  refine choiceWithin_cases _ ps (fun p hp => ?_) (fun sets _ => ?_) (fun m p items _ hbegin _ => ?_) ?_
  · exact absurd (congrArg List.length hp) hlen
  · exact .of_isLetter (isLetter_ofSet _)
  · obtain ⟨q, hq, hr⟩ := h
    have hbegins := hbegin ▸ beginning_isPrefix hb
    have hp := items_of_mem_items (hbegins.subset List.mem_cons_self)
    obtain ⟨rest, hrest⟩ := hbegins
    rw [← hrest] at hq
    obtain rfl := Option.some.inj hq
    exact Starts.sequence ⟨p, by rw [hp]; rfl, hr⟩ _
  · match ps.flatMap branches, hb, hlen with
    | [_], _, hlen => exact absurd rfl hlen
    | _ :: _ :: _, _, _ => exact ⟨_, rfl, rfl⟩

/-- A sequence of two items or more is no alternation. -/
theorem branches_sequence {p : Normal} {ps : List Normal} (hp : p.items ≠ [])
    (hps : ps.flatMap items ≠ []) : (sequence (p :: ps)).branches = [sequence (p :: ps)] := by
  have hitems : (sequence (p :: ps)).items =
      (p.items ++ ps.flatMap items).foldr prepend [] := items_sequence (p :: ps)
  obtain ⟨a, as, ha⟩ := List.exists_cons_of_ne_nil hp
  obtain ⟨c, cs, hc⟩ := List.exists_cons_of_ne_nil hps
  obtain ⟨d, ds, hd⟩ : ∃ d ds, (as ++ c :: cs).foldr prepend [] = d :: ds := by
    obtain ⟨b, bs, hb⟩ := List.exists_cons_of_ne_nil (List.append_ne_nil_of_right_ne_nil as
      (List.cons_ne_nil c cs))
    rw [hb, List.foldr_cons]
    unfold prepend
    split <;> exact ⟨_, _, rfl⟩
  rw [ha, hc, List.cons_append, List.foldr_cons, hd] at hitems
  cases hseq : sequence (p :: ps) with
  | alt q r =>
    rw [hseq] at hitems
    replace hitems : [q.alt r] = prepend a (d :: ds) := hitems
    unfold prepend at hitems
    split at hitems <;> cases hitems
  | _ => rfl

theorem most_bounded {p : Normal} {c : Count} (hc : c.most ≠ some 0) :
    (bounded c p).most ≠ some 0 := by
  unfold bounded
  split
  · intro h
    have hmin : min (c.most.getD 1) 1 = 0 := Option.some.inj h
    cases hm : c.most with
    | none => simp [hm] at hmin
    | some n =>
      obtain rfl : n = 0 := by
        simp only [hm, Option.getD_some] at hmin
        omega
      exact hc hm
  · exact hc

/-- What has items still has some when it is repeated, unless it is never taken. -/
theorem items_times_ne_nil {p : Normal} {c : Count} (hp : p.items ≠ []) (hc : c.most ≠ some 0) :
    (times c p).items ≠ [] := by
  rw [times, if_neg (most_bounded hc)]
  split
  · exact hp
  · exact List.cons_ne_nil _ _

/-- A repetition that is not once begins with itself. -/
theorem starts_times {p : Normal} {c : Count} (hc : c.most ≠ some 0)
    (h : c.least = 0 ∨ p.takesNone = false ∧ c.least ≠ 1) : (times c p).Starts true := by
  have hleast : (bounded c p).least ≠ 1 := by
    unfold bounded
    split
    · rename_i hp
      rcases h with h | ⟨h, -⟩
      · simp [h]
      · rw [h] at hp
        cases hp
    · rcases h with h | ⟨-, h⟩
      · omega
      · exact h
  rw [times, if_neg (most_bounded hc), if_neg fun h => hleast h.1]
  exact ⟨_, rfl, rfl⟩

end Normal

namespace Pattern

variable {caseless : Bool} {p q : Pattern} {ps : List Pattern}

/-! ### Steady patterns -/

/-- What is taken out of a pattern is what is taken out of its items. -/
theorem lifted_eq (p : Pattern) :
    p.lifted caseless = ((Normal.liftings caseless).itemsOf p).flatMap Prod.snd := by
  rw [lifted, Interpretation.apply_eq_joined]
  match (Normal.liftings caseless).itemsOf p with
  | [] => rfl
  | [x] => exact (List.append_nil _).symm
  | _ :: _ :: _ => rfl

/-- A sequence is steady if its items are. -/
theorem steady_ofItems (h : ∀ p ∈ ps, p.Steady caseless) : (ofItems ps).Steady caseless := by
  intro q hq
  rw [lifted_eq, Interpretation.itemsOf_ofItems, List.flatMap_assoc] at hq
  obtain ⟨p, hp, hq⟩ := List.mem_flatMap.mp hq
  rw [← lifted_eq] at hq
  exact h p hp q hq

theorem Steady.bracket (h : p.Steady caseless) : (group none p).Steady caseless := by
  intro q hq
  rw [lifted, Interpretation.apply_bracket] at hq
  exact h q hq

theorem Steady.of_bracket (h : (group none p).Steady caseless) : p.Steady caseless := by
  intro q hq
  rw [lifted, ← Interpretation.apply_bracket] at hq
  exact h q hq

theorem Steady.repeated (h : p.Steady caseless) (c : Count) : (repeated c p).Steady caseless := h

theorem steady_char (c : Char) : (char c).Steady caseless := nofun

theorem steady_chars (set : CharSet) : (chars set).Steady caseless := nofun

/-! ### How a normal form begins -/

/-- The pattern is one item of a sequence, in the normal form too. -/
def One (caseless : Bool) (p : Pattern) : Prop :=
  (Normal.interpretation caseless).itemsOf p = [p.normal? caseless]

theorem one_char (c : Char) : (char c).One caseless := rfl

theorem one_repeated (c : Count) (p : Pattern) : (repeated c p).One caseless := rfl

/-- A bracket is one item, unless nothing is in it. -/
theorem one_bracket (h : (Normal.interpretation caseless).itemsOf p ≠ []) :
    (group none p).One caseless := by
  rw [One, Interpretation.itemsOf_bracket _ h, normal?, Interpretation.apply_bracket]

/-- The normal form of a sequence, by those of its items. -/
theorem normal_ofItems {n : Normal} (hp : p.One caseless) (hq : q.One caseless)
    (h : (ofItems (p :: q :: ps)).normal? caseless = some n) :
    ∃ np nq ns, p.normal? caseless = some np ∧ q.normal? caseless = some nq ∧
      n = .sequence (np :: nq :: ns) := by
  rw [normal?, Interpretation.apply_eq_joined, Interpretation.itemsOf_ofItems, List.flatMap_cons,
    List.flatMap_cons, hp, hq] at h
  replace h : ((p.normal? caseless :: q.normal? caseless ::
    ps.flatMap (Normal.interpretation caseless).itemsOf).mapM id).map Normal.sequence = some n := h
  obtain ⟨ns, hns, rfl⟩ := Option.map_eq_some_iff.mp h
  cases Normal.forall₂_of_mapM hns with
  | cons hp hrest =>
    cases hrest with
    | cons hq _ => exact ⟨_, _, _, hp, hq, rfl⟩

/-- The normal form has items. -/
def Filled (caseless : Bool) (p : Pattern) : Prop :=
  ∀ n, p.normal? caseless = some n → n.items ≠ []

/-- The normal form begins with a repetition, or does not. -/
def Starts (caseless r : Bool) (p : Pattern) : Prop :=
  ∀ n, p.normal? caseless = some n → n.Starts r

/-- It is no alternation either. -/
def Opens (caseless r : Bool) (p : Pattern) : Prop :=
  ∀ n, p.normal? caseless = some n → n.Starts r ∧ n.branches = [n]

theorem Starts.filled {r : Bool} (h : p.Starts caseless r) : p.Filled caseless := by
  intro n hn hnil
  obtain ⟨q, hq, -⟩ := h n hn
  rw [hnil] at hq
  cases hq

theorem starts_char (c : Char) : (char c).Starts caseless false := by
  intro n hn
  cases hn
  unfold Normal.ofChar
  split
  · exact .of_isLetter (Normal.isLetter_ofSet _)
  · exact .of_isLetter rfl

theorem starts_chars (set : CharSet) : (chars set).Starts caseless false := by
  intro n hn
  cases hn
  exact .of_isLetter (Normal.isLetter_ofSet _)

/-- The normal form of a repetition repeats a normal form. -/
theorem normal_repeated {c : Count} {n : Normal} (h : (repeated c p).normal? caseless = some n) :
    ∃ m, p.normal? caseless = some m ∧ n = .times c m := by
  have h : (if c.fits then (p.normal? caseless).map (Normal.times c) else none) = some n := h
  split at h
  · obtain ⟨m, hm, rfl⟩ := Option.map_eq_some_iff.mp h
    exact ⟨m, hm, rfl⟩
  · cases h

/-- A repetition that may be taken has items if its body has. -/
theorem Filled.repeated {c : Count} (h : p.Filled caseless) (hc : c.most ≠ some 0) :
    (repeated c p).Filled caseless := by
  intro n hn
  obtain ⟨m, hm, rfl⟩ := normal_repeated hn
  exact Normal.items_times_ne_nil (h m hm) hc

/-- What may be left out begins with a repetition. -/
theorem starts_repeated {c : Count} (hc : c.most ≠ some 0) (h : c.least = 0) :
    (repeated c p).Starts caseless true := by
  intro n hn
  obtain ⟨m, -, rfl⟩ := normal_repeated hn
  exact Normal.starts_times hc (.inl h)

theorem Opens.starts {r : Bool} (h : p.Opens caseless r) : p.Starts caseless r := fun n hn => (h n hn).1

/-- Brackets do not change what a pattern begins with. -/
theorem Starts.bracket {r : Bool} (h : p.Starts caseless r) : (group none p).Starts caseless r := by
  intro n hn
  rw [normal?, Interpretation.apply_bracket] at hn
  exact h n hn

theorem Opens.bracket {r : Bool} (h : p.Opens caseless r) : (group none p).Opens caseless r := by
  intro n hn
  rw [normal?, Interpretation.apply_bracket] at hn
  exact h n hn

/-- A sequence begins as its first item does. -/
theorem opens_ofItems {r : Bool} (hp : p.One caseless) (hq : q.One caseless)
    (hs : p.Starts caseless r) (hf : q.Filled caseless) :
    (ofItems (p :: q :: ps)).Opens caseless r := by
  intro n hn
  obtain ⟨np, nq, ns, hnp, hnq, rfl⟩ := normal_ofItems hp hq hn
  refine ⟨(hs np hnp).sequence _, Normal.branches_sequence (hs.filled np hnp) ?_⟩
  exact List.append_ne_nil_of_left_ne_nil (hf nq hnq) _

/-! ### Branches -/

/-- The pattern is one character, or one of a set. -/
def IsLetter (p : Pattern) : Prop := (∃ c, p = .char c) ∨ ∃ set, p = .chars set

/-- The normal form of a character or a class takes given characters. -/
theorem isLetter_normal {n : Normal} (hp : p.IsLetter) (hn : p.normal? caseless = some n) :
    n.isLetter = true := by
  rcases hp with ⟨c, rfl⟩ | ⟨set, rfl⟩
  · cases hn
    unfold Normal.ofChar
    split
    · exact Normal.isLetter_ofSet _
    · rfl
  · cases hn
    exact Normal.isLetter_ofSet _

theorem IsLetter.steady (h : p.IsLetter) : p.Steady caseless := by
  rcases h with ⟨c, rfl⟩ | ⟨set, rfl⟩
  · exact steady_char c
  · exact steady_chars set

/-- A character or a class begins with no repetition and is no alternation. -/
theorem opens_of_isLetter (h : p.IsLetter) : p.Opens caseless false := by
  intro n hn
  have hletter := isLetter_normal h hn
  refine ⟨.of_isLetter hletter, Normal.branches_of_isLetter fun q hq => ?_⟩
  rw [Normal.items_of_isLetter hletter, List.mem_singleton] at hq
  exact hq ▸ hletter

/-- Letters in sequence have no other items. -/
theorem isLetter_of_mem_items {n : Normal} (h : ∀ p ∈ ps, p.IsLetter)
    (hn : (ofItems ps).normal? caseless = some n) : ∀ q ∈ n.items, q.isLetter = true := by
  have hitems : (Normal.interpretation caseless).itemsOf (ofItems ps) =
      ps.map (normal? caseless) := by
    rw [Interpretation.itemsOf_ofItems, List.map_eq_flatMap]
    refine List.flatMap_congr fun p hp => ?_
    rcases h p hp with ⟨c, rfl⟩ | ⟨set, rfl⟩ <;> rfl
  rw [normal?, Interpretation.apply_eq_joined, hitems] at hn
  have hsequence : ((ps.map (normal? caseless)).mapM id).map Normal.sequence = some n →
      ∀ q ∈ n.items, q.isLetter = true := by
    intro hn
    obtain ⟨ns, hns, rfl⟩ := Option.map_eq_some_iff.mp hn
    refine Normal.isLetter_of_mem_sequence fun m hm q hq => ?_
    obtain ⟨x, hx, hxm⟩ := Normal.exists_of_forall₂ (Normal.forall₂_of_mapM hns).flip hm
    obtain ⟨p, hp, rfl⟩ := List.mem_map.mp hx
    have hletter := isLetter_normal (h p hp) hxm
    rw [Normal.items_of_isLetter hletter, List.mem_singleton] at hq
    exact hq ▸ hletter
  match ps, hn, hsequence with
  | [], hn, hsequence => exact hsequence hn
  | [p], hn, _ =>
    intro q hq
    have hletter := isLetter_normal (h p List.mem_cons_self) hn
    rw [Normal.items_of_isLetter hletter, List.mem_singleton] at hq
    exact hq ▸ hletter
  | _ :: _ :: _, hn, hsequence => exact hsequence hn

variable {bs : List (List Pattern)}

/-- Branches in brackets come to the choice of what each comes to. -/
theorem apply_branches {α : Type} (i : Interpretation α) (hlen : 2 ≤ bs.length)
    (hitems : ∀ b ∈ bs, ∀ p ∈ b, p.isItem = true) :
    i.apply (group none (ofBranches (bs.map ofItems))) =
      i.choice (bs.map fun b => i.apply (ofItems b)) := by
  rw [Interpretation.apply_bracket, Interpretation.apply, i.parts_ofBranches (by simpa)
    (List.forall_mem_map.mpr fun b hb => branches_parts_of_isItem i (hitems b hb)), List.map_map]
  rfl

/-- The normal forms of branches, one for each. -/
def Forms (caseless : Bool) (bs : List (List Pattern)) (ns : List Normal) : Prop :=
  List.Forall₂ (fun b n => (ofItems b).normal? caseless = some n) bs ns

/-- Where all branches have normal forms, these are the forms of the branches. -/
theorem forms_of_mapM {ns : List Normal}
    (h : (bs.map fun b => (ofItems b).normal? caseless).mapM id = some ns) :
    Forms caseless bs ns := by
  have h := Normal.forall₂_of_mapM h
  rwa [List.forall₂_map_left_iff] at h

/-- The normal form of branches in brackets chooses between their normal forms. -/
theorem normal_branches (hlen : 2 ≤ bs.length) (hitems : ∀ b ∈ bs, ∀ p ∈ b, p.isItem = true)
    {n : Normal} (h : (group none (ofBranches (bs.map ofItems))).normal? caseless = some n) :
    ∃ ns, Forms caseless bs ns ∧ n = .choice ns := by
  rw [normal?, apply_branches _ hlen hitems] at h
  replace h : ((bs.map fun b => (ofItems b).normal? caseless).mapM id).map Normal.choice = some n := h
  obtain ⟨ns, hns, rfl⟩ := Option.map_eq_some_iff.mp h
  exact ⟨ns, forms_of_mapM hns, rfl⟩

/-- An alternation is steady if its branches are and what is taken out of it is rigid. -/
theorem steady_branches (hlen : 2 ≤ bs.length) (hitems : ∀ b ∈ bs, ∀ p ∈ b, p.isItem = true)
    (hbs : ∀ b ∈ bs, ∀ p ∈ b, p.Steady caseless)
    (h : ∀ ns, Forms caseless bs ns → ∀ q ∈ Normal.lifted ns, q.Rigid) :
    (group none (ofBranches (bs.map ofItems))).Steady caseless := by
  intro q hq
  rw [lifted, apply_branches _ hlen hitems] at hq
  rcases List.mem_append.mp hq with hq | hq
  · obtain ⟨x, hx, hq⟩ := List.mem_flatMap.mp hq
    obtain ⟨b, hb, rfl⟩ := List.mem_map.mp hx
    exact steady_ofItems (hbs b hb) q hq
  · rw [List.map_map] at hq
    have hforms : (bs.map (Prod.fst ∘ fun b => (Normal.liftings caseless).apply (ofItems b))) =
        bs.map fun b => (ofItems b).normal? caseless :=
      List.map_congr_left fun b _ => fst_liftings caseless (ofItems b)
    rw [hforms] at hq
    cases hns : (bs.map fun b => (ofItems b).normal? caseless).mapM id with
    | none =>
      rw [hns] at hq
      cases hq
    | some ns =>
      rw [hns] at hq
      exact h ns (forms_of_mapM hns) q hq

theorem Forms.exists_normal {ns : List Normal} (h : Forms caseless bs ns) {b : List Pattern}
    (hb : b ∈ bs) : ∃ n ∈ ns, (ofItems b).normal? caseless = some n := Normal.exists_of_forall₂ h hb

/-- One branch of nothing but characters is enough. -/
theorem steady_of_letters (hlen : 2 ≤ bs.length) (hitems : ∀ b ∈ bs, ∀ p ∈ b, p.isItem = true)
    (hbs : ∀ b ∈ bs, ∀ p ∈ b, p.Steady caseless) {b : List Pattern} (hb : b ∈ bs)
    (h : ∀ p ∈ b, p.IsLetter) : (group none (ofBranches (bs.map ofItems))).Steady caseless := by
  refine steady_branches hlen hitems hbs fun ns hns => ?_
  obtain ⟨n, hn, hb⟩ := hns.exists_normal hb
  have hletters := isLetter_of_mem_items h hb
  refine Normal.rigid_liftedWithin _ (List.mem_flatMap.mpr ⟨n, hn, ?_⟩) hletters
  rw [Normal.branches_of_isLetter hletters]
  exact List.mem_singleton_self n

/-- The normal form of a branch that is no alternation is among the branches of the whole. -/
theorem Opens.mem_branches {r : Bool} {b : List Pattern} (h : (ofItems b).Opens caseless r)
    (hb : b ∈ bs) {ns : List Normal} (hns : Forms caseless bs ns) :
    ∃ n ∈ ns.flatMap Normal.branches, n.Starts r := by
  obtain ⟨n, hn, hb⟩ := hns.exists_normal hb
  obtain ⟨hstarts, hbranches⟩ := h n hb
  exact ⟨n, List.mem_flatMap.mpr ⟨n, hn, hbranches ▸ List.mem_singleton_self n⟩, hstarts⟩

/-- So is one branch that begins with a repetition next to one that does not. -/
theorem steady_of_opens (hlen : 2 ≤ bs.length) (hitems : ∀ b ∈ bs, ∀ p ∈ b, p.isItem = true)
    (hbs : ∀ b ∈ bs, ∀ p ∈ b, p.Steady caseless) {b b' : List Pattern} (hb : b ∈ bs) (hb' : b' ∈ bs)
    (h : (ofItems b).Opens caseless true) (h' : (ofItems b').Opens caseless false) :
    (group none (ofBranches (bs.map ofItems))).Steady caseless := by
  refine steady_branches hlen hitems hbs fun ns hns => ?_
  obtain ⟨n, hn, hstarts⟩ := h.mem_branches hb hns
  obtain ⟨n', hn', hstarts'⟩ := h'.mem_branches hb' hns
  rw [Normal.lifted_eq_nil hn hn' hstarts hstarts']
  exact nofun

/-- An alternation of which one branch opens with no repetition does not begin with one. -/
theorem starts_branches (hlen : 2 ≤ bs.length) (hitems : ∀ b ∈ bs, ∀ p ∈ b, p.isItem = true)
    {b : List Pattern} (hb : b ∈ bs) (h : (ofItems b).Opens caseless false) :
    (group none (ofBranches (bs.map ofItems))).Starts caseless false := by
  intro n hn
  obtain ⟨ns, hns, rfl⟩ := normal_branches hlen hitems hn
  obtain ⟨n, hn, hstarts⟩ := h.mem_branches hb hns
  refine Normal.Starts.choice hn (fun hone => ?_) hstarts
  have hmany : ns.length ≤ (ns.flatMap Normal.branches).length := by
    rw [List.length_flatMap, ← List.length_map (f := fun n => n.branches.length)]
    refine List.length_le_sum_of_one_le _ (List.forall_mem_map.mpr fun n _ => ?_)
    exact List.length_pos_of_ne_nil n.branches_ne_nil
  have := List.Forall₂.length_eq hns
  omega

end Pattern

end MailPattern
