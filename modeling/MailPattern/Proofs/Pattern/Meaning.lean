import MailPattern.Proofs.Pattern.Forming

/-!
# Proofs — Pattern — Meaning

Where the matches of a pattern end when one way is tried after the other (`Pattern.ends`), and that
its normal form comes to the same (`Pattern.alike_normal`): always to the same ends, and to the
same preferred one if what was taken out of alternations is rigid.

An interpretation is given the items of a sequence and the branches of an alternation as lists,
while a pattern is a tree.  `Interpretation.relates` goes from the one to the other once for all:
what relates parts to ends, operation by operation, relates the whole pattern to its ends.
-/

namespace MailPattern

namespace Pattern

/-- Where the matches of a pattern end, the one that is tried first in front.  What looks around or
recalls is left aside; it has no end here. -/
def ends (s : List Reading) : Pattern → Ends
  | .empty => .stay
  | .char c => .one s (.single c)
  | .chars set => .one s set
  | .start => .atStart
  | .stop => .atStop s
  | .cat p q => (p.ends s).andThen (q.ends s)
  | .alt p q => .prefer true (p.ends s) (q.ends s)
  | .group _ p => p.ends s
  | .repeated c p => .counted s c (p.ends s)
  | .look .. | .recall _ => fun _ => []

/-- The classes in the pattern. -/
def sets : Pattern → List CharSet
  | .empty | .char _ | .start | .stop | .recall _ => []
  | .chars set => [set]
  | .cat p q | .alt p q => p.sets ++ q.sets
  | .group _ p | .repeated _ p | .look _ _ p => p.sets

/-- The repetitions in the pattern: each count and what it repeats. -/
def repetitions : Pattern → List (Count × Pattern)
  | .empty | .char _ | .chars _ | .start | .stop | .recall _ => []
  | .cat p q | .alt p q => p.repetitions ++ q.repetitions
  | .group _ p | .look _ _ p => p.repetitions
  | .repeated c p => (c, p) :: p.repetitions

/-- The pattern neither looks around nor recalls. -/
def isPlain : Pattern → Bool
  | .empty | .char _ | .chars _ | .start | .stop => true
  | .cat p q | .alt p q => p.isPlain && q.isPlain
  | .group _ p | .repeated _ p => p.isPlain
  | .look .. | .recall _ => false

/-- No range of a class ends before it starts. -/
def Valid (p : Pattern) : Prop := ∀ set ∈ p.sets, set.Valid

/-- No repetition without a bound has a body that can match the empty text. -/
def Productive (p : Pattern) : Prop :=
  ∀ r ∈ p.repetitions, r.1.most = none → ∀ s i, i ≤ s.length → i ∉ r.2.ends s i

/-- A match ends at or after its start, within the text. -/
theorem forward_ends (s : List Reading) (p : Pattern) : Ends.Forward s (p.ends s) := by
  induction p with
  | empty => exact Ends.forward_stay
  | char | chars => exact Ends.forward_one _
  | start => exact Ends.forward_atStart
  | stop => exact Ends.forward_atStop
  | cat p q ihp ihq => exact ihp.andThen ihq
  | alt p q ihp ihq => exact ihp.prefer ihq
  | group _ p ih => exact ih
  | repeated c p ih => exact ih.counted c
  | _ => exact fun _ _ _ h => by cases h

end Pattern

/-! ### From parts to the whole -/

/-- The parts relate to what is in the ends of the whole. -/
def Parts.Relates {α : Type} (R : α → Ends → Prop) : Parts α → Ends → Prop
  | .sequence items, a => ∃ as, List.Forall₂ R items as ∧ Ends.inSequence as = a
  | .choice _ branches, a => ∃ as, List.Forall₂ R branches as ∧ Ends.inChoice as = a

namespace Interpretation

variable {α : Type} {i : Interpretation α} {R : α → Ends → Prop}

/-- What is put together of related parts is related to the ends it should have. -/
structure Relates (i : Interpretation α) (s : List Reading) (R : α → Ends → Prop) : Prop where
  char (c : Char) : R (i.char c) (.one s (.single c))
  start : R i.start .atStart
  stop : R i.stop (.atStop s)
  sequence {xs : List α} {as : List Ends} (h : List.Forall₂ R xs as) :
    R (i.sequence xs) (.inSequence as)
  choice {xs : List α} {as : List Ends} (h : List.Forall₂ R xs as) : R (i.choice xs) (.inChoice as)
  group (n : Nat) {x : α} {a : Ends} (h : R x a) : R (i.group n x) a

/-- Two relations may be carried along at once. -/
theorem Relates.and {s : List Reading} {R' : α → Ends → Prop} (h : i.Relates s R)
    (h' : i.Relates s R') : i.Relates s fun x a => R x a ∧ R' x a where
  char c := ⟨h.char c, h'.char c⟩
  start := ⟨h.start, h'.start⟩
  stop := ⟨h.stop, h'.stop⟩
  sequence hx := ⟨h.sequence (hx.imp fun _ _ => And.left), h'.sequence (hx.imp fun _ _ => And.right)⟩
  choice hx := ⟨h.choice (hx.imp fun _ _ => And.left), h'.choice (hx.imp fun _ _ => And.right)⟩
  group n _ _ hx := ⟨h.group n hx.1, h'.group n hx.2⟩

/-- Items in a row relate to their ends in sequence. -/
theorem Relates.joined {s : List Reading} (h : i.Relates s R) {xs : List α} {as : List Ends}
    (hxs : List.Forall₂ R xs as) : R (i.joined xs) (.inSequence as) := by
  unfold Interpretation.joined
  split
  · cases hxs with
    | cons hx hnil =>
      cases hnil
      rwa [Ends.inSequence_singleton]
  · exact h.sequence hxs

/-- Related parts make a related whole. -/
theorem Relates.whole {s : List Reading} (h : i.Relates s R) {ps : Parts α} {a : Ends}
    (hps : ps.Relates R a) : R (i.whole ps) a := by
  cases ps with
  | sequence items =>
    obtain ⟨as, has, rfl⟩ := hps
    exact h.joined has
  | choice _ branches =>
    obtain ⟨as, has, rfl⟩ := hps
    exact h.choice has

/-- The items of related parts relate to ends that are theirs in sequence. -/
theorem Relates.items {s : List Reading} (h : i.Relates s R) {ps : Parts α} {a : Ends}
    (hps : ps.Relates R a) : ∃ as, List.Forall₂ R (i.items ps) as ∧ Ends.inSequence as = a := by
  cases ps with
  | sequence items => exact hps
  | choice b branches => exact ⟨[a], .cons (h.whole hps) .nil, Ends.inSequence_singleton a⟩

/-- The branches of related parts relate to ends that are theirs by choice. -/
theorem Relates.branches {s : List Reading} (h : i.Relates s R) {ps : Parts α} {a : Ends}
    (hps : ps.Relates R a) : ∃ as, List.Forall₂ R (i.branches ps) as ∧ Ends.inChoice as = a := by
  unfold Interpretation.branches
  split
  · exact hps
  · exact ⟨[a], .cons (h.whole hps) .nil, Ends.inChoice_singleton a⟩

/-- Brackets keep parts related. -/
theorem Relates.bracketed {s : List Reading} (h : i.Relates s R) {ps : Parts α} {a : Ends}
    (hps : ps.Relates R a) : (i.bracketed ps).Relates R a := by
  unfold Interpretation.bracketed
  split
  · exact ⟨[a], .cons (h.whole hps) .nil, Ends.inSequence_singleton a⟩
  · exact hps
  · exact hps

/-- Parts in a row relate to the ends of the one after those of the other. -/
theorem Relates.append {s : List Reading} (h : i.Relates s R) {ps qs : Parts α} {a b : Ends}
    (hps : ps.Relates R a) (hqs : qs.Relates R b) : (i.append ps qs).Relates R (a.andThen b) := by
  unfold Interpretation.append
  split
  · obtain ⟨as, has, rfl⟩ := hps
    cases has
    rwa [show Ends.inSequence [] = .stay from rfl, Ends.stay_andThen]
  · obtain ⟨bs, hbs, rfl⟩ := hqs
    cases hbs
    rwa [show Ends.inSequence [] = .stay from rfl, Ends.andThen_stay]
  · obtain ⟨as, has, rfl⟩ := h.items hps
    obtain ⟨bs, hbs, rfl⟩ := h.items hqs
    exact ⟨as ++ bs, List.rel_append has hbs, Ends.inSequence_append as bs⟩

/-- **What relates parts to ends relates the whole pattern to its ends.** -/
theorem Relates.apply {s : List Reading} (h : i.Relates s R) (p : Pattern)
    (hchars : ∀ set ∈ p.sets, R (i.chars set) (.one s set))
    (hrepeated : ∀ c q, (c, q) ∈ p.repetitions → ∀ x, R x (q.ends s) →
      R (i.repeated c x) (.counted s c (q.ends s)))
    (hhard : p.isPlain = true ∨
      (∀ b n xs, R (i.look b n xs) fun _ => []) ∧ ∀ n, R (i.recalled n) fun _ => []) :
    R (i.apply p) (p.ends s) := by
  have single : ∀ {x a}, R x a → (Parts.sequence [x]).Relates R a := fun hx =>
    ⟨[_], .cons hx .nil, Ends.inSequence_singleton _⟩
  refine h.whole ?_
  induction p with
  | empty => exact ⟨[], .nil, rfl⟩
  | char c => exact single (h.char c)
  | chars set => exact single (hchars set List.mem_cons_self)
  | start => exact single h.start
  | stop => exact single h.stop
  | cat p q ihp ihq =>
    refine h.append (ihp ?_ ?_ ?_) (ihq ?_ ?_ ?_)
    · exact fun set hset => hchars set (List.mem_append_left _ hset)
    · exact fun c r hr => hrepeated c r (List.mem_append_left _ hr)
    · exact hhard.imp_left fun hp => (Bool.and_eq_true_iff.mp hp).1
    · exact fun set hset => hchars set (List.mem_append_right _ hset)
    · exact fun c r hr => hrepeated c r (List.mem_append_right _ hr)
    · exact hhard.imp_left fun hp => (Bool.and_eq_true_iff.mp hp).2
  | alt p q ihp ihq =>
    obtain ⟨as, has, hp⟩ := h.branches (ihp
      (fun set hset => hchars set (List.mem_append_left _ hset))
      (fun c r hr => hrepeated c r (List.mem_append_left _ hr))
      (hhard.imp_left fun hp => (Bool.and_eq_true_iff.mp hp).1))
    obtain ⟨bs, hbs, hq⟩ := h.branches (ihq
      (fun set hset => hchars set (List.mem_append_right _ hset))
      (fun c r hr => hrepeated c r (List.mem_append_right _ hr))
      (hhard.imp_left fun hp => (Bool.and_eq_true_iff.mp hp).2))
    refine ⟨as ++ bs, List.rel_append has hbs, ?_⟩
    rw [Ends.inChoice_append, hp, hq]
    rfl
  | group index p ih =>
    have hp := ih hchars hrepeated hhard
    cases index with
    | none => exact h.bracketed hp
    | some n => exact single (h.group n (h.whole hp))
  | repeated c p ih =>
    have hp := ih hchars (fun c r hr => hrepeated c r (List.mem_cons_of_mem _ hr)) hhard
    exact single (hrepeated c p List.mem_cons_self _ (h.whole hp))
  | look b n p =>
    obtain hp | ⟨hlook, -⟩ := hhard
    · cases hp
    · exact single (hlook b n _)
  | «recall» n =>
    obtain hp | ⟨-, hrecalled⟩ := hhard
    · cases hp
    · exact single (hrecalled _)

end Interpretation

/-! ### From one interpretation to another -/

/-- What is a part of a pattern. -/
def Parts.map {α β : Type} (f : α → β) : Parts α → Parts β
  | .sequence items => .sequence (items.map f)
  | .choice b branches => .choice b (branches.map f)

namespace Interpretation

variable {α β : Type} {i : Interpretation α} {j : Interpretation β} {f : α → β}

/-- The function turns what the one comes to into what the other does. -/
structure Turns (f : α → β) (i : Interpretation α) (j : Interpretation β) : Prop where
  char (c : Char) : f (i.char c) = j.char c
  chars (set : CharSet) : f (i.chars set) = j.chars set
  start : f i.start = j.start
  stop : f i.stop = j.stop
  sequence (xs : List α) : f (i.sequence xs) = j.sequence (xs.map f)
  choice (xs : List α) : f (i.choice xs) = j.choice (xs.map f)
  group (n : Nat) (x : α) : f (i.group n x) = j.group n (f x)
  repeated (c : Count) (x : α) : f (i.repeated c x) = j.repeated c (f x)
  look (behind negative : Bool) (xs : List α) :
    f (i.look behind negative xs) = j.look behind negative (xs.map f)
  recalled (n : Nat) : f (i.recalled n) = j.recalled n

namespace Turns

variable (h : Turns f i j)
include h

theorem joined (xs : List α) : f (i.joined xs) = j.joined (xs.map f) := by
  match xs with
  | [] => exact h.sequence []
  | [_] => rfl
  | _ :: _ :: _ => exact h.sequence _

theorem whole (ps : Parts α) : f (i.whole ps) = j.whole (ps.map f) := by
  cases ps with
  | sequence xs => exact h.joined xs
  | choice b xs => exact h.choice xs

theorem items (ps : Parts α) : (i.items ps).map f = j.items (ps.map f) := by
  cases ps with
  | sequence xs => rfl
  | choice b xs => exact congrArg ([·]) (h.choice xs)

theorem branches (ps : Parts α) : (i.branches ps).map f = j.branches (ps.map f) := by
  match ps with
  | .sequence xs => exact congrArg ([·]) (h.joined xs)
  | .choice true xs => exact congrArg ([·]) (h.choice xs)
  | .choice false xs => rfl

theorem alternatives (ps : Parts α) : (i.alternatives ps).map f = j.alternatives (ps.map f) := by
  cases ps with
  | sequence xs => exact congrArg ([·]) (h.joined xs)
  | choice b xs => rfl

theorem bracketed (ps : Parts α) : (i.bracketed ps).map f = j.bracketed (ps.map f) := by
  match ps with
  | .sequence [] | .sequence [_] | .choice _ _ => rfl
  | .sequence (x :: y :: xs) => exact congrArg (Parts.sequence [·]) (h.sequence (x :: y :: xs))

theorem append (ps qs : Parts α) : (i.append ps qs).map f = j.append (ps.map f) (qs.map f) := by
  have both : ∀ ps qs : Parts α, (Parts.sequence (i.items ps ++ i.items qs)).map f =
      .sequence (j.items (ps.map f) ++ j.items (qs.map f)) := fun ps qs => by
    rw [Parts.map, List.map_append, h.items, h.items]
  match ps, qs with
  | .sequence [], _ => rfl
  | .sequence (_ :: _), .sequence [] | .choice _ _, .sequence [] => rfl
  | .sequence (_ :: _), .sequence (_ :: _) | .sequence (_ :: _), .choice _ _ => exact both _ _
  | .choice _ _, .sequence (_ :: _) | .choice _ _, .choice _ _ => exact both _ _

/-- The function turns the outermost parts into those that the other interpretation comes to. -/
theorem parts (p : Pattern) : (i.parts p).map f = j.parts p := by
  induction p with
  | empty => rfl
  | char c => exact congrArg (Parts.sequence [·]) (h.char c)
  | chars set => exact congrArg (Parts.sequence [·]) (h.chars set)
  | start => exact congrArg (Parts.sequence [·]) h.start
  | stop => exact congrArg (Parts.sequence [·]) h.stop
  | cat p q ihp ihq =>
    rw [Interpretation.parts, Interpretation.parts, h.append, ihp, ihq]
  | alt p q ihp ihq =>
    rw [Interpretation.parts, Interpretation.parts, Parts.map, List.map_append, h.branches,
      h.branches, ihp, ihq]
  | group index p ih =>
    cases index with
    | none => rw [Interpretation.parts, Interpretation.parts, h.bracketed, ih]
    | some n =>
      rw [Interpretation.parts, Interpretation.parts, ← ih, ← h.whole, ← h.group]
      rfl
  | repeated c p ih =>
    rw [Interpretation.parts, Interpretation.parts, ← ih, ← h.whole, ← h.repeated]
    rfl
  | look b n p ih =>
    rw [Interpretation.parts, Interpretation.parts, ← ih, ← h.alternatives, ← h.look]
    rfl
  | «recall» n => exact congrArg (Parts.sequence [·]) (h.recalled n)

/-- What the whole pattern comes to is turned into what it comes to. -/
theorem apply (p : Pattern) : f (i.apply p) = j.apply p := by
  rw [Interpretation.apply, h.whole, h.parts]
  rfl

end Turns

end Interpretation

/-! ### Normal forms -/

/-- Sequences come to the same if their items do, one by one. -/
theorem Ends.Alike.inSequence {ordered : Prop} {s : List Reading} {as bs : List Ends}
    (h : List.Forall₂ (Alike ordered s) as bs) (hf : ∀ a ∈ as, a.Forward s) :
    Alike ordered s (inSequence as) (inSequence bs) := by
  induction h with
  | nil => exact .refl _
  | cons hab _ ih =>
    exact hab.andThen (hf _ List.mem_cons_self) (ih fun a ha => hf a (List.mem_cons_of_mem _ ha))

/-- So do choices. -/
theorem Ends.Alike.inChoice {ordered : Prop} {s : List Reading} {as bs : List Ends}
    (h : List.Forall₂ (Alike ordered s) as bs) : Alike ordered s (inChoice as) (inChoice bs) := by
  induction h with
  | nil => exact .refl _
  | cons hab _ ih => exact fun i hi => (hab i hi).append (ih i hi)

namespace Normal

/-- The normal form with what was taken out of alternations on the way. -/
def liftings (caseless : Bool) : Interpretation (Option Normal × List Normal) where
  char c := ((interpretation caseless).char c, [])
  chars set := ((interpretation caseless).chars set, [])
  start := ((interpretation caseless).start, [])
  stop := ((interpretation caseless).stop, [])
  sequence xs := ((interpretation caseless).sequence (xs.map Prod.fst), xs.flatMap Prod.snd)
  choice xs :=
    ((interpretation caseless).choice (xs.map Prod.fst),
      xs.flatMap Prod.snd ++ (((xs.map Prod.fst).mapM id).map lifted).getD [])
  group n x := ((interpretation caseless).group n x.1, x.2)
  repeated c x := ((interpretation caseless).repeated c x.1, x.2)
  look b n xs := ((interpretation caseless).look b n (xs.map Prod.fst), xs.flatMap Prod.snd)
  recalled n := ((interpretation caseless).recalled n, [])

/-- Without what was taken out, the normal form with liftings is the normal form. -/
theorem turns_liftings (caseless : Bool) :
    (liftings caseless).Turns Prod.fst (interpretation caseless) where
  char _ := rfl
  chars _ := rfl
  start := rfl
  stop := rfl
  sequence _ := rfl
  choice _ := rfl
  group _ _ := rfl
  repeated _ _ := rfl
  look _ _ _ := rfl
  recalled _ := rfl

/-- A normal form of the ends `a`, when it is one: in order unless something that is not rigid was
taken out. -/
def Means (s : List Reading) (x : Option Normal × List Normal) (a : Ends) : Prop :=
  ∀ n, x.1 = some n → n.Resolved ∧
    ∀ ordered : Prop, (ordered → ∀ q ∈ x.2, q.Rigid) → Ends.Alike ordered s (n.ends s) a

/-- Parts with normal forms end as these do, in order unless something that is not rigid was taken out.
-/
theorem means_of_mapM {s : List Reading} {xs : List (Option Normal × List Normal)}
    {as : List Ends} (h : List.Forall₂ (Means s) xs as) {ns : List Normal}
    (hns : (xs.map Prod.fst).mapM id = some ns) :
    (∀ n ∈ ns, n.Resolved) ∧ ∀ ordered : Prop, (ordered → ∀ q ∈ xs.flatMap Prod.snd, q.Rigid) →
      List.Forall₂ (Ends.Alike ordered s) (ns.map (ends s)) as := by
  replace hns := forall₂_of_mapM hns
  induction h generalizing ns with
  | nil =>
    cases hns
    exact ⟨by simp, fun _ _ => .nil⟩
  | cons hx _ ih =>
    obtain _ | ⟨hn, hns⟩ := hns
    obtain ⟨hres, halike⟩ := hx _ hn
    obtain ⟨ihres, ihalike⟩ := ih hns
    refine ⟨List.forall_mem_cons.mpr ⟨hres, ihres⟩, fun ordered hl => .cons ?_ ?_⟩
    · exact halike ordered fun o q hq => hl o q (List.mem_append_left _ hq)
    · exact ihalike ordered fun o q hq => hl o q (List.mem_append_right _ hq)

/-- What holds of each normal form holds of all in a list of them. -/
theorem all_of_mapM {P : Normal → Prop} {xs : List (Option Normal × List Normal)} {as : List Ends}
    (h : List.Forall₂ (fun x _ => ∀ n, x.1 = some n → P n) xs as) {ns : List Normal}
    (hns : (xs.map Prod.fst).mapM id = some ns) : ∀ n ∈ ns, P n := by
  replace hns := forall₂_of_mapM hns
  induction h generalizing ns with
  | nil =>
    cases hns
    simp
  | cons hx _ ih =>
    obtain _ | ⟨hn, hns⟩ := hns
    exact List.forall_mem_cons.mpr ⟨hx _ hn, ih hns⟩

/-- A normal form means what its pattern does, whatever it is put together of. -/
theorem relates_liftings (caseless : Bool) (text : List Char) :
    (liftings caseless).Relates (readings caseless text) (Means (readings caseless text)) where
  char c n hn := by
    cases hn
    unfold ofChar
    cases caseless with
    | false => exact ⟨trivial, fun _ _ => .of_eq (Ends.inSequence_singleton _)⟩
    | true =>
      rw [if_pos rfl]
      refine ⟨hereditary_resolved.ofSet rfl rfl, fun _ _ => .of_eq ((ends_ofSet rfl).trans ?_)⟩
      exact Ends.one_congr fun d => CharSet.admits_union_variants c d
  start n hn := by
    cases hn
    exact ⟨trivial, fun _ _ => .refl _⟩
  stop n hn := by
    cases hn
    exact ⟨trivial, fun _ _ => .refl _⟩
  sequence h n hn := by
    obtain ⟨ns, hns, rfl⟩ := Option.map_eq_some_iff.mp hn
    obtain ⟨hres, halike⟩ := means_of_mapM h hns
    refine ⟨hereditary_resolved.sequence hres, fun ordered hl => ?_⟩
    rw [ends_sequence]
    refine .inSequence (halike ordered hl) fun a ha => ?_
    obtain ⟨q, -, rfl⟩ := List.mem_map.mp ha
    exact q.forward_ends _
  choice h n hn := by
    obtain ⟨ns, hns, rfl⟩ := Option.map_eq_some_iff.mp hn
    obtain ⟨hres, halike⟩ := means_of_mapM h hns
    refine ⟨hereditary_resolved.choice hres, fun ordered hl => ?_⟩
    refine (alike_choice hres fun o q hq => ?_).trans (.inChoice (halike ordered fun o q hq => ?_))
    · refine hl o q (List.mem_append_right _ ?_)
      rwa [hns]
    · exact hl o q (List.mem_append_left _ hq)
  group k x a h n hn := by
    obtain ⟨m, hm, rfl⟩ := Option.map_eq_some_iff.mp hn
    exact h m hm

/-- What is put together of productive normal forms is productive. -/
theorem relates_productive (caseless : Bool) (s : List Reading) :
    (liftings caseless).Relates s fun x _ => ∀ n, x.1 = some n → n.Productive where
  char c n hn := by
    cases hn
    unfold ofChar
    split
    · exact hereditary_productive.ofSet rfl trivial
    · trivial
  start n hn := by
    cases hn
    trivial
  stop n hn := by
    cases hn
    trivial
  sequence h n hn := by
    obtain ⟨ns, hns, rfl⟩ := Option.map_eq_some_iff.mp hn
    exact hereditary_productive.sequence (all_of_mapM h hns)
  choice h n hn := by
    obtain ⟨ns, hns, rfl⟩ := Option.map_eq_some_iff.mp hn
    exact hereditary_productive.choice (all_of_mapM h hns)
  group k x a h n hn := by
    obtain ⟨m, hm, rfl⟩ := Option.map_eq_some_iff.mp hn
    exact h m hm

end Normal

namespace Pattern

variable {caseless : Bool} {p : Pattern} {n : Normal}

/-- What is taken out of the alternations in a pattern. -/
def lifted (caseless : Bool) (p : Pattern) : List Normal := ((Normal.liftings caseless).apply p).2

/-- What was taken out of alternations has one end at most from each position. -/
def Steady (caseless : Bool) (p : Pattern) : Prop := ∀ q ∈ p.lifted caseless, q.Rigid

/-- Without a normal form there is nothing to mean. -/
theorem means_none {s : List Reading} {x : Option Normal × List Normal} {a : Ends}
    (hx : x.1 = none) : Normal.Means s x a := fun _ hn => by
  rw [hx] at hn
  cases hn

/-- A class and its resolved set end alike. -/
theorem means_chars {set : CharSet} (hset : set.Valid) (text : List Char) :
    Normal.Means (readings caseless text) ((Normal.liftings caseless).chars set)
      (.one (readings caseless text) set) := by
  intro n hn
  cases hn
  refine ⟨Normal.hereditary_resolved.ofSet rfl rfl, fun _ _ => .of_eq ?_⟩
  rw [Normal.ends_ofSet rfl]
  exact Ends.one_congr fun d => CharSet.admits_resolve hset caseless d

/-- A repetition has a normal form if its count can be met and its body has one. -/
theorem eq_times {x : Option Normal × List Normal} {c : Count}
    (hn : ((Normal.liftings caseless).repeated c x).1 = some n) :
    c.fits = true ∧ ∃ m, x.1 = some m ∧ n = .times c m := by
  replace hn : (if c.fits then x.1.map (Normal.times c) else none) = some n := hn
  split at hn
  · obtain ⟨m, hm, rfl⟩ := Option.map_eq_some_iff.mp hn
    exact ⟨‹_›, m, hm, rfl⟩
  · cases hn

theorem means_repeated {s : List Reading} {x : Option Normal × List Normal} {a : Ends} (c : Count)
    (hx : Normal.Means s x a) :
    Normal.Means s ((Normal.liftings caseless).repeated c x) (.counted s c a) := by
  intro n hn
  obtain ⟨hc, m, hm, rfl⟩ := eq_times hn
  obtain ⟨hres, halike⟩ := hx m hm
  refine ⟨Normal.resolved_times hres c, fun ordered hl => ?_⟩
  exact (Normal.alike_times hc m).trans ((halike ordered hl).counted (m.forward_ends _) c)

/-- The normal form of a pattern means what the pattern does. -/
theorem means_normal (hv : p.Valid) (text : List Char) :
    Normal.Means (readings caseless text) ((Normal.liftings caseless).apply p)
      (p.ends (readings caseless text)) := by
  refine (Normal.relates_liftings caseless text).apply p (fun set hset => ?_) (fun c q _ x hx => ?_)
    (.inr ⟨fun _ _ _ => means_none rfl, fun _ => means_none rfl⟩)
  · exact means_chars (hv set hset) text
  · exact means_repeated c hx

theorem fst_liftings (caseless : Bool) (p : Pattern) :
    ((Normal.liftings caseless).apply p).1 = p.normal? caseless :=
  (Normal.turns_liftings caseless).apply p

/-- **The normal form comes to the ends of the pattern, and if what was taken out of alternations is
rigid it prefers the same.** -/
theorem alike_normal {ordered : Prop} (hv : p.Valid) (hn : p.normal? caseless = some n)
    (hl : ordered → p.Steady caseless) (text : List Char) :
    Ends.Alike ordered (readings caseless text) (n.ends (readings caseless text))
      (p.ends (readings caseless text)) :=
  (means_normal hv text n ((fst_liftings caseless p).trans hn)).2 ordered hl

/-- The normal form of a productive pattern is productive. -/
theorem productive_normal (hv : p.Valid) (hn : p.normal? caseless = some n) (hp : p.Productive) :
    n.Productive := by
  have hempty : readings caseless [] = [] := by cases caseless <;> rfl
  have hrelates := (hempty ▸ Normal.relates_liftings caseless []).and
    (Normal.relates_productive caseless [])
  have := hrelates.apply p (fun set hset => ⟨?_, ?_⟩) (fun c q hq x hx => ⟨?_, ?_⟩)
    (.inr ⟨fun _ _ _ => ⟨means_none rfl, fun _ hn => absurd hn (by exact nofun)⟩,
      fun _ => ⟨means_none rfl, fun _ hn => absurd hn (by exact nofun)⟩⟩)
  · exact this.2 n ((fst_liftings caseless p).trans hn)
  · exact hempty ▸ means_chars (hv set hset) []
  · intro n hn
    cases hn
    exact Normal.hereditary_productive.ofSet rfl trivial
  · exact means_repeated c hx.1
  · intro n hn
    obtain ⟨-, m, hm, rfl⟩ := eq_times hn
    refine Normal.productive_times (hx.2 m hm) fun hc h => ?_
    have halike := (hx.1 m hm).2 False False.elim
    exact hp (c, q) hq hc [] 0 le_rfl (((halike 0 le_rfl).mem 0).mp h)

end Pattern

end MailPattern
