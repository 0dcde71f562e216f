import MailPattern.Proofs.Address.Compiled
import MailPattern.Proofs.Pattern.Continued
import MailPattern.Proofs.Pattern.Weight

/-!
# Proofs — Pattern — Anchored

What is read of a pattern between anchors (`Pattern.read_anchored`).  Tokens are read alike after a
bracket and an anchor (`Pattern.steps_inside`), so a pattern that is no alternation gives its items,
between the items of the anchors.  That nests one bracket more, two levels deeper at most
(`Pattern.depth_anchoredTree_le`), and the normal form weighs 64 more at most
(`Pattern.normal_anchoredTree`).
-/

namespace MailPattern

/-! ### Between anchors -/

namespace Pattern

variable {d : Dialect} {b b' : Builder}

/-- Tokens are read one after the other, so a text can be read in two parts. -/
theorem steps_append (b : Builder) (ts more : List Token) :
    b.steps? d (ts ++ more) = (b.steps? d ts).bind (·.steps? d more) := by
  induction ts generalizing b with
  | nil => rfl
  | cons t ts ih =>
    rw [List.cons_append, Builder.steps?, Builder.steps?]
    split
    · rfl
    · exact ih _

/-- The outermost level has one branch so far. -/
def Unbranched : Level → List (Opening × Nat × Level) → Prop
  | level, [] => level.branches = []
  | _, o :: outer => Unbranched o.2.2 outer

/-- The levels as they are when the outermost one begins with an anchor and stands in a bracket. -/
def nested : Level → List (Opening × Nat × Level) → Level × List (Opening × Nat × Level)
  | level, [] => ({ level with items := level.items ++ [.start] }, [(.plain, 0, {})])
  | level, o :: outer =>
    (level, (o.1, o.2.1, (nested o.2.2 outer).1) :: (nested o.2.2 outer).2)

theorem length_nested (level : Level) (outer : List (Opening × Nat × Level)) :
    (nested level outer).2.length = outer.length + 1 := by
  induction outer generalizing level with
  | nil => rfl
  | cons o outer ih => exact congrArg (· + 1) (ih o.2.2)

/-- An item is added to the same level, whatever that one stands in. -/
theorem nested_push (p : Pattern) (level : Level) (outer : List (Opening × Nat × Level)) :
    nested (level.push p) outer = ((nested level outer).1.push p, (nested level outer).2) := by
  cases outer <;> rfl

/-- An item begins no branch. -/
theorem unbranched_push {p : Pattern} {level : Level} {outer : List (Opening × Nat × Level)} :
    Unbranched (level.push p) outer ↔ Unbranched level outer := by
  cases outer <;> rfl

/-- The state when the same tokens are read after a bracket and an anchor. -/
def Builder.inside (b : Builder) : Builder where
  level := (nested b.level b.outer).1
  outer := (nested b.level b.outer).2
  captures := b.captures

/-- A token is read alike after a bracket and an anchor, unless it opens a bracket too many. -/
theorem step_inside {t : Token} (hb : b.step? d t = some b') (h : Unbranched b'.level b'.outer) :
    Unbranched b.level b.outer ∧ (b.inside.step? d t = some b'.inside ∨
      b.inside.step? d t = none ∧ d.maxOpen ≤ b'.outer.length) := by
  obtain ⟨level, outer, captures⟩ := b
  have hpush {p : Pattern} : (Builder.mk level outer captures).inside.push p =
      ((Builder.mk level outer captures).push p).inside := by
    simp only [Builder.inside, Builder.push, nested_push]
  cases t with
  | char | chars | start | stop =>
    cases hb
    exact ⟨unbranched_push.mp h, .inl (congrArg some hpush)⟩
  | bar =>
    cases hb
    cases outer with
    | nil => cases h
    | cons o outer => exact ⟨h, .inl rfl⟩
  | opening kind =>
    obtain ⟨hopen, hlook⟩ := step_opening hb
    obtain ⟨-, rfl⟩ := open_eq_some.mp hopen
    have hinside : (Builder.mk level outer captures).inside.step? d (.opening kind) =
        (Builder.mk level outer captures).inside.open? d kind := by
      cases kind with
      | plain | capture => rfl
      | look =>
        obtain rfl := hlook ⟨_, _, rfl⟩
        rfl
    have hlength : (Builder.mk level outer captures).inside.outer.length = outer.length + 1 :=
      length_nested level outer
    rw [hinside, Builder.open?, hlength]
    refine ⟨h, ?_⟩
    split
    · exact .inl rfl
    · rename_i hmax
      exact .inr ⟨rfl, Nat.le_of_not_lt hmax⟩
  | closing =>
    obtain ⟨kind, index, level', outer', houter, rfl⟩ := step_closing.mp hb
    obtain rfl : outer = _ := houter
    refine ⟨(unbranched_push : Unbranched (level'.push _) _ ↔ _).mp h, .inl ?_⟩
    simp only [Builder.inside, nested_push]
    rfl
  | count c spaced =>
    obtain ⟨p, items, hitems, hp, rfl⟩ := step_count.mp hb
    obtain ⟨branches, _⟩ := level
    obtain rfl : _ = p :: items := hitems
    cases outer with
    | nil => exact ⟨h, .inl (step_count.mpr ⟨p, items ++ [.start], rfl, hp, rfl⟩)⟩
    | cons o outer => exact ⟨h, .inl (step_count.mpr ⟨p, items, rfl, hp, rfl⟩)⟩
  | «recall» n =>
    obtain ⟨rfl, rfl⟩ := step_recall hb
    rw [Builder.step?, Option.ite_none_right_eq_some] at hb
    refine ⟨unbranched_push.mp h, .inl ?_⟩
    rw [← hpush]
    exact if_pos hb.1

/-- So are all tokens, unless the brackets come to be too many. -/
theorem steps_inside {ts : List Token} (hb : b.steps? d ts = some b')
    (h : Unbranched b'.level b'.outer) : Unbranched b.level b.outer ∧
      (b.inside.steps? d ts = some b'.inside ∨ b.inside.steps? d ts = none ∧
        ∀ n, b'.Holds (fun k p => p.brackets + k ≤ n) (fun k p => p.brackets + k ≤ n) → d.maxOpen ≤ n) := by
  induction ts generalizing b with
  | nil =>
    cases hb
    exact ⟨h, .inl rfl⟩
  | cons t ts ih =>
    rw [Builder.steps?] at hb
    split at hb
    · cases hb
    · rename_i b₁ hstep
      obtain ⟨hunbranched, hsteps⟩ := ih hb
      obtain ⟨hb₀, hinside⟩ := step_inside hstep hunbranched
      refine ⟨hb₀, ?_⟩
      rw [Builder.steps?]
      rcases hinside with hinside | ⟨hinside, hmax⟩
      · rw [hinside]
        exact hsteps
      · rw [hinside]
        refine .inr ⟨rfl, fun n hn => ?_⟩
        have hempty : 0 + b₁.outer.length ≤ n := ((passed_brackets n).beforeAll hb hn).1.empty
        omega

/-! ### Items -/

/-- The items of a sequence.  What is no sequence is one item, and nothing is none. -/
def items : Pattern → List Pattern
  | .empty => []
  | .cat p q => p :: q.items
  | p => [p]

/-- A sequence has the items that it is put together from. -/
theorem items_ofItems {ps : List Pattern} (h : ∀ p ∈ ps, p.isItem = true ∧ p ≠ .empty) :
    (ofItems ps).items = ps := by
  induction ps with
  | nil => rfl
  | cons p ps ih =>
    obtain ⟨⟨hitem, hempty⟩, hps⟩ := List.forall_mem_cons.mp h
    cases ps with
    | nil =>
      cases p with
      | cat => cases hitem
      | empty => exact absurd rfl hempty
      | _ => rfl
    | cons q qs => exact congrArg (p :: ·) (ih hps)

/-- An anchor behind a sequence opens no bracket. -/
theorem brackets_ofItems_append (ps : List Pattern) :
    (ofItems (ps ++ [.stop])).brackets = (ofItems ps).brackets := by
  induction ps with
  | nil => rfl
  | cons p ps ih =>
    cases ps with
    | nil => exact Nat.max_zero _
    | cons q qs => exact congrArg (max p.brackets ·) ih

/-- Between anchors a pattern stands in one bracket more. -/
theorem brackets_anchoredTree (items : List Pattern) :
    (Fragment.anchoredTree items).brackets = (ofItems items).brackets + 1 := by
  have hcons : (ofItems (.start :: (items ++ [.stop]))).brackets =
      max 0 (ofItems (items ++ [.stop])).brackets := by
    cases items <;> rfl
  show (ofItems (.start :: (items ++ [.stop]))).brackets + 1 = _
  rw [hcons, brackets_ofItems_append, Nat.zero_max]

/-- What stands at a level is neither empty nor a sequence or an alternation without brackets. -/
theorem inherited_items (d : Dialect) :
    Inherited d (fun _ p => p.isItem = true ∧ p ≠ .empty) (fun _ _ => True) fun _ _ => True where
  char _ _ := ⟨rfl, Pattern.noConfusion⟩
  start _ := ⟨rfl, Pattern.noConfusion⟩
  stop _ := ⟨rfl, Pattern.noConfusion⟩
  branch _ := trivial
  whole _ := trivial
  group _ _ _ _ _ := ⟨rfl, Pattern.noConfusion⟩
  repeated _ _ _ _ _ := ⟨rfl, Pattern.noConfusion⟩
  look _ _ _ _ _ _ _ := ⟨rfl, Pattern.noConfusion⟩
  recalled _ _ _ := ⟨rfl, Pattern.noConfusion⟩

theorem isAlt_ofBranches {ps : List Pattern} (h : 2 ≤ ps.length) : (ofBranches ps).isAlt = true := by
  match ps, h with
  | _ :: _ :: _, _ => rfl

/-- The state in which a pattern has been read that is no alternation. -/
theorem exists_items_of_read {s : String} {p : Pattern} (h : read? d s = some p)
    (hp : p.isAlt = false) : ∃ ts items captures, Token.all? d s.toList = some ts ∧
      ({} : Builder).steps? d ts = some ⟨⟨[], items⟩, [], captures⟩ ∧
      p = ofItems items.reverse ∧ p.items = items.reverse := by
  obtain ⟨ts, ⟨⟨branches, items⟩, outer, captures⟩, hts, hb, hfinish⟩ := read_eq_some h
  obtain ⟨houter, rfl⟩ := finish_eq_some hfinish
  obtain rfl : outer = [] := houter
  obtain rfl : branches = [] := by
    cases branches with
    | nil => rfl
    | cons b bs =>
      refine absurd (isAlt_ofBranches ?_) (Bool.eq_false_iff.mp hp)
      rw [List.length_reverse, List.length_cons, List.length_cons]
      omega
  have hstart : ({} : Builder).Holds (fun _ p => p.isItem = true ∧ p ≠ .empty) fun _ _ => True :=
    ⟨⟨trivial, nofun, nofun⟩, trivial⟩
  have hitems := (hstart.steps (inherited_items d) (fun _ _ _ => ⟨rfl, Pattern.noConfusion⟩)
    ⟨Nat.zero_le _, nofun⟩ hb).1.items
  refine ⟨ts, items, captures, hts, hb, rfl, items_ofItems fun p hp => ?_⟩
  exact hitems p (List.mem_reverse.mp hp)

/-- What is read and no alternation is the sequence of its items. -/
theorem ofItems_items {s : String} {p : Pattern} (h : read? d s = some p) (hp : p.isAlt = false) :
    ofItems p.items = p := by
  obtain ⟨_, items, _, -, -, hofItems, hitems⟩ := exists_items_of_read h hp
  rw [hitems, ← hofItems]

/-- No text that can be read begins with a count. -/
theorem head_of_read {s : String} (h : (read? .regular s).isSome = true) :
    s.toList.head? ≠ some '\x7b' := by
  obtain ⟨p, hp⟩ := Option.isSome_iff_exists.mp h
  obtain ⟨ts, b, hts, hb, -⟩ := read_eq_some hp
  intro hhead
  obtain ⟨rest, hs⟩ := List.head?_eq_some_iff.mp hhead
  rw [hs, Token.all?, List.length_cons, Token.upTo?] at hts
  · split at hts
    · cases hts
    · rename_i t rest' hnext
      obtain ⟨ts, -, rfl⟩ := Option.map_eq_some_iff.mp hts
      obtain ⟨c, spaced, rfl⟩ : ∃ c spaced, t = .count c spaced := by
        obtain ⟨bounds, more, -, heq⟩ :=
          Token.brace_regular (show Token.brace? .regular false rest = some (t, rest') from hnext)
        obtain ⟨c, hc⟩ := Token.ofBounds_fst bounds (Token.spacedBraces rest) more
        exact ⟨c, _, (congrArg Prod.fst heq).trans hc⟩
      cases hb
  · rintro ⟨⟩

/-- **Between anchors a pattern that is no alternation is read as its items between anchors**, if the
dialect lets one bracket more stand around them. -/
theorem read_anchored {s : String} {p : Pattern} (hread : read? d s = some p)
    (hregular : (read? .regular s).isSome = true) (hp : p.isAlt = false) :
    read? d (anchored s) =
      if (Fragment.anchoredTree p.items).brackets ≤ d.maxOpen ∧
          (d = .regular → (Fragment.anchoredTree p.items).depth ≤ maxDepth) then
        some (Fragment.anchoredTree p.items)
      else none := by
  obtain ⟨ts, items, captures, hts, hb, rfl, hitems⟩ := exists_items_of_read hread hp
  rw [hitems]
  have htokens := Token.all_anchored (head_of_read hregular) hts
  have hbegin (more : List Token) : ({} : Builder).steps? d (.opening .plain :: .start :: more) =
      ({} : Builder).inside.steps? d more := by
    cases d <;> rfl
  have hpattern : (Level.mk [] (.stop :: (items ++ [.start]))).pattern =
      ofItems (.start :: (items.reverse ++ [.stop])) := by
    show ofItems (Pattern.stop :: (items ++ [.start])).reverse = _
    rw [List.reverse_cons, List.reverse_append]
    rfl
  have hread' : read? d (anchored s) = ((({} : Builder).inside.steps? d ts).bind
      (·.steps? d [.stop, .closing])).bind (Builder.finish? d) := by
    rw [read?, htokens]
    show (({} : Builder).steps? d _).bind _ = _
    rw [hbegin, steps_append]
  rcases (steps_inside hb rfl).2 with hinside | ⟨hinside, hmax⟩
  · have hfinish : read? d (anchored s) =
        if d = .regular → (Fragment.anchoredTree items.reverse).depth ≤ maxDepth then
          some (Fragment.anchoredTree items.reverse) else none := by
      rw [hread', hinside]
      show Builder.finish? d ⟨⟨[], [.group none (Level.mk [] (.stop :: (items ++ [.start]))).pattern]⟩,
        [], captures⟩ = _
      rw [hpattern]
      exact if_congr (and_iff_right rfl) rfl rfl
    by_cases hdepth : d = .regular → (Fragment.anchoredTree items.reverse).depth ≤ maxDepth
    · rw [if_pos hdepth] at hfinish
      rw [hfinish, if_pos ⟨brackets_of_read hfinish, hdepth⟩]
    · rw [hfinish, if_neg hdepth, if_neg fun h => hdepth h.2]
  · rw [hread', hinside, if_neg]
    · rfl
    · rintro ⟨hbrackets, -⟩
      rw [brackets_anchoredTree] at hbrackets
      have hholds := hmax (ofItems items.reverse).brackets
        ⟨(passed_brackets _).level (k := 0) (Nat.le_refl _), trivial⟩
      omega

/-! ### How deep and how heavy -/

/-- What a sequence passes on holds of its items. -/
theorem forall_items {P : Pattern → Prop} (hP : ∀ p q, P (.cat p q) → P p ∧ P q) {p : Pattern}
    (h : P p) : ∀ q ∈ p.items, P q := by
  induction p with
  | empty => nofun
  | cat p q _ ih => exact List.forall_mem_cons.mpr ⟨(hP p q h).1, ih (hP p q h).2⟩
  | _ => exact List.forall_mem_singleton.mpr h

/-- Between anchors a pattern is two levels deeper at most. -/
theorem depth_anchoredTree_le (p : Pattern) :
    (Fragment.anchoredTree p.items).depth ≤ p.depth + 2 := by
  have hitems := forall_items (P := fun q => q.depth ≤ p.depth) (p := p) (fun q r h => ?_) le_rfl
  · refine depth_all_le (List.forall_mem_cons.mpr ⟨Nat.zero_le _, ?_⟩)
    exact List.forall_mem_append.mpr ⟨hitems, List.forall_mem_singleton.mpr (Nat.zero_le _)⟩
  · replace h : max (q.depth + 1) (if r.isCat then r.depth else r.depth + 1) ≤ p.depth := h
    split at h <;> omega

end Pattern

namespace Normal

/-- Two literals weigh as much as one of both. -/
theorem weight_literal_append (s t : List Char) :
    (literal (s ++ t)).weight = (literal s).weight + (literal t).weight := by
  have hshift (n : Nat) (s : List Char) : s.foldl (fun n c => n + 32 * c.utf8Size) n =
      n + s.foldl (fun n c => n + 32 * c.utf8Size) 0 := by
    induction s generalizing n with
    | nil => rfl
    | cons c s ih =>
      rw [List.foldl_cons, List.foldl_cons, ih, ih (0 + _)]
      omega
  show (s ++ t).foldl _ 0 = _
  rw [List.foldl_append, hshift]
  rfl

/-- Putting literals together changes no weight. -/
theorem sum_foldr_prepend (ps : List Normal) :
    ((ps.foldr prepend []).map weight).sum = (ps.map weight).sum := by
  have hprepend (p : Normal) (ps : List Normal) :
      ((prepend p ps).map weight).sum = p.weight + (ps.map weight).sum := by
    unfold prepend
    split
    · rw [List.map_cons, List.sum_cons, weight_literal_append, List.map_cons, List.sum_cons,
        Nat.add_assoc]
    · rfl
  induction ps with
  | nil => rfl
  | cons p ps ih => rw [List.foldr_cons, hprepend, ih, List.map_cons, List.sum_cons]

/-- The items of what is put in a row weigh no more than the whole. -/
theorem exists_of_joined {caseless : Bool} {xs : List (Option Normal)} {n : Normal}
    (h : (interpretation caseless).joined xs = some n) :
    ∃ ns, xs.mapM id = some ns ∧ ((ns.flatMap items).map weight).sum ≤ n.weight := by
  unfold Interpretation.joined at h
  split at h
  · subst h
    refine ⟨[n], rfl, ?_⟩
    rw [List.flatMap_singleton]
    exact sum_items_le (fun _ _ => rfl) n
  · obtain ⟨ns, hns, rfl⟩ := Option.map_eq_some_iff.mp h
    refine ⟨ns, hns, ?_⟩
    rw [← sum_foldr_prepend, ← items_sequence]
    exact sum_items_le (fun _ _ => rfl) _

/-- Between anchors a sequence weighs 64 more. -/
theorem weight_sequence_anchored (ns : List Normal) :
    (sequence (.start :: (ns ++ [.stop]))).weight = ((ns.flatMap items).map weight).sum + 64 := by
  have hitems : (Normal.start :: (ns ++ [.stop])).flatMap items =
      .start :: (ns.flatMap items ++ [.stop]) := by
    rw [List.flatMap_cons, List.flatMap_append]
    rfl
  rw [sequence, hitems, List.foldr_cons]
  show (ofItems (.start :: _)).weight = _
  rw [sum_ofItems (f := weight) (fun _ _ => rfl) (List.cons_ne_nil _ _), List.map_cons, List.sum_cons,
    sum_foldr_prepend, List.map_append, List.sum_append]
  show 32 + (_ + 32) = _
  omega

end Normal

namespace Pattern

/-- **The anchors add 64 at most to the weight of the normal form.** -/
theorem normal_anchoredTree {caseless : Bool} {items : List Pattern} {n : Normal}
    (h : (ofItems items).normal? caseless = some n) :
    ∃ m, (Fragment.anchoredTree items).normal? caseless = some m ∧ m.weight ≤ n.weight + 64 := by
  rw [normal?, Interpretation.apply_eq_joined, Interpretation.itemsOf_ofItems] at h
  obtain ⟨ns, hns, hweight⟩ := Normal.exists_of_joined h
  refine ⟨Normal.sequence (.start :: (ns ++ [.stop])), ?_, ?_⟩
  · show (Normal.interpretation caseless).apply (.group none _) = _
    rw [Interpretation.apply_bracket, Interpretation.apply_eq_joined, Interpretation.itemsOf_ofItems,
      List.flatMap_cons, List.flatMap_append]
    generalize items.flatMap _ = xs at hns
    have hjoined : (Normal.interpretation caseless).joined
        (some Normal.start :: (xs ++ [some Normal.stop])) =
          ((some Normal.start :: (xs ++ [some Normal.stop])).mapM id).map Normal.sequence := by
      cases xs <;> rfl
    refine hjoined.trans ?_
    simp [hns]
  · rw [Normal.weight_sequence_anchored]
    omega

end Pattern

end MailPattern
