import MailPattern.Engine.Build
import MailPattern.Proofs.Address.Tree
import MailPattern.Proofs.Engine.Planned
import MailPattern.Proofs.Pattern.Words

/-!
# Proofs — Address — Compiled

What the options compile to.  Both engines read the pattern as the tree (`Options.read_searched`) and
sweep for it, so whatever engine is there the regex searches for the same
(`Options.compile_eq`).  Compiling fails only if the pattern is too heavy, which only a
whitelist can make it.
-/

namespace MailPattern

namespace Pattern

/-! ### Facts by form -/

/-- Every match takes a character, by the form of the pattern. -/
def takes : Pattern → Bool
  | .char _ | .chars _ => true
  | .cat p q => p.takes || q.takes
  | .alt p q => p.takes && q.takes
  | .group _ p => p.takes
  | .repeated c p => decide (0 < c.least) && p.takes
  | .empty | .start | .stop | .look .. | .recall _ => false

/-- A pattern that takes a character by its form ends nowhere without one. -/
theorem not_mem_ends_of_takes {p : Pattern} (hp : p.takes = true) {s : List Reading} {i : Nat}
    (hi : i ≤ s.length) : i ∉ p.ends s i := by
  induction p with
  | char | chars =>
    intro h
    have := (Ends.mem_one.mp h).1
    omega
  | cat p q ihp ihq =>
    intro h
    obtain ⟨j, hj, h⟩ := List.mem_flatMap.mp h
    have hij := p.forward_ends s i hi j hj
    obtain rfl : j = i := by have := q.forward_ends s j hij.2 i h; omega
    exact (Bool.or_eq_true_iff.mp hp).elim (fun hp => ihp hp hj) fun hq => ihq hq h
  | alt p q ihp ihq =>
    obtain ⟨hp, hq⟩ := Bool.and_eq_true_iff.mp hp
    exact fun h => (Ends.mem_prefer.mp h).elim (ihp hp) (ihq hq)
  | group _ p ih => exact ih hp
  | repeated c p ih =>
    obtain ⟨hc, hp⟩ := Bool.and_eq_true_iff.mp hp
    obtain ⟨n, hn⟩ := Nat.exists_eq_add_of_lt (of_decide_eq_true hc)
    intro h
    obtain ⟨j, hj, h⟩ := List.mem_flatMap.mp h
    have hf := p.forward_ends s
    have hij := hf.times c.least i hi j hj
    obtain rfl : j = i := by
      have := (hf.counted ⟨0, c.most.map (· - c.least), c.greedy⟩) j hij.2 i ?_
      · omega
      · rw [Ends.counted, Ends.times, Ends.stay_andThen]
        cases hm : c.most <;> simpa [hm] using h
    rw [show c.least = n + 1 by omega] at hj
    obtain ⟨k, hk, hj⟩ := List.mem_flatMap.mp hj
    have hjk := hf j hi k hk
    obtain rfl : k = j := by have := hf.times n k hjk.2 j hj; omega
    exact ih hp hk
  | _ => cases hp

/-- No anchors, counts and classes in order, and the body of every unbounded repetition takes a
character by its form. -/
structure Simple (p : Pattern) : Prop where
  free : p.isFree = true
  fits : p.Fits
  valid : p.Valid
  takes : ∀ r ∈ p.repetitions, r.1.most = none → r.2.takes = true

instance (p : Pattern) : Decidable p.Fits :=
  inferInstanceAs (Decidable (∀ r ∈ p.repetitions, r.1.fits = true))

instance (s : CharSet) : Decidable s.Valid :=
  inferInstanceAs (Decidable (∀ r ∈ s.ranges, r.1 ≤ r.2))

instance (p : Pattern) : Decidable p.Valid :=
  inferInstanceAs (Decidable (∀ set ∈ p.sets, set.Valid))

instance (p : Pattern) : Decidable p.Simple :=
  decidable_of_iff (p.isFree = true ∧ p.Fits ∧ p.Valid ∧
      ∀ r ∈ p.repetitions, r.1.most = none → r.2.takes = true)
    ⟨fun h => ⟨h.1, h.2.1, h.2.2.1, h.2.2.2⟩, fun h => ⟨h.free, h.fits, h.valid, h.takes⟩⟩

/-- A repetition whose body takes a character by its form is productive. -/
theorem productive_of_takes {p : Pattern}
    (h : ∀ r ∈ p.repetitions, r.1.most = none → r.2.takes = true) : p.Productive :=
  fun r hr hm _ _ hi => not_mem_ends_of_takes (h r hr hm) hi

namespace Simple

variable {p q : Pattern}

/-- Simple parts make a simple sequence. -/
theorem both (hp : p.Simple) (hq : q.Simple) : (Pattern.cat p q).Simple where
  free := Bool.and_eq_true_iff.mpr ⟨hp.free, hq.free⟩
  fits := List.forall_mem_append.mpr ⟨hp.fits, hq.fits⟩
  valid := List.forall_mem_append.mpr ⟨hp.valid, hq.valid⟩
  takes := List.forall_mem_append.mpr ⟨hp.takes, hq.takes⟩

theorem either (hp : p.Simple) (hq : q.Simple) : (Pattern.alt p q).Simple :=
  ⟨(hp.both hq).free, (hp.both hq).fits, (hp.both hq).valid, (hp.both hq).takes⟩

/-- Brackets change nothing. -/
theorem group (n : Option Nat) (hp : p.Simple) : (Pattern.group n p).Simple :=
  ⟨hp.free, hp.fits, hp.valid, hp.takes⟩

/-- Many parts are put together two by two. -/
theorem ofItems {ps : List Pattern} (h : ∀ p ∈ ps, p.Simple) : (Pattern.ofItems ps).Simple :=
  forall_ofItems (by decide) both h

/-- An alternation of simple branches is simple. -/
theorem ofBranches {ps : List Pattern} (h : ∀ p ∈ ps, p.Simple) :
    (Pattern.ofBranches ps).Simple :=
  forall_ofBranches (by decide) either h

theorem all {items : List Pattern} (h : ∀ p ∈ items, p.Simple) : (Fragment.all items).Simple :=
  (ofItems h).group none

theorem anyOf {branches : List (List Pattern)} (h : ∀ b ∈ branches, ∀ p ∈ b, p.Simple) :
    (Fragment.anyOf branches).Simple :=
  (ofBranches fun p hp => by
    obtain ⟨b, hb, rfl⟩ := List.mem_map.mp hp
    exact ofItems (h b hb)).group none

end Simple

/-! ### Depth -/

/-- Parts in a row are one deeper at most: the row is one part however long it is. -/
theorem depth_row_le (row : List Pattern → Pattern) (op : Pattern → Pattern → Pattern)
    (isRow : Pattern → Bool) (hnil : row [] = .empty) (hsingle : ∀ p, row [p] = p)
    (hcons : ∀ p q ps, row (p :: q :: ps) = op p (row (q :: ps)))
    (hop : ∀ p q, isRow (op p q) = true)
    (hdepth : ∀ p q, (op p q).depth = max (p.depth + 1) (if isRow q then q.depth else q.depth + 1))
    {ps : List Pattern} {n : Nat} (h : ∀ p ∈ ps, p.depth ≤ n) : (row ps).depth ≤ n + 1 := by
  -- what is not a row itself is a single part, or none
  have hle : (row ps).depth ≤ n + 1 ∧ (isRow (row ps) = false → (row ps).depth ≤ n) := by
    induction ps with
    | nil =>
      rw [hnil]
      exact ⟨Nat.zero_le _, fun _ => Nat.zero_le _⟩
    | cons p ps ih =>
      have hp := h p List.mem_cons_self
      cases ps with
      | nil =>
        rw [hsingle]
        exact ⟨hp.trans (Nat.le_succ n), fun _ => hp⟩
      | cons q qs =>
        obtain ⟨hrest, hsmall⟩ := ih fun r hr => h r (List.mem_cons_of_mem p hr)
        rw [hcons, hop, hdepth]
        refine ⟨Nat.max_le.mpr ⟨Nat.succ_le_succ hp, ?_⟩, fun h => absurd h.symm Bool.false_ne_true⟩
        split
        · exact hrest
        · next hrow => exact Nat.succ_le_succ (hsmall (Bool.eq_false_iff.mpr hrow))
  exact hle.1

/-- A sequence is one deeper than its items. -/
theorem depth_ofItems_le {ps : List Pattern} {n : Nat} (h : ∀ p ∈ ps, p.depth ≤ n) :
    (ofItems ps).depth ≤ n + 1 :=
  depth_row_le ofItems cat isCat rfl (fun _ => rfl) (fun _ _ _ => rfl) (fun _ _ => rfl)
    (fun _ _ => rfl) h

theorem depth_ofBranches_le {ps : List Pattern} {n : Nat} (h : ∀ p ∈ ps, p.depth ≤ n) :
    (ofBranches ps).depth ≤ n + 1 :=
  depth_row_le ofBranches alt isAlt rfl (fun _ => rfl) (fun _ _ _ => rfl) (fun _ _ => rfl)
    (fun _ _ => rfl) h

theorem depth_all_le {items : List Pattern} {n : Nat} (h : ∀ p ∈ items, p.depth ≤ n) :
    (Fragment.all items).depth ≤ n + 2 :=
  Nat.succ_le_succ (depth_ofItems_le h)

/-- Branches in brackets are three deeper than their items. -/
theorem depth_anyOf_le {branches : List (List Pattern)} {n : Nat}
    (h : ∀ b ∈ branches, ∀ p ∈ b, p.depth ≤ n) : (Fragment.anyOf branches).depth ≤ n + 3 :=
  Nat.succ_le_succ (depth_ofBranches_le fun p hp => by
    obtain ⟨b, hb, rfl⟩ := List.mem_map.mp hp
    exact depth_ofItems_le (h b hb))

end Pattern

/-! ### The tree of an address -/

/-- What stands in the branches of a whitelist is a character, or the class that holds none. -/
theorem Whitelist.mem_branches {entries : List String} {b : List Pattern}
    (hb : b ∈ Whitelist.branches entries) : ∀ p ∈ b, p = Fragment.neverTree ∨ ∃ c, p = .char c := by
  unfold Whitelist.branches at hb
  split at hb
  · obtain rfl := List.mem_singleton.mp hb
    exact fun p hp => .inl (List.mem_singleton.mp hp)
  · obtain ⟨e, -, rfl⟩ := List.mem_map.mp hb
    intro p hp
    obtain ⟨c, -, rfl⟩ := List.mem_map.mp hp
    exact .inr ⟨c, rfl⟩

theorem Pattern.simple_char (c : Char) : (Pattern.char c).Simple := ⟨rfl, nofun, nofun, nofun⟩

/-- The entries of a whitelist, or the class that holds nothing, are simple items. -/
theorem Whitelist.simple_branches {entries : List String} {b : List Pattern}
    (hb : b ∈ Whitelist.branches entries) : ∀ p ∈ b, p.Simple := by
  intro p hp
  rcases mem_branches hb p hp with rfl | ⟨c, rfl⟩
  · decide
  · exact Pattern.simple_char c

/-- They are as shallow as can be. -/
theorem Whitelist.depth_branches {entries : List String} {b : List Pattern}
    (hb : b ∈ Whitelist.branches entries) : ∀ p ∈ b, p.depth ≤ 1 := by
  intro p hp
  rcases mem_branches hb p hp with rfl | ⟨c, rfl⟩
  · decide
  · exact Nat.zero_le _

namespace Options

open Pattern

variable (o : Options)

/-- The tree of a top-level domain is simple, by any options. -/
theorem simple_topLevel : o.topLevelTree.Simple := by
  unfold topLevelTree
  split
  · decide
  · exact .anyOf fun _ => Whitelist.simple_branches

/-- What stands in the branches of the domain. -/
theorem forall_domainItems {P : Pattern → Prop} (hchar : ∀ c, P (.char c))
    (hipv4 : ∀ p ∈ Fragment.ipv4Items, P p) (hipv6 : ∀ p ∈ Fragment.ipv6Items, P p)
    (hhost : ∀ p ∈ o.hostItems, P p) : ∀ b ∈ o.domainItems, ∀ p ∈ b, P p := by
  intro b hb
  simp only [domainItems, List.mem_append, List.mem_ite_nil_right, List.mem_singleton] at hb
  rcases hb with ((⟨-, rfl⟩ | ⟨-, rfl⟩) | ⟨-, rfl⟩) | rfl
  · intro p hp
    obtain ⟨c, -, rfl⟩ := List.mem_map.mp hp
    exact hchar c
  · exact hipv4
  · exact hipv6
  · exact hhost

/-- The tree of an address is simple, by any options. -/
theorem simple_tree : o.tree.Simple := by
  have huser : ∀ p ∈ o.username.items, p.Simple := by
    cases o.username <;> decide
  have hdomain : (Fragment.anyOf o.domainItems).Simple := by
    refine .anyOf (o.forall_domainItems simple_char (by decide) (by decide +kernel) ?_)
    refine List.forall_mem_cons.mpr ⟨by decide, List.forall_mem_cons.mpr ⟨by decide,
      List.forall_mem_singleton.mpr (.all ?_)⟩⟩
    exact List.forall_mem_cons.mpr ⟨simple_char _, List.forall_mem_singleton.mpr o.simple_topLevel⟩
  exact .all (List.forall_mem_append.mpr ⟨huser, List.forall_mem_cons.mpr
    ⟨simple_char _, List.forall_mem_singleton.mpr hdomain⟩⟩)

/-- No pattern of addresses nests deep. -/
theorem depth_tree_le : o.tree.depth ≤ 20 := by
  have huser : ∀ p ∈ o.username.items, p.depth ≤ 18 := by
    cases o.username <;> decide
  have htop : o.topLevelTree.depth ≤ 4 := by
    unfold topLevelTree
    split
    · decide
    · exact depth_anyOf_le fun _ => Whitelist.depth_branches
  have hhost : ∀ p ∈ o.hostItems, p.depth ≤ 15 := by
    refine List.forall_mem_cons.mpr ⟨by decide, List.forall_mem_cons.mpr ⟨by decide,
      List.forall_mem_singleton.mpr ((depth_all_le (n := 4) ?_).trans (by decide))⟩⟩
    exact List.forall_mem_cons.mpr ⟨Nat.zero_le _, List.forall_mem_singleton.mpr htop⟩
  have hdomain : (Fragment.anyOf o.domainItems).depth ≤ 18 :=
    depth_anyOf_le (o.forall_domainItems (fun _ => Nat.zero_le _) (by decide) (by decide +kernel)
      hhost)
  exact depth_all_le (List.forall_mem_append.mpr ⟨huser, List.forall_mem_cons.mpr
    ⟨Nat.zero_le _, List.forall_mem_singleton.mpr hdomain⟩⟩)

/-- The tree of the pattern that is compiled. -/
def searched : Pattern := if o.exact then o.anchoredTree else o.tree

/-- The anchored tree is nested 22 levels at most, however long the whitelist. -/
theorem depth_anchoredTree_le : o.anchoredTree.depth ≤ 22 :=
  depth_all_le (List.forall_mem_cons.mpr ⟨Nat.zero_le _, List.forall_mem_cons.mpr
    ⟨o.depth_tree_le, List.forall_mem_singleton.mpr (Nat.zero_le _)⟩⟩)

theorem depth_searched_le : o.searched.depth ≤ 22 := by
  unfold searched
  split
  · exact o.depth_anchoredTree_le
  · exact o.depth_tree_le.trans (by decide)

/-- What is searched for neither looks around nor recalls. -/
theorem plain_searched : o.searched.isPlain = true := by
  have hplain := isPlain_of_isFree o.simple_tree.free
  unfold searched
  split
  · show (true && (o.tree.isPlain && true)) = true
    rw [hplain]
    rfl
  · exact hplain

/-- No count in it is out of bounds. -/
theorem fits_searched : o.searched.Fits := by
  unfold searched
  split
  · exact List.forall_mem_append.mpr ⟨nofun, List.forall_mem_append.mpr ⟨o.simple_tree.fits, nofun⟩⟩
  · exact o.simple_tree.fits

/-- Its classes are in order. -/
theorem valid_searched : o.searched.Valid := by
  unfold searched
  split
  · exact List.forall_mem_append.mpr ⟨nofun, List.forall_mem_append.mpr ⟨o.simple_tree.valid, nofun⟩⟩
  · exact o.simple_tree.valid

/-- No unbounded repetition in the pattern has a body that can match the empty text. -/
theorem productive_searched : o.searched.Productive := by
  refine productive_of_takes ?_
  unfold searched
  split
  · exact List.forall_mem_append.mpr ⟨nofun, List.forall_mem_append.mpr ⟨o.simple_tree.takes, nofun⟩⟩
  · exact o.simple_tree.takes

theorem read_pattern (d : Dialect) : read? d o.pattern = some o.tree := by
  refine (o.written_pattern d).written.read ?_ (o.depth_tree_le.trans (by decide))
  cases d <;> decide

/-- Both dialects read the anchored pattern as its tree between anchors. -/
theorem read_anchored (d : Dialect) : read? d (anchored o.pattern) = some o.anchoredTree := by
  refine (o.written_anchored d).written.read ?_ (o.depth_anchoredTree_le.trans (by decide))
  cases d <;> decide

/-- **Both dialects read the pattern that is compiled as its tree.** -/
theorem read_searched (d : Dialect) : read? d o.compileArgs.1 = some o.searched := by
  unfold searched compileArgs
  split
  · exact o.read_anchored d
  · exact o.read_pattern d

/-- The normal form of the pattern that is compiled. -/
def normal : Normal := (o.searched.normal? true).getD .empty

/-- The pattern that is compiled has a normal form. -/
theorem normal_searched : o.searched.normal? true = some o.normal := by
  have := (@isSome_normal true _).mpr ⟨o.plain_searched, o.fits_searched⟩
  obtain ⟨n, hn⟩ := Option.isSome_iff_exists.mp this
  rw [normal, hn]
  rfl

/-- The pattern is not too heavy to be compiled. -/
def Light : Prop := o.normal.weight ≤ Normal.maxWeight

instance : Decidable o.Light := inferInstanceAs (Decidable (_ ≤ _))

/-- What is made of the pattern that is compiled. -/
def program : Program := .sweep (o.normal.unrolled false).sweep

/-- The regex of the pattern, by one of the engines. -/
def regex (engine : Engine) : Regex where
  engine := engine
  pattern := o.compileArgs.1
  flags := o.compileArgs.2
  program := o.program

/-- Case is always ignored. -/
theorem caseless_compileArgs : o.compileArgs.2.caseless = true := by
  unfold compileArgs
  split <;> rfl

/-- Only a regex that is not exact goes on behind a match. -/
theorem global_compileArgs : o.compileArgs.2.global = !o.exact := by
  cases h : o.exact <;> simp [compileArgs, h]

/-- Both engines make the same of the pattern. -/
theorem ofPattern_searched (engine : Engine) :
    Program.ofPattern? true o.searched engine = if o.Light then some o.program else none := by
  have hsweeping : Program.sweeping? true o.searched = if o.Light then some o.program else none := by
    rw [Program.sweeping?, o.normal_searched, Option.bind_some, Normal.regular?]
    by_cases h : o.normal.weight ≤ Normal.maxWeight
    · rw [if_pos h, if_pos (show o.Light from h)]
      rfl
    · rw [if_neg h, if_neg (show ¬ o.Light from h)]
      rfl
  cases engine with
  | safe => exact hsweeping
  | fallback =>
    have hdepth := (depth_part_le (bracketed_of_read (o.read_searched .extended))).trans
      o.depth_searched_le
    rw [Program.ofPattern?, Program.planned_of_plain o.plain_searched,
      if_pos (hdepth.trans (by decide)), hsweeping]

/-- An engine makes the regex of the pattern, or refuses it for its weight. -/
theorem engine_compile (engine : Engine) :
    (engine.compile o.compileArgs.1 o.compileArgs.2).value =
      if o.Light then .ok (o.regex engine) else .error (.rejected engine) := by
  rw [Engine.compile, o.read_searched, Option.bind_some, o.caseless_compileArgs,
    o.ofPattern_searched]
  split <;> split <;> simp_all [regex]

/-- **Compiling gives a regex of the pattern by the engine selected, or the pattern is too heavy.** -/
theorem compile_eq (s : Selector) :
    (o.compile s).value.1 = if o.Light then .ok (o.regex (s.select o.useSafeEngine).value.1)
      else .error (.rejected .fallback) := by
  simp only [compile, Selector.compile, Logged.value_bind, o.engine_compile]
  by_cases h : o.Light
  · rw [if_pos h, if_pos h]
    rfl
  · rw [if_neg h, if_neg h]
    cases (s.select o.useSafeEngine).value.1 with
    | safe =>
      show (Engine.fallback.compile o.compileArgs.1 o.compileArgs.2).value = _
      rw [o.engine_compile, if_neg h]
    | fallback => rfl

end Options

end MailPattern
