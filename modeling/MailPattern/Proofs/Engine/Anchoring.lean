import MailPattern.Proofs.Address.Labels
import MailPattern.Proofs.Address.Literals
import MailPattern.Proofs.Engine.Parity
import MailPattern.Proofs.Pattern.Anchored

/-!
# Proofs — Engine — Anchoring

What the engines make of a pattern between anchors.
-/

namespace MailPattern

open Pattern

namespace Engine

variable {engine : Engine} {s : String} {flags : Flags} {p q : Pattern} {r : Regex}

/-- How deep an engine takes the parts of a pattern to nest. -/
def nesting : Engine → Pattern → Nat
  | .safe, p => p.depth
  | .fallback, p => p.part.depth

/-- The limits of the engine allow for the brackets of the pattern, for how deep its parts nest and for
the weight of its normal form. -/
structure Admits (engine : Engine) (caseless : Bool) (p : Pattern) : Prop where
  brackets : p.brackets ≤ engine.dialect.maxOpen
  nesting : engine.nesting p ≤ maxDepth
  weight : ∃ n, p.normal? caseless = some n ∧ n.weight ≤ Normal.maxWeight

/-- The limits leave room for one bracket more, two levels and a weight of 64. -/
structure HasRoom (engine : Engine) (caseless : Bool) (p : Pattern) : Prop where
  brackets : p.brackets < engine.dialect.maxOpen
  depth : p.depth + 2 ≤ maxDepth
  weight : ∃ n, p.normal? caseless = some n ∧ n.weight + 64 ≤ Normal.maxWeight

/-- The engine reads the text as this pattern of the syntax that both engines share: nothing looks
around or recalls, and the regular dialect reads the text, too. -/
structure Shares (engine : Engine) (s : String) (p : Pattern) : Prop where
  read : read? engine.dialect s = some p
  regular : (read? .regular s).isSome = true
  plain : p.isPlain = true

/-- A pattern of which only the limits decide whether it is read compiles within the limits. -/
theorem exists_compile_iff (hread : read? engine.dialect s =
      if q.brackets ≤ engine.dialect.maxOpen ∧ (engine.dialect = .regular → q.depth ≤ maxDepth) then
        some q else none) (hq : q.isPlain = true) :
    (∃ r, (engine.compile s flags).value = .ok r) ↔ engine.Admits flags.caseless q := by
  constructor
  · rintro ⟨r, hr⟩
    obtain ⟨q', program, hread', hprogram, -⟩ := exists_pattern_of_compile hr
    rw [hread, Option.ite_none_right_eq_some] at hread'
    obtain ⟨⟨hbrackets, hdepth⟩, hq'⟩ := hread'
    obtain rfl := Option.some.inj hq'
    cases engine with
    | safe =>
      obtain ⟨n, hn, hweight, -⟩ := Program.sweeping_eq_some.mp hprogram
      exact ⟨hbrackets, hdepth rfl, n, hn, hweight⟩
    | fallback =>
      rw [Program.ofPattern?, Program.planned_of_plain hq, Option.ite_none_right_eq_some] at hprogram
      obtain ⟨n, hn, hweight, -⟩ := Program.sweeping_eq_some.mp hprogram.2
      exact ⟨hbrackets, hprogram.1, n, hn, hweight⟩
  · rintro ⟨hbrackets, hnesting, n, hn, hweight⟩
    have hdepth : engine.dialect = .regular → q.depth ≤ maxDepth := by
      cases engine with
      | safe => exact fun _ => hnesting
      | fallback => rintro ⟨⟩
    rw [if_pos ⟨hbrackets, hdepth⟩] at hread
    refine ⟨_, compile_of_weight hread hq ?_ hn hweight⟩
    rintro rfl
    exact hnesting

/-- What an engine makes of a pattern between anchors. -/
structure Anchors (engine : Engine) (s : String) (flags : Flags) (p : Pattern) : Prop where
  /-- It is accepted exactly if the limits of the engine admit it, -/
  accepts : (∃ r, (engine.compile (anchored s) flags).value = .ok r) ↔
    engine.Admits flags.caseless (Fragment.anchoredTree p.items)
  /-- which they do if they leave room for the anchors. -/
  room (h : engine.HasRoom flags.caseless p) :
    engine.Admits flags.caseless (Fragment.anchoredTree p.items)
  /-- Then it matches a text if one of the matches of the pattern is all of the text, and reports that
  alone. -/
  decides (r : Regex) (h : (engine.compile (anchored s) flags).value = .ok r) :
    r.flags = flags ∧ r.Decides fun text => p.Matches (readings flags.caseless text) 0 text.length

theorem nesting_le_depth (h : read? engine.dialect s = some p) : engine.nesting p ≤ p.depth := by
  cases engine with
  | safe => exact Nat.le_refl _
  | fallback => exact depth_part_le (bracketed_of_read h)

/-- What leaves room for the anchors admits the pattern between them. -/
theorem HasRoom.admits {caseless : Bool} (h : engine.HasRoom caseless p) (hshares : engine.Shares s p)
    (hp : p.isAlt = false) : engine.Admits caseless (Fragment.anchoredTree p.items) := by
  have hitems := ofItems_items hshares.read hp
  have hbrackets : (Fragment.anchoredTree p.items).brackets ≤ engine.dialect.maxOpen := by
    rw [brackets_anchoredTree, hitems]
    exact h.brackets
  have hdepth := (depth_anchoredTree_le p).trans h.depth
  have hread := read_anchored hshares.read hshares.regular hp
  rw [if_pos ⟨hbrackets, fun _ => hdepth⟩] at hread
  obtain ⟨n, hn, hweight⟩ := h.weight
  rw [← hitems] at hn
  obtain ⟨m, hm, hle⟩ := normal_anchoredTree hn
  exact ⟨hbrackets, (nesting_le_depth hread).trans hdepth, m, hm, hle.trans hweight⟩

/-- A shared pattern that compiles can be put between anchors, unless it is an alternation. -/
theorem Shares.anchors (h : engine.Shares s p) (hp : p.isAlt = false)
    (hr : (engine.compile s flags).value = .ok r) : engine.Anchors s flags p := by
  have hanchored := read_anchored h.read h.regular hp
  have hq : (Fragment.anchoredTree p.items).isPlain = true :=
    Fragment.forall_anchored (P := (·.isPlain = true)) rfl
      (fun hp hq => Bool.and_eq_true_iff.mpr ⟨hp, hq⟩) rfl rfl
      (forall_items (P := (·.isPlain = true)) (fun _ _ h => Bool.and_eq_true_iff.mp h) h.plain)
  refine ⟨exists_compile_iff hanchored hq, fun hroom => hroom.admits h hp, fun r' hr' => ?_⟩
  have hfits : p.Fits := by
    obtain ⟨n, hn, -⟩ := exists_of_compile h.read h.plain hr
    exact (isSome_normal.mp (Option.isSome_iff_exists.mpr ⟨n, hn⟩)).2
  have hread : read? engine.dialect (anchored s) = some (Fragment.anchoredTree p.items) := by
    obtain ⟨q, _, hq, -, -⟩ := exists_pattern_of_compile hr'
    rw [hanchored, Option.ite_none_right_eq_some] at hq
    rw [hanchored, if_pos hq.1]
  obtain ⟨hflags, hsweeps⟩ := sweeps_of_compile hread hq hr'
  refine ⟨hflags, hsweeps.decides fun text i j => ?_⟩
  rw [Fragment.mem_ends_anchoredTree, length_readings, ofItems_items h.read hp, hflags,
    mem_ends hfits (Nat.zero_le _)]

end Engine

/-! ### Fragments and addresses -/

namespace Fragment

/-- The fragments that patterns of addresses are composed of. -/
def texts : List String :=
  [host, domain, strictTopLevel, localhost, ipv4, ipv6] ++
    [Username.gmail, .utf8, .ascii].map Username.fragment

theorem compact_strict : Compact strictTopLevel [strictTree] where
  written d := (written_strict d).mono (by decide)
  simple := by decide
  depth := by decide
  heft := by decide +kernel

theorem compact_localhost : Compact localhost ("localhost".toList.map .char) where
  written d := (written_localhost d).mono (by decide)
  simple := by decide +kernel
  depth := by decide +kernel
  heft := by decide +kernel

theorem compact_username (u : Username) : Compact u.fragment u.items where
  written d := (u.written_fragment d).mono (by decide)
  simple := by cases u <;> decide
  depth := by cases u <;> decide
  heft := by cases u <;> decide +kernel

/-- Every fragment of addresses is compact, and none is an alternation. -/
theorem exists_compact {s : String} (h : s ∈ texts) :
    ∃ items, Compact s items ∧ (ofItems items).isAlt = false := by
  simp only [texts, List.map_cons, List.map_nil, List.mem_append, List.mem_cons, List.not_mem_nil,
    or_false] at h
  rcases h with (rfl | rfl | rfl | rfl | rfl | rfl) | rfl | rfl | rfl
  · exact ⟨_, compact_host, rfl⟩
  · exact ⟨_, compact_domain, rfl⟩
  · exact ⟨_, compact_strict, rfl⟩
  · exact ⟨_, compact_localhost, rfl⟩
  · exact ⟨_, compact_ipv4, rfl⟩
  · exact ⟨_, compact_ipv6, rfl⟩
  all_goals exact ⟨_, compact_username _, rfl⟩

end Fragment

theorem Fragment.Compact.shares {s : String} {items : List Pattern} (h : Fragment.Compact s items)
    (engine : Engine) : engine.Shares s (ofItems items) := by
  have hsimple : (ofItems items).Simple := .ofItems h.simple
  have hdepth := (depth_ofItems_le h.depth).trans (by decide : 200 + 1 ≤ maxDepth)
  have hread (d : Dialect) := (h.written d).read (by cases d <;> decide) hdepth
  exact ⟨hread _, Option.isSome_iff_exists.mpr ⟨_, hread _⟩, isPlain_of_isFree hsimple.free⟩

/-- So is the pattern of any options. -/
theorem Options.shares (o : Options) (engine : Engine) : engine.Shares o.pattern o.tree :=
  ⟨o.read_pattern _, Option.isSome_iff_exists.mpr ⟨_, o.read_pattern _⟩,
    isPlain_of_isFree o.simple_tree.free⟩

/-- A lazy repetition, which prefers to match nothing, of an alternation that prefers its shorter
branch. -/
def Pattern.lazyTree : Pattern :=
  .repeated ⟨0, none, false⟩ (.group none (.alt (.char 'a') (.cat (.char 'a') (.char 'b'))))

/-- As many brackets around a letter as the fallback engine lets stand open. -/
def Pattern.bracketedText : String :=
  String.ofList (List.replicate 63 '(' ++ 'a' :: List.replicate 63 ')')

/-- The tree of the letter in so many brackets. -/
def Pattern.bracketedTree : Pattern :=
  (List.range 63).foldr (fun n p => .group (some (n + 1)) p) (.char 'a')

end MailPattern
