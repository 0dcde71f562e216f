import MailPattern.Proofs.Address.Deciding
import MailPattern.Proofs.Pattern.Steady

/-!
# Proofs — Address — Steady

The tree of an address is steady (`Options.steady_tree`).  Every alternation in it has a branch of
nothing but characters, except the groups of an IPv6 address and a domain where no local host is
allowed; there one branch begins with a repetition and another does not.
-/

namespace MailPattern

open Pattern

namespace Fragment

open Pattern

variable {p : Pattern} {branches : List (List Pattern)} {caseless : Bool}

/-! ### Items -/

/-- Brackets around steady items are steady. -/
theorem steady_all {items : List Pattern} (h : ∀ p ∈ items, p.Steady caseless) : (all items).Steady caseless :=
  (steady_ofItems h).bracket

/-- Branches in brackets are one item. -/
theorem one_anyOf (hlen : 2 ≤ branches.length)
    (hitems : ∀ b ∈ branches, ∀ p ∈ b, p.isItem = true) : (anyOf branches).One caseless := by
  refine one_bracket ?_
  rw [Interpretation.itemsOf, Interpretation.parts_ofBranches _ (by simpa)
    (List.forall_mem_map.mpr fun b hb => branches_parts_of_isItem _ (hitems b hb))]
  exact List.cons_ne_nil _ _

/-- What can match some characters takes characters by the form of its normal form. -/
theorem takesNone_eq_false (hp : p.Valid) {n : Normal} (hn : p.normal? caseless = some n)
    {word : List Char} (hw : word ≠ []) (h : word.length ∈ p.ends (readings caseless word) 0) :
    n.takesNone = false := by
  rw [Bool.eq_false_iff]
  intro hnone
  have halike := alike_normal hp hn (fun h : False => h.elim) word 0 (Nat.zero_le _)
  have hzero := Normal.idle_of_takesNone hnone 0 (Nat.zero_le _) _ ((halike.mem _).mpr h)
  exact hw (List.length_eq_zero_iff.mp hzero)

/-- A group with a colon after it matches, with regard to case or without. -/
theorem length_mem_ends_group :
    ['0', ':'].length ∈ (all [hexTree, .char ':']).ends (readings caseless ['0', ':']) 0 := by
  cases caseless with
  | false => decide
  | true =>
    have hspelled : (all [hexTree, .char ':']).Spelled ['0', ':'] :=
      spelled_ofItems_cons.mpr ⟨['0'], [':'], rfl, Grammar.spelled_hex.mpr (by decide),
        (spelled_uncased (uncased_ascii (.inl (by decide)))).mpr rfl⟩
    refine (mem_ends_iff_spells (by decide) (by decide) (Nat.zero_le _)).mpr ⟨Nat.zero_le _, le_rfl, ?_⟩
    rwa [show slice (readings true ['0', ':']) 0 ['0', ':'].length = readings true ['0', ':'] from
      slice_all _]

/-! ### IPv4 addresses -/

/-- The numbers of an IPv4 address have a branch of digits only. -/
theorem steady_octet : octetTree.Steady caseless := by
  have hletters : ∀ b ∈ [[Pattern.char '2', .char '5', digits '0' '5'],
      [.char '2', digits '0' '4', digits '0' '9'], [.char '1', digits '0' '9', digits '0' '9'],
      [digits '1' '9', digits '0' '9'], [digits '0' '9']], ∀ p ∈ b, p.IsLetter := by
    simp [IsLetter, digits]
  exact steady_of_letters (by decide) (by decide) (fun b hb p hp => (hletters b hb p hp).steady)
    (b := [digits '0' '9']) (by decide) (hletters _ (by decide))

theorem isItem_octet : ∀ b ∈ [[Pattern.char '2', .char '5', digits '0' '5'],
      [.char '2', digits '0' '4', digits '0' '9'], [.char '1', digits '0' '9', digits '0' '9'],
      [digits '1' '9', digits '0' '9'], [digits '0' '9']], ∀ p ∈ b, p.isItem = true := by decide

theorem steady_ipv4 : ∀ p ∈ ipv4Items, p.Steady caseless :=
  List.forall_mem_cons.mpr ⟨steady_octet, List.forall_mem_singleton.mpr
    ((steady_all (List.forall_mem_cons.mpr
      ⟨steady_char '.', List.forall_mem_singleton.mpr steady_octet⟩)).repeated _)⟩

/-- They begin with no repetition. -/
theorem starts_octet : octetTree.Starts caseless false :=
  starts_branches (by decide) isItem_octet (b := [digits '0' '9']) (by decide)
    (opens_of_isLetter (.inr ⟨_, rfl⟩))

theorem one_octet : octetTree.One caseless := one_anyOf (by decide) isItem_octet

/-- The items of an alternation that begins with a character do not begin with a repetition. -/
theorem opens_ipv4 : (ofItems ipv4Items).Opens caseless false := by
  have hopens : (ofItems [.char '.', octetTree]).Opens caseless false :=
    opens_ofItems (one_char '.') one_octet (starts_char '.') starts_octet.filled
  have hfurther : (all [.char '.', octetTree]).Starts caseless false := .bracket hopens.starts
  exact opens_ofItems one_octet (one_repeated _ _) starts_octet (hfurther.filled.repeated (by decide))

/-! ### IPv6 addresses -/

theorem isLetter_colon : ∀ p ∈ [Pattern.char ':'], p.IsLetter :=
  List.forall_mem_singleton.mpr (.inl ⟨_, rfl⟩)

theorem steady_hex : hexTree.Steady caseless := (steady_chars hexSet).repeated _

theorem steady_colons (least most : Nat) : (colonTree least most).Steady caseless :=
  (steady_all (List.forall_mem_cons.mpr
    ⟨steady_char ':', List.forall_mem_singleton.mpr steady_hex⟩)).repeated _

/-- An alternation with a branch that is a colon alone is steady. -/
theorem steady_anyOf_colon (hlen : 2 ≤ branches.length)
    (hitems : ∀ b ∈ branches, ∀ p ∈ b, p.isItem = true) (hb : ∀ b ∈ branches, ∀ p ∈ b, p.Steady caseless)
    (hcolon : [.char ':'] ∈ branches) : (anyOf branches).Steady caseless :=
  steady_of_letters hlen hitems hb hcolon isLetter_colon

theorem isItem_rest (m : Nat) : ∀ b ∈ restBranches m, ∀ p ∈ b, p.isItem = true := by
  simp [restBranches, ipv4Items, octetTree, colonTree, anyOf, isItem, isCat, isAlt]

/-- The branches after few groups have a colon alone among them. -/
theorem steady_rest (m : Nat) : (anyOf (restBranches m)).Steady caseless := by
  refine steady_anyOf_colon (by simp [restBranches]) (isItem_rest m) ?_ (by simp [restBranches])
  exact List.forall_mem_cons.mpr ⟨List.forall_mem_cons.mpr ⟨steady_colons _ _,
    List.forall_mem_cons.mpr ⟨steady_char ':', steady_ipv4⟩⟩, List.forall_mem_cons.mpr
      ⟨List.forall_mem_singleton.mpr (steady_colons _ _),
        List.forall_mem_singleton.mpr (List.forall_mem_singleton.mpr (steady_char ':'))⟩⟩

/-- Groups before steady branches are steady. -/
theorem steady_groups {count : Nat} (h : (anyOf branches).Steady caseless) :
    ∀ p ∈ groupsItems count branches, p.Steady caseless :=
  List.forall_mem_cons.mpr ⟨(steady_all (List.forall_mem_cons.mpr
    ⟨steady_hex, List.forall_mem_singleton.mpr (steady_char ':')⟩)).repeated _,
    List.forall_mem_singleton.mpr h⟩

theorem isItem_ipv6 : ∀ b ∈ ipv6Branches, ∀ p ∈ b, p.isItem = true := by decide

/-- Groups with colons after them are repeated as often as is said, which is not once. -/
theorem opens_groups {count : Nat} (hcount : 2 ≤ count) (hlen : 2 ≤ branches.length)
    (hitems : ∀ b ∈ branches, ∀ p ∈ b, p.isItem = true) (hcolon : [.char ':'] ∈ branches) :
    (ofItems (groupsItems count branches)).Opens caseless true := by
  refine opens_ofItems (one_repeated _ _) (one_anyOf hlen hitems) (fun n hn => ?_)
    (starts_branches hlen hitems hcolon
      (opens_of_isLetter (isLetter_colon _ List.mem_cons_self))).filled
  obtain ⟨m, hm, rfl⟩ := normal_repeated hn
  have hnone := takesNone_eq_false (by decide) hm (List.cons_ne_nil _ _) length_mem_ends_group
  exact Normal.starts_times (by simp [exactly]; omega) (.inr ⟨hnone, by simp only [exactly]; omega⟩)

/-- A colon before an alternation opens no repetition. -/
theorem opens_double (m : Nat) :
    (ofItems [all [.char ':', anyOf (restBranches m)]]).Opens caseless false := by
  have hlen : 2 ≤ (restBranches m).length := by simp [restBranches]
  have hstarts : (anyOf (restBranches m)).Starts caseless false :=
    starts_branches hlen (isItem_rest m) (b := [.char ':']) (by simp [restBranches])
      (opens_of_isLetter (isLetter_colon _ List.mem_cons_self))
  exact (opens_ofItems (one_char ':') (one_anyOf hlen (isItem_rest m)) (starts_char ':')
    hstarts.filled).bracket

/-- Of the branches of an IPv6 address one begins with a colon and the others with a repetition. -/
theorem steady_ipv6Branches : (anyOf ipv6Branches).Steady caseless := by
  have hcolon : ∀ p ∈ [Pattern.char ':'], p.Steady caseless := fun p hp => (isLetter_colon p hp).steady
  have h7 : (anyOf [[hexTree], [.char ':']]).Steady caseless :=
    steady_anyOf_colon (by decide) (by decide) (List.forall_mem_cons.mpr
      ⟨List.forall_mem_singleton.mpr steady_hex, List.forall_mem_singleton.mpr hcolon⟩) (by decide)
  have h6 : (anyOf [ipv4Items, [.char ':', hexTree], [.char ':']]).Steady caseless :=
    steady_anyOf_colon (by decide) (by decide) (List.forall_mem_cons.mpr
      ⟨steady_ipv4, List.forall_mem_cons.mpr ⟨List.forall_mem_cons.mpr
        ⟨steady_char ':', List.forall_mem_singleton.mpr steady_hex⟩,
        List.forall_mem_singleton.mpr hcolon⟩⟩) (by decide)
  have h5 : (anyOf [.char ':' :: ipv4Items, [colonTree 1 2], [.char ':']]).Steady caseless :=
    steady_anyOf_colon (by decide) (by decide) (List.forall_mem_cons.mpr
      ⟨List.forall_mem_cons.mpr ⟨steady_char ':', steady_ipv4⟩, List.forall_mem_cons.mpr
        ⟨List.forall_mem_singleton.mpr (steady_colons 1 2),
        List.forall_mem_singleton.mpr hcolon⟩⟩) (by decide)
  refine steady_of_opens (by decide) isItem_ipv6 ?_
    (show groupsItems 7 [[hexTree], [.char ':']] ∈ ipv6Branches by decide)
    (show [all [.char ':', anyOf (restBranches 7)]] ∈ ipv6Branches by decide)
    (opens_groups (by decide) (by decide) (by decide) (by decide))
    (opens_double 7)
  simp only [ipv6Branches, List.forall_mem_cons, List.not_mem_nil, false_imp_iff, implies_true,
    and_true]
  exact ⟨steady_groups h7, steady_groups h6, steady_groups h5, steady_groups (steady_rest 3),
    steady_groups (steady_rest 4), steady_groups (steady_rest 5), steady_groups (steady_rest 6),
    steady_all (List.forall_mem_cons.mpr
      ⟨steady_char ':', List.forall_mem_singleton.mpr (steady_rest 7)⟩)⟩

theorem steady_zone : zoneTree.Steady caseless :=
  (steady_all (List.forall_mem_cons.mpr ⟨steady_char '%',
    List.forall_mem_singleton.mpr ((steady_chars _).repeated _)⟩)).repeated _

/-- An IPv6 address is steady, with its zone. -/
theorem steady_ipv6 : ∀ p ∈ ipv6Items, p.Steady caseless :=
  List.forall_mem_cons.mpr ⟨steady_ipv6Branches, List.forall_mem_singleton.mpr steady_zone⟩

/-- It opens with an alternation in brackets, not with a repetition. -/
theorem opens_ipv6 : (ofItems ipv6Items).Opens caseless false := by
  have hstarts : (anyOf ipv6Branches).Starts caseless false :=
    starts_branches (by decide) isItem_ipv6 (b := [all [.char ':', anyOf (restBranches 7)]])
      (by decide) (opens_double 7)
  exact opens_ofItems (one_anyOf (by decide) isItem_ipv6) (one_repeated _ _) hstarts
    (starts_repeated (by decide) rfl).filled

/-! ### Hosts -/

/-- A label with any joins is steady. -/
theorem steady_label (joins : CharSet) :
    (repeated star (all [.chars wordSet, .repeated star (.chars joins)])).Steady caseless :=
  (steady_all (List.forall_mem_cons.mpr ⟨steady_chars _,
    List.forall_mem_singleton.mpr ((steady_chars _).repeated _)⟩)).repeated _

theorem steady_host : hostTree.Steady caseless :=
  steady_all (List.forall_mem_cons.mpr ⟨steady_label _,
    List.forall_mem_singleton.mpr ((steady_chars _).repeated _)⟩)

theorem steady_domain : domainTree.Steady caseless := by
  have hlabel : (repeated star (all [.chars wordSet, .repeated star (.char '-')])).Steady caseless :=
    (steady_all (List.forall_mem_cons.mpr ⟨steady_chars _,
      List.forall_mem_singleton.mpr ((steady_char _).repeated _)⟩)).repeated _
  exact (steady_all (List.forall_mem_cons.mpr ⟨steady_char '.', List.forall_mem_cons.mpr
    ⟨hlabel, List.forall_mem_singleton.mpr ((steady_chars _).repeated _)⟩⟩)).repeated _

end Fragment

/-- An alternation of nothing but characters. -/
theorem Whitelist.steady_branches (entries : List String) {caseless : Bool} :
    (Fragment.anyOf (branches entries)).Steady caseless := by
  have hletters : ∀ b ∈ branches entries, ∀ p ∈ b, p.IsLetter := by
    intro b hb p hp
    rcases mem_branches hb p hp with rfl | ⟨c, rfl⟩
    · exact .inr ⟨_, rfl⟩
    · exact .inl ⟨c, rfl⟩
  have hitems : ∀ b ∈ branches entries, ∀ p ∈ b, p.isItem = true := by
    intro b hb p hp
    rcases hletters b hb p hp with ⟨c, rfl⟩ | ⟨set, rfl⟩ <;> rfl
  match branches entries, hletters, hitems with
  | [], _, _ => exact nofun
  | [b], hletters, _ =>
    exact Fragment.steady_all fun p hp => (hletters b List.mem_cons_self p hp).steady
  | b :: c :: bs, hletters, hitems =>
    exact steady_of_letters (by simp) hitems (fun b hb p hp => (hletters b hb p hp).steady)
      (b := b) List.mem_cons_self (hletters b List.mem_cons_self)

namespace Options

open Fragment

variable (o : Options)

theorem steady_topLevel : o.topLevelTree.Steady true := by
  unfold topLevelTree
  split
  · exact steady_all (List.forall_mem_singleton.mpr ((steady_chars _).repeated _))
  · exact Whitelist.steady_branches _

/-- So is a host with its top-level domain. -/
theorem steady_hostItems : ∀ p ∈ o.hostItems, p.Steady true :=
  List.forall_mem_cons.mpr ⟨steady_host, List.forall_mem_cons.mpr ⟨steady_domain,
    List.forall_mem_singleton.mpr (steady_all (List.forall_mem_cons.mpr
      ⟨steady_char '.', List.forall_mem_singleton.mpr o.steady_topLevel⟩))⟩⟩

theorem isItem_domain : ∀ b ∈ o.domainItems, ∀ p ∈ b, p.isItem = true :=
  o.forall_domainItems (fun _ => rfl) (by decide) (by decide)
    (List.forall_mem_cons.mpr ⟨rfl, List.forall_mem_cons.mpr ⟨rfl, List.forall_mem_singleton.mpr rfl⟩⟩)

/-- A host opens with a repetition. -/
theorem opens_host : (Pattern.ofItems o.hostItems).Opens true true := by
  have hopens : (Pattern.ofItems [.repeated star (all [.chars wordSet,
      .repeated star (.chars ⟨[('-', '-'), ('_', '_')], false⟩)]),
      .repeated plus (.chars wordSet)]).Opens true true :=
    opens_ofItems (one_repeated _ _) (one_repeated _ _) (starts_repeated (by decide) rfl)
      ((starts_chars wordSet).filled.repeated (by decide))
  have hlabels : hostTree.Starts true true := .bracket hopens.starts
  exact opens_ofItems (one_bracket (List.cons_ne_nil _ _)) (one_repeated _ _) hlabels
    (starts_repeated (by decide) rfl).filled

/-- The domain is steady, a local host or not among its branches. -/
theorem steady_domainItems : (anyOf o.domainItems).Steady true := by
  have hbranches : ∀ b ∈ o.domainItems, ∀ p ∈ b, p.Steady true :=
    o.forall_domainItems steady_char steady_ipv4 steady_ipv6 o.steady_hostItems
  have hitems := o.isItem_domain
  have hhost : o.hostItems ∈ o.domainItems := List.mem_append_right _ (List.mem_singleton_self _)
  by_cases hlocal : o.allowLocalhost = true
  · have hmem : "localhost".toList.map .char ∈ o.domainItems := by
      simp [domainItems, hlocal]
    have hlen : 2 ≤ o.domainItems.length := by
      simp [domainItems, hlocal]
      omega
    refine steady_of_letters hlen hitems hbranches hmem fun p hp => ?_
    obtain ⟨c, -, rfl⟩ := List.mem_map.mp hp
    exact .inl ⟨c, rfl⟩
  · by_cases hipv4 : o.allowIpv4 = true
    · have hlen : 2 ≤ o.domainItems.length := by
        simp [domainItems, hipv4]
        omega
      exact steady_of_opens hlen hitems hbranches hhost (by simp [domainItems, hipv4]) o.opens_host
        opens_ipv4
    · by_cases hipv6 : o.allowIpv6 = true
      · have hlen : 2 ≤ o.domainItems.length := by
          simp [domainItems, hipv6]
          omega
        exact steady_of_opens hlen hitems hbranches hhost (by simp [domainItems, hipv6])
          o.opens_host opens_ipv6
      · have hone : o.domainItems = [o.hostItems] := by
          simp [domainItems, hlocal, hipv4, hipv6]
        rw [hone]
        exact steady_all o.steady_hostItems

/-- **The search prefers the address that the pattern prefers.** -/
theorem steady_tree : o.tree.Steady true := by
  have huser : ∀ p ∈ o.username.items, p.Steady true :=
    List.forall_mem_cons.mpr ⟨steady_chars _, List.forall_mem_singleton.mpr
      (steady_all (List.forall_mem_singleton.mpr ((steady_chars _).repeated _)))⟩
  exact steady_all (List.forall_mem_append.mpr ⟨huser, List.forall_mem_cons.mpr
    ⟨steady_char '@', List.forall_mem_singleton.mpr o.steady_domainItems⟩⟩)

/-- The pattern that is compiled is steady. -/
theorem steady_searched : o.searched.Steady true := by
  unfold searched
  split
  · refine steady_all (List.forall_mem_cons.mpr ⟨nofun, List.forall_mem_cons.mpr
      ⟨o.steady_tree, List.forall_mem_singleton.mpr nofun⟩⟩)
  · exact o.steady_tree

end Options

end MailPattern
