import MailPattern.Proofs.Address.Compiled

/-!
# Proofs — Address — Shape

The shape of a pattern of an address.  Whatever strings a whitelist holds, both dialects read the
pattern as a username, an at sign and one alternation of domains, and the whitelist in it as one
branch for each of its entries (`Options.shaped`).  So nothing in an entry opens a bracket, ends a
branch or is taken for more than the characters that it is made of.

An alternation is taken apart again by `Pattern.branches`, which tells how many branches it has
and which they are.
-/

namespace MailPattern

namespace Pattern

/-! ### Alternations taken apart -/

/-- The branches of an alternation; what is no alternation is its only branch. -/
def branches : Pattern → List Pattern
  | .alt p q => p :: q.branches
  | p => [p]

theorem branches_of_not_isAlt {p : Pattern} (h : p.isAlt = false) : p.branches = [p] := by
  cases p with
  | alt => cases h
  | _ => rfl

theorem branches_ofBranches {ps : List Pattern} (hne : ps ≠ []) (h : ∀ p ∈ ps, p.isAlt = false) :
    (ofBranches ps).branches = ps := by
  induction ps with
  | nil => exact absurd rfl hne
  | cons p ps ih =>
    obtain ⟨hp, hps⟩ := List.forall_mem_cons.mp h
    cases ps with
    | nil => exact branches_of_not_isAlt hp
    | cons q qs => exact congrArg (p :: ·) (ih (List.cons_ne_nil q qs) hps)

theorem isAlt_ofItems {ps : List Pattern} (h : ∀ p ∈ ps, p.isAlt = false) :
    (ofItems ps).isAlt = false := by
  match ps with
  | [] => rfl
  | [p] => exact h p (List.mem_singleton_self p)
  | _ :: _ :: _ => rfl

/-- The branches of an alternation in brackets are the sequences it was made of. -/
theorem branches_anyOf {items : List (List Pattern)} (hne : items ≠ [])
    (h : ∀ b ∈ items, ∀ p ∈ b, p.isAlt = false) :
    (ofBranches (items.map ofItems)).branches = items.map ofItems :=
  branches_ofBranches (fun hnil => hne (List.map_eq_nil_iff.mp hnil)) fun p hp => by
    obtain ⟨b, hb, rfl⟩ := List.mem_map.mp hp
    exact isAlt_ofItems (h b hb)

/-! ### Nothing is remembered -/

/-- The pattern remembers no group, looks around for nothing and recalls nothing. -/
def isForgetful : Pattern → Bool
  | .empty | .char _ | .chars _ | .start | .stop => true
  | .cat p q | .alt p q => p.isForgetful && q.isForgetful
  | .group none p | .repeated _ p => p.isForgetful
  | .group (some _) _ | .look .. | .recall _ => false

theorem isForgetful_all {items : List Pattern} (h : ∀ p ∈ items, p.isForgetful = true) :
    (Fragment.all items).isForgetful = true :=
  @forall_ofItems (·.isForgetful = true) rfl
    (fun hp hq => Bool.and_eq_true_iff.mpr ⟨hp, hq⟩) items h

theorem isForgetful_anyOf {branches : List (List Pattern)}
    (h : ∀ b ∈ branches, ∀ p ∈ b, p.isForgetful = true) :
    (Fragment.anyOf branches).isForgetful = true :=
  @forall_ofBranches (·.isForgetful = true) rfl
    (fun hp hq => Bool.and_eq_true_iff.mpr ⟨hp, hq⟩) _ fun p hp => by
      obtain ⟨b, hb, rfl⟩ := List.mem_map.mp hp
      exact isForgetful_all (h b hb)

/-! ### Both dialects -/

/-- Both dialects read the text as the sequence of the items. -/
def ReadAs (s : String) (items : List Pattern) : Prop := ∀ d, read? d s = some (ofItems items)

theorem ReadAs.of_written {s : String} {items : List Pattern} {k : Nat} (h : ∀ d, Written d s items k)
    (hk : k ≤ 63) (hdepth : (ofItems items).depth ≤ maxDepth) : ReadAs s items := fun d =>
  (h d).read (hk.trans (by cases d <;> decide)) hdepth

end Pattern

open Pattern

/-! ### The whitelist -/

namespace Options

variable (o : Options)

/-- What stands for a top-level domain: the rule by form; or in brackets a class that holds no
character, if there are no entries, and otherwise a branch for each entry, as its characters. -/
def ShapesTopLevel (top : Pattern) : Prop :=
  if o.strict then ReadAs Fragment.strictTopLevel [top]
  else ∃ p, top = .group none p ∧
    if o.topLevelDomains = [] then
      ∃ set, p = .chars set ∧ ∀ caseless c, set.admits (CharSet.reading caseless c) = false
    else ∃ entries : List String, entries.Perm o.topLevelDomains ∧
      p.branches = entries.map fun e => literal e.toList

/-- The tree of a top-level domain has the shape that the options ask for. -/
theorem shapesTopLevel_topLevelTree : o.ShapesTopLevel o.topLevelTree := by
  unfold ShapesTopLevel topLevelTree
  split
  · exact .of_written Fragment.written_strict (by decide) (by decide)
  · refine ⟨_, rfl, ?_⟩
    split
    · rename_i h
      rw [h]
      exact ⟨_, rfl, CharSet.not_admits_never⟩
    · rename_i h
      have hsorted : (Whitelist.sorted o.topLevelDomains).Perm o.topLevelDomains :=
        List.mergeSort_perm ..
      have hbranches : Whitelist.branches o.topLevelDomains =
          (Whitelist.sorted o.topLevelDomains).map fun e => e.toList.map .char :=
        if_neg (mt List.isEmpty_iff.mp h)
      refine ⟨_, hsorted, ?_⟩
      rw [hbranches, branches_anyOf]
      · exact List.map_map
      · exact fun hnil => h (List.Perm.nil_eq (List.map_eq_nil_iff.mp hnil ▸ hsorted)).symm
      · intro b hb p hp
        obtain ⟨e, -, rfl⟩ := List.mem_map.mp hb
        obtain ⟨c, -, rfl⟩ := List.mem_map.mp hp
        rfl

theorem isForgetful_topLevelTree : o.topLevelTree.isForgetful = true := by
  unfold topLevelTree
  split
  · decide
  · refine isForgetful_anyOf fun b hb p hp => ?_
    rcases Whitelist.mem_branches hb p hp with rfl | ⟨c, rfl⟩ <;> rfl

/-! ### The whole pattern -/

/-- A username of the options, an at sign and domains in brackets. -/
def addressTree (domains : Pattern) : Pattern :=
  Fragment.all (o.username.items ++ [.char '@', .group none domains])

/-- The pattern of the options is read as an address with the domains, and the last of these as a
host with the top-level domain. -/
structure Shape (domains top : Pattern) : Prop where
  pattern : ReadAs o.pattern [o.addressTree domains]
  anchored : ReadAs (anchored o.pattern) [Fragment.all [.start, o.addressTree domains, .stop]]
  /-- The domains that are allowed, in this order, are the branches, and there are no others. -/
  branches : domains.branches =
    ((if o.allowLocalhost then ["localhost".toList.map Pattern.char] else []) ++
      (if o.allowIpv4 then [Fragment.ipv4Items] else []) ++
      (if o.allowIpv6 then [Fragment.ipv6Items] else []) ++
      [[Fragment.hostTree, Fragment.domainTree, Fragment.all [.char '.', top]]]).map Pattern.ofItems
  topLevel : o.ShapesTopLevel top
  forgetful : (o.addressTree domains).isForgetful = true
  /-- Each fragment is read by itself as it is read in the pattern. -/
  username : ReadAs o.username.fragment o.username.items
  localhost : ReadAs Fragment.localhost ("localhost".toList.map .char)
  ipv4 : ReadAs Fragment.ipv4 Fragment.ipv4Items
  ipv6 : ReadAs Fragment.ipv6 Fragment.ipv6Items
  host : ReadAs (Fragment.host ++ Fragment.domain) [Fragment.hostTree, Fragment.domainTree]

/-- The tree of an address remembers nothing. -/
theorem isForgetful_tree : o.tree.isForgetful = true := by
  have huser : ∀ p ∈ o.username.items, p.isForgetful = true := by
    cases o.username <;> decide
  have hhost : ∀ p ∈ o.hostItems, p.isForgetful = true :=
    List.forall_mem_cons.mpr ⟨by decide, List.forall_mem_cons.mpr ⟨by decide,
      List.forall_mem_singleton.mpr (isForgetful_all (List.forall_mem_cons.mpr
        ⟨rfl, List.forall_mem_singleton.mpr o.isForgetful_topLevelTree⟩))⟩⟩
  have hdomain : (Fragment.anyOf o.domainItems).isForgetful = true :=
    isForgetful_anyOf (o.forall_domainItems (fun _ => rfl) (by decide) (by decide +kernel) hhost)
  exact isForgetful_all (List.forall_mem_append.mpr ⟨huser, List.forall_mem_cons.mpr
    ⟨rfl, List.forall_mem_singleton.mpr hdomain⟩⟩)

theorem branches_domainItems :
    (ofBranches (o.domainItems.map Pattern.ofItems)).branches = o.domainItems.map Pattern.ofItems := by
  refine branches_anyOf (by simp [domainItems]) ?_
  refine o.forall_domainItems (fun _ => rfl) (by decide) (by decide) ?_
  exact List.forall_mem_cons.mpr ⟨rfl, List.forall_mem_cons.mpr ⟨rfl,
    List.forall_mem_singleton.mpr rfl⟩⟩

/-- **A pattern is read as a username, an at sign and one alternation of domains**, whatever strings
the whitelist holds. -/
theorem shaped : ∃ domains top, o.Shape domains top :=
  ⟨ofBranches (o.domainItems.map Pattern.ofItems), o.topLevelTree,
    { pattern := o.read_pattern
      anchored := o.read_anchored
      branches := o.branches_domainItems
      topLevel := o.shapesTopLevel_topLevelTree
      forgetful := o.isForgetful_tree
      username := .of_written (fun d => o.username.written_fragment d) (by decide)
        (by cases o.username <;> decide)
      localhost := .of_written Fragment.written_localhost (by decide) (by decide)
      ipv4 := .of_written Fragment.written_ipv4 (by decide) (by decide)
      ipv6 := .of_written Fragment.written_ipv6 (by decide) (by decide +kernel)
      host := .of_written (fun d => (Fragment.written_host d).append (Fragment.written_domain d))
        (by decide) (by decide) }⟩

end Options

end MailPattern
