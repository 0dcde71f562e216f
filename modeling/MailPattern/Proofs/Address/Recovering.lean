import MailPattern.Proofs.Address.Entries

/-!
# Proofs — Address — Recovering

Which options a pattern of addresses comes from (`Options.recovering`).  It is put together of texts,
some of which an option may leave out, and of the entries of a whitelist, which may be any texts.  Yet
it can be taken apart again from its beginning on: of the texts that may stand in one place none
begins another (`Apart`), a text that may be left out is followed by one that it does not begin
(`optionalBranch_append_inj`), and an entry never begins with an unescaped bracket as the class of an empty
whitelist and the strict rule do (`Whitelist.head?_pattern`).

So the pattern tells all that it depends on, and of a whitelist the entries in the order in which it
tries them.  That order is told by the entries of each length (`Whitelist.sorted_eq_iff`).
-/

namespace MailPattern

/-! ### Texts in a row -/

/-- Neither text begins the other. -/
def Apart (s t : List Char) : Prop := ¬ s <+: t ∧ ¬ t <+: s

instance (s t : List Char) : Decidable (Apart s t) := inferInstanceAs (Decidable (_ ∧ _))

namespace Apart

variable {s t x y : List Char}

theorem symm (h : Apart s t) : Apart t s := ⟨h.2, h.1⟩

/-- Of two texts that differ early neither begins what begins with the other. -/
theorem not_isPrefix (h : Apart s t) (x : List Char) : ¬ s <+: t ++ x := fun hs =>
  (List.prefix_or_prefix_of_prefix hs (List.prefix_append t x)).elim h.1 h.2

/-- Texts that are apart begin different texts, -/
theorem append_ne (h : Apart s t) (x y : List Char) : s ++ x ≠ t ++ y := fun heq =>
  h.not_isPrefix y (heq ▸ List.prefix_append s x)

/-- which are apart too. -/
theorem append (h : Apart s t) (x y : List Char) : Apart (s ++ x) (t ++ y) :=
  ⟨fun hs => h.not_isPrefix y ((List.prefix_append s x).trans hs),
    fun ht => h.symm.not_isPrefix x ((List.prefix_append t y).trans ht)⟩

end Apart

/-- A branch that may be left out, and the bar after it. -/
def optionalBranch (b : Bool) (s : List Char) : List Char := if b then s ++ ['|'] else []

/-- What may be left out is there or not, if what follows does not begin like it. -/
theorem optionalBranch_append_inj {b b' : Bool} {s x y : List Char} (hx : ¬ s <+: x) (hy : ¬ s <+: y)
    (h : optionalBranch b s ++ x = optionalBranch b' s ++ y) : b = b' ∧ x = y := by
  have hstands (z : List Char) : s <+: optionalBranch true s ++ z := by
    rw [optionalBranch, if_pos rfl, List.append_assoc]
    exact List.prefix_append ..
  cases b <;> cases b'
  · exact ⟨rfl, h⟩
  · exact absurd (h.symm ▸ hstands y : s <+: optionalBranch false s ++ x) hx
  · exact absurd (h ▸ hstands x : s <+: optionalBranch false s ++ y) hy
  · exact ⟨rfl, List.append_cancel_left h⟩

theorem not_isPrefix_optionalBranch {b : Bool} {s t x : List Char} (h : Apart s t) (hx : ¬ s <+: x) :
    ¬ s <+: optionalBranch b t ++ x := by
  cases b
  · exact hx
  · rw [optionalBranch, if_pos rfl, List.append_assoc]
    exact h.not_isPrefix _

theorem toList_intercalate_optionalBranch (b : Bool) (s : String) {rest : List String} (h : rest ≠ []) :
    ("|".intercalate ((if b then [s] else []) ++ rest)).toList =
      optionalBranch b s.toList ++ ("|".intercalate rest).toList := by
  cases b with
  | false => rfl
  | true =>
    obtain ⟨t, rest, rfl⟩ := List.exists_cons_of_ne_nil h
    rw [if_pos rfl, List.singleton_append, String.toList_intercalate, String.toList_intercalate,
      List.map_cons, List.map_cons, List.intercalate_cons_cons]
    rfl

/-! ### Whitelists -/

namespace Whitelist

variable {entries entries' : List String}

/-- Lists in order of length are the same if the texts of each length are. -/
theorem eq_of_filter_eq {l l' : List String}
    (h : l.Pairwise fun a b => b.utf8ByteSize ≤ a.utf8ByteSize)
    (h' : l'.Pairwise fun a b => b.utf8ByteSize ≤ a.utf8ByteSize)
    (heq : ∀ n, l.filter (·.utf8ByteSize == n) = l'.filter (·.utf8ByteSize == n)) : l = l' := by
  have hmem {l l' : List String} (heq : ∀ n, l.filter (·.utf8ByteSize == n) =
      l'.filter (·.utf8ByteSize == n)) {a : String} (ha : a ∈ l) : a ∈ l' := by
    have hfilter : a ∈ l.filter (·.utf8ByteSize == a.utf8ByteSize) :=
      List.mem_filter.mpr ⟨ha, beq_self_eq_true _⟩
    exact (List.mem_filter.mp (heq _ ▸ hfilter)).1
  induction l generalizing l' with
  | nil =>
    cases l' with
    | nil => rfl
    | cons b l' => cases hmem (fun n => (heq n).symm) List.mem_cons_self
  | cons a l ih =>
    cases l' with
    | nil => cases hmem heq List.mem_cons_self
    | cons b l' =>
      have hlong := List.pairwise_cons.mp h
      have hlong' := List.pairwise_cons.mp h'
      -- each first text is among the others, so that neither is longer
      have hle : b.utf8ByteSize ≤ a.utf8ByteSize := by
        rcases List.mem_cons.mp (hmem (fun n => (heq n).symm) List.mem_cons_self) with rfl | hb
        · exact le_rfl
        · exact hlong.1 b hb
      have hge : a.utf8ByteSize ≤ b.utf8ByteSize := by
        rcases List.mem_cons.mp (hmem heq List.mem_cons_self) with rfl | ha
        · exact le_rfl
        · exact hlong'.1 a ha
      have hsize := Nat.le_antisymm hge hle
      have hfirst := heq a.utf8ByteSize
      rw [List.filter_cons, List.filter_cons, if_pos (beq_self_eq_true _),
        if_pos (beq_iff_eq.mpr hsize.symm)] at hfirst
      obtain ⟨rfl, -⟩ := List.cons.inj hfirst
      refine congrArg (a :: ·) (ih hlong.2 hlong'.2 fun n => ?_)
      have hn := heq n
      rw [List.filter_cons, List.filter_cons] at hn
      split at hn
      · exact (List.cons.inj hn).2
      · exact hn

/-- **Two whitelists are tried in the same order exactly if they have, of each length in bytes, the same
entries in the same order.** -/
theorem sorted_eq_iff : sorted entries = sorted entries' ↔
    ∀ n, entries.filter (·.utf8ByteSize == n) = entries'.filter (·.utf8ByteSize == n) := by
  constructor
  · intro h n
    rw [← (longestFirst_sorted entries).stable n, ← (longestFirst_sorted entries').stable n, h]
  · intro h
    refine eq_of_filter_eq (pairwise_sorted entries) (pairwise_sorted entries') fun n => ?_
    rw [(longestFirst_sorted entries).stable n, (longestFirst_sorted entries').stable n, h n]

/-- A text that is escaped does not begin with a bracket, whatever plain text follows it. -/
theorem head?_escape (e : List Char) {rest : List Char} (h : rest.head? ≠ some '[') :
    (e.flatMap escapeChar ++ rest).head? ≠ some '[' := by
  cases e with
  | nil => exact h
  | cons c e =>
    rw [List.flatMap_cons]
    unfold escapeChar
    split
    · rintro ⟨⟩
    · rename_i hc
      rintro ⟨⟩
      exact hc (by decide)

/-- The alternation of some entries does not begin with a bracket. -/
theorem head?_pattern (h : entries ≠ []) {rest : List Char} (hrest : rest.head? ≠ some '[') :
    ((pattern entries).toList ++ rest).head? ≠ some '[' := by
  have hescape : String.toList ∘ escape = fun e => e.toList.flatMap escapeChar :=
    funext fun e => String.toList_ofList
  have hsorted : sorted entries ≠ [] := fun hnil => h (sorted_eq_nil.mp hnil)
  rw [pattern, if_neg (by rwa [List.isEmpty_iff]), String.toList_intercalate, List.map_map, hescape]
  generalize sorted entries = order at hsorted
  cases order with
  | nil => exact absurd rfl hsorted
  | cons e order =>
    cases order with
    | nil =>
      rw [List.map_singleton, List.intercalate_singleton]
      exact head?_escape _ hrest
    | cons e' order =>
      rw [List.map_cons, List.map_cons, List.intercalate_cons_cons, List.append_assoc,
        List.append_assoc]
      exact head?_escape _ (by rintro ⟨⟩)

/-- **The text of a whitelist tells its entries in order**, and whether there are any. -/
theorem pattern_eq_iff : pattern entries = pattern entries' ↔ sorted entries = sorted entries' := by
  have hnever {entries : List String} (h : entries ≠ []) : pattern entries ≠ pattern [] := by
    intro heq
    have hhead : (_ ++ []).head? ≠ some '[' := head?_pattern h (by rintro ⟨⟩)
    rw [heq] at hhead
    exact hhead rfl
  constructor
  · intro h
    by_cases hnil : entries = []
    · subst hnil
      by_cases hnil' : entries' = []
      · rw [hnil']
      · exact absurd h.symm (hnever hnil')
    · by_cases hnil' : entries' = []
      · subst hnil'
        exact absurd h (hnever hnil)
      · have hdecode := congrArg (decode ∘ String.toList) h
        simp only [Function.comp_apply, decode_pattern hnil, decode_pattern hnil'] at hdecode
        exact List.map_injective_iff.mpr (fun _ _ => String.toList_inj.mp) hdecode
  · intro h
    have hempty : entries.isEmpty = entries'.isEmpty := by
      rw [Bool.eq_iff_iff, List.isEmpty_iff, List.isEmpty_iff, ← sorted_eq_nil, h, sorted_eq_nil]
    rw [pattern, pattern, hempty, h]

end Whitelist

/-! ### Options -/

/-- The rules for usernames are told by the text up to the at sign, whatever follows. -/
theorem Username.fragment_append_inj {u u' : Username} {x y : List Char}
    (h : u.fragment.toList ++ '@' :: x = u'.fragment.toList ++ '@' :: y) : u = u' ∧ x = y := by
  have hapart : ∀ u u' : Username, u = u' ∨ Apart u.fragment.toList u'.fragment.toList := by
    intro u u'
    cases u <;> cases u' <;> first | exact .inl rfl | exact .inr (by decide +kernel)
  rcases hapart u u' with rfl | hapart
  · exact ⟨rfl, (List.cons.inj (List.append_cancel_left h)).2⟩
  · exact absurd h (hapart.append_ne _ _)

namespace Options

variable {o o' : Options}

/-- The strict rule and a whitelist are told apart, and the whitelists by their order. -/
theorem topLevelPattern_eq_iff : o.topLevelPattern = o'.topLevelPattern ↔
    o.strict = true ∧ o'.strict = true ∨ o.strict = false ∧ o'.strict = false ∧
      Whitelist.sorted o.topLevelDomains = Whitelist.sorted o'.topLevelDomains := by
  -- the strict rule begins with another class than that of an empty whitelist, and no entry with a class
  have hstrict (entries : List String) :
      Fragment.strictTopLevel ≠ "(?:" ++ Whitelist.pattern entries ++ ")" := by
    intro h
    by_cases hnil : entries = []
    · subst hnil
      exact absurd h (by decide +kernel)
    · replace h := congrArg String.toList h
      rw [String.toList_append, String.toList_append, List.append_assoc] at h
      obtain ⟨rule, hrule⟩ : ∃ rule, Fragment.strictTopLevel.toList = "(?:".toList ++ '[' :: rule :=
        ⟨Fragment.strictTopLevel.toList.drop 4, by decide +kernel⟩
      rw [hrule] at h
      have hhead : (_ ++ ")".toList).head? ≠ some '[' := Whitelist.head?_pattern hnil (by rintro ⟨⟩)
      rw [← List.append_cancel_left h] at hhead
      exact hhead rfl
  unfold topLevelPattern
  cases o.strict <;> cases o'.strict
  · simp [Whitelist.pattern_eq_iff]
  · simpa using (hstrict _).symm
  · simpa using hstrict _
  · simp

/-- The text of the domains is that of their branches, those in that are selected. -/
theorem toList_domainBranches (o : Options) : ("|".intercalate o.domainBranches).toList =
    optionalBranch o.allowLocalhost Fragment.localhost.toList ++
      (optionalBranch o.allowIpv4 Fragment.ipv4.toList ++
        (optionalBranch o.allowIpv6 Fragment.ipv6.toList ++
          (Fragment.host.toList ++ (Fragment.domain.toList ++
            (r"(?:\.".toList ++ (o.topLevelPattern.toList ++ ")".toList)))))) := by
  have hsingle (s : String) : "|".intercalate [s] = s := rfl
  rw [domainBranches, List.append_assoc, List.append_assoc, toList_intercalate_optionalBranch _ _ (by simp),
    toList_intercalate_optionalBranch _ _ (by simp), toList_intercalate_optionalBranch _ _ (by simp), hsingle]
  simp only [String.toList_append, List.append_assoc]

/-- The pattern taken apart. -/
theorem toList_pattern (o : Options) : o.pattern.toList = "(?:".toList ++ (o.username.fragment.toList ++
    '@' :: ("(?:".toList ++ (("|".intercalate o.domainBranches).toList ++ "))".toList))) := by
  have hat : "@(?:".toList = '@' :: "(?:".toList := rfl
  rw [pattern]
  simp only [String.toList_append, List.append_assoc, hat, List.cons_append]

/-- The options select the same rules, so far as an address is concerned. -/
structure SameRules (o o' : Options) : Prop where
  username : o.username = o'.username
  localhost : o.allowLocalhost = o'.allowLocalhost
  ipv4 : o.allowIpv4 = o'.allowIpv4
  ipv6 : o.allowIpv6 = o'.allowIpv6
  topLevel : o.strict = true ∧ o'.strict = true ∨ o.strict = false ∧ o'.strict = false ∧
    Whitelist.sorted o.topLevelDomains = Whitelist.sorted o'.topLevelDomains

/-- The branches of a domain begin differently. -/
theorem apart_branches : [Fragment.localhost.toList, Fragment.ipv4.toList, Fragment.ipv6.toList,
    Fragment.host.toList].Pairwise Apart := by
  obtain ⟨w, hw⟩ : ∃ w, Fragment.localhost.toList = "l".toList ++ w := ⟨_, rfl⟩
  obtain ⟨x, hx⟩ : ∃ x, Fragment.ipv4.toList = "(?:2".toList ++ x := by
    rw [Fragment.ipv4, Fragment.octet, String.toList_append, String.toList_append]
    exact ⟨_, rfl⟩
  obtain ⟨y, hy⟩ : ∃ y, Fragment.ipv6.toList = "(?:(?:[a-f".toList ++ y := by
    simp only [Fragment.ipv6, Fragment.groupsThen, Fragment.hexGroup, String.toList_append,
      String.toList_intercalate, List.map_cons, List.intercalate_cons_cons, List.append_assoc]
    exact ⟨_, rfl⟩
  obtain ⟨z, hz⟩ : ∃ z, Fragment.host.toList = "(?:(?:[a-z".toList ++ z := ⟨_, rfl⟩
  have happart : ["l".toList, "(?:2".toList, "(?:(?:[a-f".toList, "(?:(?:[a-z".toList].Pairwise Apart := by
    decide +kernel
  rw [hw, hx, hy, hz]
  simp only [List.pairwise_cons, List.forall_mem_cons] at happart ⊢
  obtain ⟨⟨hlx, hly, hlz, -⟩, ⟨hxy, hxz, -⟩, ⟨hyz, -⟩, -⟩ := happart
  exact ⟨⟨hlx.append _ _, hly.append _ _, hlz.append _ _, List.forall_mem_nil _⟩,
    ⟨hxy.append _ _, hxz.append _ _, List.forall_mem_nil _⟩, ⟨hyz.append _ _, List.forall_mem_nil _⟩,
    List.forall_mem_nil _, .nil⟩

/-- A pattern tells the rules. -/
theorem SameRules.of_pattern (h : o.pattern = o'.pattern) : SameRules o o' := by
  replace h := congrArg String.toList h
  rw [toList_pattern, toList_pattern] at h
  obtain ⟨husername, h⟩ := Username.fragment_append_inj (List.append_cancel_left h)
  replace h := List.append_cancel_right (List.append_cancel_left h)
  rw [toList_domainBranches, toList_domainBranches] at h
  obtain ⟨hlocalhost, hbranches⟩ := List.pairwise_cons.mp apart_branches
  obtain ⟨hipv4, hbranches⟩ := List.pairwise_cons.mp hbranches
  obtain ⟨hipv6, -⟩ := List.pairwise_cons.mp hbranches
  simp only [List.forall_mem_cons] at hlocalhost hipv4 hipv6
  -- what follows a branch that may be left out begins with a later one
  obtain ⟨hallow, h⟩ := optionalBranch_append_inj
    (not_isPrefix_optionalBranch hlocalhost.1 (not_isPrefix_optionalBranch hlocalhost.2.1
      (hlocalhost.2.2.1.not_isPrefix _)))
    (not_isPrefix_optionalBranch hlocalhost.1 (not_isPrefix_optionalBranch hlocalhost.2.1
      (hlocalhost.2.2.1.not_isPrefix _))) h
  obtain ⟨hallow4, h⟩ := optionalBranch_append_inj
    (not_isPrefix_optionalBranch hipv4.1 (hipv4.2.1.not_isPrefix _))
    (not_isPrefix_optionalBranch hipv4.1 (hipv4.2.1.not_isPrefix _)) h
  obtain ⟨hallow6, h⟩ := optionalBranch_append_inj (hipv6.1.not_isPrefix _) (hipv6.1.not_isPrefix _) h
  replace h := List.append_cancel_left (List.append_cancel_left (List.append_cancel_left h))
  exact ⟨husername, hallow, hallow4, hallow6,
    topLevelPattern_eq_iff.mp (String.toList_inj.mp (List.append_cancel_right h))⟩

/-- The same rules make the same pattern. -/
theorem SameRules.pattern (h : SameRules o o') : o.pattern = o'.pattern := by
  rw [Options.pattern, Options.pattern, domainBranches, domainBranches, h.username, h.localhost, h.ipv4,
    h.ipv6, topLevelPattern_eq_iff.mpr h.topLevel]

/-- **The pattern tells the rules that the options select and nothing else**: two options have the same
pattern exactly if they select the same rules, and of their whitelists, unless both are strict, the
entries of each length in bytes are the same and in the same order. -/
theorem recovering (o o' : Options) : (o.pattern = o'.pattern ↔ SameRules o o') ∧
    (Whitelist.sorted o.topLevelDomains = Whitelist.sorted o'.topLevelDomains ↔
      ∀ n, o.topLevelDomains.filter (·.utf8ByteSize == n) =
        o'.topLevelDomains.filter (·.utf8ByteSize == n)) :=
  ⟨⟨.of_pattern, fun h => h.pattern⟩, Whitelist.sorted_eq_iff⟩

end Options

end MailPattern
