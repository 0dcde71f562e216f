import MailPattern.Proofs.Address.Compiled
import MailPattern.Proofs.Address.Groups
import MailPattern.Proofs.Pattern.Greedy

/-!
# Proofs — Address — Longest

The fragments of a domain take as much as they can: an IPv4 address, an IPv6 address with its zone,
and the labels of a host are greedy patterns.  So a search takes the longest prefix that passes the
test of the fragment, or the longest that the rest of the pattern can follow.

What separates the parts is found in none of them, and this decides most cases.  The branches of
an IPv6 address exclude each other, since they count the groups before a double colon.
-/

namespace MailPattern

theorem Pattern.Simple.textual {p : Pattern} (h : p.Simple) : p.Textual := ⟨h.free, h.fits⟩

namespace Grammar

open Pattern Fragment

variable {text : List Char} {p : Pattern} {c : Count} {sep : Char}

/-! ### Separated parts -/

/-- What is repeated behind a separator begins with the separator. -/
theorem eq_of_spelled_after (hsep : sep.toNat < 0x41 ∨ sep.toNat = 0x5f) {a : Char} {v : List Char}
    (h : (repeated c (all [.char sep, p])).Spelled (a :: v)) : a = sep := by
  obtain ⟨words, -, -, h⟩ := (spelled_repeated_after hsep).mp h
  cases words with
  | nil => cases h
  | cons w words => exact (List.cons.inj h).1

/-- Parts after separators, as often as possible. -/
theorem greedy_after (hsep : sep.toNat < 0x41 ∨ sep.toNat = 0x5f) (hg : c.greedy = true)
    (ht : (all [.char sep, p]).Textual) (hp : p.Greedy) (hno : ∀ w, p.Spelled w → sep ∉ w) :
    (repeated c (all [.char sep, p])).Greedy := by
  have hleads : (all [.char sep, p]).Leads (· = sep) := by
    intro w hw
    obtain ⟨v, rfl, hv⟩ := (spelled_ofItems_char hsep).mp hw
    exact ⟨sep, v, rfl, rfl, fun d hd h => hno v hv (h ▸ hd)⟩
  refine Greedy.repeated ?_ (hleads.clear ht) hg
  exact (prefixFree_char sep).greedy_cons ⟨rfl, nofun⟩ hp

/-- An alternation is greedy if its branches are and each takes no less than those after it. -/
theorem greedy_anyOf {branches : List (List Pattern)} (hne : branches ≠ [])
    (hg : ∀ b ∈ branches, (ofItems b).Greedy) (ht : ∀ b ∈ branches, (ofItems b).Textual)
    (h : branches.Pairwise fun b b' => (ofItems b).Bounds (ofItems b')) :
    (anyOf branches).Greedy :=
  greedy_ofBranches (fun h => hne (List.map_eq_nil_iff.mp h)) (List.forall_mem_map.mpr hg)
    (List.forall_mem_map.mpr ht) (List.pairwise_map.mpr h)

/-! ### IPv4 addresses -/

/-- Branches of single characters, the longer ones first. -/
theorem greedy_of_lengths {branches : List (List Pattern)} (hne : branches ≠ [])
    (hsingle : ∀ b ∈ branches, ∀ p ∈ b, (∃ c, p = .char c) ∨ ∃ set, p = .chars set)
    (ht : ∀ b ∈ branches, (ofItems b).Textual)
    (h : branches.Pairwise fun b b' => b'.length ≤ b.length) : (anyOf branches).Greedy := by
  have hlen : ∀ ps : List Pattern, (∀ p ∈ ps, (∃ c, p = .char c) ∨ ∃ set, p = .chars set) →
      ∀ w, (ofItems ps).Spelled w → w.length = ps.length := by
    intro ps
    induction ps with
    | nil => exact fun _ w hw => List.length_eq_zero_iff.mpr (spelled_empty.mp hw)
    | cons p ps ih =>
      intro hps w hw
      obtain ⟨hp, hps⟩ := List.forall_mem_cons.mp hps
      obtain ⟨u, v, rfl, hu, hv⟩ := spelled_ofItems_cons.mp hw
      have hone : u.length = 1 := by
        rcases hp with ⟨c, rfl⟩ | ⟨set, rfl⟩
        · obtain ⟨a, rfl, -⟩ := spelled_char.mp hu
          rfl
        · obtain ⟨a, rfl, -⟩ := spelled_chars.mp hu
          rfl
      rw [List.length_append, hone, ih hps v hv, List.length_cons, Nat.add_comm]
  refine greedy_anyOf hne (fun b hb => ?_) ht (h.imp_of_mem fun hb hb' hle => ?_)
  · exact (prefixFree_of_length (hlen b (hsingle b hb))).greedy (ht b hb)
  · exact bounds_of_length (hlen _ (hsingle _ hb)) (hlen _ (hsingle _ hb')) hle

/-- Longer numbers come before shorter ones. -/
theorem greedy_octet : octetTree.Greedy := by
  refine greedy_of_lengths (List.cons_ne_nil _ _) ?_ (fun b hb => Simple.textual ?_) (by decide)
  · simp [digits]
  · revert b
    decide

/-- An IPv4 address takes as much as it can. -/
theorem greedy_ipv4 : (ofItems ipv4Items).Greedy := by
  have hrest : (repeated (exactly 3) (all [.char '.', octetTree])).Greedy :=
    greedy_after (.inl (by decide)) rfl (Simple.textual (by decide)) greedy_octet
      fun w hw => dot_not_mem_octet (spelled_octet.mp hw)
  refine greedy_cons_of_apart greedy_octet (Simple.textual (by decide)) hrest
    (Simple.textual (by decide)) (C := fun c => c.isDigit = true) (fun w hw c hc => ?_) ?_
  · exact isDigit_of_isOctet (spelled_octet.mp hw) hc
  · intro c v h
    rw [eq_of_spelled_after (.inl (by decide)) h]
    decide

/-! ### Hosts -/

theorem isWord_eq_false {c : Char} (hc : c = '-' ∨ c = '_') : isWord c = false := by
  rw [← Bool.not_eq_true, isWord, wordSet, CharSet.has_uncased (uncased_ascii _)]
  · rcases hc with rfl | rfl <;> decide
  · rcases hc with rfl | rfl <;> decide

/-- A label takes as much as it can. -/
theorem greedy_label (joins : List Char) (hj : ∀ c ∈ joins, isWord c = false)
    (hp : ∀ w, (repeated star p).Spelled w ↔ ∀ a ∈ w, a ∈ joins) (hg : (repeated star p).Greedy)
    (ht : (all [.chars wordSet, .repeated star p]).Textual)
    (ht' : (repeated star (all [.chars wordSet, .repeated star p])).Textual) :
    (ofItems [.repeated star (all [.chars wordSet, .repeated star p]),
      .repeated plus (.chars wordSet)]).Greedy := by
  have hleads : (all [.chars wordSet, .repeated star p]).Leads fun c => isWord c = true := by
    intro w hw
    obtain ⟨c, rest, rfl, -⟩ := spelled_ofItems_chars.mp hw
    obtain ⟨hc, hrest⟩ := (spelled_words hp).mp hw
    refine ⟨c, rest, rfl, hc, fun d hd h => ?_⟩
    exact absurd ((hj d (hrest d hd)).symm.trans h) (by decide)
  have hwords : (repeated star (all [.chars wordSet, .repeated star p])).Greedy :=
    Greedy.repeated ((prefixFree_chars wordSet).greedy_cons ⟨rfl, nofun⟩ hg) (hleads.clear ht) rfl
  refine greedy_cons_of_suffix hwords ht' (greedy_repeated_chars wordSet rfl)
    (Simple.textual (by decide)) fun u v h hv => ?_
  exact spelled_plus.mpr ⟨hv, fun a ha => (spelled_plus.mp h).2 a (List.mem_append_right u ha)⟩

/-- The first label takes all word characters and joins that end in a word character. -/
theorem greedy_hostTree : hostTree.Greedy :=
  greedy_label ['-', '_'] (by simp [isWord_eq_false])
    (fun _ => spelled_joins ['-', '_'] (by decide)) (greedy_repeated_chars _ rfl)
    (Simple.textual (by decide)) (Simple.textual (by decide))

/-- So do further labels, each behind its dot. -/
theorem greedy_domainTree : domainTree.Greedy := by
  have hjoins : ∀ w, (repeated star (.char '-')).Spelled w ↔ ∀ a ∈ w, a ∈ ['-'] :=
    fun _ => spelled_joins ['-'] (by decide)
  have hlabel := greedy_label ['-'] (by simp [isWord_eq_false]) hjoins
    (Greedy.repeated ((prefixFree_char '-').greedy ⟨rfl, nofun⟩)
      ((prefixFree_char '-').clear ⟨rfl, nofun⟩) rfl)
    (Simple.textual (by decide)) (Simple.textual (by decide))
  exact greedy_after (.inl (by decide)) rfl (Simple.textual (by decide)) hlabel
    fun w hw => dot_not_mem_label (by decide) ((spelled_label hjoins).mp hw)

theorem textual_host : (ofItems [hostTree, domainTree]).Textual := Simple.textual (by decide)

/-- The labels of a host take as much as they can. -/
theorem greedy_host : (ofItems [hostTree, domainTree]).Greedy := by
  refine greedy_cons_of_apart greedy_hostTree (Simple.textual (by decide)) greedy_domainTree
    (Simple.textual (by decide)) (C := (· ≠ '.')) (fun w hw c hc h => ?_) ?_
  · have hlabel := (spelled_label fun _ => spelled_joins ['-', '_'] (by decide)).mp hw
    exact dot_not_mem_label (by decide) hlabel (h ▸ hc)
  · intro c v h
    exact not_not.mpr (eq_of_spelled_after (.inl (by decide)) h)

/-! ### IPv6 addresses -/

theorem greedy_hex : hexTree.Greedy := greedy_repeated_chars _ rfl

/-- Groups behind colons are taken as long as there are any. -/
theorem greedy_colons (least most : Nat) : (colonTree least most).Greedy :=
  greedy_after (.inl (by decide)) rfl (Simple.textual (by decide)) greedy_hex
    fun w hw => colon_not_mem_group (spelled_hex.mp hw)

/-- A colon and an IPv4 address after groups. -/
theorem greedy_embedded {most : Nat} (h : (colonTree 0 most).Fits) :
    (ofItems (colonTree 0 most :: .char ':' :: ipv4Items)).Greedy := by
  have ht : (ofItems (.char ':' :: ipv4Items)).Textual := Simple.textual (by decide)
  refine greedy_cons_of_leads (greedy_colons 0 most) ⟨rfl, h⟩
    ((prefixFree_char ':').greedy_cons ⟨rfl, nofun⟩ greedy_ipv4) ht (D := (· = ':')) fun w hw => ?_
  obtain ⟨v, rfl, hv⟩ := (spelled_ofItems_char (.inl (by decide))).mp hw
  exact ⟨':', v, rfl, rfl, fun d hd h => colon_not_mem_ipv4 (spelled_ipv4.mp hv) (h ▸ hd)⟩

/-- What is never empty bounds a single colon. -/
theorem bounds_colon (hp : ∀ w, p.Spelled w → w ≠ []) : p.Bounds (ofItems [.char ':']) := by
  intro u v hu huv
  have hlen := congrArg List.length (spelled_colon.mp huv)
  have := List.length_pos_of_ne_nil (hp u hu)
  rw [List.length_append, List.length_singleton] at hlen
  exact List.length_eq_zero_iff.mp (by omega)

/-- Groups do not go on after an IPv4 address. -/
theorem bounds_colons {least most : Nat} (hp : ∀ w, p.Spelled w → '.' ∈ w) :
    p.Bounds (colonTree least most) := by
  intro u v hu huv
  obtain ⟨gs, -, hgs, h⟩ := spelled_colons.mp huv
  have hdot : '.' ∈ gs.flatMap (':' :: ·) := h ▸ List.mem_append_left v (hp u hu)
  obtain ⟨g, hg, hmem⟩ := List.mem_flatMap.mp hdot
  rcases List.mem_cons.mp hmem with h | hmem
  · cases h
  · exact absurd ((isGroup_iff.mp (hgs g hg)).2 '.' hmem) (by decide)

theorem mem_colon_ipv4 {w : List Char} (h : (ofItems (.char ':' :: ipv4Items)).Spelled w) :
    '.' ∈ w := by
  obtain ⟨v, rfl, hv⟩ := (spelled_ofItems_char (.inl (by decide))).mp h
  exact List.mem_cons_of_mem _ (mem_ipv4 (spelled_ipv4.mp hv)).1

/-- An address in dots has a dot, whatever stands before it. -/
theorem mem_embedded {most : Nat} {w : List Char}
    (h : (ofItems (colonTree 0 most :: .char ':' :: ipv4Items)).Spelled w) : '.' ∈ w := by
  obtain ⟨u, v, rfl, -, hv⟩ := spelled_ofItems_cons.mp h
  exact List.mem_append_right u (mem_colon_ipv4 hv)

theorem ne_nil_of_colons {least most : Nat} (hl : 0 < least) {w : List Char}
    (h : (colonTree least most).Spelled w) : w ≠ [] := by
  obtain ⟨gs, hlen, -, rfl⟩ := spelled_colons.mp h
  obtain ⟨g, gs, rfl⟩ := List.exists_cons_of_ne_nil (List.ne_nil_of_length_pos (hl.trans_le hlen.1))
  exact List.cons_ne_nil _ _

theorem greedy_colon : (ofItems [.char ':']).Greedy := (prefixFree_char ':').greedy ⟨rfl, nofun⟩

/-- What follows fewer groups than five takes as much as it can. -/
theorem greedy_rest {m : Nat} (h : (colonTree 0 (m - 2)).Fits) (h' : (colonTree 1 m).Fits) :
    (anyOf (restBranches m)).Greedy := by
  refine greedy_anyOf (List.cons_ne_nil _ _) ?_ ?_ ?_
  · exact List.forall_mem_cons.mpr ⟨greedy_embedded h, List.forall_mem_cons.mpr
      ⟨greedy_colons 1 m, List.forall_mem_singleton.mpr greedy_colon⟩⟩
  · refine List.forall_mem_cons.mpr ⟨⟨rfl, List.forall_mem_append.mpr ⟨h, ?_⟩⟩,
      List.forall_mem_cons.mpr ⟨⟨rfl, h'⟩, List.forall_mem_singleton.mpr ⟨rfl, nofun⟩⟩⟩
    exact (show (ofItems (.char ':' :: ipv4Items)).Fits by decide)
  · simp only [restBranches, List.pairwise_cons, List.forall_mem_cons, List.not_mem_nil,
      false_imp_iff, implies_true, List.Pairwise.nil, and_true]
    exact ⟨⟨bounds_colons fun _ => mem_embedded,
      bounds_colon fun _ hw => List.ne_nil_of_mem (mem_embedded hw)⟩,
      bounds_colon fun _ => ne_nil_of_colons Nat.one_pos⟩

/-- The rest after five groups takes as much as it can. -/
theorem greedy_rest₅ :
    (anyOf [.char ':' :: ipv4Items, [colonTree 1 2], [.char ':']]).Greedy := by
  refine greedy_anyOf (List.cons_ne_nil _ _) ?_ (fun b hb => Simple.textual ?_) ?_
  · exact List.forall_mem_cons.mpr ⟨(prefixFree_char ':').greedy_cons ⟨rfl, nofun⟩ greedy_ipv4,
      List.forall_mem_cons.mpr ⟨greedy_colons 1 2, List.forall_mem_singleton.mpr greedy_colon⟩⟩
  · revert b
    decide
  · simp only [List.pairwise_cons, List.forall_mem_cons, List.not_mem_nil,
      false_imp_iff, implies_true, List.Pairwise.nil, and_true]
    exact ⟨⟨bounds_colons fun _ => mem_colon_ipv4,
      bounds_colon fun _ hw => List.ne_nil_of_mem (mem_colon_ipv4 hw)⟩,
      bounds_colon fun _ => ne_nil_of_colons Nat.one_pos⟩

/-- So does that after six. -/
theorem greedy_rest₆ : (anyOf [ipv4Items, [.char ':', hexTree], [.char ':']]).Greedy := by
  have hipv4 : ∀ w, (ofItems ipv4Items).Spelled w → w ≠ [] := fun w hw =>
    ne_nil_of_isIpv4 (spelled_ipv4.mp hw)
  refine greedy_anyOf (List.cons_ne_nil _ _) ?_ (fun b hb => Simple.textual ?_) ?_
  · exact List.forall_mem_cons.mpr ⟨greedy_ipv4, List.forall_mem_cons.mpr
      ⟨(prefixFree_char ':').greedy_cons ⟨rfl, nofun⟩ greedy_hex,
        List.forall_mem_singleton.mpr greedy_colon⟩⟩
  · revert b
    decide
  · simp only [List.pairwise_cons, List.forall_mem_cons, List.not_mem_nil,
      false_imp_iff, implies_true, List.Pairwise.nil, and_true]
    refine ⟨⟨fun u v hu huv => ?_, bounds_colon hipv4⟩, bounds_colon fun w hw => ?_⟩
    · obtain ⟨w, h, -⟩ := (spelled_ofItems_char (.inl (by decide))).mp huv
      obtain ⟨a, u, rfl⟩ := List.exists_cons_of_ne_nil (hipv4 u hu)
      obtain rfl := (List.cons.inj h).1
      exact absurd List.mem_cons_self (colon_not_mem_ipv4 (spelled_ipv4.mp hu))
    · obtain ⟨v, rfl, -⟩ := (spelled_ofItems_char (.inl (by decide))).mp hw
      exact List.cons_ne_nil _ _

/-- And that after seven. -/
theorem greedy_rest₇ : (anyOf [[hexTree], [.char ':']]).Greedy := by
  refine greedy_anyOf (List.cons_ne_nil _ _) ?_ (fun b hb => Simple.textual ?_) ?_
  · exact List.forall_mem_cons.mpr ⟨greedy_hex, List.forall_mem_singleton.mpr greedy_colon⟩
  · revert b
    decide
  · simp only [List.pairwise_cons, List.forall_mem_cons, List.not_mem_nil,
      false_imp_iff, implies_true, List.Pairwise.nil, and_true]
    exact bounds_colon fun w hw => ne_nil_of_isGroup (spelled_hex.mp hw)

/-- Groups with colons after them that stand at the beginning of the same text. -/
theorem before_cancel {gs gs' : List (List Char)} (hgs : ∀ g ∈ gs, isGroup g = true)
    (hgs' : ∀ g ∈ gs', isGroup g = true) (hle : gs.length ≤ gs'.length) {v v' : List Char}
    (h : gs.flatMap (· ++ [':']) ++ v = gs'.flatMap (· ++ [':']) ++ v') :
    ∃ rest, gs' = gs ++ rest ∧ v = rest.flatMap (· ++ [':']) ++ v' := by
  induction gs generalizing gs' with
  | nil => exact ⟨gs', rfl, h⟩
  | cons g gs ih =>
    obtain ⟨g', gs', rfl⟩ := List.exists_cons_of_length_pos ((Nat.succ_pos _).trans_le hle)
    obtain ⟨hg, htail⟩ := List.forall_mem_cons.mp hgs
    obtain ⟨hg', htail'⟩ := List.forall_mem_cons.mp hgs'
    simp only [List.flatMap_cons, List.append_assoc, List.cons_append, List.nil_append] at h
    obtain ⟨rfl, hrest⟩ := append_sep_inj (colon_not_mem_group hg) (colon_not_mem_group hg') h
    obtain ⟨rest, rfl, hv⟩ := ih htail htail' (Nat.le_of_succ_le_succ hle) hrest
    exact ⟨rest, rfl, hv⟩

/-- No text of so many groups before colons begins with another. -/
theorem prefixFree_before (n : Nat) :
    (repeated (exactly n) (all [hexTree, .char ':'])).PrefixFree := by
  intro u v hu huv
  obtain ⟨gs, hlen, hgs, rfl⟩ := spelled_before.mp hu
  obtain ⟨gs', hlen', hgs', h⟩ := spelled_before.mp huv
  rw [← List.append_nil (gs'.flatMap _)] at h
  obtain ⟨rest, rfl, hv⟩ := before_cancel hgs hgs' (hlen.trans hlen'.symm).le h
  rw [List.length_append, hlen] at hlen'
  rw [hv, List.length_eq_zero_iff.mp (show rest.length = 0 by omega)]
  rfl

/-- What stands after the last group that has a colon after it. -/
def Closed (rest : List Char) : Prop := ':' ∉ rest ∨ ∃ v, rest = ':' :: v

/-- More groups in the front exclude fewer. -/
theorem bounds_of_begins {n n' : Nat} (hn : n' < n) (hp : ∀ w, p.Spelled w → Begins n Closed w)
    {q : Pattern} (hq : ∀ w, q.Spelled w → Begins n' Closed w) : p.Bounds q := by
  intro u v hu huv
  obtain ⟨gs, rest, hlen, hgs, rfl, -⟩ := hp u hu
  obtain ⟨gs', rest', hlen', hgs', h, hclosed⟩ := hq _ huv
  rw [List.append_assoc] at h
  obtain ⟨further, rfl, hrest⟩ := before_cancel hgs' hgs (by omega) h.symm
  rw [List.length_append] at hlen
  obtain ⟨g, further, rfl⟩ := List.exists_cons_of_length_pos (show 0 < further.length by omega)
  have hg := hgs g (List.mem_append_right _ List.mem_cons_self)
  rw [List.flatMap_cons, List.append_assoc, List.append_assoc, List.singleton_append] at hrest
  rcases hclosed with hno | ⟨w, rfl⟩
  · exact absurd (hrest ▸ List.mem_append_right g List.mem_cons_self) hno
  · obtain ⟨a, g, rfl⟩ := List.exists_cons_of_ne_nil (ne_nil_of_isGroup hg)
    obtain rfl := (List.cons.inj hrest).1
    exact absurd List.mem_cons_self (colon_not_mem_group hg)

/-- What follows so many groups holds no colon, or begins with one. -/
theorem closed_of_follows {m : Nat} (h : Follows m text) : Closed text := by
  obtain ⟨right, -, rfl, -⟩ := h
  exact .inr ⟨right, rfl⟩

/-- The branches by how many groups they have in front. -/
def countedBranches : List (Nat × List Pattern) :=
  [7, 6, 5, 4, 3, 2, 1, 0].zip ipv6Branches

/-- Each branch begins with as many groups before colons as it counts. -/
theorem begins_of_mem {b : Nat × List Pattern} (hb : b ∈ countedBranches) {w : List Char}
    (h : (ofItems b.2).Spelled w) : Begins b.1 Closed w := by
  have groups {n : Nat} {bs : List (List Pattern)} {P : List Char → Prop}
      (hbs : ∀ w, (anyOf bs).Spelled w ↔ P w) (hP : ∀ w, P w → Closed w)
      (h : (ofItems (groupsItems n bs)).Spelled w) : Begins n Closed w := by
    obtain ⟨gs, rest, hlen, hgs, rfl, hrest⟩ := spelled_groupsItems.mp h
    exact ⟨gs, rest, hlen, hgs, rfl, hP rest ((hbs rest).mp hrest)⟩
  simp only [countedBranches, ipv6Branches, List.zip_cons_cons, List.zip_nil_right, List.mem_cons,
    List.not_mem_nil, or_false] at hb
  rcases hb with rfl | rfl | rfl | rfl | rfl | rfl | rfl | rfl
  · exact groups (fun _ => spelled_rest₇)
      (fun _ h => h.elim (fun h => .inl (colon_not_mem_group h)) closed_of_follows) h
  · exact groups (fun _ => spelled_rest₆)
      (fun _ h => h.elim (fun h => .inl (colon_not_mem_ipv4 h)) closed_of_follows) h
  · exact groups (fun _ => spelled_rest₅) (fun _ => closed_of_follows) h
  · exact groups (fun _ => spelled_rest (by decide)) (fun _ => closed_of_follows) h
  · exact groups (fun _ => spelled_rest (by decide)) (fun _ => closed_of_follows) h
  · exact groups (fun _ => spelled_rest (by decide)) (fun _ => closed_of_follows) h
  · exact groups (fun _ => spelled_rest (by decide)) (fun _ => closed_of_follows) h
  · obtain ⟨rest, rfl, -⟩ := (spelled_ofItems_char (.inl (by decide))).mp h
    exact ⟨[], _, rfl, List.forall_mem_nil _, rfl, .inr ⟨rest, rfl⟩⟩

/-- So no branch takes less than one after it. -/
theorem bounds_ipv6Branches :
    ipv6Branches.Pairwise fun b b' => (ofItems b).Bounds (ofItems b') := by
  have hpairs : countedBranches.Pairwise fun b b' => b'.1 < b.1 := by decide
  rw [show ipv6Branches = countedBranches.map (·.2) from rfl, List.pairwise_map]
  exact hpairs.imp_of_mem fun hb hb' hlt =>
    bounds_of_begins hlt (fun _ => begins_of_mem hb) fun _ => begins_of_mem hb'

/-- Groups before greedy branches are greedy. -/
theorem greedy_groups {n : Nat} {bs : List (List Pattern)}
    (h : (repeated (exactly n) (all [hexTree, .char ':'])).Fits) (hbs : (anyOf bs).Greedy) :
    (ofItems (groupsItems n bs)).Greedy :=
  (prefixFree_before n).greedy_cons ⟨rfl, h⟩ hbs

/-- The branches of an IPv6 address are greedy together. -/
theorem greedy_ipv6Branches : (anyOf ipv6Branches).Greedy := by
  refine greedy_anyOf (List.cons_ne_nil _ _) ?_ (fun b hb => Simple.textual ?_) bounds_ipv6Branches
  · simp only [ipv6Branches, List.forall_mem_cons, List.not_mem_nil, false_imp_iff, implies_true,
      and_true]
    exact ⟨greedy_groups (by decide) greedy_rest₇, greedy_groups (by decide) greedy_rest₆,
      greedy_groups (by decide) greedy_rest₅,
      greedy_groups (by decide) (greedy_rest (by decide) (by decide)),
      greedy_groups (by decide) (greedy_rest (by decide) (by decide)),
      greedy_groups (by decide) (greedy_rest (by decide) (by decide)),
      greedy_groups (by decide) (greedy_rest (by decide) (by decide)),
      (prefixFree_char ':').greedy_cons (Simple.textual (by decide))
        (greedy_rest (by decide) (by decide))⟩
  · revert b
    decide +kernel

theorem percent_not_mem_ipv6 (h : isIpv6 text = true) : '%' ∉ text :=
  fun hmem => absurd (mem_ipv6 h '%' hmem) (by decide)

/-- A zone is taken if there is one, with all of its letters. -/
theorem greedy_zone : zoneTree.Greedy := by
  refine greedy_after (.inl (by decide)) rfl (Simple.textual (by decide))
    (greedy_repeated_chars _ rfl) fun w hw hmem => ?_
  have := (spelled_plus.mp hw).2 '%' hmem
  rw [CharSet.has_uncased (uncased_ascii (by decide))] at this
  exact absurd this (by decide)

/-- An IPv6 address with its zone takes as much as it can. -/
theorem greedy_ipv6 : (ofItems ipv6Items).Greedy := by
  refine greedy_cons_of_apart greedy_ipv6Branches (Simple.textual (by decide +kernel)) greedy_zone
    (Simple.textual (by decide)) (C := (· ≠ '%')) (fun w hw c hc h => ?_) fun c v h => ?_
  · exact percent_not_mem_ipv6 (spelled_ipv6Branches.mp hw) (h ▸ hc)
  · exact not_not.mpr (eq_of_spelled_after (.inl (by decide)) h)

end Grammar

end MailPattern
