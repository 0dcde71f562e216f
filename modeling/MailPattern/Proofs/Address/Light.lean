import MailPattern.Proofs.Address.Compiled
import MailPattern.Proofs.Pattern.Weight

/-!
# Proofs — Address — Light

Which options compile.  Only a whitelist can make the pattern of an address too heavy: the fragments
leave room for one of 3300 characters, whatever they are and whatever else is allowed
(`Options.light_of_short`), and strict options have none (`Options.light_of_strict`).
-/

namespace MailPattern

namespace Pattern

theorem heft_ofItems (ps : List Pattern) : (ofItems ps).heft = (ps.map heft).sum := by
  induction ps with
  | nil => rfl
  | cons p ps ih =>
    cases ps with
    | nil => exact List.sum_singleton.symm
    | cons q qs =>
      rw [List.map_cons, List.sum_cons, ← ih]
      rfl

/-- What some branches count for in an alternation. -/
def sumHefts (branches : List (List Pattern)) : Nat :=
  (branches.map fun b => (b.map heft).sum + 272).sum

theorem sumHefts_append (bs bs' : List (List Pattern)) :
    sumHefts (bs ++ bs') = sumHefts bs + sumHefts bs' := by
  rw [sumHefts, List.map_append, List.sum_append]
  rfl

theorem heft_ofBranches_le (bs : List (List Pattern)) :
    (ofBranches (bs.map ofItems)).heft ≤ sumHefts bs := by
  induction bs with
  | nil => exact le_rfl
  | cons b bs ih =>
    have hcons : sumHefts (b :: bs) = (ofItems b).heft + 272 + sumHefts bs := by
      rw [heft_ofItems]
      exact List.sum_cons
    cases bs with
    | nil => exact (Nat.le_add_right _ 272).trans hcons.ge
    | cons b' bs =>
      show (ofItems b).heft + (ofBranches ((b' :: bs).map ofItems)).heft + 272 ≤ _
      omega

theorem heft_all (items : List Pattern) : (Fragment.all items).heft = (items.map heft).sum + 32 :=
  congrArg (· + 32) (heft_ofItems items)

theorem heft_anyOf_le (branches : List (List Pattern)) :
    (Fragment.anyOf branches).heft ≤ sumHefts branches + 32 :=
  Nat.add_le_add_right (heft_ofBranches_le branches) 32

end Pattern

open Pattern

namespace Options

variable (o : Options)

theorem light_of_heft (h : o.searched.heft + 32 ≤ Normal.maxWeight) : o.Light :=
  (weight_le_heft o.normal_searched).trans h

theorem sumHefts_ite_le (c : Bool) (b : List Pattern) :
    sumHefts (if c then [b] else []) ≤ sumHefts [b] := by
  cases c with
  | false => exact Nat.zero_le _
  | true => exact le_rfl

theorem sumHefts_domainItems_le : sumHefts o.domainItems ≤ 7151432 + o.topLevelTree.heft := by
  have hlocalhost := sumHefts_ite_le o.allowLocalhost ("localhost".toList.map .char)
  have hipv4 := sumHefts_ite_le o.allowIpv4 Fragment.ipv4Items
  have hipv6 := sumHefts_ite_le o.allowIpv6 Fragment.ipv6Items
  have hname : sumHefts ["localhost".toList.map .char] = 6608 := by decide +kernel
  have hnumbers : sumHefts [Fragment.ipv4Items] = 30840 := by decide +kernel
  have hgroups : sumHefts [Fragment.ipv6Items] = 3298152 := by decide +kernel
  have hhost : sumHefts [o.hostItems] = 3815832 + o.topLevelTree.heft := by
    have hlabels : Fragment.hostTree.heft + Fragment.domainTree.heft = 3814824 := by decide +kernel
    have htop : (Fragment.all [.char '.', o.topLevelTree]).heft = 704 + o.topLevelTree.heft + 32 := by
      rw [heft_all]
      rfl
    show (Fragment.hostTree.heft + (Fragment.domainTree.heft + ((Fragment.all _).heft + 0)) + 272) +
      0 = _
    rw [htop]
    omega
  rw [domainItems, sumHefts_append, sumHefts_append, sumHefts_append]
  omega

/-- What the pattern counts for apart from its top-level domains. -/
theorem heft_searched_le : o.searched.heft ≤ 8116736 + o.topLevelTree.heft := by
  have huser : (o.username.items.map heft).sum ≤ 964344 := by
    cases o.username <;> decide +kernel
  have htree : o.tree.heft ≤ 8116576 + o.topLevelTree.heft := by
    have hdomain := heft_anyOf_le o.domainItems
    have hitems := o.sumHefts_domainItems_le
    rw [tree, heft_all, List.map_append, List.sum_append]
    show _ + (704 + ((Fragment.anyOf o.domainItems).heft + 0)) + 32 ≤ _
    omega
  unfold searched
  split
  · show 64 + (o.tree.heft + 64) + 32 ≤ _
    omega
  · omega

/-- **Strict options compile.** -/
theorem light_of_strict (h : o.strict = true) : o.Light := by
  have htop : Fragment.strictTree.heft = 1900896 := by decide +kernel
  have hle := o.heft_searched_le
  rw [topLevelTree, if_pos h, htop] at hle
  exact o.light_of_heft ((Nat.add_le_add_right hle 32).trans (by decide))

theorem sumHefts_chars (entries : List String) :
    sumHefts (entries.map fun e => e.toList.map .char) ≤ 704 * (entries.map (·.length + 1)).sum := by
  induction entries with
  | nil => exact le_rfl
  | cons e entries ih =>
    have hentry : ((e.toList.map Pattern.char).map heft).sum = 704 * e.length := by
      rw [List.map_map, show heft ∘ Pattern.char = fun _ => 704 from rfl, List.map_const',
        List.sum_replicate, smul_eq_mul, String.length_toList, Nat.mul_comm]
    have hcons : sumHefts ((e :: entries).map fun e => e.toList.map .char) =
        ((e.toList.map Pattern.char).map heft).sum + 272 +
          sumHefts (entries.map fun e => e.toList.map .char) := List.sum_cons
    rw [hcons, hentry, List.map_cons, List.sum_cons]
    omega

/-- What the branches of a whitelist count for, of which one may be the class of no character. -/
theorem sumHefts_branches_le {entries : List String} {n : Nat}
    (h : (entries.map (·.length + 1)).sum ≤ n) :
    sumHefts (Whitelist.branches entries) ≤ max 950416 (704 * n) := by
  rw [Whitelist.branches]
  split
  · exact le_max_of_le_left (by decide +kernel)
  · have hsorted : (Whitelist.sorted entries).Perm entries := List.mergeSort_perm ..
    rw [← (hsorted.map (·.length + 1)).sum_eq] at h
    exact le_max_of_le_right ((sumHefts_chars _).trans (Nat.mul_le_mul_left 704 h))

/-- **Only a long whitelist makes a pattern too heavy**: one of 3300 characters, with one more for
each entry, does not. -/
theorem light_of_short (h : (o.topLevelDomains.map (·.length + 1)).sum ≤ 3300) : o.Light := by
  cases hstrict : o.strict with
  | true => exact o.light_of_strict hstrict
  | false =>
    -- an empty whitelist stands for the class of no character, which counts for 950416
    have hle := o.heft_searched_le
    have hanyOf := heft_anyOf_le (Whitelist.branches o.topLevelDomains)
    have hbranches := sumHefts_branches_le h
    rw [topLevelTree, hstrict, if_neg Bool.false_ne_true] at hle
    refine o.light_of_heft (le_trans (b := 8116736 + (max 950416 (704 * 3300) + 32) + 32) ?_ ?_)
    · omega
    · decide

end Options

end MailPattern
