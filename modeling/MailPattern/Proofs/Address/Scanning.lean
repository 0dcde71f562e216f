import MailPattern.Proofs.Address.Longest
import MailPattern.Proofs.Address.Steady
import MailPattern.Proofs.Pattern.Scanner

/-!
# Proofs — Address — Scanning

A search reports what a scanner finds.  The scanner of an address (`Options.addressScanner`) never
goes back: the username goes as far as its characters do, the first kind of domain that applies
is taken, addresses of the internet protocols are as long as they can be, and so is the host in front
of a top-level domain.  A text is scanned from one position after the other, and again from the
end of what was found (`Options.scanned`).

The tree of an address takes what its scanner takes (`Options.takes_tree`).  Since a search prefers
what the tree prefers, the regex reports what the scanner finds
(`Options.searching_scanned`).
-/

namespace MailPattern

open Pattern Grammar

namespace Options

variable (o : Options)

/-! ### The scanner of an address -/

/-- Letters as far as they go, two at least; or the first entry of the whitelist that applies. -/
def topLevelScanner : Scanner :=
  if o.strict then .run 2 Fragment.letterSet.has .done
  else .first ((Whitelist.sorted o.topLevelDomains).map fun e => .word e.toList)

/-- The longest host that a dot and a top-level domain can follow. -/
def hostScanner : Scanner := .longest isHost (o.topLevelScanner.after (· == '.'))

/-- The first domain that applies, of those that are allowed. -/
def domainScanner : Scanner :=
  .first ((if o.allowLocalhost then [.word "localhost".toList] else []) ++
    (if o.allowIpv4 then [.longest isIpv4 .done] else []) ++
    (if o.allowIpv6 then [.longest isZoned .done] else []) ++ [o.hostScanner])

/-- A letter or digit, characters of the username as far as they go, an at sign and a domain. -/
def addressScanner : Scanner :=
  (Scanner.run 1 o.username.set.has (o.domainScanner.after (· == '@'))).after Fragment.alnum.has

/-- The address at the first position from `i` on where there is one. -/
def scan (text : List Char) (i : Nat) : Option Span := do
  let j ← (List.range' i (text.length + 1 - i)).find? fun j => (o.addressScanner (text.drop j)).isSome
  let n ← o.addressScanner (text.drop j)
  pure ⟨j, j + n⟩

variable {o} {text : List Char} {i : Nat} {span : Span}

theorem scan_eq_none_iff :
    o.scan text i = none ↔ ∀ j, i ≤ j → j ≤ text.length → o.addressScanner (text.drop j) = none := by
  constructor
  · intro h j hij hj
    cases hfind : (List.range' i (text.length + 1 - i)).find? fun j =>
        (o.addressScanner (text.drop j)).isSome with
    | none =>
      have := List.find?_eq_none.mp hfind j (List.mem_range'_1.mpr (by omega))
      rwa [Option.not_isSome_iff_eq_none] at this
    | some k =>
      obtain ⟨hsome, -⟩ := List.find?_range'_eq_some.mp hfind
      obtain ⟨n, hn⟩ := Option.isSome_iff_exists.mp hsome
      simp [scan, hfind, hn] at h
  · intro h
    rw [scan, List.find?_eq_none.mpr fun j hj => ?_]
    · rfl
    · rw [List.mem_range'_1] at hj
      rw [h j hj.1 (by omega)]
      exact Bool.false_ne_true

theorem scan_eq_some_iff : o.scan text i = some span ↔
    i ≤ span.start ∧ span.start ≤ text.length ∧
      (o.addressScanner (text.drop span.start)).map (span.start + ·) = some span.stop ∧
      ∀ j, i ≤ j → j < span.start → o.addressScanner (text.drop j) = none := by
  constructor
  · intro h
    obtain ⟨j, hj, h⟩ := Option.bind_eq_some_iff.mp h
    obtain ⟨n, hn, h⟩ := Option.bind_eq_some_iff.mp h
    cases h
    obtain ⟨-, hmem, hbefore⟩ := List.find?_range'_eq_some.mp hj
    rw [List.mem_range'_1] at hmem
    refine ⟨hmem.1, show j ≤ text.length by omega, by rw [hn]; rfl, fun k hik hkj => ?_⟩
    simpa using hbefore k hik hkj
  · rintro ⟨hi, hle, hstop, hbefore⟩
    obtain ⟨n, hn, hstop⟩ := Option.map_eq_some_iff.mp hstop
    have hfind := List.find?_range'_eq_some (s := i) (n := text.length + 1 - i)
      (p := fun j => (o.addressScanner (text.drop j)).isSome) |>.mpr
        ⟨by rw [hn]; rfl, List.mem_range'_1.mpr ⟨hi, by omega⟩,
          fun j hij hj => by rw [hbefore j hij hj]; rfl⟩
    rw [scan, hfind]
    simp [hn, hstop]

/-- An address takes a character. -/
theorem pos_of_addressScanner {n : Nat} (h : o.addressScanner text = some n) : 0 < n := by
  cases text with
  | nil => cases h
  | cons c text =>
    rw [addressScanner, Scanner.after, Option.ite_none_right_eq_some] at h
    obtain ⟨m, -, rfl⟩ := Option.map_eq_some_iff.mp h.2
    omega

variable (o)

/-- The addresses in a text from a position on, one after the other. -/
def scanned (text : List Char) (i : Nat) : List Span :=
  match _ : o.scan text i with
  | none => []
  | some span => span :: scanned text span.stop
termination_by text.length + 1 - i
decreasing_by
  obtain ⟨hi, hle, hstop, -⟩ := scan_eq_some_iff.mp ‹o.scan text i = some span›
  obtain ⟨n, hn, hstop⟩ := Option.map_eq_some_iff.mp hstop
  have := pos_of_addressScanner hn
  omega

theorem successive_scanned (text : List Char) (i : Nat) :
    Successive (o.scan text) i (o.scanned text i) := by
  induction i using scanned.induct o text with
  | case1 i h =>
    rw [scanned]
    split
    · exact .nil h
    · rename_i h'
      exact nomatch h.symm.trans h'
  | case2 i span h ih =>
    rw [scanned]
    split
    · rename_i h'
      exact nomatch h.symm.trans h'
    · rename_i span' h'
      obtain rfl := Option.some.inj (h.symm.trans h')
      exact .cons h ih

/-! ### What the tree takes -/

theorem takes_topLevel : o.topLevelTree.Takes o.topLevelScanner := by
  unfold topLevelTree topLevelScanner
  split
  · have hrun := takes_empty.run Fragment.letterSet (show 2 ≤ Count.limit by decide) (.inr fun _ => rfl)
    intro text i hi
    rw [← hrun text i hi]
    exact congrArg List.head? (congrFun (Ends.andThen_stay _).symm i)
  · unfold Whitelist.branches
    split
    · rename_i h
      have hnone : Scanner.first [] =
          Scanner.done.after (CharSet.has ⟨[('\x00', CharSet.last)], true⟩) := by
        funext text
        cases text with
        | nil => rfl
        | cons c text => rw [Scanner.after, has_never]; rfl
      rw [List.isEmpty_iff.mp h, Whitelist.sorted, List.mergeSort_nil, List.map_nil, hnone]
      exact @takes_cons _ [] _ (takes_empty.chars _)
    · rename_i h
      refine takes_ofBranches (fun hnil => h ?_) ?_
      · have hlen := congrArg List.length hnil
        rw [List.length_map, List.length_map, Whitelist.sorted, List.length_mergeSort] at hlen
        exact List.isEmpty_iff_length_eq_zero.mpr hlen
      · rw [List.map_map, List.forall₂_map_left_iff, List.forall₂_map_right_iff, List.forall₂_same]
        exact fun e _ => takes_literal e.toList

theorem takes_host : (Pattern.ofItems o.hostItems).Takes o.hostScanner := by
  have htop : (Fragment.all [.char '.', o.topLevelTree]).Takes (o.topLevelScanner.after (· == '.')) := by
    rw [← Scanner.after_single (uncased_ascii (.inl (by decide)))]
    exact o.takes_topLevel.chars (.single '.')
  have hcat := greedy_host.takes_longest textual_host (fun _ => spelled_host) htop
  intro text i hi
  rw [hostScanner, ← hcat text i hi]
  exact congrArg List.head? (congrFun (Ends.andThen_assoc _ _ _).symm i)

theorem takes_domain : (Fragment.anyOf o.domainItems).Takes o.domainScanner := by
  have optional {b : Bool} {items : List Pattern} {scan : Scanner}
      (h : (Pattern.ofItems items).Takes scan) :
      List.Forall₂ Takes ((if b then [items] else []).map Pattern.ofItems)
        (if b then [scan] else []) := by
    cases b with
    | false => exact .nil
    | true => exact .cons h .nil
  refine takes_ofBranches (by simp [domainItems]) ?_
  rw [domainItems, List.map_append, List.map_append, List.map_append]
  refine List.rel_append (List.rel_append (List.rel_append ?_ ?_) ?_) (.cons o.takes_host .nil)
  · exact optional (takes_literal _)
  · exact optional (greedy_ipv4.takes (Simple.textual (by decide)) fun _ => spelled_ipv4)
  · exact optional (greedy_ipv6.takes (Simple.textual (by decide +kernel)) fun _ => spelled_ipv6)

/-- **The tree of an address takes what its scanner takes.** -/
theorem takes_tree : o.tree.Takes o.addressScanner := by
  have hdomain : (cat (.char '@') (Fragment.anyOf o.domainItems)).Takes
      (o.domainScanner.after (· == '@')) := by
    rw [← Scanner.after_single (uncased_ascii (.inl (by decide)))]
    exact o.takes_domain.chars (.single '@')
  have hends : (o.domainScanner.after (· == '@')).EndsRun o.username.set.has := by
    refine .after fun c hc => beq_false_of_ne fun h => ?_
    rw [h, o.username.not_has_at] at hc
    cases hc
  exact (hdomain.run o.username.set (by decide) (.inl hends)).chars Fragment.alnum

/-! ### What a search reports -/

/-- A search finds what is scanned first. -/
theorem search_eq_scan (text : List Char) (i : Nat) :
    (o.searching.search text i).span? = o.scan text i := by
  have hfinds := o.searching.finds text
  have hends : ∀ j, j ≤ text.length →
      (o.tree.ends (readings true text) j).head? = (o.addressScanner (text.drop j)).map (j + ·) :=
    o.takes_tree text
  cases hspan : (o.searching.search text i).span? with
  | none =>
    refine (scan_eq_none_iff.mpr fun j hij hj => ?_).symm
    have hnone := hends j hj
    rw [show o.tree.ends (readings true text) j = [] from hfinds.none_iff.mp hspan j hij hj] at hnone
    exact Option.map_eq_none_iff.mp hnone.symm
  | some span =>
    obtain ⟨hi, hle, -, hbefore⟩ := hfinds.found hspan
    have hstop := Program.prefers o.searching.valid_searched o.searching.normal_searched
      o.searching.productive_searched o.searching.steady_searched hspan
    refine (scan_eq_some_iff.mpr ⟨hi, hle, (hends _ hle).symm.trans hstop, fun j hij hj => ?_⟩).symm
    have hnone := hends j (by omega)
    rw [show o.tree.ends (readings true text) j = [] from hbefore j hij hj] at hnone
    exact Option.map_eq_none_iff.mp hnone.symm

/-- The spans of a search are those that are scanned. -/
theorem spans_searching (engine : Engine) (text : List Char) :
    ((o.searching.regex engine).spans text).1 = o.scanned text 0 := by
  have hsuccessive := o.successive_searching engine text
  rw [funext (o.search_eq_scan text)] at hsuccessive
  exact hsuccessive.unique (o.successive_scanned text 0)

/-- **A search reports what the scanner finds.** -/
theorem searching_scanned (s : Selector) :
    o.searching.Compiled s fun r => ∀ text : String,
      (r.allMatches text).value = (o.scanned text.toList 0).map (Match.ofSpan text.toList) := by
  refine o.searching.compiled_of_regex fun engine text => ?_
  rw [← o.spans_searching engine]
  rfl

end Options

end MailPattern
