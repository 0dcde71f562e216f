import Mathlib
import MailPattern.Proofs.Address.Light
import MailPattern.Proofs.Address.Shape
import MailPattern.Proofs.Engine.Parity
import MailPattern.Proofs.Pattern.Images

/-!
# Proofs — Address — Entries

The alternation of a whitelist by itself (`Whitelist.encoding`).  Its text can be cut back into the
entries, whatever characters they have, since a bar or a backslash in one is escaped
(`Whitelist.decode_pattern`).  They stand in it by descending length in bytes, and those of one length in
their order (`Whitelist.longestFirst_sorted`).  As a pattern it matches where an entry stands, and of
the entries that stand there it takes the first (`Whitelist.picks`).
-/

namespace MailPattern

open Pattern

namespace Whitelist

/-! ### Order -/

/-- The entries with the longest in bytes first, and those of one length in their order. -/
structure LongestFirst (order entries : List String) : Prop where
  perm : order.Perm entries
  longest : order.Pairwise fun a b => b.utf8ByteSize ≤ a.utf8ByteSize
  stable (n : Nat) :
    order.filter (·.utf8ByteSize == n) = entries.filter (·.utf8ByteSize == n)

/-- Sorting neither drops an entry nor adds one. -/
theorem mem_sorted {entries : List String} {e : String} : e ∈ sorted entries ↔ e ∈ entries :=
  (List.mergeSort_perm ..).mem_iff

theorem longer_trans (a b c : String) (hab : decide (b.utf8ByteSize ≤ a.utf8ByteSize) = true)
    (hbc : decide (c.utf8ByteSize ≤ b.utf8ByteSize) = true) :
    decide (c.utf8ByteSize ≤ a.utf8ByteSize) = true :=
  decide_eq_true ((of_decide_eq_true hbc).trans (of_decide_eq_true hab))

theorem longer_total (a b : String) : (decide (b.utf8ByteSize ≤ a.utf8ByteSize) ||
    decide (a.utf8ByteSize ≤ b.utf8ByteSize)) = true := by
  rw [Bool.or_eq_true, decide_eq_true_eq, decide_eq_true_eq]
  exact Nat.le_total ..

/-- No entry stands before one that is longer in bytes. -/
theorem pairwise_sorted (entries : List String) :
    (sorted entries).Pairwise fun a b => b.utf8ByteSize ≤ a.utf8ByteSize :=
  (List.pairwise_mergeSort longer_trans longer_total entries).imp of_decide_eq_true

/-- Entries that already stand in order stay in it. -/
theorem sublist_sorted {entries part : List String} (hpart : part.Sublist entries)
    (h : part.Pairwise fun a b => b.utf8ByteSize ≤ a.utf8ByteSize) : part.Sublist (sorted entries) :=
  List.sublist_mergeSort longer_trans longer_total (h.imp decide_eq_true) hpart

/-- A whitelist is sorted with the longest in bytes first, and stably. -/
theorem longestFirst_sorted (entries : List String) : LongestFirst (sorted entries) entries where
  perm := List.mergeSort_perm ..
  longest := pairwise_sorted entries
  stable n := by
    have hequal : ((entries.filter (·.utf8ByteSize == n))).Pairwise
        fun a b => b.utf8ByteSize ≤ a.utf8ByteSize :=
      List.pairwise_of_forall_mem_list fun a ha b hb => by
        rw [eq_of_beq (List.mem_filter.mp ha).2, eq_of_beq (List.mem_filter.mp hb).2]
    have hsub := (sublist_sorted List.filter_sublist hequal).filter (·.utf8ByteSize == n)
    rw [List.filter_filter] at hsub
    simp only [Bool.and_self] at hsub
    -- there are as many of the length before as after
    have hperm : (sorted entries).Perm entries := List.mergeSort_perm ..
    exact (hsub.eq_of_length (hperm.filter _).length_eq.symm).symm

/-! ### Text -/

/-- The text cut at the bars that are not escaped, without the escapes. -/
def decode : List Char → List (List Char)
  | [] => [[]]
  | '|' :: text => [] :: decode text
  | '\\' :: c :: text => (decode text).modifyHead (c :: ·)
  | c :: text => (decode text).modifyHead (c :: ·)

variable {entries : List String} {text : List Char}

/-- An escaped character is cut back into the character, whatever it is. -/
theorem decode_escapeChar (c : Char) :
    decode (escapeChar c ++ text) = (decode text).modifyHead (c :: ·) := by
  unfold escapeChar
  split
  · rfl
  · rename_i hc
    have hbar : c ≠ '|' := fun h => hc (h ▸ by decide)
    have hescape : c ≠ '\\' := fun h => hc (h ▸ by decide)
    rw [List.singleton_append, decode]
    · exact hbar
    · exact fun _ _ h _ => hescape h

/-- An entry is read back before what follows it. -/
theorem decode_escape (entry : List Char) :
    decode (entry.flatMap escapeChar ++ text) = (decode text).modifyHead (entry ++ ·) := by
  induction entry with
  | nil => exact (congrFun List.modifyHead_id (decode text)).symm
  | cons c entry ih =>
    rw [List.flatMap_cons, List.append_assoc, decode_escapeChar, ih, List.modifyHead_modifyHead]
    rfl

/-- What is joined with bars, each part escaped, is cut back into the parts. -/
theorem decode_intercalate {order : List String} (h : order ≠ []) :
    decode ("|".intercalate (order.map escape)).toList = order.map String.toList := by
  have hescape : String.toList ∘ escape = fun e => e.toList.flatMap escapeChar :=
    funext fun e => String.toList_ofList
  rw [String.toList_intercalate, List.map_map, hescape]
  induction order with
  | nil => exact absurd rfl h
  | cons e order ih =>
    cases order with
    | nil =>
      have hlast := @decode_escape [] e.toList
      rw [List.append_nil] at hlast
      rw [List.map_singleton, List.intercalate_singleton, hlast, decode, List.modifyHead_cons,
        List.append_nil, List.map_singleton]
    | cons e' order =>
      have hbar : ∀ rest, decode ("|".toList ++ rest) = [] :: decode rest := fun _ => rfl
      rw [List.map_cons] at ih
      rw [List.map_cons, List.map_cons, List.intercalate_cons_cons, List.append_assoc, decode_escape,
        hbar, ih (List.cons_ne_nil _ _), List.modifyHead_cons, List.append_nil]
      rfl

/-- **The text of a whitelist can be cut back into its entries.** -/
theorem decode_pattern (h : entries ≠ []) :
    decode (pattern entries).toList = (sorted entries).map String.toList := by
  rw [pattern, if_neg (by rwa [List.isEmpty_iff])]
  exact decode_intercalate fun hnil => h (sorted_eq_nil.mp hnil)

/-! ### Pattern -/

/-- What a character is taken for, up to case or by itself. -/
def seen (caseless : Bool) (c : Char) : Char := if caseless then Folding.fold c else c

/-- The text begins with the entry. -/
def stands (caseless : Bool) (text : List Char) (e : String) : Bool :=
  (text.take e.length).map (seen caseless) == e.toList.map (seen caseless)

/-- The first entry in order that the text begins with. -/
def first? (caseless : Bool) (entries : List String) (text : List Char) : Option String :=
  (sorted entries).find? (stands caseless text)

/-- The first entry at the first position, from `i` on, where one stands. -/
def scan (caseless : Bool) (entries : List String) (text : List Char) (i : Nat) : Option Span :=
  (List.range' i (text.length + 1 - i)).findSome? fun j =>
    (first? caseless entries (text.drop j)).map fun e => ⟨j, j + e.length⟩

/-- What the pattern of a whitelist is read as. -/
def tree (entries : List String) : Pattern := ofBranches ((branches entries).map ofItems)

/-- The pattern of a whitelist has no anchors, and its counts and classes are in order. -/
theorem simple_tree (entries : List String) : (tree entries).Simple :=
  .ofBranches fun p hp => by
    obtain ⟨b, hb, rfl⟩ := List.mem_map.mp hp
    exact .ofItems (simple_branches hb)

/-- No loop in it is gone through without taking a character. -/
theorem productive_tree (entries : List String) : (tree entries).Productive :=
  productive_of_takes (simple_tree entries).takes

/-- What is taken out of its alternation has one end at most from each position. -/
theorem steady_tree (entries : List String) {caseless : Bool} : (tree entries).Steady caseless :=
  (steady_branches entries).of_bracket

/-- However long the whitelist, its pattern is three levels deep at most. -/
theorem depth_tree_le (entries : List String) : (tree entries).depth ≤ 3 := by
  refine depth_ofBranches_le (n := 2) fun p hp => ?_
  obtain ⟨b, hb, rfl⟩ := List.mem_map.mp hp
  exact depth_ofItems_le (depth_branches hb)

variable {caseless : Bool} {i : Nat}

/-- An entry stands at the beginning of itself. -/
theorem stands_self (caseless : Bool) (e : String) : stands caseless e.toList e = true := by
  rw [stands, ← String.length_toList, List.take_length, beq_self_eq_true]

/-- Up to case an entry stands at the beginning exactly if as many characters fold as its own do. -/
theorem stands_iff {e : String} : stands true text e = true ↔
    (text.take e.length).map Folding.fold = e.toList.map Folding.fold := beq_iff_eq

/-- Some entry comes first exactly if one stands there. -/
theorem exists_first_iff : (∃ e, first? caseless entries text = some e) ↔
    ∃ e ∈ entries, stands caseless text e = true := by
  rw [← Option.isSome_iff_exists, first?, List.find?_isSome]
  simp only [mem_sorted]

/-- Which entry comes first depends on the text up to case only. -/
theorem first?_congr {text' : List Char} (h : text.map Folding.fold = text'.map Folding.fold) :
    first? true entries text = first? true entries text' := by
  have hstands : stands true text = stands true text' := by
    funext e
    rw [Bool.eq_iff_iff, stands_iff, stands_iff, List.map_take, List.map_take, h]
  rw [first?, first?, hstands]

/-- The first entry that stands in a place has no fewer bytes than any other that does. -/
theorem of_first {e : String} (h : first? caseless entries text = some e) :
    e ∈ entries ∧ stands caseless text e = true ∧
      ∀ d ∈ entries, stands caseless text d = true → d.utf8ByteSize ≤ e.utf8ByteSize := by
  obtain ⟨hstands, before, behind, hsorted, hbefore⟩ := List.find?_eq_some_iff_append.mp h
  refine ⟨mem_sorted.mp (List.mem_of_find?_eq_some h), hstands, fun d hd hstands => ?_⟩
  have hmem := mem_sorted.mpr hd
  have hpairwise := pairwise_sorted entries
  rw [hsorted] at hmem hpairwise
  obtain hmem | hmem := List.mem_append.mp hmem
  · have := hbefore d hmem
    rw [hstands] at this
    cases this
  · obtain rfl | hmem := List.mem_cons.mp hmem
    · exact le_rfl
    · exact (List.pairwise_cons.mp (List.pairwise_append.mp hpairwise).2.1).1 d hmem

/-- A single character admits the characters that are seen as it is. -/
theorem admits_single {a c : Char} :
    (CharSet.single c).admits (CharSet.reading caseless a) = true ↔ seen caseless a = seen caseless c := by
  cases caseless with
  | true =>
    rw [CharSet.admits_reading_true]
    exact CharSet.has_single_iff
  | false =>
    rw [CharSet.admits_reading_false rfl]
    exact CharSet.covers_single

/-- Characters in a row match where they stand. -/
theorem ends_word (w : List Char) (hi : i ≤ text.length) :
    (ofItems (w.map char)).ends (readings caseless text) i =
      if ((text.drop i).take w.length).map (seen caseless) = w.map (seen caseless) then [i + w.length]
      else [] := by
  induction w generalizing i with
  | nil =>
    rw [List.length_nil, List.take_zero, List.map_nil, if_pos rfl]
    rfl
  | cons c w ih =>
    have hchar : (Pattern.char c).ends (readings caseless text) i =
        if (text[i]?.map (CharSet.reading caseless)).any (CharSet.single c).admits then [i + 1] else [] := by
      rw [readings_eq, ends, Ends.one, List.getElem?_map]
    rw [List.map_cons, ends_ofItems_cons, Ends.andThen, hchar]
    rcases Nat.eq_or_lt_of_le hi with rfl | hlt
    · simp
    · rw [List.getElem?_eq_getElem hlt, List.drop_eq_getElem_cons hlt, List.length_cons,
        List.take_succ_cons, List.map_cons, List.map_cons, Option.map_some, Option.any_some]
      by_cases hc : seen caseless text[i] = seen caseless c
      · rw [if_pos (admits_single.mpr hc), List.flatMap_singleton, ih hlt, hc]
        simp only [List.cons.injEq, true_and]
        rw [Nat.succ_add_eq_add_succ]
      · rw [if_neg fun h => hc (admits_single.mp h), if_neg fun h => hc (List.cons.inj h).1]
        rfl

/-- Nothing matches where there is no entry. -/
theorem ends_never : (ofItems [Fragment.neverTree]).ends (readings caseless text) i = [] := by
  refine if_neg ?_
  rw [readings_eq, List.getElem?_map]
  cases text[i]? with
  | none => exact Bool.false_ne_true
  | some c => exact Bool.eq_false_iff.mp (CharSet.not_admits_never caseless c)

/-- **Of the entries that stand at a position the pattern prefers the first.** -/
theorem head?_ends_tree (hi : i ≤ text.length) :
    ((tree entries).ends (readings caseless text) i).head? =
      (first? caseless entries (text.drop i)).map fun e => i + e.length := by
  unfold tree branches
  split
  · rename_i hentries
    rw [first?, sorted_eq_nil.mpr (List.isEmpty_iff.mp hentries)]
    exact congrArg List.head? ends_never
  · rename_i hentries
    have hne : ((sorted entries).map fun e => e.toList.map char).map ofItems ≠ [] := by
      simpa [sorted_eq_nil] using hentries
    rw [ends_ofBranches hne, List.head?_flatMap, first?]
    clear hne
    induction sorted entries with
    | nil => rfl
    | cons e order ih =>
      rw [List.map_cons, List.map_cons, List.findSome?_cons, List.find?_cons, ends_word _ hi, ih,
        String.length_toList, stands]
      by_cases h : ((text.drop i).take e.length).map (seen caseless) = e.toList.map (seen caseless)
      · rw [if_pos h, beq_iff_eq.mpr h]
        rfl
      · rw [if_neg h, beq_eq_false_iff_ne.mpr h]
        rfl

/-! ### Regex -/

/-- The regex searches for the entries, and of those that stand at a position it takes the first. -/
structure Picks (r : Regex) (entries : List String) : Prop where
  /-- A search finds the first entry at the first position where one stands. -/
  search (text : List Char) (i : Nat) : r.search text i = scan r.flags.caseless entries text i
  /-- A position is matched exactly if an entry stands there, -/
  here (text : List Char) (i : Nat) (hi : i ≤ text.length) :
    (∃ stop, r.search text i = some ⟨i, stop⟩) ↔
      ∃ e ∈ entries, stands r.flags.caseless (text.drop i) e = true
  /-- and then by the first of them in order. -/
  takes (text : List Char) (i stop : Nat) (h : r.search text i = some ⟨i, stop⟩) :
    ∃ e, first? r.flags.caseless entries (text.drop i) = some e ∧ stop = i + e.length
  isMatch (text : String) : (r.isMatch text).value = true ↔
    ∃ i ≤ text.toList.length, ∃ e ∈ entries, stands r.flags.caseless (text.toList.drop i) e = true
  /-- So is every match that is reported. -/
  reported (text : String) (m : Match) (hm : m ∈ (r.allMatches text).value) :
    ∃ (before behind e : String), text = before ++ m.text ++ behind ∧
      before.utf8ByteSize = m.start ∧ (before ++ m.text).utf8ByteSize = m.stop ∧
      first? r.flags.caseless entries (m.text ++ behind).toList = some e ∧ m.text.length = e.length

/-- What is found at the position itself is the first entry that stands there. -/
theorem scan_eq_here {stop : Nat} (hi : i ≤ text.length) :
    scan caseless entries text i = some ⟨i, stop⟩ ↔
      ∃ e, first? caseless entries (text.drop i) = some e ∧ stop = i + e.length := by
  rw [scan, Nat.sub_add_comm hi, List.range'_succ, List.findSome?_cons]
  cases hfirst : first? caseless entries (text.drop i) with
  | some e => simp [eq_comm]
  | none =>
    refine iff_of_false (fun h => ?_) (fun h => by obtain ⟨e, h, -⟩ := h; cases h)
    -- what is found later starts later
    obtain ⟨j, hij, -, hj, -⟩ := Regular.findSome?_range'_eq_some h
    obtain ⟨e, -, hspan⟩ := Option.map_eq_some_iff.mp hj
    have := congrArg Span.start hspan
    simp only at this
    omega

/-- The pattern matches at a position exactly if an entry stands there. -/
theorem exists_head_iff (hi : i ≤ text.length) :
    (tree entries).ends (readings caseless text) i ≠ [] ↔
      ∃ e ∈ entries, stands caseless (text.drop i) e = true := by
  rw [Ne, ← List.head?_eq_none_iff, head?_ends_tree hi, Option.map_eq_none_iff, ← Ne,
    Option.ne_none_iff_exists', exists_first_iff]

section Sweeps

variable {r : Regex} (h : r.Sweeps (tree entries))
include h

/-- Where a regex sweeps for the pattern, its search is the scan for the entries. -/
theorem search_eq_scan (text : List Char) (i : Nat) :
    r.search text i = scan r.flags.caseless entries text i := by
  rw [h.search_eq (productive_tree entries) (steady_tree entries), scan, ← List.head?_filterMap,
    ← List.head?_filterMap]
  congr 1
  refine List.filterMap_congr fun j hj => ?_
  rw [List.mem_range'_1] at hj
  rw [head?_ends_tree (by omega), Option.map_map]
  rfl

/-- A match that is reported is the first entry that stands where it starts. -/
theorem exists_reported {text : String} {m : Match} (hm : m ∈ (r.allMatches text).value) :
    ∃ (before behind e : String), text = before ++ m.text ++ behind ∧
      before.utf8ByteSize = m.start ∧ (before ++ m.text).utf8ByteSize = m.stop ∧
      first? r.flags.caseless entries (m.text ++ behind).toList = some e ∧
      m.text.length = e.length := by
  obtain ⟨span, hspan, rfl⟩ := List.mem_map.mp hm
  obtain ⟨hle, hstop⟩ := h.sound hspan
  have hfirst := h.preferred (productive_tree entries) (steady_tree entries) hspan
  rw [head?_ends_tree hle, Option.map_eq_some_iff] at hfirst
  obtain ⟨e, he, hlen⟩ := hfirst
  have hwithin : span.Within text.toList.length := by
    have hrange := forward_ends _ (tree entries) _ (hle.trans_eq (length_readings _ _).symm) _ hstop
    rw [length_readings] at hrange
    exact ⟨hrange.1, hrange.2⟩
  obtain ⟨before, behind, htext, hbefore, hafter, hdrop⟩ := Match.exists_parts hwithin
  refine ⟨before, behind, e, htext, hbefore, hafter, hdrop ▸ he, ?_⟩
  have hmatch : (Match.ofSpan text.toList span).text.toList = slice text.toList span.start span.stop :=
    String.toList_ofList
  rw [← String.length_toList, hmatch, length_slice hwithin.stop_le]
  omega

/-- **A regex that sweeps for the pattern of a whitelist searches for its entries.** -/
theorem picks : Picks r entries where
  search := search_eq_scan h
  here text i hi := by
    simp only [search_eq_scan h, scan_eq_here hi]
    rw [exists_comm, ← exists_first_iff]
    exact exists_congr fun e => by simp
  takes text i stop hfound := by
    have hi := ((h.finds text backtrackLimit).found hfound).2.1
    exact (scan_eq_here hi).mp (search_eq_scan h text i ▸ hfound)
  isMatch text := by
    rw [h.isMatch_iff]
    exact exists_congr fun i => and_congr_right fun hi => exists_head_iff hi
  reported _ _ := exists_reported h

end Sweeps

/-- Whatever the engine makes of the pattern of a whitelist has the property; it takes the pattern
unless that is too long. -/
def Compiled (entries : List String) (engine : Engine) (flags : Flags) (P : Regex → Prop) : Prop :=
  match (engine.compile (pattern entries) flags).value with
  | .ok r => P r
  | .error _ => 14800 < (entries.map (·.length + 1)).sum

/-- Either dialect reads the text of a whitelist as its tree. -/
theorem read_pattern (d : Dialect) (entries : List String) :
    read? d (pattern entries) = some (tree entries) := by
  obtain ⟨texts, htexts, h⟩ := exists_written d entries
  rw [htexts]
  exact h.read (Nat.zero_le _) ((depth_tree_le entries).trans (by decide))

/-- What holds of all regexes that sweep for the pattern holds of what an engine compiles it to. -/
theorem compiled_of_sweeps {engine : Engine} {flags : Flags} {P : Regex → Prop}
    (h : ∀ r : Regex, r.flags = flags → r.Sweeps (tree entries) → P r) :
    Compiled entries engine flags P := by
  have hread := read_pattern engine.dialect entries
  have hsimple := simple_tree entries
  unfold Compiled
  split
  · rename_i r hr
    obtain ⟨hflags, hsweeps⟩ := Engine.sweeps_of_compile hread (isPlain_of_isFree hsimple.free) hr
    exact h r hflags hsweeps
  · rename_i error hr
    by_contra hshort
    have hheft := (heft_ofBranches_le _).trans (Options.sumHefts_branches_le (Nat.not_lt.mp hshort))
    obtain ⟨r, hr', -⟩ := Engine.compile_of_heft flags hread (isPlain_of_isFree hsimple.free)
      hsimple.fits ((depth_tree_le entries).trans (by decide))
      ((Nat.add_le_add_right hheft 32).trans (by decide))
    rw [hr] at hr'
    cases hr'

variable (entries)

/-- **The alternation of a whitelist encodes its entries, longest first.**  Cut at its bars and without
its escapes its text is the entries in order.  Compiled by any engine with any flags it is matched
where an entry stands and nowhere else, so nowhere if there are none, and each match is the first of
the entries that stand there. -/
theorem encoding (engine : Engine) (flags : Flags) :
    (entries ≠ [] → decode (pattern entries).toList = (sorted entries).map String.toList) ∧
      LongestFirst (sorted entries) entries ∧
      Compiled entries engine flags fun r => r.flags = flags ∧ Picks r entries :=
  ⟨decode_pattern, longestFirst_sorted entries,
    compiled_of_sweeps fun _ hflags hsweeps => ⟨hflags, picks hsweeps⟩⟩

end Whitelist

end MailPattern
