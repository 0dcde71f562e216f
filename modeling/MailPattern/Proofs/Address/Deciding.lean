import MailPattern.Proofs.Address.Groups
import MailPattern.Proofs.Address.Matching

/-!
# Proofs — Address — Deciding

An exact regex decides the grammar of addresses.  A text is an address when it is a username, an
at sign and a domain (`Options.isAddress`), whatever else a part of it could be taken for: a host may
begin with `localhost` or with an IPv4 address.  The regex matches those texts and no others, and
its one match is the whole text (`Options.deciding_address`).
-/

namespace MailPattern

open Pattern Grammar

namespace Options

variable (o : Options)

/-! ### Addresses -/

/-- A host with a top-level domain after its last dot. -/
def acceptsHost (text : List Char) : Bool := parted '.' isHost o.acceptsTopLevel text

/-- A domain that the options allow. -/
def acceptsDomain (text : List Char) : Bool :=
  o.allowLocalhost && alike text "localhost".toList || o.allowIpv4 && isIpv4 text ||
    o.allowIpv6 && isZoned text || o.acceptsHost text

/-- A username, an at sign and a domain. -/
def isAddress (text : List Char) : Bool := parted '@' o.username.accepts o.acceptsDomain text

variable {text : List Char}

theorem spelled_hostItems : (Pattern.ofItems o.hostItems).Spelled text ↔ o.acceptsHost text = true := by
  have htop : ∀ v, (Pattern.ofItems [Fragment.all [.char '.', o.topLevelTree]]).Spelled v ↔
      ∃ top, v = '.' :: top ∧ o.acceptsTopLevel top = true := by
    intro v
    refine (spelled_ofItems_char (.inl (by decide))).trans (exists_congr fun top => ?_)
    exact and_congr_right' o.spelled_topLevel
  rw [acceptsHost, parted_iff]
  refine (@spelled_ofItems_append _ [Fragment.hostTree, Fragment.domainTree] _).trans ?_
  simp only [htop, spelled_host]
  constructor
  · rintro ⟨u, _, rfl, hu, top, rfl, htop⟩
    exact ⟨u, top, rfl, hu, htop⟩
  · rintro ⟨u, top, rfl, hu, htop⟩
    exact ⟨u, _, rfl, hu, top, rfl, htop⟩

theorem spelled_domain :
    (Fragment.anyOf o.domainItems).Spelled text ↔ o.acceptsDomain text = true := by
  rw [spelled_anyOf (by simp [domainItems])]
  simp only [domainItems, List.mem_append, List.mem_ite_nil_right, List.mem_singleton, or_and_right,
    exists_or, and_assoc, exists_and_left, exists_eq_left, acceptsDomain, Bool.or_eq_true,
    Bool.and_eq_true, spelled_literal, alike_iff, spelled_ipv4, spelled_ipv6, spelled_hostItems]

/-- The tree of an address spells the addresses. -/
theorem accepts_iff : o.Accepts text ↔ o.isAddress text = true := by
  rw [isAddress, parted_iff]
  refine (@spelled_ofItems_append _ o.username.items _).trans ?_
  simp only [Username.spelled_items, spelled_ofItems_char (c := '@') (.inl (by decide))]
  constructor
  · rintro ⟨u, _, rfl, hu, d, rfl, hd⟩
    exact ⟨u, d, rfl, hu, o.spelled_domain.mp hd⟩
  · rintro ⟨u, d, rfl, hu, hd⟩
    exact ⟨u, _, rfl, hu, d, rfl, o.spelled_domain.mpr hd⟩

/-! ### The match of an exact regex -/

/-- The match of an exact regex is the whole text. -/
theorem span_deciding (text : List Char) :
    (o.deciding.search text 0).span? = if o.isAddress text then some ⟨0, text.length⟩ else none := by
  have hfinds := o.deciding.finds text
  have hends : ∀ i j, j ∈ o.deciding.searched.ends (readings true text) i ↔
      i = 0 ∧ j = text.length ∧ o.isAddress text = true := by
    intro i j
    refine (o.mem_ends_anchored (s := readings true text)).trans ?_
    rw [length_readings, o.mem_ends_tree (Nat.zero_le _), slice_all, accepts_iff]
    exact and_congr_right fun _ => and_congr_right fun _ =>
      ⟨fun h => h.2.2, fun h => ⟨Nat.zero_le _, le_rfl, h⟩⟩
  split
  · rename_i haddress
    have hne : (o.deciding.search text 0).span? ≠ none := fun h =>
      List.ne_nil_of_mem ((hends 0 text.length).mpr ⟨rfl, rfl, haddress⟩)
        (hfinds.none_iff.mp h 0 le_rfl (Nat.zero_le _))
    obtain ⟨span, hspan⟩ := Option.ne_none_iff_exists'.mp hne
    obtain ⟨-, -, hstop, -⟩ := hfinds.found hspan
    obtain ⟨hstart, hstop, -⟩ := (hends _ _).mp hstop
    rw [hspan, ← hstart, ← hstop]
  · rename_i haddress
    refine hfinds.none_iff.mpr fun j _ _ => List.eq_nil_iff_forall_not_mem.mpr fun k hk => ?_
    exact haddress ((hends j k).mp hk).2.2

end Options

/-- The match that is all of a text. -/
def Match.whole (text : String) : Match := ⟨0, text.utf8ByteSize, text⟩

theorem Match.ofSpan_whole (text : String) :
    Match.ofSpan text.toList ⟨0, text.toList.length⟩ = Match.whole text := by
  rw [Match.ofSpan, byteOffset_length, List.drop_zero, Nat.sub_zero, List.take_length,
    String.ofList_toList]
  rfl

theorem Options.allMatches_deciding (o : Options) (engine : Engine) (text : String) :
    ((o.deciding.regex engine).allMatches text).value =
      if o.isAddress text.toList then [Match.whole text] else [] := by
  have hspans := o.deciding.spans_regex engine text.toList
  rw [show o.deciding.exact = true from rfl, Iteration.all_single, span_deciding] at hspans
  show ((o.deciding.regex engine).spans text.toList).1.map (Match.ofSpan text.toList) = _
  rw [hspans]
  split
  · exact congrArg (fun m => [m]) (Match.ofSpan_whole text)
  · rfl

/-- **An exact regex decides the grammar.**  It matches the texts that are addresses and no others,
and the one match that it then reports is the whole text. -/
theorem Options.deciding_address (o : Options) (s : Selector) :
    o.deciding.Compiled s fun r => ∀ text : String,
      (r.isMatch text).value = o.isAddress text.toList ∧
      (r.allMatches text).value = if o.isAddress text.toList then [Match.whole text] else [] := by
  refine o.deciding.compiled_of_regex fun engine text => ⟨?_, o.allMatches_deciding engine text⟩
  rw [Bool.eq_iff_iff, isMatch_deciding, accepts_iff]

end MailPattern
