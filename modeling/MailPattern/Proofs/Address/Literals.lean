import MailPattern.Proofs.Address.Fragments
import MailPattern.Proofs.Address.Longest
import MailPattern.Proofs.Address.Steady

/-!
# Proofs — Address — Literals

The literals of IP addresses, and what their fragments do by themselves.  An IPv4 literal is told by
the numbers that are written in it (`Dotted`), an IPv6 literal by how many groups stand on either side
of a double colon (`Ipv6`) and by its zone (`Zoned`).  With either engine and any flags the fragments
decide whether a text is such a literal, and find in a text the longest ones.

Case matters in the name of a zone only.  Where it is ignored a long s and a Kelvin sign are letters.
-/

namespace MailPattern

open Pattern

/-! ### Numerals -/

namespace Digits

variable {ds : List Char} {d : Char} {n : Nat}

/-- Digits in base ten stand for their number. -/
theorem value_toDigits (n : Nat) : value (Nat.toDigits 10 n) = n := by
  have h := Nat.ofDigitChars_ten_toDigits (n := n)
  rw [Nat.ofDigitChars_eq_foldl] at h
  simpa only [value, Nat.mul_comm] using h

/-- The value of a digit. -/
theorem toDigits_digit (h : d.isDigit = true) : Nat.toDigits 10 (d.toNat - '0'.toNat) = [d] := by
  have hd := Grammar.isDigit_iff.mp h
  have hzero : '0'.toNat = 0x30 := rfl
  rw [Nat.toDigits_of_lt_base (by omega), List.singleton_inj, ← Char.toNat_inj,
    Nat.toNat_digitChar_of_lt_ten (by omega)]
  omega

/-- Digits that are read after others are written after them. -/
theorem toDigits_foldl (hn : 0 < n) (hds : ∀ d ∈ ds, d.isDigit = true) :
    Nat.toDigits 10 (ds.foldl (fun n d => n * 10 + (d.toNat - '0'.toNat)) n) =
      Nat.toDigits 10 n ++ ds := by
  induction ds generalizing n with
  | nil => exact (List.append_nil _).symm
  | cons d ds ih =>
    obtain ⟨hd, hds⟩ := List.forall_mem_cons.mp hds
    have hbound := Grammar.isDigit_iff.mp hd
    have hzero : '0'.toNat = 0x30 := rfl
    rw [List.foldl_cons, ih (by omega) hds, Nat.mul_comm n,
      ← Nat.toDigits_append_toDigits (by decide) hn (by omega), toDigits_digit hd,
      List.append_assoc, List.singleton_append]

/-- Digits without a leading zero are those of their value. -/
theorem toDigits_value (hne : ds ≠ []) (hds : ∀ d ∈ ds, d.isDigit = true)
    (hlead : ds.length = 1 ∨ ds.head? ≠ some '0') : Nat.toDigits 10 (value ds) = ds := by
  obtain ⟨d, ds, rfl⟩ := List.exists_cons_of_ne_nil hne
  obtain ⟨hd, hds⟩ := List.forall_mem_cons.mp hds
  have hvalue : value (d :: ds) =
      ds.foldl (fun n d => n * 10 + (d.toNat - '0'.toNat)) (d.toNat - '0'.toNat) := by
    rw [value, List.foldl_cons, Nat.zero_mul, Nat.zero_add]
  rw [hvalue]
  rcases hlead with hlen | hlead
  · obtain rfl := List.length_eq_zero_iff.mp (Nat.succ.inj hlen)
    exact toDigits_digit hd
  · have hbound := Grammar.isDigit_iff.mp hd
    have hzero : '0'.toNat = 0x30 := rfl
    rw [List.head?_cons, ne_eq, Option.some.injEq, ← Char.toNat_inj] at hlead
    rw [toDigits_foldl (by omega) hds, toDigits_digit hd, List.singleton_append]

/-- A number above zero has no leading zero. -/
theorem head?_toDigits (hn : 0 < n) : (Nat.toDigits 10 n).head? ≠ some '0' := by
  induction n using Nat.strong_induction_on with
  | _ n ih =>
    rw [Nat.toDigits_eq_if (by decide)]
    split
    · have hdigit : ∀ k < 10, 0 < k → Nat.digitChar k ≠ '0' := by decide
      rw [List.head?_cons, ne_eq, Option.some.injEq]
      exact hdigit n ‹_› hn
    · rw [List.head?_append_of_ne_nil _ Nat.toDigits_ne_nil]
      exact ih (n / 10) (by omega) (by omega)

end Digits

namespace Grammar

variable {text : List Char} {ws : List (List Char)} {n : Nat} {caseless : Bool}

/-- An octet is a number up to 255 in base ten. -/
theorem isOctet_iff : isOctet text = true ↔ ∃ n ≤ 255, text = Nat.toDigits 10 n := by
  simp only [isOctet, Bool.and_eq_true, Bool.or_eq_true, Bool.not_eq_true',
    List.isEmpty_eq_false_iff, List.all_eq_true, beq_iff_eq, bne_iff_ne, decide_eq_true_eq]
  constructor
  · rintro ⟨⟨⟨hne, hdigits⟩, hlead⟩, hle⟩
    exact ⟨_, hle, (Digits.toDigits_value hne hdigits hlead).symm⟩
  · rintro ⟨n, hle, rfl⟩
    refine ⟨⟨⟨Nat.toDigits_ne_nil, fun c hc => ?_⟩, ?_⟩, (Digits.value_toDigits n).trans_le hle⟩
    · exact Nat.isDigit_of_mem_toDigits (by decide) (by decide) hc
    · rcases Nat.eq_zero_or_pos n with rfl | hpos
      · exact .inl rfl
      · exact .inr (Digits.head?_toDigits hpos)

/-! ### IPv4 literals -/

/-- Four numbers up to 255 in decimal, with dots between them. -/
def Dotted (text : List Char) : Prop :=
  ∃ ns : List Nat, ns.length = 4 ∧ (∀ n ∈ ns, n ≤ 255) ∧
    text = ['.'].intercalate (ns.map (Nat.toDigits 10))

/-- The test of an IPv4 address passes four such numbers. -/
theorem isIpv4_iff_dotted : isIpv4 text = true ↔ Dotted text := by
  rw [isIpv4_iff]
  constructor
  · rintro ⟨words, hlen, hwords, rfl⟩
    choose! number hle hnumber using fun w hw => isOctet_iff.mp (hwords w hw)
    refine ⟨words.map number, by rwa [List.length_map], List.forall_mem_map.mpr hle, ?_⟩
    rw [List.map_map]
    exact congrArg _ ((List.map_id' words).symm.trans (List.map_congr_left hnumber))
  · rintro ⟨ns, hlen, hle, rfl⟩
    exact ⟨_, by rwa [List.length_map],
      List.forall_mem_map.mpr fun n hn => isOctet_iff.mpr ⟨n, hle n hn, rfl⟩, rfl⟩

/-- ASCII images, up to case, keep what is one. -/
theorem dotted_image (caseless : Bool) (text : List Char) :
    isIpv4 (text.map (asciiOnly caseless)) = true ↔ Dotted text := by
  refine (map_asciiOnly_iff (P := (isIpv4 · = true)) ?_ caseless text).trans isIpv4_iff_dotted
  intro text h c hc
  rcases (mem_ipv4 h).2 c hc with rfl | hdigit
  · decide
  · have := isDigit_iff.mp hdigit
    exact ⟨fun h => by subst h; simp at this, by omega⟩

/-! ### IPv6 literals -/

/-- Words that stand for so many groups: each for one, but an IPv4 literal in the last place for
two. -/
inductive Grouped : List (List Char) → Nat → Prop where
  | groups {gs : List (List Char)} (hgs : ∀ g ∈ gs, isGroup g = true) : Grouped gs gs.length
  | embedded {gs : List (List Char)} {v : List Char} (hgs : ∀ g ∈ gs, isGroup g = true)
      (hv : Dotted v) : Grouped (gs ++ [v]) (gs.length + 2)

/-- An IPv6 address: eight groups with colons between them, or a double colon and at most seven groups
on its sides.  No group is empty, so there is no other double colon. -/
inductive Ipv6 : List Char → Prop where
  | full {ws : List (List Char)} (h : Grouped ws 8) : Ipv6 ([':'].intercalate ws)
  | elided {gs ws : List (List Char)} {n : Nat} (hgs : ∀ g ∈ gs, isGroup g = true)
      (hws : Grouped ws n) (hle : gs.length + n ≤ 7) :
      Ipv6 ([':'].intercalate gs ++ ':' :: ':' :: [':'].intercalate ws)

/-- A letter or digit of a zone. -/
def ZoneChar (caseless : Bool) (c : Char) : Prop :=
  c.isAlphanum = true ∨ caseless = true ∧ (c = '\u017f' ∨ c = '\u212a')

/-- An IPv6 address, and maybe a zone after a percent sign. -/
def Zoned (caseless : Bool) (text : List Char) : Prop :=
  Ipv6 text ∨ ∃ address zone, text = address ++ '%' :: zone ∧ Ipv6 address ∧ zone ≠ [] ∧
    ∀ c ∈ zone, ZoneChar caseless c

theorem count?_iff_grouped : count? ws = some n ↔ Grouped ws n := by
  rw [count?_eq_some]
  constructor
  · rintro (⟨hgs, rfl⟩ | ⟨gs, v, rfl, hgs, hv, rfl⟩)
    · exact .groups hgs
    · exact .embedded hgs (isIpv4_iff_dotted.mp hv)
  · intro h
    cases h with
    | groups hgs => exact .inl ⟨hgs, rfl⟩
    | embedded hgs hv => exact .inr ⟨_, _, rfl, hgs, isIpv4_iff_dotted.mpr hv, rfl⟩

/-- The test of an IPv6 address passes eight groups, or fewer around a double colon. -/
theorem isIpv6_iff_ipv6 : isIpv6 text = true ↔ Ipv6 text := by
  simp only [isIpv6_iff, Counts, count?_iff_grouped]
  constructor
  · rintro (⟨ws, rfl, h⟩ | ⟨gs, _, n, hgs, ⟨ws, rfl, h⟩, hle, rfl⟩)
    · exact .full h
    · exact .elided hgs h hle
  · intro h
    cases h with
    | full h => exact .inl ⟨_, rfl, h⟩
    | elided hgs h hle => exact .inr ⟨_, _, _, hgs, ⟨_, rfl, h⟩, hle, rfl⟩

theorem ipv6_image (caseless : Bool) (text : List Char) :
    isIpv6 (text.map (asciiOnly caseless)) = true ↔ Ipv6 text := by
  refine (map_asciiOnly_iff (P := (isIpv6 · = true)) ?_ caseless text).trans isIpv6_iff_ipv6
  intro text h c hc
  rcases mem_ipv6 h c hc with rfl | rfl | hhex
  · decide
  · decide
  · have := isHex_iff.mp hhex
    exact ⟨fun h => by subst h; simp at this, by omega⟩

theorem isAlphanum_iff {c : Char} : c.isAlphanum = true ↔ 0x30 ≤ c.toNat ∧ c.toNat ≤ 0x39 ∨
    0x61 ≤ c.toNat ∧ c.toNat ≤ 0x7a ∨ 0x41 ≤ c.toNat ∧ c.toNat ≤ 0x5a := by
  have hsplit : c.isAlphanum = (decide (0x41 ≤ c.toNat ∧ c.toNat ≤ 0x5a) ||
      (decide (0x61 ≤ c.toNat) && decide (c.toNat ≤ 0x7a)) || c.isDigit) := rfl
  rw [hsplit, Bool.or_eq_true, Bool.or_eq_true, Bool.and_eq_true, isDigit_iff, decide_eq_true_iff,
    decide_eq_true_iff, decide_eq_true_iff]
  omega

theorem covers_zone {c : Char} : zoneSet.covers c = true ↔ c.isAlphanum = true := by
  rw [zoneSet, CharSet.covers_iff, isAlphanum_iff]
  simp only [CharSet.Within, List.exists_mem_cons_iff, List.not_mem_nil, false_and, exists_false,
    or_false, CharSet.le_iff, Char.reduceToNat]

/-- What a zone holds up to case, by its image. -/
theorem has_zone_image (c : Char) :
    zoneSet.has (asciiOnly caseless c) = true ↔ ZoneChar caseless c := by
  have heven : zoneSet.EvenCased := by decide +kernel
  rw [← heven.admits, ZoneChar]
  cases caseless with
  | false => rw [heven.admits_eq_covers, covers_zone, or_iff_left fun h => Bool.noConfusion h.1]
  | true =>
    rw [CharSet.admits_reading_true]
    refine heven.has_iff.trans (or_congr covers_zone ?_)
    rw [and_iff_left (covers_zone.mpr rfl), and_iff_left (covers_zone.mpr rfl), and_iff_right rfl]

/-- ASCII images keep what is an IPv6 address with a zone. -/
theorem zoned_image (caseless : Bool) (text : List Char) :
    isZoned (text.map (asciiOnly caseless)) = true ↔ Zoned caseless text := by
  rw [isZoned, Bool.or_eq_true, ipv6_image, parted_iff]
  refine or_congr_right ?_
  constructor
  · rintro ⟨u, v, h, hu, hv⟩
    obtain ⟨address, rest, rfl, rfl, hrest⟩ := List.map_eq_append_iff.mp h
    obtain ⟨c, zone, rfl, hc, rfl⟩ := List.map_eq_cons_iff.mp hrest
    obtain rfl := eq_of_asciiOnly (by decide) hc
    obtain ⟨hne, hzone⟩ := isZone_iff.mp hv
    refine ⟨address, zone, rfl, (ipv6_image caseless address).mp hu, ?_, fun c hc => ?_⟩
    · rintro rfl
      exact hne rfl
    · exact (has_zone_image c).mp (hzone _ (List.mem_map_of_mem hc))
  · rintro ⟨address, zone, rfl, haddress, hne, hzone⟩
    refine ⟨address.map (asciiOnly caseless), zone.map (asciiOnly caseless), ?_,
      (ipv6_image caseless address).mpr haddress, isZone_iff.mpr ⟨?_, ?_⟩⟩
    · rw [List.map_append, List.map_cons, asciiOnly_of_lt caseless (by decide)]
    · rwa [ne_eq, List.map_eq_nil_iff]
    · exact List.forall_mem_map.mpr fun c hc => (has_zone_image c).mpr (hzone c hc)

end Grammar

/-! ### Fragments -/

namespace Fragment

open Grammar

variable {caseless : Bool}

/-- The fragment is read as its items, and is light. -/
theorem compact_ipv4 : Compact ipv4 ipv4Items where
  written d := (written_ipv4 d).mono (by decide)
  simple := by decide
  depth := by decide +kernel
  heft := by decide +kernel

theorem compact_ipv6 : Compact ipv6 ipv6Items where
  written := written_ipv6
  simple := by decide +kernel
  depth := by decide +kernel
  heft := by decide +kernel

/-- It sees a text by its ASCII images. -/
theorem seenAs_ipv4 : (ofItems ipv4Items).SeenAs caseless (asciiOnly caseless) :=
  seenAs_asciiOnly (by decide +kernel) caseless

theorem seenAs_ipv6 : (ofItems ipv6Items).SeenAs caseless (asciiOnly caseless) :=
  seenAs_asciiOnly (by decide +kernel) caseless

/-- **The fragment recognizes four numbers with dots between them.** -/
theorem recognizes_ipv4 : (ofItems ipv4Items).Recognizes caseless Dotted :=
  (Simple.textual (.ofItems compact_ipv4.simple)).recognizes seenAs_ipv4 fun text =>
    spelled_ipv4.trans (dotted_image caseless text)

/-- **The fragment recognizes IPv6 addresses, with or without a zone.** -/
theorem recognizes_ipv6 : (ofItems ipv6Items).Recognizes caseless (Zoned caseless) :=
  (Simple.textual (.ofItems compact_ipv6.simple)).recognizes seenAs_ipv6 fun text =>
    spelled_ipv6.trans (zoned_image caseless text)

/-- **The fragment of an IPv4 address stands for the dotted quads**: anchored it decides whether a text
is one, and by itself it finds the longest in a text. -/
theorem ipv4_quads (engine : Engine) (flags : Flags) :
    (∃ r, (engine.compile (anchored ipv4) flags).value = .ok r ∧ r.Decides Dotted) ∧
      ∃ r, (engine.compile ipv4 flags).value = .ok r ∧ r.flags = flags ∧ r.Seeks Dotted :=
  ⟨compact_ipv4.decides engine flags recognizes_ipv4,
    compact_ipv4.seeks engine flags recognizes_ipv4 (greedy_ipv4.prefersLongest seenAs_ipv4)
      steady_ipv4 (by decide +kernel)⟩

-- 256 is too much for an octet, but 25 is not
example (engine : Engine) : ((engine.compile ipv4 {}).value.toOption.map fun r =>
    (r.allMatches "1.2.3.256").value.map (·.text)) = some ["1.2.3.25"] := by
  cases engine <;> decide +kernel

/-- **The fragment of an IPv6 address stands for the IPv6 literals**, with a zone or without. -/
theorem ipv6_literals (engine : Engine) (flags : Flags) :
    (∃ r, (engine.compile (anchored ipv6) flags).value = .ok r ∧ r.Decides (Zoned flags.caseless)) ∧
      ∃ r, (engine.compile ipv6 flags).value = .ok r ∧ r.flags = flags ∧
        r.Seeks (Zoned flags.caseless) :=
  ⟨compact_ipv6.decides engine flags recognizes_ipv6,
    compact_ipv6.seeks engine flags recognizes_ipv6 (greedy_ipv6.prefersLongest seenAs_ipv6)
      steady_ipv6 (by decide +kernel)⟩

end Fragment

end MailPattern
