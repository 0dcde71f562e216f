import Mathlib
import MailPattern.Proofs.Address.Entries
import MailPattern.Proofs.Address.Scanning
import MailPattern.Proofs.Address.Usernames

/-!
# Proofs — Address — Alone

What a search finds in a text that is an address, where only hosts are allowed as domains.  The
username ends at the first at sign and the host at the last dot, since no top-level domain has a
dot; so the text is found whole exactly if its top-level domain is (`Options.findAll_host`).

With letters for a top-level domain it always is.  With a whitelist it is cut where the alternation
comes to a shorter entry first that the top-level domain begins with up to case.  Whether that
happens depends on the whitelist and its order (`Options.searching_alone`): longest first is meant to
rule it out, but lengths are counted in bytes, and the long s takes two, as many as `se`
(`Options.not_searching_alone`).  It does not happen if the entries are their own foldings.
-/

namespace MailPattern

open Pattern Grammar

/-! ### Whitelists -/

namespace Whitelist

/-- Of the entries that an entry begins with up to case, the one that the alternation comes to first is
as long as the entry itself. -/
def Uncut (entries : List String) : Prop :=
  ∀ e ∈ entries, (first? true entries e.toList).map (·.length) = some e.length

/-- At the beginning of an entry some entry of the whitelist stands first. -/
theorem exists_first {entries : List String} {e : String} (he : e ∈ entries) :
    ∃ d, first? true entries e.toList = some d :=
  exists_first_iff.mpr ⟨e, he, stands_self true e⟩

/-- **Entries that are their own foldings are not cut, in any order.** -/
theorem uncut_of_folded {entries : List String}
    (h : ∀ e ∈ entries, e.toList.map Folding.fold = e.toList) : Uncut entries := by
  intro e he
  obtain ⟨d, hd⟩ := exists_first he
  rw [hd, Option.map_some, Option.some.injEq]
  obtain ⟨hdmem, hbegins, hmost⟩ := of_first hd
  -- the first entry is a prefix of the other as it stands
  have hstem : e.toList.take d.length = d.toList := by
    rw [← h d hdmem, ← stands_iff.mp hbegins, List.map_take, h e he]
  have hbytes : e.utf8ByteSize ≤ d.utf8ByteSize := hmost e he (stands_self true e)
  have he : e = d ++ String.ofList (e.toList.drop d.length) := by
    rw [← String.toList_inj, String.toList_append, String.toList_ofList, ← hstem,
      List.take_append_drop]
  have hsize := congrArg String.utf8ByteSize he
  rw [String.utf8ByteSize_append] at hsize
  have hnil : String.ofList (e.toList.drop d.length) = "" :=
    String.utf8ByteSize_eq_zero_iff.mp (by omega)
  rw [he, hnil, String.append_empty]

end Whitelist

/-! ### The scanner at an address -/

namespace Options

variable {o : Options} {text : List Char}

/-- Letters are taken to the end. -/
theorem topLevelScanner_strict (h : o.strict = true) (htext : o.acceptsTopLevel text = true) :
    o.topLevelScanner text = some text.length := by
  rw [acceptsTopLevel, if_pos h, Bool.and_eq_true, decide_eq_true_eq, List.all_eq_true] at htext
  rw [topLevelScanner, if_pos h, Scanner.run, List.takeWhile_eq_self_iff.mpr htext.2,
    if_pos htext.1, Scanner.skip]
  rfl

/-- Of a whitelist the first entry that stands there is taken. -/
theorem topLevelScanner_whitelist (h : o.strict = false) :
    o.topLevelScanner text =
      (Whitelist.first? true o.topLevelDomains text).map (·.length) := by
  rw [topLevelScanner, h, if_neg Bool.false_ne_true, Scanner.first, Whitelist.first?]
  induction Whitelist.sorted o.topLevelDomains with
  | nil => rfl
  | cons e entries ih =>
    rw [List.map_cons, List.findSome?_cons, List.find?_cons, ih, Scanner.word, String.length_toList]
    by_cases hword : Whitelist.stands true text e = true
    · rw [hword, if_pos (Whitelist.stands_iff.mp hword)]
      rfl
    · rw [if_neg fun h => hword (Whitelist.stands_iff.mpr h), Bool.eq_false_iff.mpr hword]

/-- The host goes as far as the last dot. -/
theorem hostScanner_dot {host : List Char} (hhost : isHost host = true) (hdot : '.' ∉ text) {n : Nat}
    (hn : o.topLevelScanner text = some n) :
    o.hostScanner (host ++ '.' :: text) = some (host.length + (1 + n)) := by
  have htop : o.topLevelScanner.after (· == '.') ('.' :: text) = some (1 + n) := by
    rw [Scanner.after, if_pos (beq_self_eq_true '.'), hn]
    rfl
  rw [hostScanner, Scanner.longest, Pattern.longest_eq_some (m := host.length)]
  · rw [Option.bind_some, Scanner.skip, List.drop_left, htop]
    rfl
  · simp
  · rw [List.take_left, List.drop_left, hhost, htop]
    rfl
  · intro k hk h
    -- further on there is no dot
    by_contra hlt
    obtain ⟨-, hsome⟩ := Bool.and_eq_true_iff.mp h
    obtain ⟨j, rfl⟩ : ∃ j, k = host.length + (j + 1) := ⟨k - host.length - 1, by omega⟩
    rw [← List.drop_drop, List.drop_left, List.drop_succ_cons] at hsome
    cases hdrop : text.drop j with
    | nil => simp [hdrop, Scanner.after] at hsome
    | cons c rest =>
      have hc : c ∈ text := List.mem_of_mem_drop (hdrop ▸ List.mem_cons_self)
      simp [hdrop, Scanner.after, ne_of_mem_of_not_mem hc hdot] at hsome

/-- The username goes as far as the first at sign. -/
theorem addressScanner_at {user domain : List Char} (huser : o.username.accepts user = true) :
    o.addressScanner (user ++ '@' :: domain) =
      (o.domainScanner domain).map (user.length + 1 + ·) := by
  cases user with
  | nil => cases huser
  | cons c rest =>
    rw [Username.accepts, Bool.and_eq_true, Bool.and_eq_true, List.all_eq_true] at huser
    obtain ⟨⟨hc, hne⟩, hrest⟩ := huser
    have hrun : (rest ++ '@' :: domain).takeWhile o.username.set.has = rest := by
      rw [List.takeWhile_append_of_pos hrest, List.takeWhile_cons, o.username.not_has_at]
      simp
    have hlen : 1 ≤ rest.length := List.length_pos_of_ne_nil (by simpa using hne)
    rw [addressScanner, List.cons_append, Scanner.after, if_pos hc, Scanner.run, hrun, if_pos hlen,
      Scanner.skip, List.drop_left, Scanner.after, if_pos (beq_self_eq_true '@')]
    simp only [Option.map_map]
    congr 1
    funext n
    simp only [Function.comp, List.length_cons]
    omega

/-- Without other kinds of domains a domain is a host. -/
theorem domainScanner_host (hlocalhost : o.allowLocalhost = false) (hipv4 : o.allowIpv4 = false)
    (hipv6 : o.allowIpv6 = false) : o.domainScanner text = o.hostScanner text := by
  rw [domainScanner, hlocalhost, hipv4, hipv6]
  cases h : o.hostScanner text <;> simp [Scanner.first, h]

/-! ### Searching -/

variable {engine : Engine}

theorem scan_zero {n : Nat} (h : o.addressScanner text = some n) : o.scan text 0 = some ⟨0, n⟩ :=
  scan_eq_some_iff.mpr ⟨le_rfl, Nat.zero_le _, by simp [h], fun j _ hj => absurd hj (Nat.not_lt_zero j)⟩

/-- The scanner does not go beyond the text. -/
theorem addressScanner_le {n : Nat} (h : o.addressScanner text = some n) : n ≤ text.length := by
  have htakes := o.takes_tree text 0 (Nat.zero_le _)
  rw [List.drop_zero, h, Option.map_some, Nat.zero_add] at htakes
  have hstop := (forward_ends _ o.tree 0 (Nat.zero_le _) n (List.mem_of_mem_head? htakes)).2
  rwa [length_readings] at hstop

/-- **A text is found whole exactly if its scanner goes to the end.** -/
theorem findAll_eq_iff {text : String} {n : Nat} (h : o.addressScanner text.toList = some n) :
    ((o.searching.regex engine).findAll text).value = [text] ↔ n = text.toList.length := by
  have hall : ((o.searching.regex engine).findAll text).value =
      (o.scanned text.toList 0).map fun s => (Match.ofSpan text.toList s).text := by
    rw [← o.spans_searching engine]
    exact List.map_map
  have hsuccessive := o.successive_scanned text.toList 0
  rw [hall]
  constructor
  · intro hone
    -- the first text found is the one from 0 to `n`
    have hhead := congrArg List.head? hone
    rw [List.head?_map, hsuccessive.head?_eq, scan_zero h] at hhead
    have htake : text.toList.take n = text.toList := by
      simpa [Match.ofSpan] using congrArg (Option.map String.toList) hhead
    exact (addressScanner_le h).antisymm (List.take_eq_self_iff _ |>.mp htake)
  · rintro rfl
    -- behind the text there is nothing left to find
    have hend : o.scan text.toList text.toList.length = none := by
      refine scan_eq_none_iff.mpr fun j hj _ => ?_
      rw [List.drop_of_length_le hj]
      rfl
    rw [hsuccessive.unique (.cons (scan_zero h) (.nil hend)), List.map_singleton, Match.ofSpan_whole]
    rfl

/-! ### Addresses with hosts -/

/-- A host is the only kind of domain. -/
structure HostsOnly (o : Options) : Prop where
  localhost : o.allowLocalhost = false
  ipv4 : o.allowIpv4 = false
  ipv6 : o.allowIpv6 = false

/-- No top-level domain has a dot. -/
def Dotless (o : Options) : Prop := o.strict = true ∨ ∀ e ∈ o.topLevelDomains, '.' ∉ e.toList

/-- Without dots in the whitelist no dot is in a top-level domain. -/
theorem dot_not_mem_top (hdots : o.Dotless) (h : o.acceptsTopLevel text = true) : '.' ∉ text := by
  have hdot : Uncased '.' := uncased_ascii (.inl (by decide))
  intro hmem
  rw [acceptsTopLevel] at h
  split at h
  · rw [Bool.and_eq_true, List.all_eq_true] at h
    have := (CharSet.has_uncased hdot).mp (h.2 '.' hmem)
    exact absurd this (by decide)
  · obtain ⟨e, he, halike⟩ := List.any_eq_true.mp h
    have hfold : Folding.fold '.' ∈ e.toList.map Folding.fold :=
      alike_iff.mp halike ▸ List.mem_map_of_mem hmem
    obtain ⟨c, hc, hc'⟩ := List.mem_map.mp hfold
    rw [hdot.fold_eq_iff.mp hc'] at hc
    exact (hdots.resolve_left ‹_›) e he hc

/-- What comes first in an accepted top-level domain comes first in the entry that it is. -/
theorem first_of_accepts (hstrict : o.strict = false) (h : o.acceptsTopLevel text = true) :
    ∃ e ∈ o.topLevelDomains, e.length = text.length ∧
      o.topLevelScanner text = (Whitelist.first? true o.topLevelDomains e.toList).map (·.length) := by
  rw [acceptsTopLevel, hstrict, if_neg Bool.false_ne_true] at h
  obtain ⟨e, he, halike⟩ := List.any_eq_true.mp h
  have hfold := alike_iff.mp halike
  refine ⟨e, he, ?_, by rw [topLevelScanner_whitelist hstrict, Whitelist.first?_congr hfold]⟩
  rw [← String.length_toList]
  simpa using (congrArg List.length hfold).symm

theorem exists_topLevelScanner (h : o.acceptsTopLevel text = true) :
    ∃ n, o.topLevelScanner text = some n := by
  cases hstrict : o.strict with
  | true => exact ⟨_, topLevelScanner_strict hstrict h⟩
  | false =>
    obtain ⟨e, he, -, hscan⟩ := first_of_accepts hstrict h
    obtain ⟨d, hd⟩ := Whitelist.exists_first he
    exact ⟨d.length, by rw [hscan, hd]; rfl⟩

/-- **An address with a host is found whole exactly if its top-level domain is taken whole.** -/
theorem findAll_host (hosts : o.HostsOnly) (hdots : o.Dotless) {user host top : List Char}
    (huser : o.username.accepts user = true) (hhost : isHost host = true)
    (htop : o.acceptsTopLevel top = true) {text : String}
    (htext : text.toList = user ++ '@' :: (host ++ '.' :: top)) :
    ((o.searching.regex engine).findAll text).value = [text] ↔
      o.topLevelScanner top = some top.length := by
  obtain ⟨n, hn⟩ := exists_topLevelScanner htop
  have hscan : o.addressScanner text.toList =
      some (user.length + 1 + (host.length + (1 + n))) := by
    rw [htext, addressScanner_at huser, domainScanner_host hosts.localhost hosts.ipv4 hosts.ipv6,
      hostScanner_dot hhost (dot_not_mem_top hdots htop) hn]
    rfl
  rw [findAll_eq_iff hscan, hn, Option.some.injEq, htext]
  simp only [List.length_append, List.length_cons]
  omega

/-- An address with a host is a username, a host and a top-level domain. -/
theorem exists_parts (hosts : o.HostsOnly) (h : o.isAddress text = true) :
    ∃ user host top, text = user ++ '@' :: (host ++ '.' :: top) ∧ o.username.accepts user = true ∧
      isHost host = true ∧ o.acceptsTopLevel top = true := by
  obtain ⟨user, domain, rfl, huser, hdomain⟩ := parted_iff.mp h
  replace hdomain : o.acceptsHost domain = true := by
    simpa [acceptsDomain, hosts.localhost, hosts.ipv4, hosts.ipv6] using hdomain
  obtain ⟨host, top, rfl, hhost, htop⟩ := parted_iff.mp hdomain
  exact ⟨user, host, top, rfl, huser, hhost, htop⟩

/-- **Addresses are found whole exactly if no entry of the whitelist is cut.** -/
theorem findAll_address_iff (hosts : o.HostsOnly) (hdots : o.Dotless) :
    (∀ text : String, o.isAddress text.toList = true →
      ((o.searching.regex engine).findAll text).value = [text]) ↔
      o.strict = true ∨ Whitelist.Uncut o.topLevelDomains := by
  constructor
  · intro hwhole
    refine or_iff_not_imp_left.mpr fun hstrict e he => ?_
    rw [Bool.not_eq_true] at hstrict
    -- the shortest address with the entry in it
    have htop : o.acceptsTopLevel e.toList = true := by
      rw [acceptsTopLevel, hstrict, if_neg Bool.false_ne_true]
      exact List.any_eq_true.mpr ⟨e, he, alike_iff.mpr rfl⟩
    have huser : o.username.accepts ['a', 'a'] = true := by
      have hletter : Fragment.alnum.has 'a' = true := by decide +kernel
      simp [Username.accepts, hletter, Username.has_of_alnum hletter]
    have hhost : isHost ['x'] = true := by decide +kernel
    obtain ⟨text, htext⟩ : ∃ text : String,
        text.toList = ['a', 'a'] ++ '@' :: (['x'] ++ '.' :: e.toList) :=
      ⟨String.ofList _, String.toList_ofList⟩
    have haddress : o.isAddress text.toList = true := by
      refine parted_iff.mpr ⟨_, _, htext, huser, ?_⟩
      rw [acceptsDomain, Bool.or_eq_true]
      exact .inr (parted_iff.mpr ⟨_, _, rfl, hhost, htop⟩)
    have := (findAll_host hosts hdots huser hhost htop htext).mp (hwhole text haddress)
    rwa [topLevelScanner_whitelist hstrict, String.length_toList] at this
  · intro h text haddress
    obtain ⟨user, host, top, htext, huser, hhost, htop⟩ := exists_parts hosts haddress
    refine (findAll_host hosts hdots huser hhost htop htext).mpr ?_
    cases hstrict : o.strict with
    | true => exact topLevelScanner_strict hstrict htop
    | false =>
      obtain ⟨e, he, hlen, hscan⟩ := first_of_accepts hstrict htop
      rw [hscan, (h.resolve_left (by simp [hstrict])) e he, hlen]

variable (o)

/-- **A search finds an address that stands alone whole**, where only hosts are allowed and no
top-level domain has a dot, exactly if top-level domains are letters or no entry of the whitelist is
cut.  No entry is where all are their own foldings. -/
theorem searching_alone (s s' : Selector) (hosts : o.HostsOnly) (hdots : o.Dotless) :
    o.searching.Compiled s fun r => o.deciding.Compiled s' fun r' =>
      ((∀ text : String, (r'.isMatch text).value = true → (r.findAll text).value = [text]) ↔
        o.strict = true ∨ Whitelist.Uncut o.topLevelDomains) ∧
      ((∀ e ∈ o.topLevelDomains, e.toList.map Folding.fold = e.toList) →
        ∀ text : String, (r'.isMatch text).value = true → (r.findAll text).value = [text]) := by
  refine o.searching.compiled_of_regex fun engine => o.deciding.compiled_of_regex fun engine' => ?_
  have hwhole := @findAll_address_iff o engine hosts hdots
  simp only [isMatch_deciding, accepts_iff]
  exact ⟨hwhole, fun h => hwhole.mpr (.inr (Whitelist.uncut_of_folded h))⟩

/-- Hosts with the top-level domains of a whitelist. -/
def listing (entries : List String) : Options :=
  { allowLocalhost := false, allowIpv4 := false, topLevelDomains := entries }

theorem hostsOnly_listing (entries : List String) : (listing entries).HostsOnly := ⟨rfl, rfl, rfl⟩

theorem searching_listing (entries : List String) : (listing entries).searching = listing entries :=
  rfl

-- Else the regexes of the whitelists below would be computed.
attribute [local irreducible] Compiled

/-- An entry does not cut one that is longer, though it comes first in the whitelist. -/
theorem searching_alone_longer :
    (listing ["co", "com"]).HostsOnly ∧ (listing ["co", "com"]).Dotless ∧ ∃ r,
      ((listing ["co", "com"]).compile { loader := .builtIn }).value.1 = .ok r ∧
      (r.findAll "foo@bar.com").value = ["foo@bar.com"] := by
  have hdots : (listing ["co", "com"]).Dotless := .inr (by decide +kernel)
  have hdeciding : (listing ["co", "com"]).deciding.Light := light_of_short _ (by decide)
  have h := searching_alone _ { loader := .builtIn } { loader := .builtIn }
    (hostsOnly_listing ["co", "com"]) hdots
  rw [searching_listing] at h
  obtain ⟨r, hr, h⟩ := h.exists_regex _ (light_of_short _ (by decide))
  obtain ⟨r', hr', -, hwhole⟩ := h.exists_regex _ hdeciding
  obtain rfl := Except.ok.inj (hr'.symm.trans ((compile_eq ..).trans (if_pos hdeciding)))
  refine ⟨hostsOnly_listing _, hdots, r, hr, hwhole (by decide +kernel) _ ?_⟩
  exact (isMatch_deciding ..).mpr ((accepts_iff _).mpr (by decide +kernel))

/-- The long s cuts `se`, for it has no fewer bytes. -/
theorem not_searching_alone : ∃ r r',
    ((listing ["\u017f", "se"]).compile { loader := .builtIn }).value.1 = .ok r ∧
    ((listing ["\u017f", "se"]).deciding.compile { loader := .builtIn }).value.1 = .ok r' ∧
    (r'.isMatch "aa@x.se").value = true ∧ (r.findAll "aa@x.se").value ≠ ["aa@x.se"] := by
  refine ⟨_, _, (compile_eq ..).trans (if_pos (light_of_short _ (by decide))),
    (compile_eq ..).trans (if_pos (light_of_short _ (by decide))), ?_, ?_⟩
  · exact (isMatch_deciding ..).mpr ((accepts_iff _).mpr (by decide +kernel))
  · have hsorted : Whitelist.sorted ["\u017f", "se"] = ["\u017f", "se"] :=
      List.mergeSort_of_pairwise (by decide)
    have htop : (listing ["\u017f", "se"]).topLevelScanner ['s', 'e'] = some 1 := by
      rw [topLevelScanner_whitelist rfl, Whitelist.first?, listing, hsorted]
      decide +kernel
    have htext : "aa@x.se".toList = ['a', 'a'] ++ '@' :: (['x'] ++ '.' :: ['s', 'e']) := by
      decide +kernel
    intro hwhole
    have := (findAll_host (hostsOnly_listing ["\u017f", "se"]) (.inr (by decide +kernel))
      (by decide +kernel) (by decide +kernel) (by decide +kernel) htext).mp hwhole
    rw [htop] at this
    cases this

end Options

end MailPattern
