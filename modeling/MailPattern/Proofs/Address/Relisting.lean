import MailPattern.Proofs.Address.Alone

/-!
# Proofs — Address — Relisting

A whitelist is a set.  The order of its entries changes the pattern, and so does an entry that is
repeated in it, but neither changes what is found, if the entries are of ASCII (`Options.relisted`).  In the
alternation the longest come first, and in ASCII as many characters are as many bytes; so of the
entries that stand somewhere up to case the first in order has the most characters, in any order
of the whitelist (`Whitelist.length_first_congr`).  Which entry it is does not matter, only how long.
-/

namespace MailPattern

open Pattern Grammar

namespace Whitelist

/-- All entries are of ASCII. -/
def Ascii (entries : List String) : Prop := ∀ e ∈ entries, ∀ c ∈ e.toList, c.toNat < 0x80

instance (entries : List String) : Decidable (Ascii entries) :=
  decidable_of_iff ((entries.all fun e => e.toList.all fun c => decide (c.toNat < 0x80)) = true)
    (by simp [Ascii])

/-- The whitelists have the same entries, in any order, with any repetitions. -/
def SameEntries (entries entries' : List String) : Prop := ∀ e, e ∈ entries ↔ e ∈ entries'

variable {entries entries' : List String} {caseless : Bool} {text : List Char} {d e : String}

theorem SameEntries.symm (h : SameEntries entries entries') : SameEntries entries' entries :=
  fun e => (h e).symm

theorem SameEntries.ascii (h : SameEntries entries entries') (hascii : Ascii entries) : Ascii entries' :=
  fun e he => hascii e ((h e).mpr he)

/-- No entry that stands in a place has more characters than the first. -/
theorem length_le_of_first (hascii : Ascii entries) (h : first? caseless entries text = some e)
    (hd : d ∈ entries) (hstands : stands caseless text d = true) : d.length ≤ e.length := by
  obtain ⟨he, -, hmost⟩ := of_first h
  rw [← utf8ByteSize_of_ascii (hascii d hd), ← utf8ByteSize_of_ascii (hascii e he)]
  exact hmost d hd hstands

/-- The other whitelist has an entry there too, and its first is no shorter. -/
theorem exists_first_le (h : SameEntries entries entries') (hascii : Ascii entries')
    (hfirst : first? caseless entries text = some e) :
    ∃ e', first? caseless entries' text = some e' ∧ e.length ≤ e'.length := by
  obtain ⟨he, hstands, -⟩ := of_first hfirst
  obtain ⟨e', hfirst'⟩ := exists_first_iff.mpr ⟨e, (h e).mp he, hstands⟩
  exact ⟨e', hfirst', length_le_of_first hascii hfirst' ((h e).mp he) hstands⟩

/-- **How long the first entry is that stands in a place depends on the set of entries only.** -/
theorem length_first_congr (h : SameEntries entries entries') (hascii : Ascii entries) :
    (first? caseless entries text).map (·.length) = (first? caseless entries' text).map (·.length) := by
  cases hfirst : first? caseless entries text with
  | none =>
    cases hfirst' : first? caseless entries' text with
    | none => rfl
    | some e' =>
      obtain ⟨e, he, -⟩ := exists_first_le h.symm hascii hfirst'
      cases hfirst.symm.trans he
  | some e =>
    obtain ⟨e', hfirst', hle⟩ := exists_first_le h (h.ascii hascii) hfirst
    obtain ⟨d, hd, hle'⟩ := exists_first_le h.symm hascii hfirst'
    obtain rfl := Option.some.inj (hfirst.symm.trans hd)
    rw [hfirst', Option.map_some, Option.map_some, Nat.le_antisymm hle hle']

end Whitelist

namespace Options

variable (o : Options)

/-- The options with another whitelist. -/
def relist (entries : List String) : Options := { o with topLevelDomains := entries }

variable {o} {entries entries' : List String} {text : List Char}

/-! ### Addresses -/

/-- What is accepted as a top-level domain depends on the set of entries only. -/
theorem acceptsTopLevel_relist (h : Whitelist.SameEntries entries entries') :
    (o.relist entries).acceptsTopLevel text = (o.relist entries').acceptsTopLevel text := by
  have hany : entries.any (fun e => alike text e.toList) = entries'.any fun e => alike text e.toList := by
    rw [Bool.eq_iff_iff, List.any_eq_true, List.any_eq_true]
    exact exists_congr fun e => and_congr_left' (h e)
  cases hstrict : o.strict <;> simp [acceptsTopLevel, relist, hstrict, hany]

/-- Which texts are addresses depends on the set of entries only, whatever they are. -/
theorem isAddress_relist (h : Whitelist.SameEntries entries entries') :
    (o.relist entries).isAddress text = (o.relist entries').isAddress text := by
  have htop : (o.relist entries).acceptsTopLevel = (o.relist entries').acceptsTopLevel :=
    funext fun _ => acceptsTopLevel_relist h
  have hhost : (o.relist entries).acceptsHost = (o.relist entries').acceptsHost :=
    funext fun _ => by rw [acceptsHost, acceptsHost, htop]
  have hdomain : (o.relist entries).acceptsDomain = (o.relist entries').acceptsDomain :=
    funext fun _ => by rw [acceptsDomain, acceptsDomain, hhost]; rfl
  rw [isAddress, isAddress, hdomain]
  rfl

/-! ### Scanners -/

theorem topLevelScanner_relist (h : Whitelist.SameEntries entries entries')
    (hascii : Whitelist.Ascii entries) :
    (o.relist entries).topLevelScanner = (o.relist entries').topLevelScanner := by
  funext text
  cases hstrict : o.strict with
  | true =>
    have hrelist : ∀ entries, (o.relist entries).strict = true := fun _ => hstrict
    rw [topLevelScanner, topLevelScanner, if_pos (hrelist _), if_pos (hrelist _)]
  | false =>
    have hrelist : ∀ entries, (o.relist entries).strict = false := fun _ => hstrict
    rw [topLevelScanner_whitelist (hrelist _), topLevelScanner_whitelist (hrelist _)]
    exact Whitelist.length_first_congr h hascii

/-- So does a scan, then. -/
theorem scan_relist (h : Whitelist.SameEntries entries entries') (hascii : Whitelist.Ascii entries) :
    (o.relist entries).scan = (o.relist entries').scan := by
  have hhost : (o.relist entries).hostScanner = (o.relist entries').hostScanner := by
    rw [hostScanner, hostScanner, topLevelScanner_relist h hascii]
  have hdomain : (o.relist entries).domainScanner = (o.relist entries').domainScanner := by
    rw [domainScanner, domainScanner, hhost]
    rfl
  have haddress : (o.relist entries).addressScanner = (o.relist entries').addressScanner := by
    rw [addressScanner, addressScanner, hdomain]
    rfl
  funext text i
  rw [scan, scan, haddress]

/-- What a search reports depends on the set of entries only. -/
theorem scanned_relist (h : Whitelist.SameEntries entries entries') (hascii : Whitelist.Ascii entries)
    (i : Nat) : (o.relist entries).scanned text i = (o.relist entries').scanned text i := by
  have hsuccessive := (o.relist entries).successive_scanned text i
  rw [scan_relist h hascii] at hsuccessive
  exact hsuccessive.unique ((o.relist entries').successive_scanned text i)

/-! ### Regexes -/

variable {engine engine' : Engine}

/-- So does what is matched, for entries of any characters. -/
theorem isMatch_relist (h : Whitelist.SameEntries entries entries') (text : String) :
    (((o.relist entries).regex engine).isMatch text).value =
      (((o.relist entries').regex engine').isMatch text).value := by
  rw [Bool.eq_iff_iff, isMatch_iff, isMatch_iff]
  simp only [accepts_iff, isAddress_relist h]
  rfl

/-- So do the matches reported, if all entries are ASCII. -/
theorem allMatches_relist (h : Whitelist.SameEntries entries entries')
    (hascii : Whitelist.Ascii entries) (text : String) :
    (((o.relist entries).regex engine).allMatches text).value =
      (((o.relist entries').regex engine').allMatches text).value := by
  cases hexact : o.exact with
  | true =>
    have hdeciding : ∀ entries, (o.relist entries).deciding = o.relist entries := by
      intro entries
      rw [deciding, relist, ← hexact]
    rw [← hdeciding entries, ← hdeciding entries', allMatches_deciding, allMatches_deciding,
      isAddress_relist h]
  | false =>
    have hsearching : ∀ entries, (o.relist entries).searching = o.relist entries := by
      intro entries
      rw [searching, relist, ← hexact]
    have hspans := (o.relist entries).spans_searching engine text.toList
    rw [scanned_relist h hascii, ← (o.relist entries').spans_searching engine', hsearching,
      hsearching] at hspans
    exact congrArg (List.map (Match.ofSpan text.toList)) hspans

/-- **Neither the order of a whitelist nor what is repeated in it matters**, where its entries are of
ASCII: the same texts are matched, and the same matches reported. -/
theorem relisted (s s' : Selector) (h : Whitelist.SameEntries entries entries')
    (hascii : Whitelist.Ascii entries) :
    (o.relist entries).Compiled s fun r => (o.relist entries').Compiled s' fun r' => ∀ text : String,
      (r.isMatch text).value = (r'.isMatch text).value ∧
        (r.allMatches text).value = (r'.allMatches text).value :=
  compiled_of_regex _ fun _ => compiled_of_regex _ fun _ text =>
    ⟨isMatch_relist h text, allMatches_relist h hascii text⟩

-- Else the regexes of the whitelists below would be computed.
attribute [local irreducible] Compiled

/-- `co` may come first, and once more after `com`. -/
theorem relisted_repeated :
    Whitelist.SameEntries ["co", "com", "co"] ["com", "co"] ∧ Whitelist.Ascii ["co", "com", "co"] ∧
      ∃ r r',
        (((listing []).relist ["co", "com", "co"]).compile { loader := .builtIn }).value.1 = .ok r ∧
        (((listing []).relist ["com", "co"]).compile { loader := .builtIn }).value.1 = .ok r' ∧
        (r.allMatches "foo@bar.com, foo@bar.co").value = (r'.allMatches "foo@bar.com, foo@bar.co").value := by
  have hsame : Whitelist.SameEntries ["co", "com", "co"] ["com", "co"] := by
    intro e
    simp only [List.mem_cons, List.not_mem_nil, or_false]
    tauto
  have hascii : Whitelist.Ascii ["co", "com", "co"] := by decide
  have h := @relisted (listing []) _ _ { loader := .builtIn } { loader := .builtIn } hsame hascii
  obtain ⟨r, hr, h⟩ := h.exists_regex _ (light_of_short _ (by decide))
  obtain ⟨r', hr', h⟩ := h.exists_regex _ (light_of_short _ (by decide))
  exact ⟨hsame, hascii, r, r', hr, hr', (h _).2⟩

end Options

end MailPattern
