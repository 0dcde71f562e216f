import MailPattern.Proofs.Address.Deciding
import MailPattern.Proofs.Address.Light

/-!
# Proofs — Address — Usernames

The characters of the usernames that are found.  The classes of the webmail rules and of the ASCII
rules list characters of ASCII only, but what is searched for is compared up to case, and two
characters outside ASCII fold to letters of it: the long s and the Kelvin sign.  A username in a
match has characters of its class, in either case, and these two (`Options.username_of_match`); they
are kept out only where nothing at all is found.
-/

namespace MailPattern

open Pattern Grammar

/-- What stands in a text before the first at sign. -/
def localPart (text : String) : List Char := text.toList.takeWhile (· != '@')

namespace Username

/-- A character of ASCII that the class lists as a small letter, a digit or punctuation. -/
def lists (u : Username) (c : Char) : Bool := decide (c.toNat < 0x80) && u.set.covers c.toLower

variable {u : Username} {c : Char}

/-- **A class of ASCII holds, up to case, what it lists and two characters more.** -/
theorem has_iff (hu : u ≠ .utf8) :
    u.set.has c = true ↔ u.lists c = true ∨ c = '\u017f' ∨ c = '\u212a' := by
  have hlists : u.lists c = true ↔ c.toNat < 0x80 ∧ u.set.covers c.toLower = true := by
    rw [lists, Bool.and_eq_true, decide_eq_true_eq]
  rw [hlists]
  cases u with
  | utf8 => exact absurd rfl hu
  | gmail | ascii =>
    refine (CharSet.has_lower_iff (by decide)).trans (or_congr_right (or_congr ?_ ?_)) <;>
      exact and_iff_left (by decide)

theorem has_of_alnum (h : Fragment.alnum.has c = true) : u.set.has c = true := by
  cases u with
  | gmail | ascii => exact CharSet.has_of_subset (fun _ hr => List.mem_append_left _ hr) h
  | utf8 =>
    exact CharSet.has_of_subset (fun _ hr => List.mem_append_left _ (List.mem_append_left _ hr)) h

theorem has_of_accepts {word : List Char} (h : u.accepts word = true) :
    ∀ c ∈ word, u.set.has c = true := by
  cases word with
  | nil => nofun
  | cons c rest =>
    rw [accepts, Bool.and_eq_true, Bool.and_eq_true, List.all_eq_true] at h
    exact List.forall_mem_cons.mpr ⟨has_of_alnum h.1.1, h.2⟩

theorem at_not_mem {word : List Char} (h : u.accepts word = true) : '@' ∉ word := fun hmem =>
  absurd (has_of_accepts h '@' hmem) (by rw [not_has_at]; exact Bool.false_ne_true)

end Username

namespace Options

variable (o : Options)

/-- What stands before the first at sign of an address is a username. -/
theorem accepts_localPart {text : String} (h : o.Accepts text.toList) :
    o.username.accepts (localPart text) = true ∧ ∃ d, text.toList = localPart text ++ '@' :: d := by
  obtain ⟨u, d, htext, hu, -⟩ := parted_iff.mp (o.accepts_iff.mp h)
  have hlocal : localPart text = u := by
    rw [localPart, htext, List.takeWhile_append_of_pos fun c hc =>
      bne_iff_ne.mpr (ne_of_mem_of_not_mem hc (Username.at_not_mem hu))]
    simp
  exact ⟨hlocal ▸ hu, d, hlocal ▸ htext⟩

/-- Where there is an address at all, there is one with the long s in its username. -/
theorem accepts_long_s (hu : o.username ≠ .utf8) {word : List Char} (h : o.Accepts word) :
    ∃ d : List Char, o.Accepts ('a' :: '\u017f' :: '@' :: d) := by
  obtain ⟨u, d, -, -, hd⟩ := parted_iff.mp (o.accepts_iff.mp h)
  have huser : o.username.accepts ['a', '\u017f'] = true := by
    rw [Username.accepts, Bool.and_eq_true, Bool.and_eq_true, List.all_eq_true,
      List.forall_mem_singleton, Username.has_iff hu]
    refine ⟨⟨?_, rfl⟩, .inr (.inl rfl)⟩
    exact (CharSet.has_lower_iff (by decide)).mpr (.inl (by decide))
  exact ⟨d, o.accepts_iff.mpr (parted_iff.mpr ⟨_, d, rfl, huser, hd⟩)⟩

/-- The long s is then in the username that is found. -/
theorem exists_match_long_s (engine : Engine) {d : List Char}
    (h : o.Accepts ('a' :: '\u017f' :: '@' :: d)) :
    ∃ m ∈ ((o.regex engine).allMatches (String.ofList ('a' :: '\u017f' :: '@' :: d))).value,
      '\u017f' ∈ localPart m.text := by
  have htoList : (String.ofList ('a' :: '\u017f' :: '@' :: d)).toList = _ := String.toList_ofList
  obtain ⟨m, hm, rest, hbegins⟩ := @exists_prefix_of_accepts o engine _ (htoList ▸ h)
  obtain ⟨huser, d', htext⟩ := o.accepts_localPart (o.accepts_of_mem hm)
  -- what is found begins where the text does, and both have an at sign first after the username
  have hcut : localPart m.text ++ '@' :: (d' ++ rest) = ['a', '\u017f'] ++ '@' :: d := by
    rw [htext, htoList, List.append_assoc] at hbegins
    exact hbegins
  have hlocal : localPart m.text = ['a', '\u017f'] :=
    (append_sep_inj (Username.at_not_mem huser) (by decide) hcut).1
  exact ⟨m, hm, by rw [hlocal]; decide⟩

theorem username_ne_utf8 (h : o.gmailRules = true ∨ o.allowUtf8Username = false) :
    o.username ≠ .utf8 := by
  unfold username Username.select
  rcases h with h | h
  · rw [h, if_pos rfl]
    nofun
  · rw [h, if_neg Bool.false_ne_true]
    split <;> nofun

/-- **The characters of a username that is found** are listed in the class of the rules, in either
case, or one of the two outside ASCII that fold to a letter.  All are of ASCII only if nothing is
ever found. -/
theorem username_of_match (s : Selector) (h : o.gmailRules = true ∨ o.allowUtf8Username = false) :
    o.Compiled s fun r =>
      (∀ text, ∀ m ∈ (r.allMatches text).value, ∀ c ∈ localPart m.text,
        o.username.lists c = true ∨ c = '\u017f' ∨ c = '\u212a') ∧
      ((∀ text, ∀ m ∈ (r.allMatches text).value, ∀ c ∈ localPart m.text, c.toNat < 0x80) ↔
        ∀ text, (r.isMatch text).value = false) := by
  have hu := o.username_ne_utf8 h
  refine o.compiled_of_regex fun engine => ⟨fun text m hm c hc => ?_, fun hascii text => ?_,
    fun hnone text m hm => ?_⟩
  · exact (Username.has_iff hu).mp
      (Username.has_of_accepts (o.accepts_localPart (o.accepts_of_mem hm)).1 c hc)
  · rw [← Bool.not_eq_true]
    intro hmatch
    obtain ⟨word, hword⟩ := o.exists_accepts_of_isMatch hmatch
    obtain ⟨d, hd⟩ := o.accepts_long_s hu hword
    obtain ⟨m, hm, hc⟩ := o.exists_match_long_s engine hd
    exact absurd (hascii _ m hm _ hc) (by decide)
  · have := o.isMatch_of_mem hm
    rw [hnone text] at this
    cases this

-- Else the regex of the options below would be computed.
attribute [local irreducible] Compiled

/-- An exact pattern by the rules of webmail compiles, and keeps to their class. -/
theorem username_of_match_exact :
    ({ exact := true, topLevelDomains := ["com"] } : Options).gmailRules = true ∧ ∃ r,
      (Options.compile { exact := true, topLevelDomains := ["com"] }
        { loader := .builtIn }).value.1 = .ok r ∧
      ∀ text, ∀ m ∈ (r.allMatches text).value, ∀ c ∈ localPart m.text,
        Username.gmail.lists c = true ∨ c = '\u017f' ∨ c = '\u212a' := by
  have h := username_of_match { exact := true, topLevelDomains := ["com"] } { loader := .builtIn }
    (.inl rfl)
  obtain ⟨r, hr, hchars, -⟩ := h.exists_regex _ (light_of_short _ (by decide))
  exact ⟨rfl, r, hr, hchars⟩

/-- It does find an address with the long s in its username. -/
theorem not_ascii_username : ∃ r,
    (Options.compile { exact := true, topLevelDomains := ["com"] }
      { loader := .builtIn }).value.1 = .ok r ∧
    ∃ m ∈ (r.allMatches "a\u017f@x.com").value, '\u017f' ∈ localPart m.text := by
  refine ⟨_, (compile_eq ..).trans (if_pos (light_of_short _ (by decide))), ?_⟩
  exact exists_match_long_s _ _ (d := ['x', '.', 'c', 'o', 'm'])
    ((accepts_iff _).mpr (by decide +kernel))

end Options

end MailPattern
