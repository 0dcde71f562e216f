import MailPattern.Proofs.Address.Usernames

/-!
# Proofs — Address — Widening

Options that allow more.  With more kinds of domains, a wider username rule or a wider rule for
top-level domains every address remains one (`Options.Widens.isAddress`), so every text that was
matched still is (`Options.widening`).  That is a matter of which texts are addresses only: what is
found in a text may well be shorter, since a branch that is added to the pattern can be preferred to
the one that was taken before.
-/

namespace MailPattern

open Pattern Grammar

/-- The username rules from the narrowest to the widest. -/
def Username.rank : Username → Nat
  | .gmail => 0
  | .ascii => 1
  | .utf8 => 2

namespace Options

/-- The second options allow the top-level domains of the first: both by form, or both from a list that
contains the first, or the second by form and the entries listed are of that form. -/
inductive WidensTopLevel (o o' : Options) : Prop
  | strict (h : o.strict = true) (h' : o'.strict = true)
  | listed (h : o.strict = false) (h' : o'.strict = false)
      (hlisted : ∀ e ∈ o.topLevelDomains, e ∈ o'.topLevelDomains)
  | letters (h' : o'.strict = true)
      (hletters : ∀ e ∈ o.topLevelDomains, 2 ≤ e.length ∧ e.toList.all Fragment.letterSet.has = true)

/-- The second options allow no less than the first, and are exact if those are. -/
structure Widens (o o' : Options) : Prop where
  exact : o.exact = o'.exact
  localhost : o.allowLocalhost = true → o'.allowLocalhost = true
  ipv4 : o.allowIpv4 = true → o'.allowIpv4 = true
  ipv6 : o.allowIpv6 = true → o'.allowIpv6 = true
  username : o.username.rank ≤ o'.username.rank
  topLevel : o.WidensTopLevel o'

end Options

/-! ### Parts of an address -/

/-- The class of a wider rule holds what that of a narrower one holds. -/
theorem Username.has_mono {u u' : Username} (h : u.rank ≤ u'.rank) {c : Char}
    (hc : u.set.has c = true) : u'.set.has c = true := by
  have hascii : Fragment.gmailSet.has c = true → Fragment.asciiSet.has c = true :=
    CharSet.has_of_subset (by decide +kernel)
  have hutf8 : Fragment.asciiSet.has c = true → Fragment.utf8Set.has c = true :=
    CharSet.has_of_subset fun _ => List.mem_append_left _
  cases u with
  | gmail =>
    cases u' with
    | gmail => exact hc
    | ascii => exact hascii hc
    | utf8 => exact hutf8 (hascii hc)
  | ascii =>
    cases u' with
    | gmail => exact absurd h (by decide)
    | ascii => exact hc
    | utf8 => exact hutf8 hc
  | utf8 =>
    cases u' with
    | utf8 => exact hc
    | gmail | ascii => exact absurd h (by decide)

theorem Username.accepts_mono {u u' : Username} (h : u.rank ≤ u'.rank) {text : List Char}
    (haccepts : u.accepts text = true) : u'.accepts text = true := by
  cases text with
  | nil => cases haccepts
  | cons c rest =>
    rw [accepts, Bool.and_eq_true, List.all_eq_true] at haccepts ⊢
    exact ⟨haccepts.1, fun c hc => has_mono h (haccepts.2 c hc)⟩

namespace Options

variable {o o' : Options} {text : List Char}

theorem WidensTopLevel.accepts (h : o.WidensTopLevel o') (haccepts : o.acceptsTopLevel text = true) :
    o'.acceptsTopLevel text = true := by
  cases h with
  | strict h h' =>
    rw [acceptsTopLevel, if_pos h] at haccepts
    rwa [acceptsTopLevel, if_pos h']
  | listed h h' hlisted =>
    rw [acceptsTopLevel, h, if_neg Bool.false_ne_true, List.any_eq_true] at haccepts
    obtain ⟨e, he, halike⟩ := haccepts
    rw [acceptsTopLevel, h', if_neg Bool.false_ne_true, List.any_eq_true]
    exact ⟨e, hlisted e he, halike⟩
  | letters h' hletters =>
    rw [acceptsTopLevel, if_pos h']
    rw [acceptsTopLevel] at haccepts
    split at haccepts
    · exact haccepts
    · -- the text is an entry up to case, and letters are up to case
      obtain ⟨e, he, halike⟩ := List.any_eq_true.mp haccepts
      have hfold := alike_iff.mp halike
      have hlen : text.length = e.length := by
        rw [← String.length_toList, ← List.length_map (f := Folding.fold), hfold, List.length_map]
      obtain ⟨htwo, hall⟩ := hletters e he
      rw [CharSet.all_has_congr hfold, hall, hlen, Bool.and_true]
      exact decide_eq_true htwo

theorem Widens.acceptsDomain (h : o.Widens o') (haccepts : o.acceptsDomain text = true) :
    o'.acceptsDomain text = true := by
  simp only [Options.acceptsDomain, Bool.or_eq_true, Bool.and_eq_true] at haccepts ⊢
  obtain ((⟨hallow, h'⟩ | ⟨hallow, h'⟩) | ⟨hallow, h'⟩) | h' := haccepts
  · exact .inl (.inl (.inl ⟨h.localhost hallow, h'⟩))
  · exact .inl (.inl (.inr ⟨h.ipv4 hallow, h'⟩))
  · exact .inl (.inr ⟨h.ipv6 hallow, h'⟩)
  · exact .inr (parted_mono (fun _ => id) (fun _ => h.topLevel.accepts) h')

/-- **What is an address remains one.** -/
theorem Widens.isAddress (h : o.Widens o') (haddress : o.isAddress text = true) :
    o'.isAddress text = true :=
  parted_mono (fun _ => Username.accepts_mono h.username) (fun _ => h.acceptsDomain) haddress

/-! ### Matching -/

/-- **Options that allow no less match no less,** in search as well as in decision. -/
theorem widening (s s' : Selector) (h : o.Widens o') :
    o.Compiled s fun r => o'.Compiled s' fun r' => ∀ text : String,
      (r.isMatch text).value = true → (r'.isMatch text).value = true := by
  refine compiled_of_regex _ fun engine => compiled_of_regex _ fun engine' text hmatch => ?_
  obtain ⟨i, j, hij, hj, haccepts, hwhole⟩ := (isMatch_iff _ _ _).mp hmatch
  refine (isMatch_iff _ _ _).mpr ⟨i, j, hij, hj, ?_, h.exact ▸ hwhole⟩
  exact o'.accepts_iff.mpr (h.isAddress (o.accepts_iff.mp haccepts))

-- Else the regexes of the options below would be computed.
attribute [local irreducible] Compiled

/-- With `localhost` for a domain the host that begins with it is still matched. -/
theorem widening_localhost :
    Widens { allowLocalhost := false, topLevelDomains := ["com"] } { gmailRules := false, strict := true } ∧
      ∃ r r', (compile { allowLocalhost := false, topLevelDomains := ["com"] }
          { loader := .builtIn }).value.1 = .ok r ∧
        (compile { gmailRules := false, strict := true } { loader := .builtIn }).value.1 = .ok r' ∧
        (r.isMatch "root@localhost.com").value = true ∧ (r'.isMatch "root@localhost.com").value = true := by
  have hwidens : Widens { allowLocalhost := false, topLevelDomains := ["com"] }
      { gmailRules := false, strict := true } :=
    ⟨rfl, nofun, id, id, by decide, .letters rfl (by decide +kernel)⟩
  have hlight : Light { allowLocalhost := false, topLevelDomains := ["com"] } := light_of_short _ (by decide)
  obtain ⟨r, hr, h⟩ := (widening { loader := .builtIn } { loader := .builtIn } hwidens).exists_regex _ hlight
  obtain ⟨r', hr', h⟩ := h.exists_regex _ (light_of_strict _ rfl)
  have hmatch : (r.isMatch "root@localhost.com").value = true := by
    obtain rfl := Except.ok.inj (hr.symm.trans ((compile_eq ..).trans (if_pos hlight)))
    rw [isMatch_iff]
    refine ⟨0, _, Nat.zero_le _, le_rfl, (accepts_iff _).mpr ?_, Bool.false_ne_true.elim⟩
    decide +kernel
  exact ⟨hwidens, r, r', hr, hr', hmatch, h _ hmatch⟩

end Options

end MailPattern
