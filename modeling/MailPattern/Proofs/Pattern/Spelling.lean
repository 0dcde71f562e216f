import MailPattern.Proofs.Pattern.Words

/-!
# Proofs — Pattern — Spelling

The texts that a free pattern spells up to case (`Pattern.Spelled`), said by the characters of the
text.  A character of the text stands for its variants, so a class holds it when it covers one of
them, and two texts are the same up to case when they fold alike.
-/

namespace MailPattern

/-! ### Case in ASCII -/

namespace Folding

/-- One run folds the capitals of ASCII; the others fold no character of ASCII, and none to a
character up to `f`. -/
theorem runs_ascii : ∀ r ∈ runs, r.first = 0x41 ∧ r.last = 0x5a ∧ r.target = 0x61 ∨
    0x80 ≤ r.first ∧ 0x66 < r.target := by
  decide +kernel

/-- A code is folded by a run that holds it, or stays as it is. -/
theorem foldCode_cases (n : Nat) : foldCode n = n ∨ ∃ r ∈ runs, r.first ≤ n ∧ n ≤ r.last ∧
    foldCode n = r.target + (n - r.first) := by
  unfold foldCode
  cases h : runs.findSome? (·.image n) with
  | none => exact .inl rfl
  | some t =>
    obtain ⟨r, hr, hi⟩ := List.exists_of_findSome?_eq_some h
    simp only [Run.image, Option.ite_none_right_eq_some, Option.some.injEq] at hi
    exact .inr ⟨r, hr, hi.1.1, hi.1.2.1, hi.2.symm⟩

/-- What a character up to `f` folds to, and what folds to one. -/
theorem foldCode_ascii {n : Nat} (h : n < 0x80 ∨ foldCode n ≤ 0x66) :
    foldCode n = n ∨ 0x41 ≤ n ∧ n ≤ 0x5a ∧ foldCode n = n + 0x20 := by
  rcases foldCode_cases n with hn | ⟨r, hr, hfirst, hlast, hn⟩
  · exact .inl hn
  · rcases runs_ascii r hr with ⟨hf, hl, ht⟩ | ⟨hf, ht⟩
    · exact .inr (by omega)
    · omega

/-- Three runs fold to ASCII: that of its capitals, the long s and the Kelvin sign. -/
theorem runs_to_ascii : ∀ r ∈ runs, r.first = 0x41 ∧ r.last = 0x5a ∧ r.target = 0x61 ∨
    r.first = 0x17f ∧ r.last = 0x17f ∧ r.target = 0x73 ∨
    r.first = 0x212a ∧ r.last = 0x212a ∧ r.target = 0x6b ∨ 0x80 ≤ r.target := by
  decide +kernel

/-- What folds to a character of ASCII. -/
theorem foldCode_to_ascii {n : Nat} (h : foldCode n < 0x80) :
    foldCode n = n ∨ 0x41 ≤ n ∧ n ≤ 0x5a ∧ foldCode n = n + 0x20 ∨
      n = 0x17f ∧ foldCode n = 0x73 ∨ n = 0x212a ∧ foldCode n = 0x6b := by
  rcases foldCode_cases n with hn | ⟨r, hr, hfirst, hlast, hn⟩
  · exact .inl hn
  · rcases runs_to_ascii r hr with ⟨hf, hl, ht⟩ | ⟨hf, hl, ht⟩ | ⟨hf, hl, ht⟩ | ht <;> omega

/-- In ASCII folding takes capitals to small letters. -/
theorem foldCode_lower : ∀ n < 0x80,
    foldCode n = if 0x41 ≤ n ∧ n ≤ 0x5a then n + 0x20 else n := by
  intro n hn
  have hcapitals : ∀ n < 0x5b, 0x41 ≤ n → foldCode n ≠ n := by decide +kernel
  have hcases := foldCode_ascii (.inl hn)
  split
  · have := hcapitals n (by omega) (by omega)
    omega
  · omega

/-- The lower-case letter of an ASCII capital comes 32 codes later. -/
theorem toNat_toLower (c : Char) :
    c.toLower.toNat = if 0x41 ≤ c.toNat ∧ c.toNat ≤ 0x5a then c.toNat + 0x20 else c.toNat := by
  unfold Char.toLower
  split <;> rename_i h
  · have hle : c.toNat ≤ 0x5a := h.2
    refine Eq.trans ?_ (if_pos h).symm
    exact (UInt32.toNat_add c.val _).trans (Nat.mod_eq_of_lt (show c.toNat + 0x20 < 2 ^ 32 by omega))
  · exact (if_neg h).symm

/-- In ASCII a character and its lower-case letter fold alike. -/
theorem fold_toLower {c : Char} (hc : c.toNat < 0x80) : fold c.toLower = fold c := by
  rw [← Char.toNat_inj, toNat_fold, toNat_fold, toNat_toLower, foldCode_lower _ hc]
  split
  · rw [foldCode_lower _ (by omega), if_neg (by omega)]
  · rw [foldCode_lower _ hc, if_neg ‹_›]

end Folding

/-- The character is the only one that folds as it does. -/
def Uncased (c : Char) : Prop := ∀ d, Folding.fold d = Folding.fold c → d = c

/-- Only an uncased character folds like itself. -/
theorem Uncased.fold_eq_iff {a c : Char} (hc : Uncased c) :
    Folding.fold a = Folding.fold c ↔ a = c :=
  ⟨hc a, fun h => h ▸ rfl⟩

/-- Digits and most punctuation have no case. -/
theorem uncased_ascii {c : Char} (hc : c.toNat < 0x41 ∨ c.toNat = 0x5f) : Uncased c := by
  intro d hd
  have hcode : Folding.foldCode d.toNat = Folding.foldCode c.toNat := by
    rw [← Folding.toNat_fold, ← Folding.toNat_fold, hd]
  have hfold := Folding.foldCode_ascii (n := c.toNat) (by omega)
  have := Folding.foldCode_ascii (n := d.toNat) (by omega)
  exact Char.toNat_inj.mp (by omega)

/-! ### Sets up to case -/

/-- The set holds the character, up to case. -/
def CharSet.has (set : CharSet) (c : Char) : Bool := set.admits (Folding.variants c)

namespace CharSet

theorem admits_reading_true (set : CharSet) (c : Char) : set.admits (reading true c) = set.has c := by
  rw [reading_true, has]

/-- A set holds up to case what folds like a character in its ranges. -/
theorem has_iff {ranges : List (Char × Char)} {c : Char} :
    (CharSet.mk ranges false).has c = true ↔ ∃ d, Folding.fold d = Folding.fold c ∧
      ∃ r ∈ ranges, r.1 ≤ d ∧ d ≤ r.2 := by
  rw [has, admits_iff rfl]
  exact exists_congr fun d => and_congr_left' Folding.mem_variants_iff

/-- More ranges hold more. -/
theorem has_of_subset {ranges ranges' : List (Char × Char)} (hsub : ∀ r ∈ ranges, r ∈ ranges') {c : Char}
    (h : (CharSet.mk ranges false).has c = true) : (CharSet.mk ranges' false).has c = true := by
  obtain ⟨d, hd, r, hr, h⟩ := has_iff.mp h
  exact has_iff.mpr ⟨d, hd, r, hsub r hr, h⟩

/-- Texts that are alike up to case have the same characters of a set. -/
theorem all_has_congr {set : CharSet} {text text' : List Char}
    (h : text.map Folding.fold = text'.map Folding.fold) : text.all set.has = text'.all set.has := by
  have hall : ∀ cs : List Char, cs.all set.has = (readings true cs).all set.admits := fun cs =>
    (List.all_map ..).symm
  rw [hall, hall, readings_congr h]

/-- A character holds up to case what folds like it. -/
theorem has_single_iff {a c : Char} :
    (single c).has a = true ↔ Folding.fold a = Folding.fold c := by
  rw [has, admits_iff rfl]
  simp only [within_single, exists_eq_right, Folding.mem_variants_iff]
  exact eq_comm

/-- A character without case is held if it is covered. -/
theorem has_uncased {ranges : List (Char × Char)} {c : Char} (hc : Uncased c) :
    (CharSet.mk ranges false).has c = true ↔ ∃ r ∈ ranges, r.1 ≤ c ∧ c ≤ r.2 := by
  rw [has_iff]
  constructor
  · rintro ⟨d, hd, h⟩
    rwa [hc d hd] at h
  · exact fun h => ⟨c, rfl, h⟩

/-- A range of characters without case holds those in it. -/
theorem has_range_iff {a b c : Char} (hb : b.toNat < 0x41) :
    (CharSet.mk [(a, b)] false).has c = true ↔ a ≤ c ∧ c ≤ b := by
  simp only [has_iff, List.mem_singleton, exists_eq_left]
  constructor
  · rintro ⟨d, hd, had, hdb⟩
    have hdb' := le_iff.mp hdb
    rw [uncased_ascii (by omega) c hd.symm]
    exact ⟨had, hdb⟩
  · exact fun h => ⟨c, rfl, h⟩

/-- Characters, each a range of its own, cover themselves. -/
theorem covers_listed_iff {cs : List Char} {a : Char} :
    (CharSet.mk (cs.map fun c => (c, c)) false).covers a = true ↔ a ∈ cs := by
  simp only [covers_iff, Within, List.mem_map, exists_exists_and_eq_and]
  constructor
  · rintro ⟨c, hc, hca, hac⟩
    rwa [Char.le_antisymm hac hca]
  · exact fun ha => ⟨a, ha, Char.le_refl a, Char.le_refl a⟩

/-- Characters without case, each a range of its own, hold themselves. -/
theorem has_listed_iff {cs : List Char} {a : Char} (h : ∀ c ∈ cs, Uncased c) :
    (CharSet.mk (cs.map fun c => (c, c)) false).has a = true ↔ a ∈ cs := by
  simp only [has_iff, List.mem_map, exists_exists_and_eq_and]
  constructor
  · rintro ⟨d, hd, c, hc, hcd, hdc⟩
    obtain rfl := Char.le_antisymm hdc hcd
    rwa [h d hc a hd.symm]
  · exact fun ha => ⟨a, rfl, a, ha, Char.le_refl a, Char.le_refl a⟩

/-- A class of ASCII without capitals holds the characters of ASCII whose small letter it covers;
with an s also the long s, and with a k also the Kelvin sign. -/
theorem has_lower_iff {ranges : List (Char × Char)} {c : Char}
    (h : ∀ r ∈ ranges, r.2.toNat < 0x41 ∨ 0x5a < r.1.toNat ∧ r.2.toNat < 0x80) :
    (CharSet.mk ranges false).has c = true ↔
      c.toNat < 0x80 ∧ (CharSet.mk ranges false).covers c.toLower = true ∨
      c = '\u017f' ∧ (CharSet.mk ranges false).covers 's' = true ∨
      c = '\u212a' ∧ (CharSet.mk ranges false).covers 'k' = true := by
  simp only [has_iff, covers_iff, Within]
  constructor
  · rintro ⟨d, hd, r, hr, hlo, hhi⟩
    have hsmall : d.toNat < 0x80 ∧ ¬ (0x41 ≤ d.toNat ∧ d.toNat ≤ 0x5a) := by
      have := h r hr
      have := le_iff.mp hlo
      have := le_iff.mp hhi
      omega
    have hcode : Folding.foldCode c.toNat = d.toNat := by
      rw [← Folding.toNat_fold, ← hd, Folding.toNat_fold, Folding.foldCode_lower _ hsmall.1,
        if_neg hsmall.2]
    have hlower := Folding.toNat_toLower c
    rcases Folding.foldCode_to_ascii (hcode ▸ hsmall.1) with hc | hc | hc | hc
    · rw [if_neg (by omega)] at hlower
      obtain rfl : c.toLower = d := Char.toNat_inj.mp (by omega)
      exact .inl ⟨by omega, r, hr, hlo, hhi⟩
    · rw [if_pos (by omega)] at hlower
      obtain rfl : c.toLower = d := Char.toNat_inj.mp (by omega)
      exact .inl ⟨by omega, r, hr, hlo, hhi⟩
    · obtain rfl : d = 's' := Char.toNat_inj.mp (hcode.symm.trans hc.2)
      exact .inr (.inl ⟨Char.toNat_inj.mp hc.1, r, hr, hlo, hhi⟩)
    · obtain rfl : d = 'k' := Char.toNat_inj.mp (hcode.symm.trans hc.2)
      exact .inr (.inr ⟨Char.toNat_inj.mp hc.1, r, hr, hlo, hhi⟩)
  · rintro (⟨hc, hcovers⟩ | ⟨rfl, hcovers⟩ | ⟨rfl, hcovers⟩)
    · exact ⟨_, Folding.fold_toLower hc, hcovers⟩
    · exact ⟨_, by decide +kernel, hcovers⟩
    · exact ⟨_, by decide +kernel, hcovers⟩

end CharSet

theorem readings_true (text : List Char) : readings true text = text.map Folding.variants := rfl

namespace Pattern

/-- The text is spelled by the pattern, up to case. -/
def Spelled (p : Pattern) (text : List Char) : Prop := p.Spells (readings true text)

variable {p q : Pattern} {text : List Char}

theorem spelled_empty : empty.Spelled text ↔ text = [] := List.map_eq_nil_iff

/-- A class spells the characters that it holds up to case. -/
theorem spelled_chars {set : CharSet} :
    (chars set).Spelled text ↔ ∃ a, text = [a] ∧ set.has a = true := by
  constructor
  · rintro ⟨r, hr, h⟩
    obtain ⟨a, rfl, rfl⟩ := List.map_eq_singleton_iff.mp hr
    exact ⟨a, rfl, h⟩
  · rintro ⟨a, rfl, h⟩
    exact ⟨_, rfl, h⟩

theorem spelled_char {c : Char} :
    (char c).Spelled text ↔ ∃ a, text = [a] ∧ Folding.fold a = Folding.fold c :=
  spelled_chars.trans (exists_congr fun _ => and_congr_right fun _ => CharSet.has_single_iff)

/-- A character without case spells itself only. -/
theorem spelled_uncased {c : Char} (hc : Uncased c) : (char c).Spelled text ↔ text = [c] := by
  simp only [spelled_char, hc.fold_eq_iff, exists_eq_right]

/-- A sequence spells the texts of both parts, one after the other. -/
theorem spelled_cat :
    (cat p q).Spelled text ↔ ∃ u v, text = u ++ v ∧ p.Spelled u ∧ q.Spelled v := by
  constructor
  · rintro ⟨u, v, h, hu, hv⟩
    obtain ⟨u, v, rfl, rfl, rfl⟩ := List.map_eq_append_iff.mp h
    exact ⟨u, v, rfl, hu, hv⟩
  · rintro ⟨u, v, rfl, hu, hv⟩
    exact ⟨_, _, List.map_append, hu, hv⟩

/-- Several rounds spell as many words. -/
theorem copies_iff {n : Nat} :
    Copies p.Spells n (readings true text) ↔
      ∃ words : List (List Char),
        words.length = n ∧ (∀ w ∈ words, p.Spelled w) ∧ text = words.flatten := by
  induction n generalizing text with
  | zero =>
    refine List.map_eq_nil_iff.trans ⟨fun h => ⟨[], rfl, nofun, h⟩, ?_⟩
    rintro ⟨words, hlen, -, rfl⟩
    rw [List.length_eq_zero_iff.mp hlen]
    rfl
  | succ n ih =>
    constructor
    · rintro ⟨u, v, h, hu, hv⟩
      obtain ⟨u, v, rfl, rfl, rfl⟩ := List.map_eq_append_iff.mp h
      obtain ⟨words, rfl, hwords, rfl⟩ := ih.mp hv
      exact ⟨u :: words, rfl, List.forall_mem_cons.mpr ⟨hu, hwords⟩, rfl⟩
    · rintro ⟨_ | ⟨u, words⟩, hlen, hwords, rfl⟩
      · cases hlen
      · obtain ⟨hu, hwords⟩ := List.forall_mem_cons.mp hwords
        exact ⟨_, _, List.map_append, hu, ih.mpr ⟨words, Nat.succ.inj hlen, hwords, rfl⟩⟩

/-- A repetition spells as many words as its count allows. -/
theorem spelled_repeated {c : Count} :
    (repeated c p).Spelled text ↔
      ∃ words : List (List Char), c.Allows words.length ∧ (∀ w ∈ words, p.Spelled w) ∧
        text = words.flatten := by
  constructor
  · rintro ⟨n, hn, h⟩
    obtain ⟨words, rfl, hwords⟩ := copies_iff.mp h
    exact ⟨words, hn, hwords⟩
  · rintro ⟨words, hn, h⟩
    exact ⟨_, hn, copies_iff.mpr ⟨words, rfl, h⟩⟩

/-- A repetition of a pattern that spells images of words. -/
theorem spelled_repeated_of_image {c : Count} {P : List Char → Prop} {f : List Char → List Char}
    (hp : ∀ w, p.Spelled w ↔ ∃ v, w = f v ∧ P v) :
    (repeated c p).Spelled text ↔
      ∃ words : List (List Char), c.Allows words.length ∧ (∀ w ∈ words, P w) ∧
        text = words.flatMap f := by
  have himage : ∀ words : List (List Char), (∀ w ∈ words, p.Spelled w) ↔
      ∃ vs : List (List Char), words = vs.map f ∧ ∀ v ∈ vs, P v := by
    intro words
    constructor
    · intro h
      induction words with
      | nil => exact ⟨[], rfl, nofun⟩
      | cons w words ih =>
        obtain ⟨hw, hrest⟩ := List.forall_mem_cons.mp h
        obtain ⟨vs, rfl, hvs⟩ := ih hrest
        obtain ⟨v, rfl, hv⟩ := (hp w).mp hw
        exact ⟨v :: vs, rfl, List.forall_mem_cons.mpr ⟨hv, hvs⟩⟩
    · rintro ⟨vs, rfl, hvs⟩ w hw
      obtain ⟨v, hv, rfl⟩ := List.mem_map.mp hw
      exact (hp _).mpr ⟨v, rfl, hvs v hv⟩
  rw [spelled_repeated]
  simp only [himage]
  constructor
  · rintro ⟨_, hc, ⟨vs, rfl, hvs⟩, rfl⟩
    rw [List.length_map] at hc
    exact ⟨vs, hc, hvs, (List.flatMap_def ..).symm⟩
  · rintro ⟨vs, hc, hvs, rfl⟩
    exact ⟨vs.map f, by rwa [List.length_map], ⟨vs, rfl, hvs⟩, List.flatMap_def ..⟩

/-- A class repeated spells the texts of its characters that are long enough and not too long. -/
theorem spelled_repeated_chars {c : Count} {set : CharSet} :
    (repeated c (chars set)).Spelled text ↔ c.Allows text.length ∧ ∀ a ∈ text, set.has a = true := by
  rw [spelled_repeated]
  constructor
  · rintro ⟨words, hc, hwords, rfl⟩
    have hflat : ∀ words : List (List Char), (∀ w ∈ words, (chars set).Spelled w) →
        words.flatten.length = words.length ∧ ∀ a ∈ words.flatten, set.has a = true := by
      intro words h
      induction words with
      | nil => exact ⟨rfl, nofun⟩
      | cons w words ih =>
        obtain ⟨hw, hwords⟩ := List.forall_mem_cons.mp h
        obtain ⟨a, rfl, ha⟩ := spelled_chars.mp hw
        obtain ⟨hlen, hall⟩ := ih hwords
        refine ⟨?_, List.forall_mem_cons.mpr ⟨ha, hall⟩⟩
        rw [List.flatten_cons, List.length_append, hlen, List.length_singleton, List.length_cons,
          Nat.add_comm]
    obtain ⟨hlen, hall⟩ := hflat words hwords
    rw [hlen]
    exact ⟨hc, hall⟩
  · rintro ⟨hc, hall⟩
    refine ⟨text.map fun a => [a], by rwa [List.length_map], ?_, ?_⟩
    · intro w hw
      obtain ⟨a, ha, rfl⟩ := List.mem_map.mp hw
      exact spelled_chars.mpr ⟨a, rfl, hall a ha⟩
    · rw [← List.flatMap_def, List.flatMap_singleton']

/-! ### Sequences and choices -/

theorem spelled_ofItems_cons {ps : List Pattern} :
    (ofItems (p :: ps)).Spelled text ↔
      ∃ u v, text = u ++ v ∧ p.Spelled u ∧ (ofItems ps).Spelled v := by
  cases ps with
  | nil =>
    constructor
    · exact fun h => ⟨text, [], (List.append_nil text).symm, h, rfl⟩
    · rintro ⟨u, v, rfl, hu, hv⟩
      rwa [spelled_empty.mp hv, List.append_nil]
  | cons => exact spelled_cat

/-- A sequence may be cut between any two items. -/
theorem spelled_ofItems_append {ps qs : List Pattern} :
    (ofItems (ps ++ qs)).Spelled text ↔
      ∃ u v, text = u ++ v ∧ (ofItems ps).Spelled u ∧ (ofItems qs).Spelled v := by
  induction ps generalizing text with
  | nil =>
    constructor
    · exact fun h => ⟨[], text, rfl, rfl, h⟩
    · rintro ⟨u, v, rfl, hu, hv⟩
      rwa [spelled_empty.mp hu]
  | cons p ps ih =>
    rw [List.cons_append, spelled_ofItems_cons]
    constructor
    · rintro ⟨u, _, rfl, hu, h⟩
      obtain ⟨v, w, rfl, hv, hw⟩ := ih.mp h
      exact ⟨u ++ v, w, (List.append_assoc ..).symm, spelled_ofItems_cons.mpr ⟨u, v, rfl, hu, hv⟩, hw⟩
    · rintro ⟨_, w, rfl, h, hw⟩
      obtain ⟨u, v, rfl, hu, hv⟩ := spelled_ofItems_cons.mp h
      exact ⟨u, v ++ w, List.append_assoc .., hu, ih.mpr ⟨v, w, rfl, hv, hw⟩⟩

/-- An alternation spells what one of its branches does. -/
theorem spelled_ofBranches {ps : List Pattern} (hps : ps ≠ []) :
    (ofBranches ps).Spelled text ↔ ∃ p ∈ ps, p.Spelled text := by
  induction ps with
  | nil => exact absurd rfl hps
  | cons p ps ih =>
    rw [List.exists_mem_cons_iff]
    cases ps with
    | nil => simp [ofBranches]
    | cons q qs => exact or_congr Iff.rfl (ih nofun)

/-- A literal spells the texts that fold as it does. -/
theorem spelled_literal {word : List Char} :
    (ofItems (word.map char)).Spelled text ↔ text.map Folding.fold = word.map Folding.fold := by
  induction word generalizing text with
  | nil => exact spelled_empty.trans List.map_eq_nil_iff.symm
  | cons c word ih =>
    rw [List.map_cons, spelled_ofItems_cons]
    constructor
    · rintro ⟨u, v, rfl, hu, hv⟩
      obtain ⟨a, rfl, ha⟩ := spelled_char.mp hu
      rw [List.singleton_append, List.map_cons, List.map_cons, ha, ih.mp hv]
    · intro h
      obtain ⟨a, v, rfl, ha, hv⟩ := List.map_eq_cons_iff.mp h
      exact ⟨[a], v, rfl, spelled_char.mpr ⟨a, rfl, ha⟩, ih.mpr hv⟩

end Pattern

end MailPattern
