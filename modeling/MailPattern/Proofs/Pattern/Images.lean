import MailPattern.Proofs.Pattern.Greedy

/-!
# Proofs — Pattern — Images

What a pattern matches in a text that is read with regard to case, told by the texts that it spells up
to case.  The characters of the text are replaced by others that the classes of the pattern take up to
case if they take the former by themselves (`Pattern.SeenAs`).  Then the pattern has the same ends in
the text as it has up to case in its image (`Pattern.ends_image`), so all that is known of these holds
of those: which texts are matched (`Pattern.Textual.mem_ends_image`), and that the longest comes first
(`Pattern.Greedy.le_of_head?`).

For a pattern of ASCII whose classes hold both cases of a letter or none (`CharSet.EvenCased`) only the
characters outside ASCII need be replaced, by one that no class holds (`asciiOnly`).
-/

namespace MailPattern

namespace Pattern

variable {p : Pattern} {caseless : Bool} {f : Char → Char} {text : List Char} {i j : Nat}

/-- The classes in the pattern, and those of its characters. -/
def classes : Pattern → List CharSet
  | .empty | .start | .stop | .look .. | .recall _ => []
  | .char c => [.single c]
  | .chars set => [set]
  | .cat p q | .alt p q => p.classes ++ q.classes
  | .group _ p | .repeated _ p => p.classes

/-- The ends depend on what the classes take at each position. -/
theorem ends_congr {s t : List Reading} (hlen : s.length = t.length)
    (h : ∀ set ∈ p.classes, Ends.one s set = Ends.one t set) : p.ends s = p.ends t := by
  induction p with
  | empty | start | look | «recall» => rfl
  | char c => exact h _ (List.mem_singleton_self _)
  | chars set => exact h _ (List.mem_singleton_self _)
  | stop => exact congrArg (fun n i => if i = n then [i] else []) hlen
  | cat p q ihp ihq | alt p q ihp ihq =>
    obtain ⟨hp, hq⟩ := List.forall_mem_append.mp h
    rw [ends, ends, ihp hp, ihq hq]
  | group _ p ih => exact ih h
  | repeated c p ih =>
    have hmany (greedy : Bool) (a : Ends) : Ends.many s greedy a = Ends.many t greedy a := by
      funext i
      rw [Ends.many, Ends.many, hlen]
    rw [ends, ends, ih h, Ends.counted, Ends.counted]
    simp only [hmany]

/-- The classes take each character as they take its image up to case. -/
def SeenAs (caseless : Bool) (f : Char → Char) (p : Pattern) : Prop :=
  ∀ set ∈ p.classes, ∀ c, set.admits (CharSet.reading caseless c) = set.has (f c)

/-- **The pattern matches in a text where it matches up to case in its image.** -/
theorem ends_image (h : p.SeenAs caseless f) (text : List Char) :
    p.ends (readings caseless text) = p.ends (readings true (text.map f)) := by
  refine ends_congr (by simp [length_readings]) fun set hset => funext fun i => ?_
  rw [Ends.one, Ends.one, readings_eq, readings_true, List.getElem?_map, List.getElem?_map,
    List.getElem?_map]
  cases text[i]? with
  | none => rw [Option.map_none, Option.map_none, Option.map_none]
  | some c => rw [Option.map_some, Option.map_some, Option.map_some, Option.any_some, Option.any_some,
      h set hset c, CharSet.has]

theorem Textual.mem_ends_image (hp : p.Textual) (h : p.SeenAs caseless f) (hi : i ≤ text.length) :
    j ∈ p.ends (readings caseless text) i ↔
      i ≤ j ∧ j ≤ text.length ∧ p.Spelled ((slice text i j).map f) := by
  rw [ends_image h, hp.mem_ends (by rwa [List.length_map]), List.length_map, map_slice]

/-- The match that is tried first is the longest. -/
theorem Greedy.le_of_head? (hg : p.Greedy) (h : p.SeenAs caseless f) (hi : i ≤ text.length) {m : Nat}
    (hm : (p.ends (readings caseless text) i).head? = some m) :
    ∀ k ∈ p.ends (readings caseless text) i, k ≤ m := by
  rw [ends_image h] at hm ⊢
  intro k hk
  have hdescends := hg (text.map f) i (by rwa [length_readings, List.length_map])
  refine hdescends (fun _ => true) m ?_ k hk rfl
  rw [← hm]
  cases p.ends (readings true (text.map f)) i <;> rfl

end Pattern

/-- With regard to case a set takes the characters in its ranges. -/
theorem CharSet.admits_reading_false {set : CharSet} (h : set.negated = false) {c : Char} :
    set.admits (reading false c) = set.covers c := by
  rw [reading_false, admits_self, h]
  exact Bool.bne_false _

/-! ### Patterns of ASCII -/

/-- The character, if it is one of ASCII or case is ignored. -/
def asciiOnly (caseless : Bool) (c : Char) : Char :=
  if caseless = true ∨ c.toNat < 0x80 then c else '\x00'

/-- The set holds characters of ASCII only, and of each letter both cases or none. -/
structure CharSet.EvenCased (set : CharSet) : Prop where
  negated : set.negated = false
  ascii : ∀ r ∈ set.ranges, 0 < r.1.toNat ∧ r.2.toNat < 0x80
  lower : ∀ n < 0x80, set.covers (Char.ofNat n).toLower = set.covers (Char.ofNat n)

instance (set : CharSet) : Decidable set.EvenCased :=
  decidable_of_iff (set.negated = false ∧ (∀ r ∈ set.ranges, 0 < r.1.toNat ∧ r.2.toNat < 0x80) ∧
      ∀ n < 0x80, set.covers (Char.ofNat n).toLower = set.covers (Char.ofNat n))
    ⟨fun h => ⟨h.1, h.2.1, h.2.2⟩, fun h => ⟨h.negated, h.ascii, h.lower⟩⟩

namespace CharSet.EvenCased

variable {set : CharSet} {c d : Char}

theorem covers_toLower (h : set.EvenCased) (hc : c.toNat < 0x80) :
    set.covers c.toLower = set.covers c := by
  have hlower := h.lower c.toNat hc
  rwa [Char.ofNat_toNat] at hlower

theorem toNat_lt (h : set.EvenCased) (hc : set.covers c = true) : 0 < c.toNat ∧ c.toNat < 0x80 := by
  obtain ⟨r, hr, hlo, hhi⟩ := covers_iff.mp hc
  have hascii := h.ascii r hr
  have hlo := le_iff.mp hlo
  have hhi := le_iff.mp hhi
  omega

/-- In ASCII, characters that fold alike are the same but for the case of a letter. -/
theorem toLower_congr (hc : c.toNat < 0x80) (hd : d.toNat < 0x80)
    (h : Folding.fold d = Folding.fold c) : d.toLower = c.toLower := by
  have hcode : Folding.foldCode d.toNat = Folding.foldCode c.toNat := by
    rw [← Folding.toNat_fold, ← Folding.toNat_fold, h]
  rw [Folding.foldCode_lower _ hd, Folding.foldCode_lower _ hc] at hcode
  rw [← Char.toNat_inj, Folding.toNat_toLower, Folding.toNat_toLower]
  exact hcode

theorem has_iff_covers (h : set.EvenCased) (hc : c.toNat < 0x80) :
    set.has c = true ↔ set.covers c = true := by
  rw [has, admits_iff h.negated]
  constructor
  · rintro ⟨d, hd, hwithin⟩
    have hd' := covers_iff.mpr hwithin
    have hlt := (h.toNat_lt hd').2
    rw [← h.covers_toLower hc, ← toLower_congr hc hlt (Folding.mem_variants_iff.mp hd),
      h.covers_toLower hlt]
    exact hd'
  · exact fun hcovers => ⟨c, Folding.mem_variants_iff.mpr rfl, covers_iff.mp hcovers⟩

/-- Outside ASCII only the long s and the Kelvin sign are letters of ASCII up to case. -/
theorem has_iff (h : set.EvenCased) : set.has c = true ↔ set.covers c = true ∨
    c = '\u017f' ∧ set.covers 's' = true ∨ c = '\u212a' ∧ set.covers 'k' = true := by
  by_cases hc : c.toNat < 0x80
  · rw [h.has_iff_covers hc, or_iff_left]
    rintro (⟨rfl, -⟩ | ⟨rfl, -⟩) <;> exact absurd hc (by decide)
  · have hcovers : set.covers c ≠ true := fun hcovers => hc (h.toNat_lt hcovers).2
    rw [or_iff_right hcovers, has, admits_iff h.negated]
    constructor
    · rintro ⟨d, hd, hwithin⟩
      have hd' := covers_iff.mpr hwithin
      have hlt := (h.toNat_lt hd').2
      -- the small letter is what the character folds to
      have hcode : Folding.foldCode c.toNat = d.toLower.toNat := by
        rw [← Folding.toNat_fold, ← Folding.mem_variants_iff.mp hd, Folding.toNat_fold,
          Folding.foldCode_lower _ hlt, Folding.toNat_toLower]
      have hlower := Folding.toNat_toLower d
      rw [← h.covers_toLower hlt] at hd'
      rcases Folding.foldCode_to_ascii (n := c.toNat) (by split at hlower <;> omega) with
        hc' | hc' | hc' | hc'
      · split at hlower <;> omega
      · omega
      · rw [Char.toNat_inj.mp (hcode.symm.trans hc'.2 : d.toLower.toNat = 's'.toNat)] at hd'
        exact .inl ⟨Char.toNat_inj.mp hc'.1, hd'⟩
      · rw [Char.toNat_inj.mp (hcode.symm.trans hc'.2 : d.toLower.toNat = 'k'.toNat)] at hd'
        exact .inr ⟨Char.toNat_inj.mp hc'.1, hd'⟩
    · rintro (⟨rfl, hs⟩ | ⟨rfl, hk⟩)
      · exact ⟨'s', Folding.mem_variants_iff.mpr (by decide +kernel), covers_iff.mp hs⟩
      · exact ⟨'k', Folding.mem_variants_iff.mpr (by decide +kernel), covers_iff.mp hk⟩

theorem not_has_nul (h : set.EvenCased) : set.has '\x00' = false := by
  rw [← Bool.not_eq_true, h.has_iff_covers (by decide)]
  exact fun hcovers => absurd (h.toNat_lt hcovers).1 (by decide)

theorem admits_eq_covers (h : set.EvenCased) : set.admits (reading false c) = set.covers c :=
  admits_reading_false h.negated

/-- Such a set takes of ASCII the same by itself as up to case. -/
theorem admits (h : set.EvenCased) (caseless : Bool) (c : Char) :
    set.admits (reading caseless c) = set.has (asciiOnly caseless c) := by
  cases caseless with
  | true => rw [admits_reading_true, asciiOnly, if_pos (.inl rfl)]
  | false =>
    rw [h.admits_eq_covers, asciiOnly]
    by_cases hc : c.toNat < 0x80
    · rw [if_pos (.inr hc), Bool.eq_iff_iff, h.has_iff_covers hc]
    · rw [if_neg (by simpa using hc), h.not_has_nul, ← Bool.not_eq_true]
      exact fun hcovers => hc (h.toNat_lt hcovers).2

end CharSet.EvenCased

theorem Pattern.seenAs_asciiOnly {p : Pattern} (h : ∀ set ∈ p.classes, set.EvenCased)
    (caseless : Bool) : p.SeenAs caseless (asciiOnly caseless) :=
  fun set hset c => (h set hset).admits caseless c

theorem eq_of_asciiOnly {caseless : Bool} {c d : Char} (hd : d ≠ '\x00')
    (h : asciiOnly caseless c = d) : c = d := by
  unfold asciiOnly at h
  split at h
  · exact h
  · exact absurd h.symm hd

theorem asciiOnly_of_lt {c : Char} (caseless : Bool) (hc : c.toNat < 0x80) : asciiOnly caseless c = c :=
  if_pos (.inr hc)

/-- What holds of texts of ASCII only, it holds of a text if it holds of its image. -/
theorem map_asciiOnly_iff {P : List Char → Prop}
    (h : ∀ text, P text → ∀ c ∈ text, c ≠ '\x00' ∧ c.toNat < 0x80) (caseless : Bool)
    (text : List Char) : P (text.map (asciiOnly caseless)) ↔ P text := by
  have key (hall : ∀ c ∈ text, asciiOnly caseless c = c) : text.map (asciiOnly caseless) = text :=
    (List.map_congr_left hall).trans (List.map_id' text)
  constructor
  · intro hp
    have himage := h _ hp
    rwa [key fun c hc => ?_] at hp
    exact (eq_of_asciiOnly (himage _ (List.mem_map_of_mem hc)).1 rfl).symm
  · intro hp
    rwa [key fun c hc => asciiOnly_of_lt caseless (h text hp c hc).2]

end MailPattern
