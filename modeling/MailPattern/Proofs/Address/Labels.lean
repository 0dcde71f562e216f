import MailPattern.Proofs.Address.Fragments
import MailPattern.Proofs.Address.Longest
import MailPattern.Proofs.Address.Steady

/-!
# Proofs — Address — Labels

The labels of a host, and what their fragments do by themselves.  The patterns repeat a letter with the
joins after it, and the letters at the end again, so a text is taken apart in many ways; but the texts
are told by their characters alone (`Label`): letters and digits stand at both ends, and joins only
between them.  With either engine and any flags the first fragment decides whether a text is a label
and finds in a text the longest ones, and the second decides whether it is labels after dots
(`Fragment.host_labels`).

What a letter or digit is depends on case (`WordChar`).  Where case is kept, the characters of a text
are told apart only by whether they are letters or digits, a hyphen, an underscore or a dot
(`wordImage`).
-/

namespace MailPattern

open Pattern

namespace Grammar

variable {caseless : Bool} {c d : Char} {joins text : List Char}

/-! ### Labels -/

/-- A letter or digit of a host.  Where case is ignored, what folds as one of them does is another. -/
def WordChar (caseless : Bool) (c : Char) : Prop :=
  ∃ d, (d = c ∨ caseless = true ∧ Folding.fold d = Folding.fold c) ∧
    ('a' ≤ d ∧ d ≤ 'z' ∨ '0' ≤ d ∧ d ≤ '9' ∨ '\u00a1' ≤ d ∧ d ≤ '\uffff')

/-- Letters and digits, with joins between them. -/
structure Label (caseless : Bool) (joins text : List Char) : Prop where
  first : ∃ c ∈ text.head?, WordChar caseless c
  last : ∃ c ∈ text.getLast?, WordChar caseless c
  all : ∀ c ∈ text, WordChar caseless c ∨ c ∈ joins

/-- Any number of labels with hyphens, each after a dot. -/
def Labels (caseless : Bool) (text : List Char) : Prop :=
  ∃ labels : List (List Char), (∀ l ∈ labels, Label caseless ['-'] l) ∧
    text = labels.flatMap ('.' :: ·)

/-! ### Images -/

/-- The characters that are told apart by themselves. -/
def marks : List Char := ['-', '_', '.']

/-- The character itself, if it is a mark or case is ignored; else the same letter for all letters and
digits, and the same character for all others. -/
def wordImage (caseless : Bool) (c : Char) : Char :=
  if caseless = true ∨ c ∈ marks then c
  else if Fragment.wordSet.covers c then 'a' else '\x00'

theorem wordImage_of_mem (hc : c ∈ marks) : wordImage caseless c = c := if_pos (.inr hc)

/-- The marks are the hyphen, the underscore and the dot. -/
theorem cases_mark (hc : c ∈ marks) : c = '-' ∨ c = '_' ∨ c = '.' := by simpa [marks] using hc

theorem uncased_mark (hc : c ∈ marks) : Uncased c := by
  refine uncased_ascii ?_
  rcases cases_mark hc with rfl | rfl | rfl <;> decide

/-- No mark is a letter or digit of a host. -/
theorem covers_mark (hc : c ∈ marks) : Fragment.wordSet.covers c = false := by
  rcases cases_mark hc with rfl | rfl | rfl <;> decide

/-- Nor is it one up to case. -/
theorem isWord_mark (hc : c ∈ marks) : isWord c = false := by
  rw [← Bool.not_eq_true, isWord, Fragment.wordSet, CharSet.has_uncased (uncased_mark hc)]
  intro h
  exact absurd ((covers_mark hc).symm.trans (CharSet.covers_iff.mpr h)) (by decide)

/-- Only a mark has a mark for its image. -/
theorem wordImage_eq_iff (hd : d ∈ marks) : wordImage caseless c = d ↔ c = d := by
  constructor
  · unfold wordImage
    split
    · exact id
    · have hmarks : 'a' ∉ marks ∧ '\x00' ∉ marks := by decide
      split
      · exact fun h => absurd (h ▸ hd) hmarks.1
      · exact fun h => absurd (h ▸ hd) hmarks.2
  · rintro rfl
    exact wordImage_of_mem hd

/-- Among marks, an image is there if the character is. -/
theorem wordImage_mem_iff (hj : ∀ c ∈ joins, c ∈ marks) : wordImage caseless c ∈ joins ↔ c ∈ joins := by
  constructor
  · intro h
    rwa [(wordImage_eq_iff (hj _ h)).mp rfl]
  · intro h
    rwa [wordImage_of_mem (hj c h)]

/-- Letters and digits are taken as their images are up to case, -/
theorem admits_word (caseless : Bool) (c : Char) :
    Fragment.wordSet.admits (CharSet.reading caseless c) = isWord (wordImage caseless c) := by
  cases caseless with
  | true => rw [CharSet.admits_reading_true, isWord, wordImage, if_pos (.inl rfl)]
  | false =>
    rw [CharSet.admits_reading_false rfl, wordImage]
    by_cases hc : c ∈ marks
    · rw [if_pos (.inr hc), covers_mark hc, isWord_mark hc]
    · rw [if_neg (by simpa using hc)]
      cases Fragment.wordSet.covers c with
      | true => decide +kernel
      | false => decide +kernel

/-- and so are joins. -/
theorem admits_joins (joins : List Char) (hj : ∀ c ∈ joins, c ∈ marks) (caseless : Bool) (c : Char) :
    (CharSet.mk (joins.map fun c => (c, c)) false).admits (CharSet.reading caseless c) =
      (CharSet.mk (joins.map fun c => (c, c)) false).has (wordImage caseless c) := by
  cases caseless with
  | true => rw [CharSet.admits_reading_true, wordImage, if_pos (.inl rfl)]
  | false =>
    rw [CharSet.admits_reading_false rfl, Bool.eq_iff_iff, CharSet.covers_listed_iff,
      CharSet.has_listed_iff fun c hc => uncased_mark (hj c hc), wordImage_mem_iff hj]

/-- The ranges of letters and digits of a host. -/
theorem within_word : CharSet.Within Fragment.wordSet.ranges d ↔
    'a' ≤ d ∧ d ≤ 'z' ∨ '0' ≤ d ∧ d ≤ '9' ∨ '\u00a1' ≤ d ∧ d ≤ '\uffff' := by
  simp only [Fragment.wordSet, CharSet.Within, List.exists_mem_cons_iff, List.not_mem_nil,
    false_and, exists_false, or_false]
  exact or_congr_right Or.comm

/-- The image of a character is a letter or digit up to case if the character is one. -/
theorem isWord_image : isWord (wordImage caseless c) = true ↔ WordChar caseless c := by
  rw [← admits_word]
  simp only [WordChar, ← within_word]
  cases caseless with
  | true =>
    rw [CharSet.admits_reading_true]
    refine CharSet.has_iff.trans (exists_congr fun d => and_congr_left' ?_)
    rw [and_iff_right rfl]
    exact (or_iff_right_of_imp fun h => h ▸ rfl).symm
  | false =>
    rw [CharSet.admits_reading_false rfl, CharSet.covers_iff]
    simp only [Bool.false_eq_true, false_and, or_false, exists_eq_left]

/-- Images keep what is a label. -/
theorem label_image (hj : ∀ c ∈ joins, c ∈ marks) :
    isLabel joins (text.map (wordImage caseless)) = true ↔ Label caseless joins text := by
  rw [isLabel_iff, List.head?_map, List.getLast?_map]
  simp only [Option.mem_def, Option.map_eq_some_iff, exists_exists_and_eq_and, List.forall_mem_map,
    isWord_image, wordImage_mem_iff hj]
  exact ⟨fun h => ⟨h.1, h.2.1, h.2.2⟩, fun h => ⟨h.first, h.last, h.all⟩⟩

/-- Words after dots are images of words after dots. -/
theorem exists_words_of_image {words : List (List Char)}
    (h : text.map (wordImage caseless) = words.flatMap ('.' :: ·)) :
    ∃ vs : List (List Char), words = vs.map (List.map (wordImage caseless)) ∧
      text = vs.flatMap ('.' :: ·) := by
  induction words generalizing text with
  | nil => exact ⟨[], rfl, List.map_eq_nil_iff.mp h⟩
  | cons w words ih =>
    rw [List.flatMap_cons] at h
    obtain ⟨u, rest, rfl, hu, hrest⟩ := List.map_eq_append_iff.mp h
    obtain ⟨c, v, rfl, hc, rfl⟩ := List.map_eq_cons_iff.mp hu
    obtain rfl := (wordImage_eq_iff (by decide)).mp hc
    obtain ⟨vs, rfl, rfl⟩ := ih hrest
    exact ⟨v :: vs, rfl, rfl⟩

/-- Images may be taken before the dots are put between. -/
theorem flatMap_image (vs : List (List Char)) :
    (vs.flatMap ('.' :: ·)).map (wordImage caseless) =
      (vs.map (List.map (wordImage caseless))).flatMap ('.' :: ·) := by
  rw [List.map_flatMap, List.flatMap_map]
  refine List.flatMap_congr fun v _ => ?_
  rw [List.map_cons, wordImage_of_mem (by decide)]

end Grammar

/-! ### Fragments -/

namespace Fragment

open Grammar

variable {caseless : Bool} {text : List Char}

/-- The pattern of the first label spells labels with hyphens and underscores. -/
theorem spelled_hostTree : hostTree.Spelled text ↔ isLabel ['-', '_'] text = true :=
  spelled_label fun _ => spelled_joins ['-', '_'] (by decide)

/-- That of further labels spells labels with hyphens, each behind a dot. -/
theorem spelled_domainTree : domainTree.Spelled text ↔ ∃ labels : List (List Char),
    (∀ l ∈ labels, isLabel ['-'] l = true) ∧ text = labels.flatMap ('.' :: ·) := by
  have hhyphen : ∀ w, (repeated star (.char '-')).Spelled w ↔ ∀ a ∈ w, a ∈ ['-'] :=
    fun _ => spelled_joins ['-'] (by decide)
  refine (spelled_repeated_after (.inl (by decide))).trans (exists_congr fun labels => ?_)
  rw [and_iff_right ⟨Nat.zero_le _, fun _ => nofun⟩]
  exact and_congr_left' (forall₂_congr fun l _ => spelled_label hhyphen)

theorem compact_host : Compact host [hostTree] where
  written d := (written_host d).mono (by decide)
  simple := by decide
  depth := by decide
  heft := by decide +kernel

theorem compact_domain : Compact domain [domainTree] where
  written d := (written_domain d).mono (by decide)
  simple := by decide
  depth := by decide
  heft := by decide +kernel

theorem seenAs_host : hostTree.SeenAs caseless (wordImage caseless) :=
  List.forall_mem_cons.mpr ⟨admits_word caseless, List.forall_mem_cons.mpr
    ⟨admits_joins ['-', '_'] (by simp [marks]) caseless,
      List.forall_mem_singleton.mpr (admits_word caseless)⟩⟩

theorem seenAs_domain : domainTree.SeenAs caseless (wordImage caseless) :=
  List.forall_mem_cons.mpr ⟨admits_joins ['.'] (by simp [marks]) caseless,
    List.forall_mem_cons.mpr ⟨admits_word caseless, List.forall_mem_cons.mpr
      ⟨admits_joins ['-'] (by simp [marks]) caseless,
        List.forall_mem_singleton.mpr (admits_word caseless)⟩⟩⟩

/-- **The fragment of a host recognizes a label.** -/
theorem recognizes_host : hostTree.Recognizes caseless (Label caseless ['-', '_']) :=
  (Simple.textual (by decide)).recognizes seenAs_host fun _ =>
    spelled_hostTree.trans (label_image (by simp [marks]))

/-- **The fragment of a domain recognizes labels behind dots.** -/
theorem recognizes_domain : domainTree.Recognizes caseless (Labels caseless) := by
  refine (Simple.textual (by decide)).recognizes seenAs_domain fun text => ?_
  rw [spelled_domainTree, Labels]
  constructor
  · rintro ⟨words, hwords, h⟩
    obtain ⟨labels, rfl, rfl⟩ := exists_words_of_image h
    exact ⟨labels, fun l hl => (label_image (by simp [marks])).mp (List.forall_mem_map.mp hwords l hl), rfl⟩
  · rintro ⟨labels, hlabels, rfl⟩
    exact ⟨_, List.forall_mem_map.mpr fun l hl => (label_image (by simp [marks])).mpr (hlabels l hl),
      flatMap_image labels⟩

/-- **The fragments of a host stand for labels**: anchored the first decides whether a text is a label
with hyphens and underscores, and the second whether it is labels with hyphens after dots; and by
itself the first finds the longest labels in a text. -/
theorem host_labels (engine : Engine) (flags : Flags) :
    ((∃ r, (engine.compile (anchored host) flags).value = .ok r ∧
        r.Decides (Label flags.caseless ['-', '_'])) ∧
      ∃ r, (engine.compile (anchored domain) flags).value = .ok r ∧
        r.Decides (Labels flags.caseless)) ∧
    ∃ r, (engine.compile host flags).value = .ok r ∧ r.flags = flags ∧
      r.Seeks (Label flags.caseless ['-', '_']) :=
  ⟨⟨compact_host.decides engine flags recognizes_host,
    compact_domain.decides engine flags recognizes_domain⟩,
    compact_host.seeks engine flags recognizes_host (greedy_hostTree.prefersLongest seenAs_host)
      (List.forall_mem_singleton.mpr steady_host) (by decide)⟩

end Fragment

end MailPattern
