import MailPattern.Proofs.Address.Tree
import MailPattern.Proofs.Pattern.Spelling
import MailPattern.Text.Digits

/-!
# Proofs — Address — Grammar

The grammar of addresses, as tests of texts that make no use of patterns: numbers are read as
numbers, and what stands between separators is found by splitting the text at them.  Each tree
of a fragment spells the texts that pass its test; the tests of a username, of an IPv4 address
and of a host are here, that of an IPv6 address is in a module of its own.

Letters are compared up to case, so the characters of a class are those that it holds up to case
(`CharSet.has`).
-/

namespace MailPattern

namespace Grammar

/-! ### Tests -/

/-- The ways to cut a text in two. -/
def cuts (text : List Char) : List (List Char × List Char) :=
  (List.range (text.length + 1)).map text.splitAt

/-- The text has a separator somewhere, with texts that pass the tests before and after it. -/
def parted (sep : Char) (before after : List Char → Bool) (text : List Char) : Bool :=
  (cuts text).any fun (u, v) =>
    match v with
    | [] => false
    | c :: v => c == sep && before u && after v

/-- The texts are the same up to case. -/
def alike (text text' : List Char) : Bool := text.map Folding.fold == text'.map Folding.fold

/-- A number up to 255 in decimal, without leading zeros. -/
def isOctet (text : List Char) : Bool :=
  !text.isEmpty && text.all Char.isDigit && (text.length == 1 || text.head? != some '0') &&
    Digits.value text ≤ 255

/-- Four octets with dots between them. -/
def isIpv4 (text : List Char) : Bool :=
  (text.splitOn '.').length == 4 && (text.splitOn '.').all isOctet

/-- A letter or digit of a host. -/
def isWord (c : Char) : Bool := Fragment.wordSet.has c

/-- Letters and digits, with joins between them. -/
def isLabel (joins text : List Char) : Bool :=
  text.head?.any isWord && text.getLast?.any isWord &&
    text.all fun c => isWord c || joins.contains c

/-- Labels with dots between them; only the first may have underscores. -/
def isHost (text : List Char) : Bool :=
  match text.splitOn '.' with
  | [] => false
  | first :: labels => isLabel ['-', '_'] first && labels.all (isLabel ['-'])

end Grammar

/-- A letter or digit of ASCII, and then at least one character of the class. -/
def Username.accepts (u : Username) : List Char → Bool
  | [] => false
  | c :: rest => Fragment.alnum.has c && !rest.isEmpty && rest.all u.set.has

/-- Two letters or more, or an entry of the whitelist. -/
def Options.acceptsTopLevel (o : Options) (text : List Char) : Bool :=
  if o.strict then 2 ≤ text.length && text.all Fragment.letterSet.has
  else o.topLevelDomains.any fun e => Grammar.alike text e.toList

namespace Grammar

open Pattern Fragment

variable {text : List Char}

/-- A cut gives back the text. -/
theorem mem_cuts {u v : List Char} : (u, v) ∈ cuts text ↔ text = u ++ v := by
  simp only [cuts, List.mem_map, List.mem_range, List.splitAt_eq, Prod.mk.injEq]
  constructor
  · rintro ⟨n, -, rfl, rfl⟩
    exact (List.take_append_drop n text).symm
  · rintro rfl
    exact ⟨u.length, by rw [List.length_append]; omega, List.take_left, List.drop_left⟩

/-- A parted text has the separator between texts that pass. -/
theorem parted_iff {sep : Char} {before after : List Char → Bool} :
    parted sep before after text = true ↔
      ∃ u v, text = u ++ sep :: v ∧ before u = true ∧ after v = true := by
  simp only [parted, List.any_eq_true, Prod.exists, mem_cuts]
  constructor
  · rintro ⟨u, _ | ⟨c, v⟩, rfl, h⟩
    · cases h
    · simp only [Bool.and_eq_true, beq_iff_eq] at h
      obtain ⟨⟨rfl, hu⟩, hv⟩ := h
      exact ⟨u, v, rfl, hu, hv⟩
  · rintro ⟨u, v, rfl, hu, hv⟩
    exact ⟨u, sep :: v, rfl, by simp [hu, hv]⟩

/-- Weaker tests pass no fewer texts. -/
theorem parted_mono {sep : Char} {before before' after after' : List Char → Bool}
    (hbefore : ∀ u, before u = true → before' u = true) (hafter : ∀ v, after v = true → after' v = true)
    (h : parted sep before after text = true) : parted sep before' after' text = true := by
  obtain ⟨u, v, htext, hu, hv⟩ := parted_iff.mp h
  exact parted_iff.mpr ⟨u, v, htext, hbefore u hu, hafter v hv⟩

/-! ### Separators -/

section Separators

variable {sep : Char} {word : List Char} {words : List (List Char)}

/-- A text splits into the words that it was put together of. -/
theorem splitOn_eq_iff (hne : words ≠ []) (hsep : ∀ w ∈ words, sep ∉ w) :
    text.splitOn sep = words ↔ text = [sep].intercalate words := by
  constructor
  · rintro rfl
    exact (List.intercalate_splitOn sep).symm
  · rintro rfl
    exact List.splitOn_intercalate sep hsep hne

/-- The first word stands before the others, each behind a separator. -/
theorem intercalate_cons :
    [sep].intercalate (word :: words) = word ++ words.flatMap (sep :: ·) := by
  induction words generalizing word with
  | nil => simp
  | cons w words ih =>
    rw [List.intercalate_cons_cons, ih, List.flatMap_cons]
    simp

/-- The last word stands after the others, each before a separator. -/
theorem intercalate_concat :
    [sep].intercalate (words ++ [word]) = words.flatMap (· ++ [sep]) ++ word := by
  induction words with
  | nil => simp
  | cons w words ih =>
    obtain ⟨x, xs, hx⟩ := List.exists_cons_of_ne_nil (List.append_ne_nil_of_right_ne_nil words
      (List.cons_ne_nil word []))
    rw [List.cons_append, hx, List.intercalate_cons_cons, ← hx, ih, List.flatMap_cons]
    simp

/-- Nothing is between words but the separator. -/
theorem mem_intercalate {c : Char} (h : c ∈ [sep].intercalate words) :
    c = sep ∨ ∃ w ∈ words, c ∈ w := by
  cases words with
  | nil => cases h
  | cons w words =>
    rw [intercalate_cons] at h
    rcases List.mem_append.mp h with h | h
    · exact .inr ⟨w, List.mem_cons_self, h⟩
    · obtain ⟨v, hv, h⟩ := List.mem_flatMap.mp h
      exact (List.mem_cons.mp h).imp_right fun h => ⟨v, List.mem_cons_of_mem w hv, h⟩

/-- Texts up to the first separator are equal. -/
theorem append_sep_inj {u u' v v' : List Char} (hu : sep ∉ u) (hu' : sep ∉ u')
    (h : u ++ sep :: v = u' ++ sep :: v') : u = u' ∧ v = v' := by
  induction u generalizing u' with
  | nil =>
    cases u' with
    | nil => exact ⟨rfl, (List.cons.inj h).2⟩
    | cons a u' => exact absurd ((List.cons.inj h).1 ▸ List.mem_cons_self) hu'
  | cons a u ih =>
    cases u' with
    | nil => exact absurd ((List.cons.inj h).1 ▸ List.mem_cons_self) hu
    | cons a' u' =>
      obtain ⟨rfl, hrest⟩ := List.cons.inj h
      obtain ⟨rfl, hv⟩ :=
        ih (List.not_mem_of_not_mem_cons hu) (List.not_mem_of_not_mem_cons hu') hrest
      exact ⟨rfl, hv⟩

end Separators

/-! ### Trees in brackets -/

theorem spelled_all {items : List Pattern} :
    (all items).Spelled text ↔ (ofItems items).Spelled text := Iff.rfl

/-- Branches in brackets spell what one of them does. -/
theorem spelled_anyOf {branches : List (List Pattern)} (hb : branches ≠ []) :
    (anyOf branches).Spelled text ↔ ∃ b ∈ branches, (ofItems b).Spelled text := by
  refine (spelled_ofBranches fun h => hb (List.map_eq_nil_iff.mp h)).trans ?_
  simp only [List.mem_map, exists_exists_and_eq_and]

/-- An item that is a character without case. -/
theorem spelled_ofItems_char {c : Char} {ps : List Pattern}
    (hc : c.toNat < 0x41 ∨ c.toNat = 0x5f) :
    (ofItems (.char c :: ps)).Spelled text ↔ ∃ v, text = c :: v ∧ (ofItems ps).Spelled v := by
  rw [spelled_ofItems_cons]
  constructor
  · rintro ⟨u, v, rfl, hu, hv⟩
    exact ⟨v, (spelled_uncased (uncased_ascii hc)).mp hu ▸ rfl, hv⟩
  · rintro ⟨v, rfl, hv⟩
    exact ⟨[c], v, rfl, (spelled_uncased (uncased_ascii hc)).mpr rfl, hv⟩

/-- A class spells one character that it holds, before the rest. -/
theorem spelled_ofItems_chars {set : CharSet} {ps : List Pattern} :
    (ofItems (.chars set :: ps)).Spelled text ↔
      ∃ c v, text = c :: v ∧ set.has c = true ∧ (ofItems ps).Spelled v := by
  rw [spelled_ofItems_cons]
  constructor
  · rintro ⟨u, v, rfl, hu, hv⟩
    obtain ⟨c, rfl, hc⟩ := spelled_chars.mp hu
    exact ⟨c, v, rfl, hc, hv⟩
  · rintro ⟨c, v, rfl, hc, hv⟩
    exact ⟨[c], v, rfl, spelled_chars.mpr ⟨c, rfl, hc⟩, hv⟩

/-- Words that begin with a separator, so many times. -/
theorem spelled_repeated_after {c : Count} {sep : Char} {p : Pattern}
    (hsep : sep.toNat < 0x41 ∨ sep.toNat = 0x5f) :
    (repeated c (all [.char sep, p])).Spelled text ↔
      ∃ words : List (List Char), c.Allows words.length ∧ (∀ w ∈ words, p.Spelled w) ∧
        text = words.flatMap (sep :: ·) :=
  spelled_repeated_of_image fun _ => spelled_all.trans (spelled_ofItems_char hsep)

/-! ### Octets -/

theorem isDigit_iff {c : Char} : c.isDigit = true ↔ 0x30 ≤ c.toNat ∧ c.toNat ≤ 0x39 := by
  simp only [Char.isDigit, Bool.and_eq_true, decide_eq_true_eq]
  exact Iff.rfl

/-- A range of digits spells them by their codes, for digits have no case. -/
theorem spelled_digits_cons {a b c : Char} {ps : List Pattern} {v : List Char}
    (hb : b.toNat < 0x41) : (ofItems (digits a b :: ps)).Spelled (c :: v) ↔
      (a.toNat ≤ c.toNat ∧ c.toNat ≤ b.toNat) ∧ (ofItems ps).Spelled v := by
  rw [digits, spelled_ofItems_chars]
  simp only [List.cons.injEq, CharSet.has_range_iff hb, CharSet.le_iff]
  exact ⟨fun ⟨_, _, ⟨rfl, rfl⟩, h⟩ => h, fun h => ⟨c, v, ⟨rfl, rfl⟩, h⟩⟩

/-- A character before the letters spells itself only. -/
theorem spelled_char_cons {a c : Char} {ps : List Pattern} {v : List Char} (hc : c.toNat < 0x41) :
    (ofItems (.char c :: ps)).Spelled (a :: v) ↔
      a.toNat = c.toNat ∧ (ofItems ps).Spelled v := by
  rw [spelled_ofItems_char (.inl hc), Char.toNat_inj]
  simp only [List.cons.injEq]
  exact ⟨fun ⟨_, ⟨h, hv⟩, hps⟩ => ⟨h, hv ▸ hps⟩, fun ⟨h, hps⟩ => ⟨v, ⟨h, rfl⟩, hps⟩⟩

/-- A character spells no empty text. -/
theorem not_spelled_nil {p : Pattern} {ps : List Pattern}
    (hp : (∃ c, p = .char c) ∨ ∃ set, p = .chars set) :
    ¬ (ofItems (p :: ps)).Spelled [] := by
  rw [spelled_ofItems_cons]
  rintro ⟨u, v, h, hu, -⟩
  obtain ⟨rfl, -⟩ := List.append_eq_nil_iff.mp h.symm
  rcases hp with ⟨c, rfl⟩ | ⟨set, rfl⟩
  · obtain ⟨a, ha, -⟩ := spelled_char.mp hu
    cases ha
  · obtain ⟨a, ha, -⟩ := spelled_chars.mp hu
    cases ha

/-- Further digits do not make a number less. -/
theorem le_value_append (ds es : List Char) : Digits.value ds ≤ Digits.value (ds ++ es) := by
  have key : ∀ (es : List Char) (n : Nat),
      n ≤ es.foldl (fun n d => n * 10 + (d.toNat - '0'.toNat)) n := by
    intro es
    induction es with
    | nil => exact fun n => le_rfl
    | cons e es ih => exact fun n => (by omega : n ≤ n * 10 + (e.toNat - '0'.toNat)).trans (ih _)
  rw [Digits.value, Digits.value, List.foldl_append]
  exact key es _

/-- A number of four digits is too long. -/
theorem isOctet_of_length {a b c d : Char} {v : List Char} :
    isOctet (a :: b :: c :: d :: v) = false := by
  rw [← Bool.not_eq_true]
  intro h
  have hvalue := le_value_append [a, b, c, d] v
  simp only [isOctet, List.all_cons, List.head?_cons, Bool.and_eq_true, Bool.or_eq_true,
    isDigit_iff, List.length_cons, beq_iff_eq, bne_iff_ne, ne_eq, Option.some.injEq,
    decide_eq_true_eq, ← Char.toNat_inj] at h
  simp only [Digits.value, List.foldl_cons, List.foldl_nil, Char.reduceToNat, List.cons_append,
    List.nil_append] at hvalue h
  omega

/-- The tree of an octet spells the numbers up to 255. -/
theorem spelled_octet : octetTree.Spelled text ↔ isOctet text = true := by
  have hchar {c : Char} {ps : List Pattern} : ¬ (ofItems (.char c :: ps)).Spelled [] :=
    not_spelled_nil (.inl ⟨c, rfl⟩)
  have hdigit {a b : Char} {ps : List Pattern} : ¬ (ofItems (digits a b :: ps)).Spelled [] :=
    not_spelled_nil (.inr ⟨_, rfl⟩)
  have hnil {v : List Char} : (ofItems []).Spelled v ↔ v = [] := spelled_empty
  rw [octetTree, spelled_anyOf (List.cons_ne_nil _ _)]
  match text with
  | [] => simp [isOctet, hchar, hdigit]
  | [a] =>
    simp [isOctet, isDigit_iff, Digits.value, spelled_char_cons, spelled_digits_cons, hchar,
      hdigit, hnil]
    omega
  | [a, b] =>
    simp [isOctet, isDigit_iff, Digits.value, ← Char.toNat_inj, spelled_char_cons,
      spelled_digits_cons, hdigit, hnil]
    omega
  | [a, b, c] =>
    simp [isOctet, isDigit_iff, Digits.value, ← Char.toNat_inj, spelled_char_cons,
      spelled_digits_cons, hnil]
    omega
  | a :: b :: c :: d :: v => simp [isOctet_of_length, spelled_char_cons, spelled_digits_cons, hnil]

/-- An octet has digits only. -/
theorem isDigit_of_isOctet (h : isOctet text = true) {c : Char} (hc : c ∈ text) :
    c.isDigit = true := by
  simp only [isOctet, Bool.and_eq_true, List.all_eq_true] at h
  exact h.1.1.2 c hc

/-- A number holds no dot. -/
theorem dot_not_mem_octet (h : isOctet text = true) : '.' ∉ text :=
  fun hmem => absurd (isDigit_of_isOctet h hmem) (by decide)

/-! ### IPv4 addresses -/

/-- An IPv4 address is four numbers with dots between them. -/
theorem isIpv4_iff : isIpv4 text = true ↔
    ∃ words : List (List Char), words.length = 4 ∧ (∀ w ∈ words, isOctet w = true) ∧
      text = ['.'].intercalate words := by
  simp only [isIpv4, Bool.and_eq_true, beq_iff_eq, List.all_eq_true]
  constructor
  · rintro ⟨hlen, hall⟩
    exact ⟨_, hlen, hall, (List.intercalate_splitOn '.').symm⟩
  · rintro ⟨words, hlen, hall, h⟩
    have hne : words ≠ [] := fun h => by cases h ▸ hlen
    rw [(splitOn_eq_iff hne fun w hw => dot_not_mem_octet (hall w hw)).mpr h]
    exact ⟨hlen, hall⟩

/-- The tree of an IPv4 address spells four octets with dots between them. -/
theorem spelled_ipv4 : (ofItems ipv4Items).Spelled text ↔ isIpv4 text = true := by
  have hrest : ∀ v, (ofItems [.repeated (exactly 3) (all [.char '.', octetTree])]).Spelled v ↔
      ∃ words : List (List Char), words.length = 3 ∧ (∀ w ∈ words, isOctet w = true) ∧
        v = words.flatMap ('.' :: ·) := by
    intro v
    refine (spelled_repeated_after (.inl (by decide))).trans (exists_congr fun words => ?_)
    simp only [spelled_octet]
    refine and_congr_left' ⟨fun h => ?_, fun h => ?_⟩
    · exact Nat.le_antisymm (h.2 3 rfl) h.1
    · exact ⟨h.ge, fun m hm => (Option.some.inj hm) ▸ h.le⟩
  rw [isIpv4_iff, ipv4Items, spelled_ofItems_cons]
  constructor
  · rintro ⟨u, v, rfl, hu, hv⟩
    obtain ⟨words, hlen, hall, rfl⟩ := (hrest v).mp hv
    exact ⟨u :: words, congrArg (· + 1) hlen,
      List.forall_mem_cons.mpr ⟨spelled_octet.mp hu, hall⟩, intercalate_cons.symm⟩
  · rintro ⟨_ | ⟨u, words⟩, hlen, hall, rfl⟩
    · cases hlen
    · obtain ⟨hu, hall⟩ := List.forall_mem_cons.mp hall
      exact ⟨u, _, intercalate_cons, spelled_octet.mpr hu,
        (hrest _).mpr ⟨words, Nat.succ.inj hlen, hall, rfl⟩⟩

/-! ### Hosts -/

theorem isWord_dot : isWord '.' = false := by
  rw [← Bool.not_eq_true, isWord, wordSet, CharSet.has_uncased (uncased_ascii (by decide))]
  decide

/-- Repeated joins spell texts of joins. -/
theorem spelled_joins (joins : List Char)
    (h : (joins.all fun c => c.toNat < 0x41 || c.toNat == 0x5f) = true) :
    (repeated star (.chars ⟨joins.map fun c => (c, c), false⟩)).Spelled text ↔
      ∀ a ∈ text, a ∈ joins := by
  have huncased : ∀ c ∈ joins, Uncased c := fun c hc => by
    have hcase := List.all_eq_true.mp h c hc
    rw [Bool.or_eq_true, decide_eq_true_eq, beq_iff_eq] at hcase
    exact uncased_ascii hcase
  rw [spelled_repeated_chars]
  simp only [CharSet.has_listed_iff huncased]
  exact and_iff_right ⟨Nat.zero_le _, fun _ => nofun⟩

/-- A letter or digit, and joins after it. -/
theorem spelled_words {joins : List Char} {p : Pattern}
    (hp : ∀ w, (repeated star p).Spelled w ↔ ∀ a ∈ w, a ∈ joins) {c : Char} {rest : List Char} :
    (all [.chars wordSet, .repeated star p]).Spelled (c :: rest) ↔
      isWord c = true ∧ ∀ a ∈ rest, a ∈ joins := by
  rw [spelled_all, spelled_ofItems_chars]
  constructor
  · rintro ⟨_, _, h, hc, hv⟩
    obtain ⟨rfl, rfl⟩ := List.cons.inj h
    exact ⟨hc, (hp _).mp hv⟩
  · rintro ⟨hc, hv⟩
    exact ⟨c, rest, rfl, hc, (hp _).mpr hv⟩

/-- A text of letters, digits and joins falls into joins, and letters and digits with the joins
after each. -/
theorem exists_words {joins : List Char} {p : Pattern}
    (hp : ∀ w, (repeated star p).Spelled w ↔ ∀ a ∈ w, a ∈ joins)
    (h : ∀ a ∈ text, isWord a = true ∨ a ∈ joins) :
    ∃ (lead : List Char) (words : List (List Char)), text = lead ++ words.flatten ∧
      (∀ a ∈ lead, a ∈ joins) ∧
      ∀ w ∈ words, (all [.chars wordSet, .repeated star p]).Spelled w := by
  induction text with
  | nil => exact ⟨[], [], rfl, nofun, nofun⟩
  | cons a text ih =>
    obtain ⟨ha, hrest⟩ := List.forall_mem_cons.mp h
    obtain ⟨lead, words, rfl, hlead, hwords⟩ := ih hrest
    rcases ha with ha | ha
    · exact ⟨[], (a :: lead) :: words, rfl, nofun,
        List.forall_mem_cons.mpr ⟨(spelled_words hp).mpr ⟨ha, hlead⟩, hwords⟩⟩
    · exact ⟨a :: lead, words, rfl, List.forall_mem_cons.mpr ⟨ha, hlead⟩, hwords⟩

/-- A label begins and ends with a word character, and holds nothing but these and joins. -/
theorem isLabel_iff {joins : List Char} :
    isLabel joins text = true ↔ (∃ c ∈ text.head?, isWord c = true) ∧
      (∃ c ∈ text.getLast?, isWord c = true) ∧ ∀ c ∈ text, isWord c = true ∨ c ∈ joins := by
  simp only [isLabel, Bool.and_eq_true, Option.any_eq_true, List.all_eq_true, Bool.or_eq_true,
    List.contains_iff_mem, and_assoc, Option.mem_def]

/-- A repeated class spells its characters, one at least. -/
theorem spelled_plus {set : CharSet} :
    (repeated plus (.chars set)).Spelled text ↔ text ≠ [] ∧ ∀ a ∈ text, set.has a = true := by
  rw [spelled_repeated_chars]
  refine and_congr_left' ⟨fun h hnil => ?_, fun h => ⟨List.length_pos_of_ne_nil h, fun _ => nofun⟩⟩
  have : 1 ≤ text.length := h.1
  rw [hnil] at this
  cases this

/-- The tree of a label spells letters and digits with joins between them. -/
theorem spelled_label {joins : List Char} {p : Pattern}
    (hp : ∀ w, (repeated star p).Spelled w ↔ ∀ a ∈ w, a ∈ joins) :
    (ofItems [.repeated star (all [.chars wordSet, .repeated star p]),
        .repeated plus (.chars wordSet)]).Spelled text ↔ isLabel joins text = true := by
  rw [isLabel_iff, spelled_ofItems_cons]
  constructor
  · rintro ⟨u, v, rfl, hu, hv⟩
    obtain ⟨words, -, hwords, rfl⟩ := spelled_repeated.mp hu
    obtain ⟨hne, hall⟩ := spelled_plus.mp hv
    -- each round spells a letter or digit and the joins after it, so no join comes first or last
    have hword : ∀ w ∈ words, ∃ c rest, w = c :: rest ∧ isWord c = true ∧ ∀ a ∈ rest, a ∈ joins := by
      intro w hw
      cases w with
      | nil =>
        obtain ⟨c, v, h, -⟩ := spelled_ofItems_chars.mp (spelled_all.mp (hwords _ hw))
        cases h
      | cons c rest => exact ⟨c, rest, rfl, (spelled_words hp).mp (hwords _ hw)⟩
    refine ⟨?_, ?_, ?_⟩
    · cases words with
      | nil =>
        obtain ⟨c, v, rfl⟩ := List.exists_cons_of_ne_nil hne
        exact ⟨c, rfl, hall c List.mem_cons_self⟩
      | cons w words =>
        obtain ⟨c, rest, rfl, hc, -⟩ := hword w List.mem_cons_self
        exact ⟨c, rfl, hc⟩
    · refine ⟨v.getLast hne, ?_, hall _ (List.getLast_mem hne)⟩
      rw [List.getLast?_append, List.getLast?_eq_some_getLast hne]
      rfl
    · intro a ha
      rcases List.mem_append.mp ha with ha | ha
      · obtain ⟨w, hw, ha⟩ := List.mem_flatten.mp ha
        obtain ⟨c, rest, rfl, hc, hrest⟩ := hword w hw
        rcases List.mem_cons.mp ha with rfl | ha
        · exact .inl hc
        · exact .inr (hrest a ha)
      · exact .inl (hall a ha)
  · rintro ⟨⟨c, hhead, hc⟩, ⟨d, hlast, hd⟩, hall⟩
    obtain ⟨init, rfl⟩ : ∃ init, text = init ++ [d] := List.getLast?_eq_some_iff.mp hlast
    refine ⟨init, [d], rfl, spelled_repeated.mpr ?_, spelled_plus.mpr
      ⟨nofun, fun a ha => (List.mem_singleton.mp ha) ▸ hd⟩⟩
    cases init with
    | nil => exact ⟨[], ⟨le_rfl, fun _ => nofun⟩, nofun, rfl⟩
    | cons b init =>
      obtain rfl : b = c := Option.some.inj hhead
      obtain ⟨lead, words, rfl, hlead, hwords⟩ := exists_words hp fun a (ha : a ∈ init) =>
        hall a (List.mem_append_left _ (List.mem_cons_of_mem b ha))
      exact ⟨(b :: lead) :: words, ⟨Nat.zero_le _, fun _ => nofun⟩,
        List.forall_mem_cons.mpr ⟨(spelled_words hp).mpr ⟨hc, hlead⟩, hwords⟩, rfl⟩

theorem dot_not_mem_label {joins : List Char} (hj : '.' ∉ joins) (h : isLabel joins text = true) :
    '.' ∉ text := by
  intro hmem
  rcases (isLabel_iff.mp h).2.2 '.' hmem with hw | hw
  · exact absurd (isWord_dot.symm.trans hw) (by decide)
  · exact hj hw

/-- A host is labels with dots between them, of which only the first may have underscores. -/
theorem isHost_iff : isHost text = true ↔
    ∃ (first : List Char) (labels : List (List Char)), isLabel ['-', '_'] first = true ∧
      (∀ l ∈ labels, isLabel ['-'] l = true) ∧ text = ['.'].intercalate (first :: labels) := by
  rw [isHost]
  constructor
  · intro h
    split at h
    · cases h
    · rename_i first labels hsplit
      obtain ⟨hfirst, hlabels⟩ := Bool.and_eq_true_iff.mp h
      refine ⟨first, labels, hfirst, List.all_eq_true.mp hlabels, ?_⟩
      rw [← hsplit, List.intercalate_splitOn]
  · rintro ⟨first, labels, hfirst, hlabels, h⟩
    have hsep : ∀ w ∈ first :: labels, '.' ∉ w := List.forall_mem_cons.mpr
      ⟨dot_not_mem_label (by decide) hfirst, fun l hl => dot_not_mem_label (by decide) (hlabels l hl)⟩
    rw [(splitOn_eq_iff (List.cons_ne_nil _ _) hsep).mpr h]
    exact Bool.and_eq_true_iff.mpr ⟨hfirst, List.all_eq_true.mpr hlabels⟩

/-- The trees of the labels spell the hosts. -/
theorem spelled_host : (ofItems [hostTree, domainTree]).Spelled text ↔ isHost text = true := by
  have hjoins : ∀ w, (repeated star (.chars ⟨[('-', '-'), ('_', '_')], false⟩)).Spelled w ↔
      ∀ a ∈ w, a ∈ ['-', '_'] :=
    fun w => spelled_joins ['-', '_'] (by decide)
  have hhyphen : ∀ w, (repeated star (.char '-')).Spelled w ↔ ∀ a ∈ w, a ∈ ['-'] :=
    fun w => spelled_joins ['-'] (by decide)
  rw [isHost_iff, spelled_ofItems_cons]
  constructor
  · rintro ⟨u, v, rfl, hu, hv⟩
    obtain ⟨labels, -, hlabels, rfl⟩ := (spelled_repeated_after (.inl (by decide))).mp hv
    exact ⟨u, labels, (spelled_label hjoins).mp hu, fun l hl =>
      (spelled_label hhyphen).mp (hlabels l hl), intercalate_cons.symm⟩
  · rintro ⟨first, labels, hfirst, hlabels, rfl⟩
    exact ⟨first, _, intercalate_cons, (spelled_label hjoins).mpr hfirst,
      (spelled_repeated_after (.inl (by decide))).mpr ⟨labels, ⟨Nat.zero_le _, fun _ => nofun⟩,
        fun l hl => (spelled_label hhyphen).mpr (hlabels l hl), rfl⟩⟩

/-! ### Usernames and top-level domains -/

theorem alike_iff {text' : List Char} :
    alike text text' = true ↔ text.map Folding.fold = text'.map Folding.fold := beq_iff_eq

/-- The class of no character holds none, up to case neither. -/
theorem has_never (c : Char) : CharSet.has ⟨[('\x00', CharSet.last)], true⟩ c = false := by
  rw [CharSet.has, ← CharSet.reading_true, CharSet.not_admits_never]

/-- The branches of a whitelist spell its entries. -/
theorem spelled_branches {entries : List String} :
    (anyOf (Whitelist.branches entries)).Spelled text ↔
      ∃ e ∈ entries, alike text e.toList = true := by
  unfold Whitelist.branches
  split
  · rename_i hentries
    rw [List.isEmpty_iff.mp hentries, spelled_anyOf (List.cons_ne_nil _ _)]
    refine iff_of_false ?_ nofun
    rintro ⟨b, hb, h⟩
    obtain rfl := List.mem_singleton.mp hb
    obtain ⟨c, -, hc⟩ := spelled_chars.mp h
    rw [has_never] at hc
    cases hc
  · rename_i hentries
    have hne : (Whitelist.sorted entries).map (fun e => e.toList.map Pattern.char) ≠ [] := by
      intro h
      have := congrArg List.length h
      rw [List.length_map, Whitelist.sorted, List.length_mergeSort, List.length_nil,
        List.length_eq_zero_iff] at this
      exact hentries (List.isEmpty_iff.mpr this)
    rw [spelled_anyOf hne]
    simp only [List.mem_map, exists_exists_and_eq_and, spelled_literal, alike_iff]
    exact exists_congr fun e => and_congr_left' List.mem_mergeSort

end Grammar

open Pattern

theorem Username.not_has_at (u : Username) : u.set.has '@' = false := by
  rw [← Bool.not_eq_true]
  cases u <;> exact fun h => absurd ((CharSet.has_uncased (uncased_ascii (.inl (by decide)))).mp h)
    (by decide)

/-- The items of a username spell what the username accepts. -/
theorem Username.spelled_items (u : Username) {text : List Char} :
    (ofItems u.items).Spelled text ↔ u.accepts text = true := by
  rw [Username.items, Grammar.spelled_ofItems_chars]
  cases text with
  | nil => exact iff_of_false (fun ⟨_, _, h, _⟩ => by cases h) nofun
  | cons c rest =>
    rw [Username.accepts, Bool.and_eq_true, Bool.and_eq_true, and_assoc, List.all_eq_true,
      Bool.not_eq_true', List.isEmpty_eq_false_iff]
    constructor
    · rintro ⟨_, _, h, hc, hrest⟩
      obtain ⟨rfl, rfl⟩ := List.cons.inj h
      exact ⟨hc, Grammar.spelled_plus.mp hrest⟩
    · exact fun ⟨hc, hrest⟩ => ⟨c, rest, rfl, hc, Grammar.spelled_plus.mpr hrest⟩

/-- The pattern of the top-level domain spells what the options accept. -/
theorem Options.spelled_topLevel (o : Options) {text : List Char} :
    o.topLevelTree.Spelled text ↔ o.acceptsTopLevel text = true := by
  unfold topLevelTree acceptsTopLevel
  split
  · rw [Bool.and_eq_true, decide_eq_true_eq, List.all_eq_true]
    exact spelled_repeated_chars.trans (and_congr_left' ⟨And.left, fun h => ⟨h, fun _ => nofun⟩⟩)
  · rw [Grammar.spelled_branches, List.any_eq_true]

end MailPattern
