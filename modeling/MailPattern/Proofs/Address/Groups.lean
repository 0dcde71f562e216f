import MailPattern.Proofs.Address.Grammar

/-!
# Proofs — Address — Groups

IPv6 addresses: eight groups of sixteen bits with colons between them, where a double colon may
stand for one group or more, and an IPv4 address for the last two.  The pattern has a branch for each
number of groups before the double colon; the test `Grammar.isIpv6` counts the groups on either
side of it instead.
-/

namespace MailPattern.Grammar

open Pattern Fragment

/-! ### Tests -/

/-- Up to four digits in base sixteen. -/
def isGroup (text : List Char) : Bool :=
  !text.isEmpty && text.length ≤ 4 && text.all Digits.isHex

/-- How many groups the words stand for: each for one, but an IPv4 address in the last place for
two. -/
def count? (words : List (List Char)) : Option Nat :=
  if words.all isGroup then some words.length
  else if words.dropLast.all isGroup && words.getLast?.any isIpv4 then some (words.length + 1)
  else none

/-- The words between the colons of a text; an empty text has none. -/
def words (text : List Char) : List (List Char) :=
  if text.isEmpty then [] else text.splitOn ':'

/-- Eight groups, or fewer around a double colon. -/
def isIpv6 (text : List Char) : Bool :=
  count? (words text) == some 8 || (cuts text).any fun (left, rest) =>
    match rest with
    | ':' :: ':' :: right => (words left).all isGroup &&
        (count? (words right)).any fun n => (words left).length + n ≤ 7
    | _ => false

/-- The letters and digits of a zone. -/
def zoneSet : CharSet := ⟨[('0', '9'), ('a', 'z'), ('A', 'Z')], false⟩

/-- What names a zone. -/
def isZone (text : List Char) : Bool := !text.isEmpty && text.all zoneSet.has

/-- An IPv6 address, and maybe a zone after a percent sign. -/
def isZoned (text : List Char) : Bool := isIpv6 text || parted '%' isIpv6 isZone text

/-! ### Words -/

variable {text : List Char} {ws gs : List (List Char)} {n k : Nat}

/-- The digits in base sixteen by their codes. -/
theorem isHex_iff {c : Char} : Digits.isHex c = true ↔ 0x30 ≤ c.toNat ∧ c.toNat ≤ 0x39 ∨
    0x61 ≤ c.toNat ∧ c.toNat ≤ 0x66 ∨ 0x41 ≤ c.toNat ∧ c.toNat ≤ 0x46 := by
  simp only [Digits.isHex, Digits.hex?, CharSet.le_iff, Char.reduceToNat]
  split
  · simp [*]
  · split
    · simp [*]
    · split
      · simp [*]
      · simp [*]

theorem isGroup_iff : isGroup text = true ↔
    (1 ≤ text.length ∧ text.length ≤ 4) ∧ ∀ c ∈ text, Digits.isHex c = true := by
  simp only [isGroup, Bool.and_eq_true, Bool.not_eq_true', List.isEmpty_eq_false_iff,
    decide_eq_true_eq, List.all_eq_true, ← List.length_pos_iff]
  exact Iff.rfl

/-- An IPv4 address has dots and digits only, and a dot at least. -/
theorem mem_ipv4 (h : isIpv4 text = true) :
    '.' ∈ text ∧ ∀ c ∈ text, c = '.' ∨ c.isDigit = true := by
  obtain ⟨words, hlen, hwords, rfl⟩ := isIpv4_iff.mp h
  refine ⟨?_, fun c hc => (mem_intercalate hc).imp_right fun ⟨w, hw, hc⟩ =>
    isDigit_of_isOctet (hwords w hw) hc⟩
  match words, hlen with
  | [a, b, c, d], _ =>
    rw [intercalate_cons]
    simp

/-- An IPv4 address is no group, for it has dots. -/
theorem not_isGroup_of_isIpv4 (h : isIpv4 text = true) : isGroup text = false := by
  rw [← Bool.not_eq_true, isGroup_iff]
  exact fun hg => absurd (hg.2 '.' (mem_ipv4 h).1) (by decide)

theorem colon_not_mem_group (h : isGroup text = true) : ':' ∉ text :=
  fun hmem => absurd ((isGroup_iff.mp h).2 ':' hmem) (by decide)

theorem colon_not_mem_ipv4 (h : isIpv4 text = true) : ':' ∉ text :=
  fun hmem => ((mem_ipv4 h).2 ':' hmem).elim (by decide) (by decide)

theorem ne_nil_of_isGroup (h : isGroup text = true) : text ≠ [] := by
  rintro rfl
  cases h

theorem ne_nil_of_isIpv4 (h : isIpv4 text = true) : text ≠ [] :=
  List.ne_nil_of_mem (mem_ipv4 h).1

/-- What is counted is groups, or groups and an IPv4 address. -/
theorem count?_eq_some : count? ws = some n ↔
    (∀ g ∈ ws, isGroup g = true) ∧ ws.length = n ∨
      ∃ gs v, ws = gs ++ [v] ∧ (∀ g ∈ gs, isGroup g = true) ∧ isIpv4 v = true ∧
        gs.length + 2 = n := by
  rw [count?]
  split
  · rename_i hall
    rw [List.all_eq_true] at hall
    rw [Option.some.injEq, and_iff_right hall, iff_self_or]
    rintro ⟨gs, v, rfl, -, hv, -⟩
    have := hall v (List.mem_append_right _ List.mem_cons_self)
    rw [not_isGroup_of_isIpv4 hv] at this
    cases this
  · rename_i hall
    rw [List.all_eq_true] at hall
    rw [or_iff_right fun h => hall h.1]
    split
    · rename_i hlast
      simp only [Bool.and_eq_true, List.all_eq_true, Option.any_eq_true] at hlast
      obtain ⟨hgs, v, hv, hipv4⟩ := hlast
      obtain ⟨gs, rfl⟩ := List.getLast?_eq_some_iff.mp hv
      rw [List.dropLast_concat] at hgs
      rw [Option.some.injEq, List.length_append]
      refine ⟨fun h => ⟨gs, v, rfl, hgs, hipv4, h⟩, ?_⟩
      rintro ⟨gs', v', h, -, -, hn⟩
      rw [(List.append_inj' h rfl).1]
      exact hn
    · rename_i hlast
      refine iff_of_false nofun ?_
      rintro ⟨gs, v, rfl, hgs, hv, -⟩
      refine hlast ?_
      rw [List.dropLast_concat, List.getLast?_concat, List.all_eq_true.mpr hgs, Option.any_some, hv]
      rfl

/-- No word that counts holds a colon or is empty. -/
theorem colon_not_mem_counted (h : count? ws = some n) : ∀ w ∈ ws, ':' ∉ w ∧ w ≠ [] := by
  rcases count?_eq_some.mp h with ⟨hws, -⟩ | ⟨gs, v, rfl, hgs, hv, -⟩
  · exact fun w hw => ⟨colon_not_mem_group (hws w hw), ne_nil_of_isGroup (hws w hw)⟩
  · intro w hw
    rcases List.mem_append.mp hw with hw | hw
    · exact ⟨colon_not_mem_group (hgs w hw), ne_nil_of_isGroup (hgs w hw)⟩
    · obtain rfl := List.mem_singleton.mp hw
      exact ⟨colon_not_mem_ipv4 hv, ne_nil_of_isIpv4 hv⟩

/-- Words with colons between them make the text again. -/
theorem intercalate_words (text : List Char) : [':'].intercalate (words text) = text := by
  unfold words
  split
  · exact (List.isEmpty_iff.mp ‹_›).symm
  · exact List.intercalate_splitOn ':'

/-- Cutting at colons finds the words. -/
theorem words_intercalate (h : ∀ w ∈ ws, ':' ∉ w ∧ w ≠ []) :
    words ([':'].intercalate ws) = ws := by
  cases ws with
  | nil => rfl
  | cons w ws =>
    have hne : [':'].intercalate (w :: ws) ≠ [] := by
      rw [intercalate_cons]
      exact List.append_ne_nil_of_left_ne_nil (h w List.mem_cons_self).2 _
    rw [words, if_neg (by rwa [List.isEmpty_iff])]
    exact List.splitOn_intercalate ':' (fun v hv => (h v hv).1) (List.cons_ne_nil w ws)

/-- A text of so many groups. -/
def Counts (text : List Char) (n : Nat) : Prop :=
  ∃ ws, text = [':'].intercalate ws ∧ count? ws = some n

/-- The count of the words of a text tells how many groups it has. -/
theorem count?_words : count? (words text) = some n ↔ Counts text n := by
  constructor
  · exact fun h => ⟨words text, (intercalate_words text).symm, h⟩
  · rintro ⟨ws, rfl, h⟩
    rwa [words_intercalate (colon_not_mem_counted h)]

/-- An IPv6 address, by the words in it. -/
theorem isIpv6_iff : isIpv6 text = true ↔ Counts text 8 ∨
    ∃ gs right k, (∀ g ∈ gs, isGroup g = true) ∧ Counts right k ∧ gs.length + k ≤ 7 ∧
      text = [':'].intercalate gs ++ ':' :: ':' :: right := by
  simp only [isIpv6, Bool.or_eq_true, beq_iff_eq, count?_words, List.any_eq_true, Prod.exists,
    mem_cuts]
  refine or_congr_right ⟨?_, ?_⟩
  · rintro ⟨left, rest, rfl, h⟩
    split at h
    · rename_i right
      simp only [Bool.and_eq_true, List.all_eq_true, Option.any_eq_true, count?_words,
        decide_eq_true_eq] at h
      obtain ⟨hleft, k, hk, hle⟩ := h
      exact ⟨words left, right, k, hleft, hk, hle, by rw [intercalate_words]⟩
    · cases h
  · rintro ⟨gs, right, k, hgs, hk, hle, rfl⟩
    refine ⟨_, _, rfl, ?_⟩
    rw [words_intercalate fun w hw => ⟨colon_not_mem_group (hgs w hw), ne_nil_of_isGroup (hgs w hw)⟩]
    simp only [Bool.and_eq_true, List.all_eq_true, Option.any_eq_true, count?_words,
      decide_eq_true_eq]
    exact ⟨hgs, k, hk, hle⟩

theorem isHex_of_isDigit {c : Char} (h : c.isDigit = true) : Digits.isHex c = true :=
  isHex_iff.mpr (.inl (isDigit_iff.mp h))

/-- Counted words hold digits, dots and colons only. -/
theorem mem_counted (h : count? ws = some n) :
    ∀ c ∈ [':'].intercalate ws, c = ':' ∨ c = '.' ∨ Digits.isHex c = true := by
  have hgroup {g : List Char} (hg : isGroup g = true) :
      ∀ c ∈ g, c = '.' ∨ Digits.isHex c = true := fun c hc => .inr ((isGroup_iff.mp hg).2 c hc)
  have hword : ∀ w ∈ ws, ∀ c ∈ w, c = '.' ∨ Digits.isHex c = true := by
    rcases count?_eq_some.mp h with ⟨hws, -⟩ | ⟨gs, v, rfl, hgs, hv, -⟩
    · exact fun w hw => hgroup (hws w hw)
    · refine List.forall_mem_append.mpr ⟨fun g hg => hgroup (hgs g hg),
        List.forall_mem_singleton.mpr fun c hc => ?_⟩
      exact ((mem_ipv4 hv).2 c hc).imp_right isHex_of_isDigit
  intro c hc
  rcases mem_intercalate hc with hsep | ⟨w, hw, hcw⟩
  · exact .inl hsep
  · exact .inr (hword w hw c hcw)

/-- An IPv6 address has colons, dots and digits in base sixteen only. -/
theorem mem_ipv6 (h : isIpv6 text = true) :
    ∀ c ∈ text, c = ':' ∨ c = '.' ∨ Digits.isHex c = true := by
  rcases isIpv6_iff.mp h with ⟨ws, rfl, hws⟩ | ⟨gs, _, k, hgs, ⟨ws, rfl, hws⟩, -, rfl⟩
  · exact mem_counted hws
  · refine List.forall_mem_append.mpr ⟨mem_counted (count?_eq_some.mpr (.inl ⟨hgs, rfl⟩)), ?_⟩
    exact List.forall_mem_cons.mpr ⟨.inl rfl, List.forall_mem_cons.mpr ⟨.inl rfl, mem_counted hws⟩⟩

/-! ### Trees -/

theorem has_hex {c : Char} : hexSet.has c = true ↔ Digits.isHex c = true := by
  rw [hexSet, CharSet.has_iff, isHex_iff]
  simp only [List.exists_mem_cons_iff, List.not_mem_nil, false_and, exists_false, or_false,
    CharSet.le_iff, Char.reduceToNat]
  constructor
  · rintro ⟨d, hfold, hd⟩
    have hcode : Folding.foldCode d.toNat = Folding.foldCode c.toNat := by
      rw [← Folding.toNat_fold, ← Folding.toNat_fold, hfold]
    have := Folding.foldCode_ascii (n := d.toNat) (by omega)
    have := Folding.foldCode_ascii (n := c.toNat) (by omega)
    omega
  · exact fun h => ⟨c, rfl, by omega⟩

/-- The pattern of a group spells the groups. -/
theorem spelled_hex : hexTree.Spelled text ↔ isGroup text = true := by
  rw [hexTree, spelled_repeated_chars, isGroup_iff]
  simp only [has_hex]
  refine and_congr_left' (and_congr_right' ⟨fun h => h 4 rfl, ?_⟩)
  rintro h _ ⟨⟩
  exact h

/-- Groups, each before a colon, so many. -/
theorem spelled_before : (repeated (exactly n) (all [hexTree, .char ':'])).Spelled text ↔
    ∃ gs : List (List Char), gs.length = n ∧ (∀ g ∈ gs, isGroup g = true) ∧
      text = gs.flatMap (· ++ [':']) := by
  have hitem : ∀ w, (all [hexTree, .char ':']).Spelled w ↔ ∃ g, w = g ++ [':'] ∧ isGroup g = true := by
    intro w
    rw [spelled_all, spelled_ofItems_cons]
    constructor
    · rintro ⟨u, v, rfl, hu, hv⟩
      rw [(spelled_uncased (uncased_ascii (by decide))).mp hv]
      exact ⟨u, rfl, spelled_hex.mp hu⟩
    · rintro ⟨g, rfl, hg⟩
      exact ⟨g, _, rfl, spelled_hex.mpr hg, (spelled_uncased (uncased_ascii (by decide))).mpr rfl⟩
  have hcount : ∀ k, (exactly n).Allows k ↔ k = n :=
    fun k => ⟨fun h => Nat.le_antisymm (h.2 n rfl) h.1,
      fun h => ⟨h.ge, fun m hm => Option.some.inj hm ▸ h.le⟩⟩
  rw [spelled_repeated_of_image hitem]
  simp only [hcount]

/-- Words with a colon after each are words with colons between them, and one colon more. -/
theorem flatMap_before (h : gs ≠ []) :
    gs.flatMap (· ++ [':']) = [':'].intercalate gs ++ [':'] := by
  obtain ⟨init, last, rfl⟩ := (List.eq_nil_or_concat' gs).resolve_left h
  rw [intercalate_concat, List.flatMap_append, List.flatMap_singleton, List.append_assoc]

theorem flatMap_after (h : gs ≠ []) : gs.flatMap (':' :: ·) = ':' :: [':'].intercalate gs := by
  obtain ⟨g, gs, rfl⟩ := List.exists_cons_of_ne_nil h
  rw [intercalate_cons, List.flatMap_cons, List.cons_append]

/-- A colon and then at most `m` groups. -/
def Follows (m : Nat) (text : List Char) : Prop :=
  ∃ right k, text = ':' :: right ∧ Counts right k ∧ k ≤ m

/-- What follows a group: groups and an IPv4 address behind colons, groups behind colons, or a colon
alone. -/
theorem follows_iff {m : Nat} : Follows m text ↔
    (∃ (gs : List (List Char)) (v : List Char), gs.length + 2 ≤ m ∧
      (∀ g ∈ gs, isGroup g = true) ∧ isIpv4 v = true ∧ text = gs.flatMap (':' :: ·) ++ ':' :: v) ∨
    (∃ gs : List (List Char), (1 ≤ gs.length ∧ gs.length ≤ m) ∧ (∀ g ∈ gs, isGroup g = true) ∧
      text = gs.flatMap (':' :: ·)) ∨ text = [':'] := by
  have hlast : ∀ (gs : List (List Char)) (v : List Char),
      gs.flatMap (':' :: ·) ++ ':' :: v = ':' :: [':'].intercalate (gs ++ [v]) := by
    intro gs v
    rw [← flatMap_after (List.append_ne_nil_of_right_ne_nil gs (List.cons_ne_nil v [])),
      List.flatMap_append, List.flatMap_singleton]
  constructor
  · rintro ⟨_, k, rfl, ⟨ws, rfl, hk⟩, hkm⟩
    rcases count?_eq_some.mp hk with ⟨hws, rfl⟩ | ⟨gs, v, rfl, hgs, hv, rfl⟩
    · cases ws with
      | nil => exact .inr (.inr rfl)
      | cons w ws =>
        exact .inr (.inl ⟨w :: ws, ⟨Nat.succ_pos _, hkm⟩, hws,
          (flatMap_after (List.cons_ne_nil w ws)).symm⟩)
    · exact .inl ⟨gs, v, hkm, hgs, hv, (hlast gs v).symm⟩
  · rintro (⟨gs, v, hm, hgs, hv, rfl⟩ | ⟨gs, hm, hgs, rfl⟩ | rfl)
    · exact ⟨_, _, hlast gs v, ⟨_, rfl, count?_eq_some.mpr (.inr ⟨gs, v, rfl, hgs, hv, rfl⟩)⟩, hm⟩
    · exact ⟨_, _, flatMap_after (List.ne_nil_of_length_pos hm.1),
        ⟨_, rfl, count?_eq_some.mpr (.inl ⟨hgs, rfl⟩)⟩, hm.2⟩
    · exact ⟨[], 0, rfl, ⟨[], rfl, rfl⟩, Nat.zero_le m⟩

/-- A repeated colon and group spells so many groups, each behind a colon. -/
theorem spelled_colons {least most : Nat} : (colonTree least most).Spelled text ↔
    ∃ gs : List (List Char), (least ≤ gs.length ∧ gs.length ≤ most) ∧
      (∀ g ∈ gs, isGroup g = true) ∧ text = gs.flatMap (':' :: ·) := by
  refine (spelled_repeated_after (.inl (by decide))).trans (exists_congr fun gs => ?_)
  simp only [spelled_hex]
  refine and_congr_left' (and_congr_right' ⟨fun h => h most rfl, ?_⟩)
  rintro h _ ⟨⟩
  exact h

theorem spelled_colon : (ofItems [.char ':']).Spelled text ↔ text = [':'] :=
  spelled_uncased (uncased_ascii (by decide))

/-- What follows fewer groups than five is a colon and further groups. -/
theorem spelled_rest {m : Nat} (hm : 2 ≤ m) :
    (anyOf (restBranches m)).Spelled text ↔ Follows m text := by
  rw [restBranches, spelled_anyOf (List.cons_ne_nil _ _), follows_iff]
  simp only [List.exists_mem_cons_iff, List.not_mem_nil, false_and, exists_false, or_false,
    spelled_colon]
  refine or_congr ?_ (or_congr_left spelled_colons)
  rw [spelled_ofItems_cons]
  simp only [spelled_colons, spelled_ofItems_char (c := ':') (.inl (by decide)), spelled_ipv4]
  constructor
  · rintro ⟨_, _, rfl, ⟨gs, hgs, hall, rfl⟩, v, rfl, hv⟩
    exact ⟨gs, v, by omega, hall, hv, rfl⟩
  · rintro ⟨gs, v, hgs, hall, hv, rfl⟩
    exact ⟨_, _, rfl, ⟨gs, by omega, hall, rfl⟩, v, rfl, hv⟩

/-- After five groups: an IPv4 address, up to two groups, or none. -/
theorem spelled_rest₅ : (anyOf [.char ':' :: ipv4Items, [colonTree 1 2], [.char ':']]).Spelled text ↔
    Follows 2 text := by
  rw [← spelled_rest le_rfl, restBranches, spelled_anyOf (List.cons_ne_nil _ _),
    spelled_anyOf (List.cons_ne_nil _ _)]
  simp only [List.exists_mem_cons_iff, List.not_mem_nil, false_and, exists_false, or_false]
  refine or_congr_left ?_
  rw [spelled_ofItems_cons (p := colonTree _ _)]
  constructor
  · exact fun h => ⟨[], text, rfl, spelled_colons.mpr ⟨[], ⟨le_rfl, le_rfl⟩, nofun, rfl⟩, h⟩
  · rintro ⟨u, v, rfl, hu, hv⟩
    obtain ⟨gs, ⟨-, hgs⟩, -, rfl⟩ := spelled_colons.mp hu
    rwa [List.length_eq_zero_iff.mp (Nat.le_zero.mp hgs)]

/-- After six groups: an IPv4 address, one group, or none. -/
theorem spelled_rest₆ : (anyOf [ipv4Items, [.char ':', hexTree], [.char ':']]).Spelled text ↔
    isIpv4 text = true ∨ Follows 1 text := by
  rw [spelled_anyOf (List.cons_ne_nil _ _), follows_iff,
    or_iff_right (a := ∃ _, _) (by rintro ⟨gs, v, h, -⟩; omega)]
  simp only [List.exists_mem_cons_iff, List.not_mem_nil, false_and, exists_false, or_false,
    spelled_ipv4, spelled_colon]
  refine or_congr_right (or_congr_left ((spelled_ofItems_char (.inl (by decide))).trans ?_))
  constructor
  · rintro ⟨v, rfl, hv⟩
    exact ⟨[v], ⟨le_rfl, le_rfl⟩, List.forall_mem_singleton.mpr (spelled_hex.mp hv), by simp⟩
  · rintro ⟨gs, hlen, hgs, rfl⟩
    obtain ⟨g, rfl⟩ := List.length_eq_one_iff.mp (Nat.le_antisymm hlen.2 hlen.1)
    exact ⟨g, by simp, spelled_hex.mpr (hgs g List.mem_cons_self)⟩

/-- After seven groups: one group or none. -/
theorem spelled_rest₇ : (anyOf [[hexTree], [.char ':']]).Spelled text ↔
    isGroup text = true ∨ Follows 0 text := by
  rw [spelled_anyOf (List.cons_ne_nil _ _), follows_iff,
    or_iff_right (a := ∃ _, _) (by rintro ⟨gs, v, h, -⟩; omega),
    or_iff_right (a := ∃ _, _) (by rintro ⟨gs, h, -⟩; omega)]
  simp only [List.exists_mem_cons_iff, List.not_mem_nil, false_and, exists_false, or_false,
    spelled_colon]
  exact or_congr_left spelled_hex

/-- So many groups with a colon after each, and a rest. -/
def Begins (n : Nat) (P : List Char → Prop) (text : List Char) : Prop :=
  ∃ (gs : List (List Char)) (rest : List Char), gs.length = n ∧ (∀ g ∈ gs, isGroup g = true) ∧
    text = gs.flatMap (· ++ [':']) ++ rest ∧ P rest

theorem begins_congr {P Q : List Char → Prop} (h : ∀ rest, P rest ↔ Q rest) :
    Begins n P text ↔ Begins n Q text := by
  simp only [Begins, h]

/-- A choice of rests is a choice of the texts. -/
theorem begins_or {P Q : List Char → Prop} :
    Begins n (fun rest => P rest ∨ Q rest) text ↔ Begins n P text ∨ Begins n Q text := by
  simp only [Begins, and_or_left, exists_or]

/-- Counted groups before branches spell so many groups and then what a branch spells. -/
theorem spelled_groupsItems {branches : List (List Pattern)} :
    (ofItems (groupsItems n branches)).Spelled text ↔ Begins n (anyOf branches).Spelled text := by
  rw [groupsItems, spelled_ofItems_cons]
  constructor
  · rintro ⟨_, rest, rfl, h, hrest⟩
    obtain ⟨gs, hlen, hgs, rfl⟩ := spelled_before.mp h
    exact ⟨gs, rest, hlen, hgs, rfl, hrest⟩
  · rintro ⟨gs, rest, hlen, hgs, rfl, hrest⟩
    exact ⟨_, rest, rfl, spelled_before.mpr ⟨gs, hlen, hgs, rfl⟩, hrest⟩

/-- Eight groups: the seventh is followed by the eighth, or the sixth by an IPv4 address. -/
theorem counts_eight :
    Counts text 8 ↔ Begins 7 (isGroup · = true) text ∨ Begins 6 (isIpv4 · = true) text := by
  constructor
  · rintro ⟨ws, rfl, h⟩
    rcases count?_eq_some.mp h with ⟨hws, hlen⟩ | ⟨gs, v, rfl, hgs, hv, hlen⟩
    · obtain ⟨gs, g, rfl⟩ := (List.eq_nil_or_concat' ws).resolve_left fun h => by cases h ▸ hlen
      obtain ⟨hgs, hg⟩ := List.forall_mem_append.mp hws
      rw [List.length_append] at hlen
      exact .inl ⟨gs, g, Nat.succ.inj hlen, hgs, intercalate_concat, hg g List.mem_cons_self⟩
    · exact .inr ⟨gs, v, Nat.succ.inj (Nat.succ.inj hlen), hgs, intercalate_concat, hv⟩
  · rintro (⟨gs, g, hlen, hgs, rfl, hg⟩ | ⟨gs, v, hlen, hgs, rfl, hv⟩)
    · refine ⟨gs ++ [g], intercalate_concat.symm, count?_eq_some.mpr (.inl ⟨?_, ?_⟩)⟩
      · exact List.forall_mem_append.mpr ⟨hgs, List.forall_mem_singleton.mpr hg⟩
      · rw [List.length_append, hlen]
        rfl
    · exact ⟨gs ++ [v], intercalate_concat.symm,
        count?_eq_some.mpr (.inr ⟨gs, v, rfl, hgs, hv, by rw [hlen]⟩)⟩

/-- Groups around a double colon, by how many stand before it. -/
theorem compressed_iff :
    (∃ gs right k, (∀ g ∈ gs, isGroup g = true) ∧ Counts right k ∧ gs.length + k ≤ 7 ∧
      text = [':'].intercalate gs ++ ':' :: ':' :: right) ↔
    (∃ n, (1 ≤ n ∧ n ≤ 7) ∧ Begins n (Follows (7 - n)) text) ∨
      ∃ rest, text = ':' :: rest ∧ Follows 7 rest := by
  constructor
  · rintro ⟨gs, right, k, hgs, hk, hle, rfl⟩
    by_cases hne : gs = []
    · subst hne
      exact .inr ⟨_, rfl, right, k, rfl, hk, by simpa using hle⟩
    · refine .inl ⟨gs.length, ⟨List.length_pos_of_ne_nil hne, by omega⟩, gs, ':' :: right, rfl, hgs,
        ?_, right, k, rfl, hk, by omega⟩
      rw [flatMap_before hne, List.append_assoc, List.singleton_append]
  · rintro (⟨_, hn, gs, _, rfl, hgs, rfl, right, k, rfl, hk, hle⟩ | ⟨_, rfl, right, k, rfl, hk, hle⟩)
    · refine ⟨gs, right, k, hgs, hk, by omega, ?_⟩
      rw [flatMap_before (List.ne_nil_of_length_pos hn.1), List.append_assoc, List.singleton_append]
    · exact ⟨[], right, k, nofun, hk, by simpa using hle, rfl⟩

/-- The branches of the tree spell the IPv6 addresses. -/
theorem spelled_ipv6Branches : (anyOf ipv6Branches).Spelled text ↔ isIpv6 text = true := by
  have hseven : ∀ Q : Nat → Prop, (∃ n, (1 ≤ n ∧ n ≤ 7) ∧ Q n) ↔
      Q 7 ∨ Q 6 ∨ Q 5 ∨ Q 4 ∨ Q 3 ∨ Q 2 ∨ Q 1 := by
    intro Q
    constructor
    · rintro ⟨n, hn, h⟩
      obtain rfl | rfl | rfl | rfl | rfl | rfl | rfl : n = 1 ∨ n = 2 ∨ n = 3 ∨ n = 4 ∨ n = 5 ∨
        n = 6 ∨ n = 7 := by omega
      all_goals simp only [h, true_or, or_true]
    · rintro (h | h | h | h | h | h | h)
      all_goals exact ⟨_, by decide, h⟩
  have hbare : (ofItems [all [.char ':', anyOf (restBranches 7)]]).Spelled text ↔
      ∃ rest, text = ':' :: rest ∧ Follows 7 rest := by
    refine (spelled_ofItems_char (.inl (by decide))).trans (exists_congr fun rest => ?_)
    exact and_congr_right' (spelled_rest (by decide))
  rw [isIpv6_iff, counts_eight, compressed_iff, hseven, ipv6Branches,
    spelled_anyOf (List.cons_ne_nil _ _)]
  simp only [List.exists_mem_cons_iff, List.not_mem_nil, false_and, exists_false, or_false, hbare,
    spelled_groupsItems]
  rw [begins_congr (n := 7) fun _ => spelled_rest₇, begins_congr (n := 6) fun _ => spelled_rest₆,
    begins_congr (n := 5) fun _ => spelled_rest₅,
    begins_congr (n := 4) fun _ => spelled_rest (m := 3) (by decide),
    begins_congr (n := 3) fun _ => spelled_rest (m := 4) (by decide),
    begins_congr (n := 2) fun _ => spelled_rest (m := 5) (by decide),
    begins_congr (n := 1) fun _ => spelled_rest (m := 6) (by decide), begins_or, begins_or]
  tauto

/-- A zone is named by letters and digits, one at least. -/
theorem isZone_iff : isZone text = true ↔ text ≠ [] ∧ ∀ c ∈ text, zoneSet.has c = true := by
  rw [isZone, Bool.and_eq_true, Bool.not_eq_true', List.isEmpty_eq_false_iff, List.all_eq_true]

/-- The pattern of a zone spells nothing, or a percent sign and the name of a zone. -/
theorem spelled_zone : zoneTree.Spelled text ↔
    text = [] ∨ ∃ name, text = '%' :: name ∧ isZone name = true := by
  refine (spelled_repeated_after (.inl (by decide))).trans ?_
  simp only [isZone_iff]
  constructor
  · rintro ⟨names, hlen, hnames, rfl⟩
    have hle : names.length ≤ 1 := hlen.2 1 rfl
    match names, hle with
    | [], _ => exact .inl rfl
    | [name], _ =>
      exact .inr ⟨name, by simp, spelled_plus.mp (hnames name List.mem_cons_self)⟩
  · rintro (rfl | ⟨name, rfl, hname⟩)
    · exact ⟨[], ⟨le_rfl, fun _ _ => Nat.zero_le _⟩, nofun, rfl⟩
    · refine ⟨[name], ⟨Nat.zero_le _, ?_⟩, List.forall_mem_singleton.mpr (spelled_plus.mpr hname),
        by simp⟩
      rintro m ⟨⟩
      exact le_rfl

/-- The items of the tree spell the IPv6 addresses, with a zone or without. -/
theorem spelled_ipv6 : (ofItems ipv6Items).Spelled text ↔ isZoned text = true := by
  rw [isZoned, Bool.or_eq_true, parted_iff, ipv6Items, spelled_ofItems_cons]
  constructor
  · rintro ⟨u, v, rfl, hu, hv⟩
    rw [spelled_ipv6Branches] at hu
    rcases spelled_zone.mp hv with rfl | ⟨name, rfl, hname⟩
    · exact .inl (by rwa [List.append_nil])
    · exact .inr ⟨u, name, rfl, hu, hname⟩
  · rintro (h | ⟨u, name, rfl, hu, hname⟩)
    · exact ⟨text, [], (List.append_nil text).symm, spelled_ipv6Branches.mpr h,
        spelled_zone.mpr (.inl rfl)⟩
    · exact ⟨u, _, rfl, spelled_ipv6Branches.mpr hu, spelled_zone.mpr (.inr ⟨name, rfl, hname⟩)⟩

end MailPattern.Grammar
