import MailPattern.Proofs.Address.Compiled
import MailPattern.Proofs.Engine.Bytes
import MailPattern.Proofs.Engine.Reporting

/-!
# Proofs — Address — Matching

What the regex of some options reports.  The same options can be used to search a text for addresses
or to decide whether the whole text is one; the tree of an address is the same in both, and only
the anchors differ.  So every match found is an address by itself, no address is missed but for
those that begin inside a match found before, and a search finds something exactly if some
part of the text is an address (`Options.searching_vs_deciding`).
-/

namespace MailPattern

/-- Between anchors only a match of the whole text is left. -/
theorem Ends.mem_anchored {s : List Reading} {a : Ends} {i j : Nat} :
    j ∈ Ends.andThen .atStart (a.andThen (.atStop s)) i ↔ i = 0 ∧ j = s.length ∧ s.length ∈ a 0 := by
  simp only [Ends.andThen, Ends.atStart, Ends.atStop, List.mem_flatMap, List.mem_ite_nil_right,
    List.mem_singleton]
  constructor
  · rintro ⟨_, ⟨rfl, rfl⟩, _, hk, rfl, rfl⟩
    exact ⟨rfl, rfl, hk⟩
  · rintro ⟨rfl, rfl, h⟩
    exact ⟨0, ⟨rfl, rfl⟩, _, h, rfl, rfl⟩

namespace Options

variable (o : Options)

/-- The options, to search a text for addresses. -/
def searching : Options := { o with exact := false }

/-- The options, to decide whether a text is an address. -/
def deciding : Options := { o with exact := true }

/-- The regex that the options compile to has the property; only a pattern that is too heavy
compiles to none. -/
def Compiled (s : Selector) (P : Regex → Prop) : Prop :=
  match (o.compile s).value.1 with
  | .ok r => P r
  | .error _ => ¬ o.Light

/-- What the regex of the options has by either engine the compiled one has. -/
theorem compiled_of_regex {s : Selector} {P : Regex → Prop} (h : ∀ engine, P (o.regex engine)) :
    o.Compiled s P := by
  rw [Compiled, o.compile_eq]
  by_cases hl : o.Light
  · rw [if_pos hl]
    exact h _
  · rw [if_neg hl]
    exact hl

/-- Light options compile to a regex, which has the property. -/
theorem Compiled.exists_regex {s : Selector} {P : Regex → Prop} (h : o.Compiled s P)
    (hl : o.Light) : ∃ r, (o.compile s).value.1 = .ok r ∧ P r := by
  unfold Compiled at h
  split at h
  · rename_i r hr
    exact ⟨r, hr, h⟩
  · exact absurd hl h

/-- The text is an address by the options, wherever it stands. -/
def Accepts (text : List Char) : Prop := o.tree.Spells (readings true text)

/-- The tree matches the parts of a text that the options accept. -/
theorem mem_ends_tree {text : List Char} {i j : Nat} (hi : i ≤ text.length) :
    j ∈ o.tree.ends (readings true text) i ↔
      i ≤ j ∧ j ≤ text.length ∧ o.Accepts (slice text i j) := by
  have hlen := length_readings true text
  rw [Pattern.mem_ends_iff_spells o.simple_tree.free o.simple_tree.fits (by omega), hlen, Accepts,
    readings_eq, readings_eq, map_slice]

/-- An anchored pattern matches where the pattern matches the whole text. -/
theorem mem_ends_anchored {s : List Reading} {i j : Nat} :
    j ∈ o.anchoredTree.ends s i ↔ i = 0 ∧ j = s.length ∧ s.length ∈ o.tree.ends s 0 :=
  Ends.mem_anchored

/-! ### The search of a regex -/

/-- The search of the program in a text. -/
def search (text : List Char) : Nat → Finding := o.program.search true backtrackLimit text

theorem finds (text : List Char) :
    Finds (o.searched.ends (readings true text)) text.length fun i => (o.search text i).span? :=
  Program.finds o.valid_searched o.normal_searched text backtrackLimit

theorem caseless_regex (engine : Engine) : (o.regex engine).flags.caseless = true :=
  o.caseless_compileArgs

/-- By either engine the regex sweeps for the tree. -/
theorem sweeps_regex (engine : Engine) : (o.regex engine).Sweeps o.searched where
  valid := o.valid_searched
  program := ⟨o.normal, (o.caseless_regex engine).symm ▸ o.normal_searched, rfl⟩

/-- By either engine a search is that of the options. -/
theorem search_regex (engine : Engine) (text : List Char) :
    (o.regex engine).program.find backtrackLimit ((o.regex engine).subject text) = o.search text := by
  rw [Regex.subject, caseless_regex]
  rfl

theorem spans_regex (engine : Engine) (text : List Char) :
    (o.regex engine).spans text = Iteration.all (o.search text) o.exact text.length := by
  rw [Regex.spans, Regex.subject]
  simp only [regex, o.caseless_compileArgs, o.global_compileArgs, Bool.not_not]
  rfl

/-- A text is matched where one of its parts is. -/
theorem isMatch_regex (engine : Engine) (text : String) :
    ((o.regex engine).isMatch text).value = true ↔
      ∃ i ≤ text.toList.length, o.searched.ends (readings true text.toList) i ≠ [] := by
  have hmatch := (o.sweeps_regex engine).isMatch_iff text backtrackLimit
  rwa [o.caseless_regex] at hmatch

/-! ### Deciding and searching -/

/-- Where the pattern that is compiled matches: at an address, and if it is exact only at one that is
the whole text. -/
theorem mem_ends_searched {text : List Char} {i j : Nat} (hi : i ≤ text.length) :
    j ∈ o.searched.ends (readings true text) i ↔ i ≤ j ∧ j ≤ text.length ∧
      o.Accepts (slice text i j) ∧ (o.exact = true → i = 0 ∧ j = text.length) := by
  unfold searched
  split
  · rename_i ho
    rw [mem_ends_anchored, length_readings, o.mem_ends_tree (Nat.zero_le _)]
    constructor
    · rintro ⟨rfl, rfl, h⟩
      exact ⟨h.1, h.2.1, h.2.2, fun _ => ⟨rfl, rfl⟩⟩
    · rintro ⟨hij, hj, h, hwhole⟩
      obtain ⟨rfl, rfl⟩ := hwhole ho
      exact ⟨rfl, rfl, hij, hj, h⟩
  · rename_i ho
    rw [o.mem_ends_tree hi]
    exact and_congr_right' (and_congr_right' (iff_self_and.mpr fun _ h => absurd h ho))

/-- **A text is matched if a part of it is an address**, and by an exact regex only if that is the
whole text. -/
theorem isMatch_iff (engine : Engine) (text : String) :
    ((o.regex engine).isMatch text).value = true ↔
      ∃ i j, i ≤ j ∧ j ≤ text.toList.length ∧ o.Accepts (slice text.toList i j) ∧
        (o.exact = true → i = 0 ∧ j = text.toList.length) := by
  rw [isMatch_regex]
  constructor
  · rintro ⟨i, hi, hne⟩
    obtain ⟨j, hj⟩ := List.exists_mem_of_ne_nil _ hne
    exact ⟨i, j, (o.mem_ends_searched hi).mp hj⟩
  · rintro ⟨i, j, h⟩
    have hi := h.1.trans h.2.1
    exact ⟨i, hi, List.ne_nil_of_mem ((o.mem_ends_searched hi).mpr h)⟩

/-- The regex of an exact pattern matches the texts that are addresses. -/
theorem isMatch_deciding (engine : Engine) (text : String) :
    ((o.deciding.regex engine).isMatch text).value = true ↔ o.Accepts text.toList := by
  rw [isMatch_iff]
  constructor
  · rintro ⟨i, j, -, -, h, hwhole⟩
    obtain ⟨rfl, rfl⟩ := hwhole rfl
    rwa [slice_all] at h
  · intro h
    refine ⟨0, _, Nat.zero_le _, le_rfl, ?_, fun _ => ⟨rfl, rfl⟩⟩
    rwa [slice_all]

/-- A search finds something exactly if a part of the text is an address. -/
theorem isMatch_searching (engine : Engine) (text : String) :
    ((o.searching.regex engine).isMatch text).value = true ↔
      ∃ i j, i ≤ j ∧ j ≤ text.toList.length ∧ o.Accepts (slice text.toList i j) := by
  rw [isMatch_iff]
  have hsearching : ∀ {P : Prop}, o.searching.exact = true → P := Bool.false_ne_true.elim
  exact exists_congr fun i => exists_congr fun j => and_congr_right' (and_congr_right'
    (and_iff_left hsearching))

/-- No address is empty. -/
theorem not_mem_ends_tree {s : List Reading} {i : Nat} (hi : i ≤ s.length) :
    i ∉ o.tree.ends s i := by
  refine Pattern.not_mem_ends_of_takes ?_ hi
  cases h : o.username <;> simp [tree, Fragment.all, Username.items, h, Pattern.ofItems, Pattern.takes]

/-- The spans of a search: the leftmost match, then the leftmost from its end on, and so forth. -/
theorem successive_searching (engine : Engine) (text : List Char) :
    Successive (fun i => (o.searching.search text i).span?) 0
      ((o.searching.regex engine).spans text).1 := by
  have hsuccessive := (o.searching.sweeps_regex engine).successive o.searching.global_compileArgs
    (fun _ _ hi => o.not_mem_ends_tree hi) text
  rwa [search_regex] at hsuccessive

/-! ### Any regex of the options -/

/-- The spans that are reported are matches. -/
theorem sound_spans (engine : Engine) (text : List Char) : ∀ span ∈ ((o.regex engine).spans text).1,
    span.start ≤ text.length ∧ span.stop ∈ o.searched.ends (readings true text) span.start := by
  rw [← o.caseless_regex engine]
  exact fun span hspan => (o.sweeps_regex engine).sound hspan

/-- The first span that is reported is what is found from the beginning on. -/
theorem head?_spans (engine : Engine) (text : List Char) :
    ((o.regex engine).spans text).1.head? = (o.search text 0).span? := by
  rw [← o.search_regex engine]
  exact Iteration.head?_take

/-- What is reported is an address. -/
theorem accepts_of_mem {engine : Engine} {text : String} {m : Match}
    (hm : m ∈ ((o.regex engine).allMatches text).value) : o.Accepts m.text.toList := by
  obtain ⟨span, hspan, rfl⟩ := List.mem_map.mp hm
  obtain ⟨hstart, hstop⟩ := o.sound_spans engine text.toList span hspan
  rw [Match.ofSpan, String.toList_ofList]
  exact ((o.mem_ends_searched hstart).mp hstop).2.2.1

/-- In an address a match is reported that begins where the address does. -/
theorem exists_prefix_of_accepts {engine : Engine} {text : String} (h : o.Accepts text.toList) :
    ∃ m ∈ ((o.regex engine).allMatches text).value, m.text.toList <+: text.toList := by
  have hends : text.toList.length ∈ o.searched.ends (readings true text.toList) 0 := by
    rw [o.mem_ends_searched (Nat.zero_le _), slice_all]
    exact ⟨Nat.zero_le _, le_rfl, h, fun _ => ⟨rfl, rfl⟩⟩
  have hfinds := o.finds text.toList
  obtain ⟨span, hspan⟩ := Option.ne_none_iff_exists'.mp fun hnone =>
    List.ne_nil_of_mem hends (hfinds.none_iff.mp hnone 0 le_rfl (Nat.zero_le _))
  have hstart : span.start = 0 := Nat.eq_zero_of_not_pos fun hpos =>
    List.ne_nil_of_mem hends ((hfinds.found hspan).2.2.2 0 le_rfl hpos)
  have hmem : span ∈ ((o.regex engine).spans text.toList).1 :=
    List.mem_of_head? ((o.head?_spans engine text.toList).trans hspan)
  refine ⟨_, List.mem_map.mpr ⟨span, hmem, rfl⟩, ?_⟩
  rw [Match.ofSpan, String.toList_ofList, hstart]
  exact List.take_prefix _ _

/-- A text in which a match is reported is matched. -/
theorem isMatch_of_mem {engine : Engine} {text : String} {m : Match}
    (hm : m ∈ ((o.regex engine).allMatches text).value) :
    ((o.regex engine).isMatch text).value = true := by
  obtain ⟨span, hspan, -⟩ := List.mem_map.mp hm
  obtain ⟨hstart, hstop⟩ := o.sound_spans engine text.toList span hspan
  exact (o.isMatch_regex engine text).mpr ⟨_, hstart, List.ne_nil_of_mem hstop⟩

/-- Where something is found something is an address. -/
theorem exists_accepts_of_isMatch {engine : Engine} {text : String}
    (h : ((o.regex engine).isMatch text).value = true) : ∃ word, o.Accepts word := by
  obtain ⟨i, j, -, -, haccepts, -⟩ := (o.isMatch_iff engine text).mp h
  exact ⟨_, haccepts⟩

end Options

/-! ### Searching against deciding -/

namespace Options

variable (o : Options) {engine engine' : Engine} {text : String}

/-- What a search reports is an address by itself. -/
theorem accepted_of_mem {m : Match} (hm : m ∈ ((o.searching.regex engine).allMatches text).value) :
    ((o.deciding.regex engine').isMatch m.text).value = true := by
  rw [isMatch_deciding]
  exact o.searching.accepts_of_mem hm

/-- Where an address begins a search has found a match. -/
theorem exists_match_of_accepts {i j : Nat} (hij : i ≤ j) (hj : j ≤ text.toList.length)
    (h : o.Accepts (slice text.toList i j)) :
    ∃ m ∈ ((o.searching.regex engine).allMatches text).value,
      m.start ≤ byteOffset text.toList i ∧ byteOffset text.toList i < m.stop := by
  have hne := List.ne_nil_of_mem ((o.mem_ends_tree (hij.trans hj)).mpr ⟨hij, hj, h⟩)
  have hsuccessive := o.successive_searching engine text.toList
  obtain ⟨span, hspan, hstart, hstop⟩ := hsuccessive.covers (o.searching.finds text.toList)
    (Nat.zero_le i) (hij.trans hj) hne
  obtain ⟨hle, hmem⟩ := hsuccessive.sound (o.searching.finds text.toList) span hspan
  have hlast := ((o.mem_ends_tree hle).mp hmem).2.1
  exact ⟨_, List.mem_map.mpr ⟨span, hspan, rfl⟩, byteOffset_le hstart (hij.trans hj),
    byteOffset_lt hstop hlast⟩

/-- **A search and a decision by the same options agree.**  Every match that a search reports is an
address; every part of the text that is an address begins inside a reported match; and the
search finds something exactly if some part of the text is an address. -/
theorem searching_vs_deciding (s s' : Selector) :
    o.searching.Compiled s fun r => o.deciding.Compiled s' fun r' => ∀ text : String,
      (∀ m ∈ (r.allMatches text).value, (r'.isMatch m.text).value = true) ∧
      (∀ i j, i ≤ j → j ≤ text.toList.length →
        (r'.isMatch (String.ofList (slice text.toList i j))).value = true →
          ∃ m ∈ (r.allMatches text).value,
            m.start ≤ byteOffset text.toList i ∧ byteOffset text.toList i < m.stop) ∧
      ((r.isMatch text).value = true ↔ ∃ i j, i ≤ j ∧ j ≤ text.toList.length ∧
        (r'.isMatch (String.ofList (slice text.toList i j))).value = true) := by
  refine o.searching.compiled_of_regex fun engine => o.deciding.compiled_of_regex fun engine' text =>
    ⟨fun m hm => o.accepted_of_mem hm, fun i j hij hj h => ?_, ?_⟩
  · rw [isMatch_deciding, String.toList_ofList] at h
    exact o.exists_match_of_accepts hij hj h
  · rw [isMatch_searching]
    simp only [isMatch_deciding, String.toList_ofList]

end Options

end MailPattern
