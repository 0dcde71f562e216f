import MailPattern.Proofs.Address.Deciding
import MailPattern.Proofs.Address.Light
import MailPattern.Proofs.Engine.Reporting
import MailPattern.Proofs.Pattern.Images

/-!
# Proofs — Address — Fragments

Fragments compiled by themselves.  A fragment that is compiled as it is finds the texts that it stands
for, each as long as it can be (`Regex.Seeks`); anchored it decides whether a whole text is one
(`Regex.Decides`).  Both engines take a fragment that is not too heavy (`Fragment.Compact`), and with
any flags.

What is needed of the fragment is known of its items up to case: which texts they spell, and that they
are greedy.  For a text that is read with regard to case it is known of the image of the text
(`Pattern.SeenAs`).
-/

namespace MailPattern

open Pattern

/-! ### Recognizing -/

namespace Pattern

variable {p : Pattern} {caseless : Bool} {test : List Char → Prop} {text : List Char} {i j : Nat}

/-- The pattern matches exactly where a text stands that passes the test. -/
def Recognizes (p : Pattern) (caseless : Bool) (test : List Char → Prop) : Prop :=
  ∀ {text : List Char} {i j : Nat}, i ≤ text.length →
    (j ∈ p.ends (readings caseless text) i ↔ i ≤ j ∧ j ≤ text.length ∧ test (slice text i j))

/-- Of the matches that start at a position the pattern prefers the longest. -/
def PrefersLongest (p : Pattern) (caseless : Bool) : Prop :=
  ∀ {text : List Char} {i m : Nat}, i ≤ text.length →
    (p.ends (readings caseless text) i).head? = some m →
      ∀ k ∈ p.ends (readings caseless text) i, k ≤ m

/-- A text that passes the test is matched between others. -/
theorem Recognizes.mem_ends (h : p.Recognizes caseless test) {before word behind : List Char}
    (hword : test word) :
    before.length + word.length ∈ p.ends (readings caseless (before ++ word ++ behind)) before.length := by
  have hlen : (before ++ word ++ behind).length = before.length + word.length + behind.length := by
    rw [List.length_append, List.length_append]
  refine (h (by omega)).mpr ⟨Nat.le_add_right .., by omega, ?_⟩
  rwa [slice, List.append_assoc, List.drop_left, Nat.add_sub_cancel_left, List.take_left]

/-- The pattern matches somewhere exactly if a part of the text passes the test. -/
theorem Recognizes.exists_ends_iff (h : p.Recognizes caseless test) :
    (∃ i ≤ text.length, p.ends (readings caseless text) i ≠ []) ↔
      ∃ word, word <:+: text ∧ test word := by
  constructor
  · rintro ⟨i, hi, hne⟩
    obtain ⟨j, hj⟩ := List.exists_mem_of_ne_nil _ hne
    exact ⟨_, (List.take_prefix _ _).isInfix.trans (List.drop_suffix _ _).isInfix, ((h hi).mp hj).2.2⟩
  · rintro ⟨word, ⟨before, behind, rfl⟩, hword⟩
    refine ⟨before.length, ?_, List.ne_nil_of_mem (h.mem_ends hword)⟩
    rw [List.append_assoc, List.length_append]
    exact Nat.le_add_right ..

/-- A greedy pattern, told by the texts that it spells up to case. -/
theorem Textual.recognizes {f : Char → Char} (hp : p.Textual) (hseen : p.SeenAs caseless f)
    (h : ∀ text, p.Spelled (text.map f) ↔ test text) : p.Recognizes caseless test := by
  intro text i j hi
  rw [hp.mem_ends_image hseen hi, h]

theorem Greedy.prefersLongest {f : Char → Char} (hp : p.Greedy) (hseen : p.SeenAs caseless f) :
    p.PrefersLongest caseless :=
  fun hi hm => hp.le_of_head? hseen hi hm

end Pattern

/-! ### Deciding and seeking -/

namespace Regex

/-- The regex matches the texts that pass the test, and each as a whole. -/
structure Decides (r : Regex) (test : List Char → Prop) : Prop where
  isMatch (text : String) : (r.isMatch text).value = true ↔ test text.toList
  whole (text : String) (h : test text.toList) : (r.allMatches text).value = [.whole text]
  missing (text : String) (h : ¬ test text.toList) : (r.allMatches text).value = []

/-- The regex finds in a text what passes the test. -/
structure Seeks (r : Regex) (test : List Char → Prop) : Prop where
  isMatch (text : String) :
    (r.isMatch text).value = true ↔ ∃ word, word <:+: text.toList ∧ test word
  /-- Every match passes the test, and no longer prefix of the text does from its start on. -/
  longest (text : String) (m : Match) (hm : m ∈ (r.allMatches text).value) :
    ∃ before behind : String, text = before ++ m.text ++ behind ∧ before.utf8ByteSize = m.start ∧
      (before ++ m.text).utf8ByteSize = m.stop ∧ test m.text.toList ∧
      ∀ word, word <+: (m.text ++ behind).toList → test word → word.length ≤ m.text.toList.length
  /-- All there is begins inside a match. -/
  covers (hglobal : r.flags.global = true) (before word behind : String) (h : test word.toList) :
    ∃ m ∈ (r.allMatches (before ++ word ++ behind)).value,
      m.start ≤ before.utf8ByteSize ∧ before.utf8ByteSize < m.stop

namespace Sweeps

variable {r : Regex} {p : Pattern} {test : List Char → Prop} (h : r.Sweeps p)
include h

/-- A pattern that matches whole texts only. -/
theorem decides (hends : ∀ text i j, j ∈ p.ends (readings r.flags.caseless text) i ↔
    i = 0 ∧ j = text.length ∧ test text) : r.Decides test := by
  have hspan (text : List Char) : ∀ span ∈ (r.spans text).1, span = ⟨0, text.length⟩ ∧ test text := by
    intro span hspan
    obtain ⟨hstart, hstop, htest⟩ := (hends text _ _).mp (h.sound hspan).2
    exact ⟨by rw [← hstart, ← hstop], htest⟩
  constructor
  · intro text
    rw [h.isMatch_iff]
    constructor
    · rintro ⟨i, -, hne⟩
      obtain ⟨j, hj⟩ := List.exists_mem_of_ne_nil _ hne
      exact ((hends _ _ _).mp hj).2.2
    · exact fun htest => ⟨0, Nat.zero_le _, List.ne_nil_of_mem ((hends _ _ _).mpr ⟨rfl, rfl, htest⟩)⟩
  · intro text htest
    have hne : (r.spans text.toList).1 ≠ [] := h.spans_ne_nil (Nat.zero_le _)
      (List.ne_nil_of_mem ((hends _ _ _).mpr ⟨rfl, rfl, htest⟩))
    show (r.spans text.toList).1.map (Match.ofSpan text.toList) = _
    have hpairwise := h.pairwise_spans text.toList
    cases hspans : (r.spans text.toList).1 with
    | nil => exact absurd hspans hne
    | cons span spans =>
      rw [hspans] at hpairwise
      have hall := hspan text.toList
      rw [hspans] at hall
      obtain ⟨hfirst, hrest⟩ := List.forall_mem_cons.mp hall
      cases spans with
      | nil => rw [hfirst.1, List.map_singleton, Match.ofSpan_whole]
      | cons span' spans =>
        -- two spans would start at different positions
        have hlt := ((List.pairwise_cons.mp hpairwise).1 span' List.mem_cons_self).start_lt
        rw [(hrest span' List.mem_cons_self).1] at hlt
        exact absurd hlt (Nat.not_lt_zero _)
  · intro text htest
    show (r.spans text.toList).1.map (Match.ofSpan text.toList) = []
    rw [List.map_eq_nil_iff, List.eq_nil_iff_forall_not_mem]
    exact fun span hmem => htest (hspan text.toList span hmem).2

/-- What is reported where the pattern recognizes texts and prefers the longest. -/
theorem longest_of_mem (hp : p.Recognizes r.flags.caseless test)
    (hlongest : p.PrefersLongest r.flags.caseless) (hproductive : p.Productive)
    (hsteady : p.Steady r.flags.caseless) {text : List Char} {span : Span}
    (hspan : span ∈ (r.spans text).1) : span.Within text.length ∧
      test (slice text span.start span.stop) ∧
      ∀ word, word <+: text.drop span.start → test word → word.length ≤ span.stop - span.start := by
  obtain ⟨hle, hstop⟩ := h.sound hspan
  have hfirst := h.preferred hproductive hsteady hspan
  obtain ⟨hstart, hstop, htest⟩ := (hp hle).mp hstop
  refine ⟨⟨hstart, hstop⟩, htest, fun word hprefix hword => ?_⟩
  have hlen := hprefix.length_le
  rw [List.length_drop] at hlen
  have hmem : span.start + word.length ∈ p.ends (readings r.flags.caseless text) span.start := by
    refine (hp hle).mpr ⟨Nat.le_add_right .., by omega, ?_⟩
    rwa [slice, Nat.add_sub_cancel_left, ← List.prefix_iff_eq_take.mp hprefix]
  have hmax := hlongest hle hfirst _ hmem
  omega

/-- A pattern that recognizes texts and prefers the longest. -/
theorem seeks (hp : p.Recognizes r.flags.caseless test)
    (hlongest : p.PrefersLongest r.flags.caseless) (hproductive : p.Productive)
    (hsteady : p.Steady r.flags.caseless) (htakes : ∀ s i, i ≤ s.length → i ∉ p.ends s i) :
    r.Seeks test := by
  constructor
  · exact fun text => (h.isMatch_iff text backtrackLimit).trans hp.exists_ends_iff
  · intro text m hm
    obtain ⟨span, hspan, rfl⟩ := List.mem_map.mp hm
    obtain ⟨hwithin, htest, hmax⟩ := h.longest_of_mem hp hlongest hproductive hsteady hspan
    obtain ⟨before, behind, htext, hbefore, hafter, hdrop⟩ := Match.exists_parts hwithin
    have hmatch : (Match.ofSpan text.toList span).text.toList = slice text.toList span.start span.stop :=
      String.toList_ofList
    refine ⟨before, behind, htext, hbefore, hafter, hmatch ▸ htest, ?_⟩
    rw [hdrop, hmatch, length_slice hwithin.stop_le]
    exact hmax
  · intro hglobal before word behind hword
    have hmem : before.toList.length + word.toList.length ∈
        p.ends (readings r.flags.caseless (before.toList ++ word.toList ++ behind.toList))
          before.toList.length := hp.mem_ends hword
    rw [← String.toList_append, ← String.toList_append] at hmem
    have hi : before.toList.length ≤ (before ++ word ++ behind).toList.length := by
      rw [String.append_assoc, String.toList_append, List.length_append]
      exact Nat.le_add_right ..
    obtain ⟨span, hspan, hstart, hstop⟩ := (h.successive hglobal htakes _).covers
      (h.finds _ backtrackLimit) (Nat.zero_le _) hi (List.ne_nil_of_mem hmem)
    obtain ⟨hle, hend⟩ := h.sound hspan
    have hlast := ((hp hle).mp hend).2.1
    have hoffset := byteOffset_append before (word ++ behind)
    rw [← String.append_assoc] at hoffset
    refine ⟨_, List.mem_map.mpr ⟨span, hspan, rfl⟩, ?_, ?_⟩
    · rw [← hoffset]
      exact byteOffset_le hstart hi
    · rw [← hoffset]
      exact byteOffset_lt hstop hlast

end Sweeps

end Regex

/-! ### Fragments -/

namespace Fragment

variable {s : String} {items : List Pattern}

/-- Between anchors the items match whole texts. -/
theorem mem_ends_anchoredTree {s : List Reading} {i j : Nat} :
    j ∈ (anchoredTree items).ends s i ↔ i = 0 ∧ j = s.length ∧ s.length ∈ (ofItems items).ends s 0 := by
  show j ∈ (ofItems (.start :: (items ++ [.stop]))).ends s i ↔ _
  rw [ends_ofItems_cons, ends_ofItems_append]
  exact Ends.mem_anchored

theorem forall_anchored {P : Pattern → Prop} (hempty : P .empty)
    (hcat : ∀ {p q}, P p → P q → P (.cat p q)) (hstart : P .start) (hstop : P .stop)
    (hitems : ∀ p ∈ items, P p) : P (ofItems (.start :: (items ++ [.stop]))) :=
  forall_ofItems hempty hcat (List.forall_mem_cons.mpr ⟨hstart, List.forall_mem_append.mpr
    ⟨hitems, List.forall_mem_singleton.mpr hstop⟩⟩)

/-- The text of a fragment is read as these items, which nest little and are light. -/
structure Compact (s : String) (items : List Pattern) : Prop where
  written (d : Dialect) : Written d s items 5
  simple : ∀ p ∈ items, p.Simple
  depth : ∀ p ∈ items, p.depth ≤ 200
  heft : (items.map Pattern.heft).sum + 192 ≤ Normal.maxWeight

namespace Compact

variable (h : Compact s items) (engine : Engine) (flags : Flags)
include h

/-- **Every engine takes the fragment.** -/
theorem exists_compile : ∃ r, (engine.compile s flags).value = .ok r ∧ r.flags = flags ∧
    r.Sweeps (ofItems items) := by
  have hsimple : (ofItems items).Simple := .ofItems h.simple
  have hdepth := (depth_ofItems_le h.depth).trans (by decide : 200 + 1 ≤ maxDepth)
  have hread := (h.written engine.dialect).read (by cases engine <;> decide) hdepth
  refine Engine.compile_of_heft flags hread (isPlain_of_isFree hsimple.free) hsimple.fits hdepth ?_
  rw [heft_ofItems]
  exact (by omega : _ ≤ _).trans h.heft

/-- **Every engine takes the fragment between anchors.** -/
theorem exists_compile_anchored : ∃ r, (engine.compile (anchored s) flags).value = .ok r ∧
    r.flags = flags ∧ r.Sweeps (anchoredTree items) := by
  have hdepth : (anchoredTree items).depth ≤ 202 := by
    refine depth_all_le (List.forall_mem_cons.mpr ⟨Nat.zero_le _, List.forall_mem_append.mpr
      ⟨h.depth, List.forall_mem_singleton.mpr (Nat.zero_le _)⟩⟩)
  have hread := (written_anchored (h.written engine.dialect)).written.read
    (by cases engine <;> decide) (hdepth.trans (by decide))
  refine Engine.compile_of_heft flags hread ?_ ?_ (hdepth.trans (by decide)) ?_
  · refine forall_anchored (P := (·.isPlain = true)) rfl (fun hp hq => ?_) rfl rfl fun p hp => ?_
    · exact Bool.and_eq_true_iff.mpr ⟨hp, hq⟩
    · exact isPlain_of_isFree (h.simple p hp).free
  · refine forall_anchored (P := Fits) nofun (fun hp hq => ?_) nofun nofun fun p hp => ?_
    · exact List.forall_mem_append.mpr ⟨hp, hq⟩
    · exact (h.simple p hp).fits
  · rw [anchoredTree, heft_all, List.map_cons, List.map_append, List.sum_cons, List.sum_append]
    show 64 + (_ + (64 + 0)) + 32 + 32 ≤ _
    have := h.heft
    omega

/-- A fragment that recognizes some texts decides by itself whether a text is one of them. -/
theorem decides {test : List Char → Prop} (hp : (ofItems items).Recognizes flags.caseless test) :
    ∃ r, (engine.compile (anchored s) flags).value = .ok r ∧ r.Decides test := by
  obtain ⟨r, hr, rfl, hsweeps⟩ := h.exists_compile_anchored engine flags
  refine ⟨r, hr, hsweeps.decides fun text i j => ?_⟩
  rw [mem_ends_anchoredTree, length_readings, hp (Nat.zero_le _), slice_all]
  exact and_congr_right fun _ => and_congr_right fun _ =>
    ⟨fun h => h.2.2, fun h => ⟨Nat.zero_le _, le_rfl, h⟩⟩

/-- A fragment that recognizes some texts and prefers the longest finds them. -/
theorem seeks {test : List Char → Prop} (hp : (ofItems items).Recognizes flags.caseless test)
    (hlongest : (ofItems items).PrefersLongest flags.caseless)
    (hsteady : ∀ p ∈ items, p.Steady flags.caseless) (htakes : (ofItems items).takes = true) :
    ∃ r, (engine.compile s flags).value = .ok r ∧ r.flags = flags ∧ r.Seeks test := by
  obtain ⟨r, hr, rfl, hsweeps⟩ := h.exists_compile engine flags
  exact ⟨r, hr, rfl, hsweeps.seeks hp hlongest (productive_of_takes (Simple.ofItems h.simple).takes)
    (steady_ofItems hsteady) fun _ _ hi => not_mem_ends_of_takes htakes hi⟩

end Compact

end Fragment

end MailPattern
