import MailPattern.Proofs.Pattern.Spelling
import MailPattern.Proofs.Search.Descending

/-!
# Proofs — Pattern — Greedy

Patterns for which a search tries the longest match first (`Pattern.Greedy`).  Then what the pattern
takes can be told from the texts that it spells: the longest prefix that it spells, or the
longest after which something else can follow (`Pattern.Greedy.findSome?_ends`).

That the order is kept is shown by the texts too.  A pattern is greedy if no text that it spells begins
with another (`Pattern.PrefixFree`); a sequence is greedy if its second part cannot begin where the
first goes on; and a repetition is greedy if its body begins with a character that it does not
hold further on (`Pattern.Leads`).
-/

namespace MailPattern.Pattern

variable {p q : Pattern} {ps : List Pattern} {text : List Char} {i j k m m' : Nat}

/-- The pattern is told by the texts that it spells. -/
structure Textual (p : Pattern) : Prop where
  free : p.isFree = true
  fits : p.Fits

/-- A textual pattern ends where the text so far is spelled. -/
theorem Textual.mem_ends (hp : p.Textual) (hi : i ≤ text.length) :
    j ∈ p.ends (readings true text) i ↔
      i ≤ j ∧ j ≤ text.length ∧ p.Spelled (slice text i j) := by
  have hlen := length_readings true text
  rw [mem_ends_iff_spells hp.free hp.fits (by omega), hlen, Spelled, readings_true, readings_true,
    map_slice]

/-- The ends of the pattern come in descending order. -/
def Greedy (p : Pattern) : Prop :=
  ∀ text, Ends.Descending (readings true text) (p.ends (readings true text))

/-- Where a match can end early none begins. -/
def Clear (p : Pattern) : Prop :=
  ∀ text, Ends.Clear (readings true text) (p.ends (readings true text))

/-- No text that `q` spells goes on after one that `p` spells. -/
def Bounds (p q : Pattern) : Prop := ∀ u v, p.Spelled u → q.Spelled (u ++ v) → v = []

/-- No text that the pattern spells begins with another. -/
def PrefixFree (p : Pattern) : Prop := p.Bounds p

/-- Every text that the pattern spells begins with a character that it does not hold further on. -/
def Leads (p : Pattern) (D : Char → Prop) : Prop :=
  ∀ w, p.Spelled w → ∃ c v, w = c :: v ∧ D c ∧ ∀ d ∈ v, ¬ D d

/-! ### Parts of a match -/

/-- A slice begins with the character at its start. -/
theorem head?_slice {α : Type} {s : List α} (hij : i < j) : (slice s i j).head? = s[i]? := by
  rw [slice, List.head?_take, if_neg (by omega), List.head?_drop]

/-- Two matches from one position on, of which one ends early. -/
theorem Textual.split (hp : p.Textual) (hi : i ≤ text.length)
    (hm : m ∈ p.ends (readings true text) i) (hm' : m' ∈ p.ends (readings true text) i)
    (hlt : m' < m) :
    p.Spelled (slice text i m') ∧ p.Spelled (slice text i m' ++ slice text m' m) ∧
      ∃ c, text[m']? = some c ∧ c ∈ slice text m' m := by
  obtain ⟨him, hml, hm⟩ := (hp.mem_ends hi).mp hm
  obtain ⟨him', -, hm'⟩ := (hp.mem_ends hi).mp hm'
  rw [slice_append him' hlt.le]
  have hc : text[m']? = some text[m'] := List.getElem?_eq_getElem (by omega)
  refine ⟨hm', hm, _, hc, List.mem_of_head? ?_⟩
  rw [head?_slice hlt, hc]

/-- A match that takes something takes the first character. -/
theorem Textual.spelled_of_end (hp : p.Textual) (hi : i ≤ text.length)
    (hm : m ∈ p.ends (readings true text) i) (hlt : i < m) {c : Char} (hc : text[i]? = some c) :
    ∃ v, p.Spelled (c :: v) ∧ slice text i m = c :: v := by
  obtain ⟨-, hml, hm⟩ := (hp.mem_ends hi).mp hm
  have hhead := head?_slice (s := text) hlt
  rw [hc] at hhead
  obtain ⟨v, hv⟩ := List.head?_eq_some_iff.mp hhead
  exact ⟨v, hv ▸ hm, hv⟩

/-! ### Patterns that end in one way -/

/-- What bounds another pattern ends no earlier. -/
theorem Bounds.le (h : p.Bounds q) (hp : p.Textual) (hq : q.Textual) (hi : i ≤ text.length)
    (hm : m ∈ p.ends (readings true text) i) (hk : k ∈ q.ends (readings true text) i) : k ≤ m := by
  by_contra hlt
  obtain ⟨him, -, hu⟩ := (hp.mem_ends hi).mp hm
  obtain ⟨-, hkl, huv⟩ := (hq.mem_ends hi).mp hk
  rw [← slice_append him (by omega : m ≤ k)] at huv
  have hlen := length_slice (s := text) (i := m) hkl
  rw [h _ _ hu huv, List.length_nil] at hlen
  omega

/-- Where no word begins another there is one end at most, which is the last. -/
theorem PrefixFree.greedy (h : p.PrefixFree) (hp : p.Textual) : p.Greedy := fun _ _ hi =>
  .of_subsingleton fun _ hx _ hy => h.le hp hp (hi.trans_eq (length_readings true _)) hx hy

/-- And none begins where another can end early. -/
theorem PrefixFree.clear (h : p.PrefixFree) (hp : p.Textual) : p.Clear :=
  fun _ _ hi _ hm _ hm' hlt =>
    absurd (h.le hp hp (hi.trans_eq (length_readings true _)) hm' hm) (Nat.not_le.mpr hlt)

/-- Longer words bound shorter ones, where each pattern has words of one length. -/
theorem bounds_of_length {n n' : Nat} (hp : ∀ w, p.Spelled w → w.length = n)
    (hq : ∀ w, q.Spelled w → w.length = n') (h : n' ≤ n) : p.Bounds q := by
  intro u v hu huv
  have hlen := hq _ huv
  rw [List.length_append, hp u hu] at hlen
  exact List.length_eq_zero_iff.mp (by omega)

/-- Texts of one length. -/
theorem prefixFree_of_length {n : Nat} (h : ∀ w, p.Spelled w → w.length = n) : p.PrefixFree :=
  bounds_of_length h h le_rfl

theorem prefixFree_char (c : Char) : (char c).PrefixFree :=
  prefixFree_of_length (n := 1) fun w hw => by
    obtain ⟨a, rfl, -⟩ := spelled_char.mp hw
    rfl

theorem prefixFree_chars (set : CharSet) : (chars set).PrefixFree :=
  prefixFree_of_length (n := 1) fun w hw => by
    obtain ⟨a, rfl, -⟩ := spelled_chars.mp hw
    rfl

/-! ### Sequences -/

theorem ends_ofItems_cons (s : List Reading) :
    (ofItems (p :: ps)).ends s = (p.ends s).andThen ((ofItems ps).ends s) := by
  cases ps with
  | nil => exact (Ends.andThen_stay _).symm
  | cons => rfl

/-- A sequence may be cut between any two items. -/
theorem ends_ofItems_append (s : List Reading) (qs : List Pattern) :
    (ofItems (ps ++ qs)).ends s = ((ofItems ps).ends s).andThen ((ofItems qs).ends s) := by
  induction ps with
  | nil => exact (Ends.stay_andThen _).symm
  | cons p ps ih =>
    rw [List.cons_append, ends_ofItems_cons, ends_ofItems_cons, ih]
    exact (Ends.andThen_assoc _ _ _).symm

/-- A sequence keeps the order if its second part reaches no further from where the first ends
early. -/
theorem greedy_cons (hp : p.Greedy) (hq : (ofItems ps).Greedy)
    (h : ∀ text i, i ≤ text.length → ∀ m ∈ p.ends (readings true text) i,
      ∀ m' ∈ p.ends (readings true text) i, m' < m →
        (ofItems ps).ends (readings true text) m ≠ [] →
          ∀ y ∈ (ofItems ps).ends (readings true text) m', m < y →
            y ∈ (ofItems ps).ends (readings true text) m) : (ofItems (p :: ps)).Greedy := by
  intro text
  rw [ends_ofItems_cons]
  refine (hp text).andThen (p.forward_ends _) (hq text) ((ofItems ps).forward_ends _) ?_
  exact fun i hi => h text i (hi.trans_eq (length_readings true _))

/-- The first part ends in one way. -/
theorem PrefixFree.greedy_cons (h : p.PrefixFree) (hp : p.Textual) (hq : (ofItems ps).Greedy) :
    (ofItems (p :: ps)).Greedy :=
  Pattern.greedy_cons (h.greedy hp) hq fun _ _ hi _ hm _ hm' hlt =>
    absurd (h.le hp hp hi hm' hm) (Nat.not_le.mpr hlt)

/-- The second part begins with no character of the first. -/
theorem greedy_cons_of_apart (hp : p.Greedy) (hpt : p.Textual) (hq : (ofItems ps).Greedy)
    (hqt : (ofItems ps).Textual) {C : Char → Prop} (hC : ∀ w, p.Spelled w → ∀ c ∈ w, C c)
    (h : ∀ c v, (ofItems ps).Spelled (c :: v) → ¬ C c) : (ofItems (p :: ps)).Greedy := by
  refine Pattern.greedy_cons hp hq fun text i hi m hm m' hm' hlt _ y hy hmy => ?_
  obtain ⟨-, huv, c, hc, hmem⟩ := hpt.split hi hm hm' hlt
  have hle := ((hpt.mem_ends hi).mp hm').2.1
  obtain ⟨v, hv, -⟩ := hqt.spelled_of_end hle hy (by omega) hc
  exact absurd (hC _ huv c (List.mem_append_right _ hmem)) (h c v hv)

/-- The second part begins with a character that it does not hold further on. -/
theorem greedy_cons_of_leads (hp : p.Greedy) (hpt : p.Textual) (hq : (ofItems ps).Greedy)
    (hqt : (ofItems ps).Textual) {D : Char → Prop} (h : (ofItems ps).Leads D) :
    (ofItems (p :: ps)).Greedy := by
  refine Pattern.greedy_cons hp hq fun text i hi m hm m' hm' hlt hne y hy hmy => ?_
  have hle := ((hpt.mem_ends hi).mp hm).2.1
  have hle' := ((hpt.mem_ends hi).mp hm').2.1
  have hyl := ((hqt.mem_ends hle').mp hy).2.1
  -- what stands at the later end leads the second part, and so does what stands at the earlier
  obtain ⟨k, hk⟩ := List.exists_mem_of_ne_nil _ hne
  obtain ⟨hmk, -, hspelled⟩ := (hqt.mem_ends hle).mp hk
  obtain ⟨d, w, hw, hd, -⟩ := h _ hspelled
  have hmk : m < k := by
    refine Nat.lt_of_le_of_ne hmk fun h => ?_
    rw [h, slice_self] at hw
    cases hw
  have hdm : text[m]? = some d := by rw [← head?_slice hmk, hw, List.head?_cons]
  obtain ⟨e, v, hv, -, hrest⟩ := h _ ((hqt.mem_ends hle').mp hy).2.2
  rw [← slice_append hlt.le hmy.le] at hv
  have hfirst : slice text m' m ≠ [] := List.length_pos_iff.mp (by rw [length_slice hle]; omega)
  obtain ⟨e', u, hu⟩ := List.exists_cons_of_ne_nil hfirst
  rw [hu, List.cons_append, List.cons.injEq] at hv
  refine absurd hd (hrest d (hv.2 ▸ List.mem_append_right u (List.mem_of_head? ?_)))
  rw [head?_slice hmy, hdm]

/-- The second part spells the ends of what it spells. -/
theorem greedy_cons_of_suffix (hp : p.Greedy) (hpt : p.Textual) (hq : (ofItems ps).Greedy)
    (hqt : (ofItems ps).Textual)
    (h : ∀ u v, (ofItems ps).Spelled (u ++ v) → v ≠ [] → (ofItems ps).Spelled v) :
    (ofItems (p :: ps)).Greedy := by
  refine Pattern.greedy_cons hp hq fun text i hi m hm m' hm' hlt _ y hy hmy => ?_
  have hle := ((hpt.mem_ends hi).mp hm).2.1
  obtain ⟨-, hyl, hspelled⟩ := (hqt.mem_ends ((hpt.mem_ends hi).mp hm').2.1).mp hy
  rw [← slice_append hlt.le hmy.le] at hspelled
  refine (hqt.mem_ends hle).mpr ⟨hmy.le, hyl, h _ _ hspelled ?_⟩
  exact List.length_pos_iff.mp (by rw [length_slice hyl]; omega)

/-! ### Repetitions and choices -/

/-- The body begins with a character that it does not hold further on. -/
theorem Leads.clear {D : Char → Prop} (h : p.Leads D) (hp : p.Textual) : p.Clear := by
  intro text i hi m hm m' hm' hlt
  replace hi := hi.trans_eq (length_readings true text)
  obtain ⟨hu, huv, c, hc, hmem⟩ := hp.split hi hm hm' hlt
  have hle := ((hp.mem_ends hi).mp hm').2.1
  refine List.eq_nil_iff_forall_not_mem.mpr fun y hy => ?_
  obtain ⟨-, -, hspelled⟩ := (hp.mem_ends hle).mp hy
  have hlt' : m' < y := by
    refine Nat.lt_of_le_of_ne ((hp.mem_ends hle).mp hy).1 fun h' => ?_
    rw [h', slice_self] at hspelled
    obtain ⟨_, _, h', -⟩ := h _ hspelled
    cases h'
  obtain ⟨v, hv, -⟩ := hp.spelled_of_end hle hy hlt' hc
  obtain ⟨_, _, hcons, hD, -⟩ := h _ hv
  obtain ⟨rfl, -⟩ := List.cons.inj hcons
  obtain ⟨a, u, hau, -, -⟩ := h _ hu
  obtain ⟨_, _, hcons, -, hrest⟩ := h _ huv
  rw [hau, List.cons_append, List.cons.injEq] at hcons
  exact hrest _ (hcons.2 ▸ List.mem_append_right u hmem) hD

/-- A greedy repetition of what is greedy and clear takes as much as it can. -/
theorem Greedy.repeated {c : Count} (h : p.Greedy) (hc : p.Clear) (hg : c.greedy = true) :
    (repeated c p).Greedy := fun text =>
  Ends.Descending.counted (h text) (p.forward_ends _) (hc text) hg

/-- So does a greedy repetition of a class. -/
theorem greedy_repeated_chars {c : Count} (set : CharSet) (hg : c.greedy = true) :
    (repeated c (.chars set)).Greedy :=
  have ht : (Pattern.chars set).Textual := ⟨rfl, nofun⟩
  ((prefixFree_chars set).greedy ht).repeated ((prefixFree_chars set).clear ht) hg

theorem ends_ofBranches {bs : List Pattern} (hbs : bs ≠ []) (s : List Reading) :
    (ofBranches bs).ends s = fun i => bs.flatMap fun b => b.ends s i := by
  funext i
  induction bs with
  | nil => exact absurd rfl hbs
  | cons b bs ih =>
    cases bs with
    | nil => simp [ofBranches]
    | cons c cs => exact congrArg (b.ends s i ++ ·) (ih (List.cons_ne_nil c cs))

/-- No later branch goes further than an earlier one. -/
theorem greedy_ofBranches {bs : List Pattern} (hbs : bs ≠ []) (hg : ∀ b ∈ bs, b.Greedy)
    (ht : ∀ b ∈ bs, b.Textual) (h : bs.Pairwise Bounds) : (ofBranches bs).Greedy := by
  intro text i hi
  rw [ends_ofBranches hbs]
  refine .choice (fun b hb => hg b hb text i hi) (h.imp_of_mem fun hb hc h x hx y hy => ?_)
  exact h.le (ht _ hb) (ht _ hc) (hi.trans_eq (length_readings true text)) hx hy

/-! ### What is taken -/

/-- The greatest number up to a bound that passes a test. -/
def longest (test : Nat → Bool) : Nat → Option Nat
  | 0 => if test 0 then some 0 else none
  | n + 1 => if test (n + 1) then some (n + 1) else longest test n

/-- The greatest number that passes the test is the longest. -/
theorem longest_eq_some {test : Nat → Bool} {n : Nat} (hm : m ≤ n) (h : test m = true)
    (hmax : ∀ k, k ≤ n → test k = true → k ≤ m) : longest test n = some m := by
  induction n with
  | zero =>
    obtain rfl := Nat.le_zero.mp hm
    rw [longest, if_pos h]
  | succ n ih =>
    rw [longest]
    rcases Nat.eq_or_lt_of_le hm with rfl | hlt
    · rw [if_pos h]
    · rw [if_neg fun hn => by have := hmax _ le_rfl hn; omega]
      exact ih (Nat.le_of_lt_succ hlt) fun k hk => hmax k (by omega)

/-- If none passes, there is no longest. -/
theorem longest_eq_none {test : Nat → Bool} {n : Nat} (h : ∀ k, k ≤ n → test k = false) :
    longest test n = none := by
  induction n with
  | zero => rw [longest, if_neg (by rw [h 0 le_rfl]; decide)]
  | succ n ih =>
    rw [longest, if_neg (by rw [h _ le_rfl]; decide)]
    exact ih fun k hk => h k (by omega)

/-- Tests that agree have the same longest number. -/
theorem longest_congr {test test' : Nat → Bool} {n : Nat} (h : ∀ k, k ≤ n → test k = test' k) :
    longest test n = longest test' n := by
  induction n with
  | zero => rw [longest, longest, h 0 le_rfl]
  | succ n ih => rw [longest, longest, h _ le_rfl, ih fun k hk => h k (by omega)]

theorem longest_eq_some_iff {test : Nat → Bool} {n : Nat} :
    longest test n = some m ↔ m ≤ n ∧ test m = true ∧ ∀ k, k ≤ n → test k = true → k ≤ m := by
  refine ⟨fun h => ?_, fun ⟨hm, h, hmax⟩ => longest_eq_some hm h hmax⟩
  induction n with
  | zero =>
    rw [longest, Option.ite_none_right_eq_some, Option.some.injEq] at h
    obtain ⟨h, rfl⟩ := h
    exact ⟨le_rfl, h, fun k hk _ => hk⟩
  | succ n ih =>
    rw [longest] at h
    split at h
    · obtain rfl := Option.some.inj h
      exact ⟨le_rfl, ‹_›, fun k hk _ => hk⟩
    · rename_i hn
      obtain ⟨hm, htest, hmax⟩ := ih h
      refine ⟨hm.trans (Nat.le_succ n), htest, fun k hk hk' => ?_⟩
      rcases Nat.eq_or_lt_of_le hk with rfl | hlt
      · exact absurd hk' hn
      · exact hmax k (Nat.le_of_lt_succ hlt) hk'

/-- **Of a greedy pattern the longest match is taken that something can follow.** -/
theorem Greedy.findSome?_ends {α : Type} (h : p.Greedy) (hp : p.Textual) {test : List Char → Bool}
    (htest : ∀ w, p.Spelled w ↔ test w = true) (hi : i ≤ text.length) (f : Nat → Option α) :
    (p.ends (readings true text) i).findSome? f =
      (longest (fun n => test ((text.drop i).take n) && (f (i + n)).isSome)
        (text.length - i)).bind fun n => f (i + n) := by
  have hmem : ∀ n, i + n ∈ p.ends (readings true text) i ↔
      n ≤ text.length - i ∧ test ((text.drop i).take n) = true := by
    intro n
    rw [hp.mem_ends hi, htest, slice, Nat.add_sub_cancel_left]
    constructor
    · rintro ⟨-, hle, h⟩
      exact ⟨by omega, h⟩
    · rintro ⟨hle, h⟩
      exact ⟨by omega, by omega, h⟩
  cases hfind : (p.ends (readings true text) i).findSome? f with
  | none =>
    rw [longest_eq_none, Option.bind_none]
    intro n hn
    rw [← Bool.not_eq_true, Bool.and_eq_true]
    rintro ⟨ht, hf⟩
    rw [List.findSome?_eq_none_iff.mp hfind _ ((hmem n).mpr ⟨hn, ht⟩)] at hf
    cases hf
  | some b =>
    obtain ⟨m, hm, hfm, hmax⟩ :=
      (h text i (hi.trans_eq (length_readings true text).symm)).of_findSome? hfind
    obtain ⟨n, rfl⟩ := Nat.exists_eq_add_of_le ((hp.mem_ends hi).mp hm).1
    obtain ⟨hn, ht⟩ := (hmem n).mp hm
    have hlongest : longest (fun n => test ((text.drop i).take n) && (f (i + n)).isSome)
        (text.length - i) = some n := by
      refine longest_eq_some hn (by rw [ht, hfm]; rfl) fun k hk hk' => ?_
      obtain ⟨htk, hfk⟩ := Bool.and_eq_true_iff.mp hk'
      have := hmax (i + k) ((hmem k).mpr ⟨hk, htk⟩) hfk
      omega
    rw [hlongest, Option.bind_some, hfm]

end MailPattern.Pattern
