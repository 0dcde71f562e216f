import MailPattern.Proofs.Pattern.Language

/-!
# Proofs — Pattern — Words

A pattern without anchors matches a text wherever it stands.  So it has a language of its own, the
texts that it *spells* (`Pattern.Spells`), and it matches exactly where one of those stands
(`Pattern.matches_iff_spells`).
-/

namespace MailPattern

/-! ### Parts of a text -/

/-- The part of a text from `i` up to `j`. -/
def slice {α : Type} (s : List α) (i j : Nat) : List α := (s.drop i).take (j - i)

section Slice

variable {α : Type} {s : List α} {i j k : Nat}

theorem length_slice (h : j ≤ s.length) : (slice s i j).length = j - i := by
  rw [slice, List.length_take, List.length_drop]
  omega

theorem slice_self (s : List α) (i : Nat) : slice s i i = [] := by simp [slice]

theorem slice_append (hij : i ≤ j) (hjk : j ≤ k) : slice s i j ++ slice s j k = slice s i k := by
  have hk : k - i = (j - i) + (k - j) := by omega
  have hd : (s.drop i).drop (j - i) = s.drop j := by
    rw [List.drop_drop]
    congr 1
    omega
  rw [slice, slice, slice, hk, List.take_add, hd]

theorem slice_eq_append {u v : List α} (hik : i ≤ k) (hk : k ≤ s.length)
    (h : slice s i k = u ++ v) :
    ∃ j, i ≤ j ∧ j ≤ k ∧ slice s i j = u ∧ slice s j k = v := by
  have hlen := length_slice (s := s) (i := i) hk
  rw [h, List.length_append] at hlen
  have hsplit := slice_append (s := s) (Nat.le_add_right i u.length) (show i + u.length ≤ k by omega)
  have hu : (slice s i (i + u.length)).length = u.length := by
    rw [length_slice (by omega)]
    omega
  obtain ⟨hu, hv⟩ := List.append_inj (hsplit.trans h) hu
  exact ⟨i + u.length, by omega, by omega, hu, hv⟩

theorem slice_eq_singleton {a : α} (hij : i ≤ j) (hj : j ≤ s.length) :
    slice s i j = [a] ↔ j = i + 1 ∧ s[i]? = some a := by
  constructor
  · intro h
    have hlen := length_slice (s := s) (i := i) hj
    rw [h, List.length_singleton] at hlen
    refine ⟨by omega, ?_⟩
    have := congrArg (·[0]?) h
    simp only [slice, List.getElem?_take, List.getElem?_drop, List.getElem?_cons_zero] at this
    rwa [if_pos (by omega)] at this
  · rintro ⟨rfl, h⟩
    rw [slice, Nat.add_sub_cancel_left]
    obtain ⟨hi, rfl⟩ := List.getElem?_eq_some_iff.mp h
    rw [List.drop_eq_getElem_cons hi]
    rfl

theorem slice_all (s : List α) : slice s 0 s.length = s := by simp [slice]

theorem map_slice {β : Type} (f : α → β) : (slice s i j).map f = slice (s.map f) i j := by
  rw [slice, slice, List.map_take, List.map_drop]

end Slice

/-! ### Languages -/

/-- The texts put together of `n` texts of a language. -/
def Copies (L : List Reading → Prop) : Nat → List Reading → Prop
  | 0, w => w = []
  | n + 1, w => ∃ u v, w = u ++ v ∧ L u ∧ Copies L n v

namespace Pattern

/-- The pattern has no anchors, and it neither looks around nor recalls. -/
def isFree : Pattern → Bool
  | .empty | .char _ | .chars _ => true
  | .cat p q | .alt p q => p.isFree && q.isFree
  | .group _ p | .repeated _ p => p.isFree
  | .start | .stop | .look .. | .recall _ => false

/-- The text is matched by the pattern, wherever it stands.  A pattern that is not free is left
aside. -/
def Spells : Pattern → List Reading → Prop
  | .empty, w => w = []
  | .char c, w => ∃ r, w = [r] ∧ (CharSet.single c).admits r = true
  | .chars set, w => ∃ r, w = [r] ∧ set.admits r = true
  | .cat p q, w => ∃ u v, w = u ++ v ∧ p.Spells u ∧ q.Spells v
  | .alt p q, w => p.Spells w ∨ q.Spells w
  | .group _ p, w => p.Spells w
  | .repeated c p, w => ∃ n, c.Allows n ∧ Copies p.Spells n w
  | .start, _ | .stop, _ | .look .., _ | .recall _, _ => False

variable {s : List Reading} {p : Pattern} {i j : Nat}

theorem isPlain_of_isFree (h : p.isFree = true) : p.isPlain = true := by
  induction p with
  | empty | char | chars => rfl
  | cat p q ihp ihq | alt p q ihp ihq =>
    obtain ⟨hp, hq⟩ := Bool.and_eq_true_iff.mp h
    exact Bool.and_eq_true_iff.mpr ⟨ihp hp, ihq hq⟩
  | group _ p ih | repeated _ p ih => exact ih h
  | _ => cases h

theorem rounds_iff_copies {R : Nat → Nat → Prop} {L : List Reading → Prop}
    (hle : ∀ i j, i ≤ s.length → R i j → i ≤ j ∧ j ≤ s.length)
    (hR : ∀ i j, i ≤ j → j ≤ s.length → (R i j ↔ L (slice s i j))) {n : Nat} (hij : i ≤ j)
    (hj : j ≤ s.length) : Rounds R n i j ↔ Copies L n (slice s i j) := by
  induction n generalizing i with
  | zero =>
    rw [Rounds, Copies, ← List.length_eq_zero_iff, length_slice hj]
    omega
  | succ n ih =>
    constructor
    · rintro ⟨k, hk, h⟩
      have hik := hle i k (hij.trans hj) hk
      have hkj : k ≤ j := by
        clear ih hR hk
        induction n generalizing k with
        | zero => exact h.ge
        | succ n ihn =>
          obtain ⟨l, hl, h⟩ := h
          have hkl := hle k l hik.2 hl
          exact hkl.1.trans (ihn l h ⟨hik.1.trans hkl.1, hkl.2⟩)
      exact ⟨_, _, (slice_append hik.1 hkj).symm, (hR i k hik.1 hik.2).mp hk, (ih hkj).mp h⟩
    · rintro ⟨u, v, hw, hu, hv⟩
      obtain ⟨k, hik, hkj, rfl, rfl⟩ := slice_eq_append hij hj hw
      exact ⟨k, (hR i k hik (hkj.trans hj)).mpr hu, (ih hkj).mpr hv⟩

/-- **A free pattern matches where a text stands that it spells.** -/
theorem matches_iff_spells (hp : p.isFree = true) (hf : p.Fits) (hij : i ≤ j) (hj : j ≤ s.length) :
    p.Matches s i j ↔ p.Spells (slice s i j) := by
  induction p generalizing i j with
  | empty =>
    rw [Matches, Spells, ← List.length_eq_zero_iff, length_slice hj]
    omega
  | char | chars =>
    simp only [Matches, Spells, slice_eq_singleton hij hj, and_assoc, exists_and_left]
  | cat p q ihp ihq =>
    obtain ⟨hp, hq⟩ := Bool.and_eq_true_iff.mp hp
    obtain ⟨hpf, hqf⟩ := List.forall_mem_append.mp hf
    constructor
    · rintro ⟨k, hk, h⟩
      have hik := matches_le hpf (hij.trans hj) hk
      have hkj := (matches_le hqf hik.2 h).1
      exact ⟨_, _, (slice_append hik.1 hkj).symm, (ihp hp hpf hik.1 hik.2).mp hk,
        (ihq hq hqf hkj hj).mp h⟩
    · rintro ⟨u, v, hw, hu, hv⟩
      obtain ⟨k, hik, hkj, rfl, rfl⟩ := slice_eq_append hij hj hw
      exact ⟨k, (ihp hp hpf hik (hkj.trans hj)).mpr hu, (ihq hq hqf hkj hj).mpr hv⟩
  | alt p q ihp ihq =>
    obtain ⟨hp, hq⟩ := Bool.and_eq_true_iff.mp hp
    obtain ⟨hpf, hqf⟩ := List.forall_mem_append.mp hf
    exact or_congr (ihp hp hpf hij hj) (ihq hq hqf hij hj)
  | group _ p ih => exact ih hp hf hij hj
  | repeated c p ih =>
    have hpf : p.Fits := (List.forall_mem_cons.mp hf).2
    refine exists_congr fun n => and_congr_right fun _ => ?_
    exact rounds_iff_copies (fun _ _ hi h => matches_le hpf hi h) (fun _ _ => ih hp hpf) hij hj
  | _ => cases hp

/-- The ends of a free pattern are where texts end that it spells. -/
theorem mem_ends_iff_spells (hp : p.isFree = true) (hf : p.Fits) (hi : i ≤ s.length) :
    j ∈ p.ends s i ↔ i ≤ j ∧ j ≤ s.length ∧ p.Spells (slice s i j) := by
  rw [mem_ends hf hi]
  constructor
  · intro h
    obtain ⟨hij, hj⟩ := matches_le hf hi h
    exact ⟨hij, hj, (matches_iff_spells hp hf hij hj).mp h⟩
  · rintro ⟨hij, hj, h⟩
    exact (matches_iff_spells hp hf hij hj).mpr h

end Pattern

end MailPattern
