import MailPattern.Proofs.Search.Ends

/-!
# Proofs — Search — Alike

When two lists of ends come to the same.  `SameEnds ordered` says that the lists have the same
ends and, when `ordered`, that a search meets the same one first, whatever else it asks of an end.
A later copy of an end, and anything that only repeats ends met before, makes no difference.

`Ends.Alike` says so of all positions in a text, and every operation on `Ends` respects it.
-/

namespace MailPattern

/-- The same ends and, when `ordered`, the same one first among any that are asked for. -/
structure SameEnds (ordered : Prop) (l l' : List Nat) : Prop where
  mem : ∀ j, j ∈ l ↔ j ∈ l'
  first : ordered → ∀ f : Nat → Option Nat, l.findSome? f = l'.findSome? f

theorem findSome?_congr {α β : Type} {l : List α} {f g : α → Option β} (h : ∀ a ∈ l, f a = g a) :
    l.findSome? f = l.findSome? g := by
  induction l with
  | nil => rfl
  | cons a l ih =>
    rw [List.findSome?_cons, List.findSome?_cons, h a List.mem_cons_self,
      ih fun b hb => h b (List.mem_cons_of_mem a hb)]

/-- To look through lists one after the other is to look for the first in which something is found. -/
theorem findSome?_flatMap {α β γ : Type} (l : List α) (f : α → List β) (g : β → Option γ) :
    (l.flatMap f).findSome? g = l.findSome? fun a => (f a).findSome? g := by
  induction l with
  | nil => rfl
  | cons a l ih =>
    rw [List.flatMap_cons, List.findSome?_append, ih, List.findSome?_cons]
    cases (f a).findSome? g <;> rfl

namespace SameEnds

variable {ordered : Prop} {l l' l'' m m' : List Nat}

theorem refl (l : List Nat) : SameEnds ordered l l := ⟨fun _ => Iff.rfl, fun _ _ => rfl⟩

theorem of_eq (h : l = l') : SameEnds ordered l l' := h ▸ refl l

theorem symm (h : SameEnds ordered l l') : SameEnds ordered l' l :=
  ⟨fun j => (h.mem j).symm, fun o f => (h.first o f).symm⟩

theorem trans (h : SameEnds ordered l l') (h' : SameEnds ordered l' l'') :
    SameEnds ordered l l'' :=
  ⟨fun j => (h.mem j).trans (h'.mem j), fun o f => (h.first o f).trans (h'.first o f)⟩

/-- Lists in a row come to the same if each does. -/
theorem append (h : SameEnds ordered l l') (h' : SameEnds ordered m m') :
    SameEnds ordered (l ++ m) (l' ++ m') :=
  ⟨fun j => by simp only [List.mem_append, h.mem, h'.mem],
    fun o f => by simp only [List.findSome?_append, h.first o, h'.first o]⟩

/-- So do the lists that each end is replaced by. -/
theorem flatMap {f f' : Nat → List Nat} (h : SameEnds ordered l l')
    (hf : ∀ j ∈ l, SameEnds ordered (f j) (f' j)) :
    SameEnds ordered (l.flatMap f) (l'.flatMap f') := by
  refine ⟨fun j => ?_, fun o g => ?_⟩
  · simp only [List.mem_flatMap]
    refine ⟨fun ⟨m, hm, hj⟩ => ⟨m, (h.mem m).mp hm, ((hf m hm).mem j).mp hj⟩, fun ⟨m, hm, hj⟩ => ?_⟩
    exact ⟨m, (h.mem m).mpr hm, ((hf m ((h.mem m).mpr hm)).mem j).mpr hj⟩
  · rw [findSome?_flatMap, findSome?_flatMap, ← h.first o]
    exact findSome?_congr fun j hj => (hf j hj).first o g

/-- What repeats ends met before makes no difference. -/
theorem append_subset (h : m ⊆ l) : SameEnds ordered (l ++ m) l := by
  refine ⟨fun j => ?_, fun _ f => ?_⟩
  · rw [List.mem_append]
    exact or_iff_left_of_imp fun hj => h hj
  · rw [List.findSome?_append]
    cases hl : l.findSome? f with
    | some a => rfl
    | none =>
      rw [List.findSome?_eq_none_iff] at hl
      rw [Option.none_or, List.findSome?_eq_none_iff]
      exact fun j hj => hl j (h hj)

/-- Copies of one end are one end. -/
theorem copies {i : Nat} (h : ∀ j ∈ l, j = i) (hl : l ≠ []) : SameEnds ordered l [i] := by
  cases l with
  | nil => exact absurd rfl hl
  | cons j l =>
    obtain rfl := h j List.mem_cons_self
    refine append_subset (l := [j]) fun k hk => ?_
    exact List.mem_singleton.mpr (h k (List.mem_cons_of_mem j hk))

/-- In order, the first end is the same. -/
theorem head? (h : SameEnds ordered l l') (o : ordered) : l.head? = l'.head? := by
  have key : ∀ l : List Nat, l.findSome? some = l.head? := by
    intro l
    cases l <;> rfl
  rw [← key, h.first o, key]

theorem nil_iff (h : SameEnds ordered l l') : l = [] ↔ l' = [] := by
  simp only [List.eq_nil_iff_forall_not_mem, h.mem]

end SameEnds

namespace Ends

/-- The same ends from every position in the text. -/
def Alike (ordered : Prop) (s : List Reading) (a b : Ends) : Prop :=
  ∀ i, i ≤ s.length → SameEnds ordered (a i) (b i)

theorem stay_andThen (a : Ends) : stay.andThen a = a := by
  funext i
  simp [andThen, stay]

theorem andThen_stay (a : Ends) : a.andThen stay = a := by
  funext i
  exact List.flatMap_singleton' _

theorem andThen_assoc (a b c : Ends) : (a.andThen b).andThen c = a.andThen (b.andThen c) := by
  funext i
  exact List.flatMap_assoc

/-- The last of several rounds may be told apart as well as the first. -/
theorem times_succ' (a : Ends) (n : Nat) : a.times (n + 1) = (a.times n).andThen a := by
  induction n with
  | zero => simp [times, stay_andThen, andThen_stay]
  | succ n ih =>
    calc a.andThen (a.times (n + 1)) = a.andThen ((a.times n).andThen a) := by rw [ih]
      _ = (a.times (n + 1)).andThen a := (andThen_assoc ..).symm

namespace Alike

variable {ordered : Prop} {s : List Reading} {a a' b b' c : Ends}

theorem refl (a : Ends) : Alike ordered s a a := fun _ _ => .refl _

theorem of_eq (h : a = b) : Alike ordered s a b := h ▸ refl a

theorem trans (h : Alike ordered s a b) (h' : Alike ordered s b c) : Alike ordered s a c :=
  fun i hi => (h i hi).trans (h' i hi)

theorem andThen (ha : Forward s a) (h : Alike ordered s a a') (h' : Alike ordered s b b') :
    Alike ordered s (a.andThen b) (a'.andThen b') := fun i hi =>
  (h i hi).flatMap fun j hj => h' j (ha i hi j hj).2

theorem prefer {greedy : Bool} (h : Alike ordered s a a') (h' : Alike ordered s b b') :
    Alike ordered s (prefer greedy a b) (prefer greedy a' b') := fun i hi => by
  cases greedy with
  | true => exact (h i hi).append (h' i hi)
  | false => exact (h' i hi).append (h i hi)

/-- A number of rounds comes to the same if each round does. -/
theorem times (ha : Forward s a) (h : Alike ordered s a a') :
    ∀ n, Alike ordered s (a.times n) (a'.times n)
  | 0 => refl _
  | n + 1 => h.andThen ha (h.times ha n)

theorem upTo {greedy : Bool} (ha : Forward s a) (h : Alike ordered s a a') :
    ∀ n, Alike ordered s (upTo greedy a n) (upTo greedy a' n)
  | 0 => refl _
  | n + 1 => (h.andThen ha (h.upTo ha n)).prefer (refl _)

theorem taking (h : Alike ordered s a a') : Alike ordered s a.taking a'.taking := fun i hi => by
  have key : ∀ l : List Nat, l.filter (i < ·) = l.flatMap fun j => if i < j then [j] else [] := by
    intro l
    induction l with
    | nil => rfl
    | cons j l ih => by_cases hj : i < j <;> simp [hj, ih]
  rw [Ends.taking, Ends.taking, key, key]
  exact (h i hi).flatMap fun j _ => .refl _

/-- So do rounds that go on as long as they take characters. -/
theorem rounds {greedy : Bool} (ha : Forward s a) (h : Alike ordered s a a') :
    ∀ n, Alike ordered s (rounds greedy a n) (rounds greedy a' n)
  | 0 => refl _
  | n + 1 => (h.taking.andThen ha.taking (h.rounds ha n)).prefer (refl _)

theorem many {greedy : Bool} (ha : Forward s a) (h : Alike ordered s a a') :
    Alike ordered s (many s greedy a) (many s greedy a') := fun i hi => h.rounds ha _ i hi

end Alike

/-- `a` as often as the count says. -/
def counted (s : List Reading) (c : Count) (a : Ends) : Ends :=
  (a.times c.least).andThen (match c.most with
    | none => many s c.greedy a
    | some n => upTo c.greedy a (n - c.least))

/-- A repetition of what goes forward goes forward. -/
theorem Forward.counted {s : List Reading} {a : Ends} (ha : Forward s a) (c : Count) :
    Forward s (counted s c a) := by
  refine (ha.times _).andThen ?_
  cases c.most with
  | none => exact ha.many
  | some n => exact ha.upTo _

/-- A repetition comes to the same if its body does. -/
theorem Alike.counted {ordered : Prop} {s : List Reading} {a a' : Ends} (ha : Forward s a)
    (h : Alike ordered s a a') (c : Count) :
    Alike ordered s (counted s c a) (counted s c a') := by
  refine (h.times ha _).andThen (ha.times _) ?_
  cases c.most with
  | none => exact h.many ha
  | some n => exact h.upTo ha _

/-- One after the other, from a list. -/
def inSequence (as : List Ends) : Ends := as.foldr andThen stay

/-- Any of a list, the earlier preferred. -/
def inChoice (as : List Ends) : Ends := fun i => as.flatMap fun a => a i

/-- Two sequences in a row are one. -/
theorem inSequence_append (as bs : List Ends) :
    inSequence (as ++ bs) = (inSequence as).andThen (inSequence bs) := by
  induction as with
  | nil => exact (stay_andThen _).symm
  | cons a as ih =>
    show a.andThen (inSequence (as ++ bs)) = (a.andThen (inSequence as)).andThen (inSequence bs)
    rw [ih, andThen_assoc]

theorem inSequence_singleton (a : Ends) : inSequence [a] = a := andThen_stay a

/-- Two lists of branches in a row are a choice between both. -/
theorem inChoice_append (as bs : List Ends) :
    inChoice (as ++ bs) = prefer true (inChoice as) (inChoice bs) := by
  funext i
  simp [inChoice, prefer]

theorem inChoice_singleton (a : Ends) : inChoice [a] = a := by
  funext i
  simp [inChoice]

/-- A sequence of what goes forward goes forward. -/
theorem forward_inSequence {s : List Reading} {as : List Ends} (h : ∀ a ∈ as, Forward s a) :
    Forward s (inSequence as) := by
  induction as with
  | nil => exact forward_stay
  | cons a as ih =>
    exact (h a List.mem_cons_self).andThen (ih fun b hb => h b (List.mem_cons_of_mem a hb))

end Ends

end MailPattern
