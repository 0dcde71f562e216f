import MailPattern.Proofs.Search.Rows

/-!
# Proofs — Search — Leftmost

What the sweep finds.  A front stands for what the rest of the text will come to: the first value
that one of its goals has, where `value` is what is looked for in an end, the end itself or only
that there is one.  One character's advance keeps this (`Sweep.first_advance`), and so the sweep
comes to what its front stands for (`Sweep.go_eq`).

* `Regular.find?_eq_none`: the sweep finds nothing exactly if no match starts at the position or
  later.
* `Regular.find?_eq_some`: what it finds is a match, and none starts further left.
* `Regular.find?_preferred`: in a productive pattern it is the preferred match of those that start
  there.
-/

namespace MailPattern

/-- What is looked for in the ends that a goal comes to. -/
def valueAt {α : Type} (look : Nat → α) (table : List (CharSet × (Here → List Goal)))
    (rest : List Reading) (i : Nat) : Goal → Option α :=
  fun g => (explore table rest i g).head?.map look

namespace Sweep

variable {α : Type} {inv : Here → Front → Prop} {w : Sweep}
  {table : List (CharSet × (Here → List Goal))} {lead : Here → List Goal} (look : Nat → α)

theorem valueAt_finish (rest : List Reading) (i : Nat) :
    valueAt look table rest i .finish = some (look i) := by
  cases rest <;> rfl

/-- The value of a set that admits the next character is that of the goals after it. -/
theorem valueAt_point {c : Reading} {rest : List Reading} {i p : Nat} {set : CharSet}
    {after : Here → List Goal} (hp : table[p]? = some (set, after)) (hc : set.admits c = true) :
    valueAt look table (c :: rest) i (.point p) =
      (after ⟨i + 1, rest.isEmpty⟩).findSome? (valueAt look table rest (i + 1)) := by
  unfold valueAt
  rw [explore]
  simp only [hp, hc, if_true, List.head?_flatMap, List.map_findSome?]
  rfl

/-- A point has a row and a line that go together, or neither. -/
theorem row_cases {rows : Array Row} {R : Row → CharSet × (Here → List Goal) → Prop}
    (h : List.Forall₂ R rows.toList table) (p : Nat) :
    rows[p]? = none ∧ table[p]? = none ∨
      ∃ row line, rows[p]? = some row ∧ table[p]? = some line ∧ R row line := by
  rw [← Array.getElem?_toList]
  generalize rows.toList = rows at h
  induction h generalizing p with
  | nil => exact .inl ⟨rfl, rfl⟩
  | cons hr _ ih =>
    cases p with
    | zero => exact .inr ⟨_, _, rfl, rfl, hr⟩
    | succ p => simpa using ih p

/-- **One character's advance.**  What the front before it stands for, the front after it does. -/
theorem first_advance (hw : w.Realizes α inv table lead) (c : Reading) (rest : List Reading)
    (i : Nat) :
    ∀ (ts : List Thread) (seen : Nat) (f : Front), inv ⟨i + 1, rest.isEmpty⟩ f →
      (∀ p, seen.testBit p = true → (valueAt look table (c :: rest) i (.point p)).isSome →
        (f.first (valueAt look table rest (i + 1))).isSome) →
      (w.advance c ⟨i + 1, rest.isEmpty⟩ seen ts f).first (valueAt look table rest (i + 1)) =
        (f.first (valueAt look table rest (i + 1))).or (ts.findSome? fun t =>
          (valueAt look table (c :: rest) i (.point t.point)).map (t.way.origin, ·)) ∧
      inv ⟨i + 1, rest.isEmpty⟩ (w.advance c ⟨i + 1, rest.isEmpty⟩ seen ts f) := by
  have hfin : (valueAt look table rest (i + 1) .finish).isSome := by
    rw [valueAt_finish]; rfl
  intro ts
  induction ts with
  | nil => intro seen f hf _; simpa [advance] using hf
  | cons t ts ih =>
    intro seen f hf hseen
    rw [advance]
    split
    · next he =>
      obtain ⟨a, ha⟩ := Option.isSome_iff_exists.mp (Front.first_isSome_of_ended he hfin)
      simpa [ha] using hf
    -- a thread that goes nowhere has no value
    have skip : valueAt look table (c :: rest) i (.point t.point) = none →
        (w.advance c ⟨i + 1, rest.isEmpty⟩ seen ts f).first (valueAt look table rest (i + 1)) =
          (f.first (valueAt look table rest (i + 1))).or ((t :: ts).findSome? fun t =>
            (valueAt look table (c :: rest) i (.point t.point)).map (t.way.origin, ·)) ∧
        inv ⟨i + 1, rest.isEmpty⟩ (w.advance c ⟨i + 1, rest.isEmpty⟩ seen ts f) := by
      intro hv
      simpa [hv] using ih seen f hf hseen
    obtain ⟨hrow, hline⟩ | ⟨row, ⟨set, after⟩, hrow, hline, hset, hnext⟩ := row_cases hw.rows t.point
    · rw [hrow]
      exact skip (by simp [valueAt, explore, hline])
    · rw [hrow]
      dsimp only
      split
      · next hadm =>
        obtain ⟨hadm, -⟩ := Bool.and_eq_true_iff.mp hadm
        rw [hset] at hadm
        have hv : valueAt look table (c :: rest) i (.point t.point) = _ :=
          valueAt_point look hline hadm
        obtain ⟨hext, hinv⟩ := hnext ⟨i + 1, rest.isEmpty⟩ t.way f hf
        have hfirst := hext _ hfin
        rw [← hv] at hfirst
        obtain ⟨h₁, h₂⟩ := ih (seen ||| (1 <<< t.point)) _ hinv (fun p hp hval => by
          rw [Nat.testBit_or, Nat.one_shiftLeft, Nat.testBit_two_pow, Bool.or_eq_true] at hp
          rw [hfirst]
          rcases hp with hp | hp
          · obtain ⟨a, ha⟩ := Option.isSome_iff_exists.mp (hseen p hp hval)
            simp [ha]
          · obtain rfl : t.point = p := by simpa using hp
            obtain ⟨a, ha⟩ := Option.isSome_iff_exists.mp hval
            rw [ha]
            cases f.first (valueAt look table rest (i + 1)) <;> rfl)
        refine ⟨?_, h₂⟩
        rw [h₁, hfirst, List.findSome?_cons]
        cases f.first (valueAt look table rest (i + 1)) <;>
          cases valueAt look table (c :: rest) i (.point t.point) <;> rfl
      · next hadm =>
        rw [Bool.and_eq_true_iff, not_and_or] at hadm
        rcases hadm with hadm | hadm
        · rw [hset] at hadm
          refine skip ?_
          simp [valueAt, explore, hline, hadm]
        · -- the set has been come to by an earlier thread, which has all that this one could add
          cases hv : valueAt look table (c :: rest) i (.point t.point) with
          | none => exact skip hv
          | some v =>
            obtain ⟨h₁, h₂⟩ := ih seen f hf hseen
            refine ⟨?_, h₂⟩
            have := hseen t.point (by simpa using hadm) (by rw [hv]; rfl)
            obtain ⟨a, ha⟩ := Option.isSome_iff_exists.mp this
            rw [h₁, ha]
            rfl

/-- The first start, from position `i` on, that has a value. -/
def starts (look : Nat → α) (table : List (CharSet × (Here → List Goal)))
    (lead : Here → List Goal) : List Reading → Nat → Option (Nat × α)
  | [], i => ((lead ⟨i, true⟩).findSome? (valueAt look table [] i)).map (i, ·)
  | c :: rest, i =>
    (((lead ⟨i, false⟩).findSome? (valueAt look table (c :: rest) i)).map (i, ·)).or
      (starts look table lead rest (i + 1))

/-- What the front stands for once its threads have taken all they can: the way that has ended. -/
theorem first_split (f : Front) (rest : List Reading) (i : Nat) :
    f.first (valueAt look table rest i) =
      (f.threads.reverse.findSome? fun t =>
        (valueAt look table rest i (.point t.point)).map (t.way.origin, ·)).or
      (f.ended.map fun way => (way.origin, look i)) := by
  rw [Front.first, Front.goals, List.findSome?_append, List.findSome?_map]
  cases f.ended with
  | none => rfl
  | some way => simp [valueAt_finish, Function.comp_def]

/-- The front with the start at a position, where there may be one. -/
def entered (w : Sweep) (anywhere : Bool) (h : Here) (front : Front) (best : Option Answer) :
    Front :=
  if anywhere && best.isNone then w.first h { origin := h.index } front else front

/-- The way that has ended, or else the answer so far. -/
def answer (f : Front) (i : Nat) (best : Option Answer) : Option Answer :=
  (f.ended.map fun way => ⟨way, i⟩).or best

/-- At the end of the text the answer is what has ended there, or else the answer so far. -/
theorem go_nil (anywhere : Bool) (i : Nat) (front : Front) (best : Option Answer) :
    w.go anywhere [] i front best = answer (w.entered anywhere ⟨i, true⟩ front best) i best := by
  rw [go, ← entered, List.isEmpty_nil]
  generalize w.entered anywhere ⟨i, true⟩ front best = f
  unfold answer
  obtain ⟨passed, threads, _ | way⟩ := f <;> rfl

theorem go_cons (anywhere : Bool) (c : Reading) (rest : List Reading) (i : Nat) (front : Front)
    (best : Option Answer) :
    w.go anywhere (c :: rest) i front best =
      let f := w.entered anywhere ⟨i, false⟩ front best
      if f.threads.isEmpty && ((answer f i best).isSome || !anywhere) then answer f i best
      else w.go anywhere rest (i + 1)
        (w.advance c ⟨i + 1, rest.isEmpty⟩ 0 f.threads.reverse {}) (answer f i best) := by
  rw [go, ← entered, List.isEmpty_cons]
  generalize w.entered anywhere ⟨i, false⟩ front best = f
  unfold answer
  obtain ⟨passed, threads, _ | way⟩ := f <;> rfl

/-- What is looked for in an answer is that of the way that has ended, if one has. -/
theorem map_answer (f : Front) (i : Nat) (best : Option Answer) :
    (answer f i best).map (fun a => (a.way.origin, look a.stop)) =
      (f.ended.map fun way => (way.origin, look i)).or
        (best.map fun a => (a.way.origin, look a.stop)) := by
  unfold answer
  cases f.ended <;> rfl

/-- What the front stands for with the start at its position. -/
theorem first_entered (hw : w.Realizes α inv table lead) (anywhere : Bool) (rest : List Reading)
    (i : Nat) (front : Front) (best : Option Answer) (hf : inv ⟨i, rest.isEmpty⟩ front) :
    ((w.entered anywhere ⟨i, rest.isEmpty⟩ front best).first (valueAt look table rest i)).or
        (best.map fun a => (a.way.origin, look a.stop)) =
      ((front.first (valueAt look table rest i)).or
        (best.map fun a => (a.way.origin, look a.stop))).or
        (if anywhere then
          ((lead ⟨i, rest.isEmpty⟩).findSome? (valueAt look table rest i)).map (i, ·) else none) ∧
      inv ⟨i, rest.isEmpty⟩ (w.entered anywhere ⟨i, rest.isEmpty⟩ front best) := by
  obtain ⟨hext, hinv⟩ := hw.first ⟨i, rest.isEmpty⟩ { origin := i } front hf
  have hfirst := hext (valueAt look table rest i) (by rw [valueAt_finish]; rfl)
  unfold entered
  cases best with
  | some b =>
    simp only [Option.isNone_some, Bool.and_false, Bool.false_eq_true, if_false]
    refine ⟨?_, hf⟩
    cases front.first (valueAt look table rest i) <;> rfl
  | none =>
    cases anywhere with
    | false => exact ⟨by simp, by simpa using hf⟩
    | true => exact ⟨by simp [hfirst], by simpa using hinv⟩

/-- **The sweep comes to what its front stands for**, else to the answer so far, and else, if it may
start anywhere, to the first start that has a value. -/
theorem go_eq (hw : w.Realizes α inv table lead) (anywhere : Bool) :
    ∀ (rest : List Reading) (i : Nat) (front : Front) (best : Option Answer),
      inv ⟨i, rest.isEmpty⟩ front →
      (w.go anywhere rest i front best).map (fun a => (a.way.origin, look a.stop)) =
        ((front.first (valueAt look table rest i)).or
          (best.map fun a => (a.way.origin, look a.stop))).or
          (if anywhere then starts look table lead rest i else none) := by
  intro rest
  induction rest with
  | nil =>
    intro i front best hf
    obtain ⟨hfirst, -⟩ := first_entered look hw anywhere [] i front best hf
    -- no thread has a value at the end of the text
    have last : ∀ f : Front, f.first (valueAt look table [] i) =
        f.ended.map fun way => (way.origin, look i) := by
      intro f
      have : ∀ t : Thread, valueAt look table [] i (.point t.point) = none := fun _ => rfl
      rw [first_split, List.findSome?_eq_none_iff.mpr fun t _ => by rw [this]; rfl, Option.none_or]
    rw [go_nil, map_answer, ← last]
    exact hfirst
  | cons c rest ih =>
    intro i front best hf
    obtain ⟨hfirst, hinv⟩ := first_entered look hw anywhere (c :: rest) i front best hf
    rw [List.isEmpty_cons] at hfirst hinv
    have hstarts : (if anywhere then starts look table lead (c :: rest) i else none) =
        (if anywhere then ((lead ⟨i, false⟩).findSome? (valueAt look table (c :: rest) i)).map (i, ·)
          else none).or (if anywhere then starts look table lead rest (i + 1) else none) := by
      cases anywhere <;> rfl
    rw [hstarts, ← Option.or_assoc, ← hfirst, go_cons, first_split]
    show Option.map _ (if _ then _ else _) = _
    generalize w.entered anywhere ⟨i, false⟩ front best = f at hinv ⊢
    split
    · next hstop =>
      obtain ⟨hempty, hdone⟩ := Bool.and_eq_true_iff.mp hstop
      rw [List.isEmpty_iff] at hempty
      rw [map_answer, hempty]
      unfold answer at hdone
      cases he : f.ended with
      | some way => rfl
      | none =>
        cases best with
        | some b => rfl
        | none =>
          obtain rfl : anywhere = false := by simpa [he] using hdone
          rfl
    · obtain ⟨hadv, hinv'⟩ := first_advance look hw c rest i f.threads.reverse 0 {}
        (hw.empty _) (by simp)
      have hnil : ∀ value : Goal → Option α, Front.first value {} = none := fun _ => rfl
      rw [ih _ _ _ hinv', hadv, map_answer, hnil, Option.none_or]
      simp only [Option.or_assoc]

/-! ### Every end that is found is an end -/

/-- What is come to from the goals of a front is accepted for the way to the goal. -/
def Sound (accept : Nat → Nat → Prop) (table : List (CharSet × (Here → List Goal)))
    (rest : List Reading) (i : Nat) (f : Front) : Prop :=
  ∀ a ∈ f.goals, ∀ j ∈ explore table rest i a.1, accept a.2.origin j

theorem Sound.adds {accept : Nat → Nat → Prop} {rest : List Reading} {i : Nat} {f : Front}
    {h : Here} {k : Walk} {goals : List Goal} {way : Way} (hf : Sound accept table rest i f)
    (hk : Walk.Adds h k goals)
    (hg : ∀ g ∈ goals, ∀ j ∈ explore table rest i g, accept way.origin j) :
    Sound accept table rest i (k h way f) := fun a ha j hj => by
  obtain ⟨new, he, hn⟩ := hk way f
  rw [he] at ha
  rcases List.mem_append.mp ha with ha | ha
  · exact hf a ha j hj
  · rw [(hn a ha).1]
    exact hg _ (hn a ha).2 j hj

/-- One character's advance leads to accepted ends only, if the threads do. -/
theorem sound_advance {accept : Nat → Nat → Prop}
    (hw : List.Forall₂ (fun row line => row.set = line.1 ∧ ∀ h, Walk.Adds h row.next (line.2 h))
      w.rows.toList table) (c : Reading) (rest : List Reading) (i : Nat) :
    ∀ (ts : List Thread) (seen : Nat) (f : Front), Sound accept table rest (i + 1) f →
      (∀ t ∈ ts, ∀ j ∈ explore table (c :: rest) i (.point t.point), accept t.way.origin j) →
      Sound accept table rest (i + 1) (w.advance c ⟨i + 1, rest.isEmpty⟩ seen ts f) := by
  intro ts
  induction ts with
  | nil => intro seen f hf _; simpa [advance] using hf
  | cons t ts ih =>
    intro seen f hf ht
    have hts := fun u hu => ht u (List.mem_cons_of_mem t hu)
    rw [advance]
    split
    · exact hf
    obtain ⟨hrow, -⟩ | ⟨row, ⟨set, after⟩, hrow, hline, hset, hnext⟩ := row_cases hw t.point
    · rw [hrow]
      exact ih _ _ hf hts
    · rw [hrow]
      dsimp only
      split
      · next hadm =>
        obtain ⟨hadm, -⟩ := Bool.and_eq_true_iff.mp hadm
        rw [hset] at hadm
        refine ih _ _ (hf.adds (hnext _) fun g hg j hj => ?_) hts
        refine ht t List.mem_cons_self j ?_
        rw [explore]
        simp only [hline, hadm, if_true]
        exact List.mem_flatMap.mpr ⟨g, hg, hj⟩
      · exact ih _ _ hf hts

/-- A start adds accepted ends only. -/
theorem Sound.entered {accept : Nat → Nat → Prop} {rest : List Reading} {i : Nat} {f : Front}
    (hf : Sound accept table rest i f) (hfirst : ∀ h, Walk.Adds h w.first (lead h))
    (hlead : ∀ g ∈ lead ⟨i, rest.isEmpty⟩, ∀ j ∈ explore table rest i g, accept i j)
    (anywhere : Bool) (best : Option Answer) :
    Sound accept table rest i (w.entered anywhere ⟨i, rest.isEmpty⟩ f best) := by
  unfold Sweep.entered
  split
  · exact hf.adds (hfirst _) hlead
  · exact hf

/-- What is answered is accepted. -/
theorem Sound.answer {accept : Nat → Nat → Prop} {rest : List Reading} {i : Nat} {f : Front}
    {best : Option Answer} (hf : Sound accept table rest i f)
    (hb : ∀ a ∈ best, accept a.way.origin a.stop) :
    ∀ a ∈ answer f i best, accept a.way.origin a.stop := by
  intro a ha
  unfold Sweep.answer at ha
  cases he : f.ended with
  | none => rw [he] at ha; exact hb a ha
  | some way =>
    rw [he] at ha
    cases ha
    refine hf (.finish, way) (by simp [Front.goals, he]) i ?_
    cases rest <;> exact List.mem_singleton_self i

/-- So a sweep answers with what is accepted. -/
theorem sound_go (accept : Nat → Nat → Prop)
    (hw : List.Forall₂ (fun row line => row.set = line.1 ∧ ∀ h, Walk.Adds h row.next (line.2 h))
      w.rows.toList table) (hfirst : ∀ h, Walk.Adds h w.first (lead h)) (anywhere : Bool) :
    ∀ (rest : List Reading) (i : Nat) (front : Front) (best : Option Answer),
      Sound accept table rest i front → (∀ a ∈ best, accept a.way.origin a.stop) →
      (∀ m ≤ rest.length, ∀ g ∈ lead ⟨i + m, (rest.drop m).isEmpty⟩,
        ∀ j ∈ explore table (rest.drop m) (i + m) g, accept (i + m) j) →
      ∀ a ∈ w.go anywhere rest i front best, accept a.way.origin a.stop := by
  intro rest
  induction rest with
  | nil =>
    intro i front best hf hb hl
    rw [go_nil]
    exact (hf.entered hfirst (hl 0 (Nat.zero_le _)) anywhere best).answer hb
  | cons c rest ih =>
    intro i front best hf hb hl
    have hf' := hf.entered hfirst (hl 0 (Nat.zero_le _)) anywhere best
    rw [List.isEmpty_cons] at hf'
    rw [go_cons]
    dsimp only
    split
    · exact hf'.answer hb
    · refine ih _ _ _ (sound_advance hw c rest i _ _ _ ?_ fun t ht => ?_) (hf'.answer hb)
        fun m hm => ?_
      · exact fun a ha => absurd ha (by simp [Front.goals])
      · exact hf' (.point t.point, t.way) (by
          simp only [Front.goals, List.mem_append, List.mem_map]
          exact .inl ⟨t, ht, rfl⟩)
      · rw [Nat.add_assoc, Nat.add_comm 1 m]
        exact hl (m + 1) (Nat.succ_le_succ hm)

end Sweep

/-! ### What the sweep for a pattern finds -/

namespace Regular

/-- The starts that have a value are the positions at which the pattern matches. -/
theorem starts_eq {α : Type} (look : Nat → α) (r : Regular) (s : List Reading) :
    ∀ n i, i + n = s.length →
      Sweep.starts look r.lines (r.lead 0 [.finish]) (s.drop i) i =
        ((List.range' i (n + 1)).findSome? fun j =>
          ((r.ends s j).head?.map look).map (j, ·)) := by
  have value : ∀ i, i ≤ s.length →
      (r.lead 0 [.finish] (here s i)).findSome? (valueAt look r.lines (s.drop i) i) =
        (r.ends s i).head?.map look := by
    intro i hi
    rw [← exploreAll_lead r s hi, exploreAll, List.head?_flatMap, List.map_findSome?]
    rfl
  intro n
  induction n with
  | zero =>
    intro i hi
    have hd : s.drop i = [] := by rw [List.drop_eq_nil_iff]; omega
    have := value i (by omega)
    rw [here, hd] at this
    rw [hd, Sweep.starts]
    show Option.map _ (List.findSome? _ (r.lead 0 [.finish] ⟨i, true⟩)) = _
    rw [show (⟨i, true⟩ : Here) = ⟨i, ([] : List Reading).isEmpty⟩ from rfl, this]
    cases h : (r.ends s i).head? <;> simp [h]
  | succ n ih =>
    intro i hi
    have hlt : i < s.length := by omega
    have hd := List.drop_eq_getElem_cons hlt
    have := value i (by omega)
    rw [here, hd] at this
    rw [hd, Sweep.starts, ih (i + 1) (by omega),
      show List.range' i (n + 1 + 1) = i :: List.range' (i + 1) (n + 1) from rfl,
      List.findSome?_cons]
    rw [show (⟨i, false⟩ : Here) = ⟨i, (s[i] :: s.drop (i + 1)).isEmpty⟩ from rfl, this]
    cases (r.ends s i).head? <;> simp

/-- The starts of the matches in `s` from position `i` on, each with what is looked for in its
preferred end. -/
theorem map_find? {α : Type} {inv : Here → Front → Prop} (look : Nat → α) {r : Regular}
    (hr : r.sweep.Realizes α inv r.lines (r.lead 0 [.finish])) (s : List Reading) {i : Nat}
    (hi : i ≤ s.length) :
    (r.sweep.find? (s.drop i) i).map (fun p => (p.start, look p.stop)) =
      (List.range' i (s.length - i + 1)).findSome? fun j =>
        ((r.ends s j).head?.map look).map (j, ·) := by
  rw [← starts_eq look r s (s.length - i) i (by omega)]
  have := Sweep.go_eq look hr true (s.drop i) i {} none (hr.empty _)
  rw [show Front.first (valueAt look r.lines (s.drop i) i) {} = none from rfl] at this
  simpa [Sweep.find?, Option.map_map, Function.comp_def] using this

/-- The first value from a position on is that of the first position that has one. -/
theorem findSome?_range'_eq_some {α : Type} {f : Nat → Option α} {i n : Nat} {a : α}
    (h : (List.range' i n).findSome? f = some a) :
    ∃ j, i ≤ j ∧ j < i + n ∧ f j = some a ∧ ∀ m, i ≤ m → m < j → f m = none := by
  induction n generalizing i with
  | zero => simp at h
  | succ n ih =>
    rw [List.range'_succ, List.findSome?_cons] at h
    cases hf : f i with
    | some b =>
      rw [hf] at h
      exact ⟨i, le_rfl, by omega, hf.trans h, fun m _ _ => by omega⟩
    | none =>
      rw [hf] at h
      obtain ⟨j, hj, hlt, hfj, hmin⟩ := ih h
      refine ⟨j, by omega, by omega, hfj, fun m hm hmj => ?_⟩
      rcases Nat.eq_or_lt_of_le hm with rfl | hm
      · exact hf
      · exact hmin m hm hmj

theorem findSome?_range'_of_first {α : Type} {f : Nat → Option α} {i n j : Nat} {a : α} (hij : i ≤ j)
    (hj : j < i + n) (ha : f j = some a) (hmin : ∀ m, i ≤ m → m < j → f m = none) :
    (List.range' i n).findSome? f = some a := by
  induction n generalizing i with
  | zero => omega
  | succ n ih =>
    rw [List.range'_succ, List.findSome?_cons]
    rcases Nat.eq_or_lt_of_le hij with rfl | hlt
    · rw [ha]
    · rw [hmin i le_rfl hlt]
      exact ih hlt (by omega) fun m hm => hmin m (by omega)

variable {r : Regular} {s : List Reading} {i : Nat}

/-- The sweep finds nothing exactly if no match starts at the position or later. -/
theorem find?_eq_none (hi : i ≤ s.length) :
    r.sweep.find? (s.drop i) i = none ↔ ∀ j, i ≤ j → j ≤ s.length → r.ends s j = [] := by
  obtain ⟨inv, hr⟩ := r.realizes
  have := map_find? (fun _ => ()) hr s hi
  rw [← Option.map_eq_none_iff (f := fun p : Span => (p.start, ())), this,
    List.findSome?_eq_none_iff]
  simp only [Option.map_eq_none_iff, List.head?_eq_none_iff, List.mem_range'_1]
  exact ⟨fun h j hj hl => h j ⟨hj, by omega⟩, fun h j hj => h j hj.1 (by omega)⟩

/-- **What the sweep finds is a match, and none starts further left.** -/
theorem find?_eq_some (hi : i ≤ s.length) {p : Span}
    (h : r.sweep.find? (s.drop i) i = some p) :
    i ≤ p.start ∧ p.start ≤ s.length ∧ p.stop ∈ r.ends s p.start ∧
      ∀ j, i ≤ j → j < p.start → r.ends s j = [] := by
  obtain ⟨inv, hr⟩ := r.realizes
  have hmap := map_find? (fun _ => ()) hr s hi
  rw [h, Option.map_some] at hmap
  obtain ⟨j, hij, hj, hfj, hmin⟩ := findSome?_range'_eq_some hmap.symm
  obtain ⟨_, -, hstart⟩ := Option.map_eq_some_iff.mp hfj
  obtain rfl : j = p.start := congrArg Prod.fst hstart
  refine ⟨hij, by omega, ?_, fun m hm hmj => ?_⟩
  · have hadd := adds_rows r 0 (fun _ => [.finish]) .finish #[] [] (fun h => .finish) .nil
    obtain ⟨a, ha, rfl⟩ := Option.map_eq_some_iff.mp h
    refine Sweep.sound_go (fun start stop => stop ∈ r.ends s start) hadd
      (fun h => adds_walk r _ _ _ .finish) true (s.drop i) i {} none ?_ (by simp) ?_ a ha
    · exact fun a ha => absurd ha (by simp [Front.goals])
    · intro m hm g hg j hj
      rw [List.length_drop] at hm
      rw [List.drop_drop] at hg hj
      rw [← exploreAll_lead r s (by omega)]
      exact List.mem_flatMap.mpr ⟨g, hg, hj⟩
  · simpa using hmin m hm hmj

/-- In a productive pattern the match found is the preferred one that starts where it does. -/
theorem find?_preferred (hp : r.Productive) (hi : i ≤ s.length) {p : Span}
    (h : r.sweep.find? (s.drop i) i = some p) : (r.ends s p.start).head? = some p.stop := by
  obtain ⟨inv, hr⟩ := realizes_of_productive Nat hp
  have hmap := map_find? id hr s hi
  rw [h, Option.map_some] at hmap
  obtain ⟨j, -, -, hfj, -⟩ := findSome?_range'_eq_some hmap.symm
  obtain ⟨stop, hhead, hpair⟩ := Option.map_eq_some_iff.mp hfj
  cases hpair
  simpa using hhead

end Regular

end MailPattern
