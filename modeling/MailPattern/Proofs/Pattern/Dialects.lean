import MailPattern.Pattern.Reader
import MailPattern.Proofs.Pattern.Meaning

/-!
# Proofs — Pattern — Dialects

What is read from a text.  What holds of the parts as they are put together holds of the whole
(`Pattern.Inherited`).  So every class that is read is in order (`Pattern.valid_of_read`); what is
repeated and how brackets nest the dialect allows (`Pattern.repeatable_of_read`,
`Pattern.brackets_of_read`); in the regular dialect nothing looks around or recalls
(`Pattern.plain_of_read`); and in the extended one brackets stand where they must
(`Pattern.bracketed_of_read`).
-/

namespace MailPattern

/-! ### Tokens -/

namespace Token

variable {d : Dialect} {s rest : List Char}

/-- What a class with ranges in order goes on with is in order. -/
theorem ordered_of_classItems {fuel : Nat} {done ranges : List (Char × Char)}
    (hdone : ∀ r ∈ done, r.1 ≤ r.2) (h : classItems? d fuel done s = some (ranges, rest)) :
    ∀ r ∈ ranges, r.1 ≤ r.2 := by
  have one : ∀ (c : Char) {done : List (Char × Char)}, (∀ r ∈ done, r.1 ≤ r.2) →
      ∀ r ∈ (c, c) :: done, r.1 ≤ r.2 := fun c _ hdone =>
    List.forall_mem_cons.mpr ⟨Char.le_refl c, hdone⟩
  fun_induction classItems? d fuel done s with
  | case1 | case3 | case5 | case6 | case8 => cases h
  | case2 =>
    cases h
    exact fun r hr => hdone r (List.mem_reverse.mp hr)
  | case4 =>
    cases h
    exact fun r hr => one '-' (one _ hdone) r (List.mem_reverse.mp hr)
  | case7 fuel done s _ lo _ _ _ _ hi _ _ hle ih =>
    exact ih (List.forall_mem_cons.mpr ⟨hle, hdone⟩) h
  | case9 fuel done s _ c _ _ _ _ _ ih => exact ih (one c hdone) h

/-- The ranges of a class are in order. -/
theorem valid_of_class {set : CharSet} (h : class? d s = some (set, rest)) : set.Valid := by
  obtain ⟨⟨ranges, rest⟩, hitems, h⟩ := Option.map_eq_some_iff.mp h
  cases h
  refine ordered_of_classItems (List.forall_mem_map.mpr fun c _ => Char.le_refl c) hitems

/-- A class among the tokens is in order. -/
theorem valid_of_next {atom : Bool} {set : CharSet} (h : next? d atom s = some (.chars set, rest)) :
    set.Valid := by
  have hcount : ∀ bounds spaced s, ofBounds bounds spaced s ≠ (.chars set, rest) := by
    intro bounds spaced s h
    unfold ofBounds at h
    split at h <;> cases h
  fun_cases next? d atom s <;> simp only [next?] at h
  case case2 =>
    unfold opening? at h
    split at h <;> cases h
  case case10 =>
    unfold brace? at h
    split at h
    · exact absurd (Option.some.inj h) (hcount _ _ _)
    · cases h
    · cases h
  case case11 =>
    obtain ⟨⟨set, rest⟩, hclass, h⟩ := Option.map_eq_some_iff.mp h
    cases h
    exact valid_of_class hclass
  case case12 =>
    unfold backslash? at h
    split at h
    · cases h
    · obtain ⟨_, -, h⟩ := Option.map_eq_some_iff.mp h
      cases h
  all_goals first | cases h | exact absurd (Option.some.inj h) (hcount _ _ _)

/-- So is every class among the tokens of a text. -/
theorem valid_of_all {ts : List Token} {set : CharSet} (h : all? d s = some ts)
    (hset : .chars set ∈ ts) : set.Valid := by
  have key : ∀ fuel atom s ts, upTo? d fuel atom s = some ts → .chars set ∈ ts → set.Valid := by
    intro fuel
    induction fuel with
    | zero =>
      intro atom s ts h hset
      cases s with
      | nil => cases h; cases hset
      | cons => cases h
    | succ fuel ih =>
      intro atom s ts h hset
      cases s with
      | nil => cases h; cases hset
      | cons c s =>
        rw [upTo?] at h
        split at h
        · cases h
        · rename_i hnext
          obtain ⟨ts, hts, rfl⟩ := Option.map_eq_some_iff.mp h
          rcases List.mem_cons.mp hset with rfl | hset
          · exact valid_of_next hnext
          · exact ih _ _ ts hts hset
        · exact nofun
  exact key _ _ _ _ h hset

end Token

/-! ### Patterns put together -/

namespace Pattern

/-- What holds of items, of branches and of whole patterns inside `k` brackets, if it holds of the
items that are written and of what the dialect puts together of such parts. -/
structure Inherited (d : Dialect) (I B W : Nat → Pattern → Prop) : Prop where
  char (k : Nat) (c : Char) : I k (.char c)
  start (k : Nat) : I k .start
  stop (k : Nat) : I k .stop
  branch {k : Nat} {ps : List Pattern} : (∀ p ∈ ps, I k p) → B k (ofItems ps)
  whole {k : Nat} {ps : List Pattern} : (∀ p ∈ ps, B k p) → W k (ofBranches ps)
  group (n : Option Nat) {k : Nat} {p : Pattern} : k < d.maxOpen → W (k + 1) p → I k (.group n p)
  repeated (c : Count) {k : Nat} {p : Pattern} : p.repeatable d = true → I k p → I k (.repeated c p)
  look (behind negative : Bool) {k : Nat} {p : Pattern} : d = .extended → k < d.maxOpen →
    W (k + 1) p → I k (.look behind negative p)
  recalled (n : Nat) {k : Nat} : d = .extended → I k (.recall n)

/-- What has been read at a level inside `k` brackets is of this kind. -/
structure Level.Holds (I B : Nat → Pattern → Prop) (k : Nat) (l : Level) : Prop where
  empty : B k .empty
  items : ∀ p ∈ l.items, I k p
  branches : ∀ p ∈ l.branches, B k p

/-- So is what has been read at the levels around. -/
def OuterHolds (I B : Nat → Pattern → Prop) : List (Opening × Nat × Level) → Prop
  | [] => True
  | o :: outer => o.2.2.Holds I B outer.length ∧ OuterHolds I B outer

/-- All that has been read is of this kind. -/
def Builder.Holds (I B : Nat → Pattern → Prop) (b : Builder) : Prop :=
  b.level.Holds I B b.outer.length ∧ OuterHolds I B b.outer

variable {d : Dialect} {I B W : Nat → Pattern → Prop} {b b' : Builder}

/-- What holds of sequences and of nothing holds of items in a row. -/
theorem forall_ofItems {P : Pattern → Prop} (hempty : P .empty)
    (hcat : ∀ {p q}, P p → P q → P (.cat p q)) {ps : List Pattern} (h : ∀ p ∈ ps, P p) :
    P (ofItems ps) := by
  induction ps with
  | nil => exact hempty
  | cons p ps ih =>
    obtain ⟨hp, hps⟩ := List.forall_mem_cons.mp h
    cases ps with
    | nil => exact hp
    | cons => exact hcat hp (ih hps)

/-- What the empty pattern has and alternations keep holds of branches put together. -/
theorem forall_ofBranches {P : Pattern → Prop} (hempty : P .empty)
    (halt : ∀ {p q}, P p → P q → P (.alt p q)) {ps : List Pattern} (h : ∀ p ∈ ps, P p) :
    P (ofBranches ps) := by
  induction ps with
  | nil => exact hempty
  | cons p ps ih =>
    obtain ⟨hp, hps⟩ := List.forall_mem_cons.mp h
    cases ps with
    | nil => exact hp
    | cons => exact halt hp (ih hps)

theorem Inherited.nothing (hP : Inherited d I B W) (k : Nat) : B k .empty :=
  @Inherited.branch _ _ _ _ hP k [] nofun

/-- The items of a level, as a branch. -/
theorem Inherited.items (hP : Inherited d I B W) {k : Nat} {l : Level} (h : l.Holds I B k) :
    B k (ofItems l.items.reverse) :=
  hP.branch fun p hp => h.items p (List.mem_reverse.mp hp)

/-- What holds of all that was read at a level holds of its pattern. -/
theorem Inherited.level (hP : Inherited d I B W) {k : Nat} {l : Level} (h : l.Holds I B k) :
    W k l.pattern := by
  refine hP.whole fun p hp => ?_
  rcases List.mem_cons.mp (List.mem_reverse.mp hp) with rfl | hp
  · exact hP.items h
  · exact h.branches p hp

theorem Level.Holds.push {k : Nat} {l : Level} {p : Pattern} (h : l.Holds I B k) (hp : I k p) :
    (l.push p).Holds I B k :=
  ⟨h.empty, List.forall_mem_cons.mpr ⟨hp, h.items⟩, h.branches⟩

theorem Builder.Holds.push {p : Pattern} (h : b.Holds I B) (hp : I b.outer.length p) :
    (b.push p).Holds I B :=
  ⟨h.1.push hp, h.2⟩

/-- A bracket is opened if not too many are open, and a new level begins in it. -/
theorem open_eq_some {kind : Opening} : b.open? d kind = some b' ↔ b.outer.length < d.maxOpen ∧
    b' = ⟨{}, (kind, if kind = .capture then b.captures + 1 else b.captures, b.level) :: b.outer,
      if kind = .capture then b.captures + 1 else b.captures⟩ := by
  rw [Builder.open?, Option.ite_none_right_eq_some, Option.some.injEq, eq_comm (b := b')]

/-- A closing bracket closes the innermost open one and adds what it holds. -/
theorem step_closing : b.step? d .closing = some b' ↔ ∃ kind index level outer,
    b.outer = (kind, index, level) :: outer ∧
      b' = { b with level := level.push (closed kind index b.level.pattern), outer } := by
  obtain ⟨level, outer, captures⟩ := b
  cases outer with
  | nil => exact ⟨nofun, nofun⟩
  | cons o outer =>
    constructor
    · intro h
      cases h
      exact ⟨_, _, _, _, rfl, rfl⟩
    · rintro ⟨kind, index, level, outer, h, rfl⟩
      cases h
      rfl

/-- A count repeats the last item, if the dialect lets that repeat. -/
theorem step_count {c : Count} {spaced : Bool} : b.step? d (.count c spaced) = some b' ↔ ∃ p items,
    b.level.items = p :: items ∧ p.repeatable d = true ∧
      b' = { b with level := { b.level with items := .repeated c p :: items } } := by
  obtain ⟨⟨branches, items⟩, outer, captures⟩ := b
  cases items with
  | nil => exact ⟨nofun, nofun⟩
  | cons p items =>
    rw [Builder.step?, Option.ite_none_right_eq_some]
    constructor
    · rintro ⟨hp, h⟩
      cases h
      exact ⟨_, _, rfl, hp, rfl⟩
    · rintro ⟨p, items, h, hp, rfl⟩
      cases h
      exact ⟨hp, rfl⟩

/-- Only the extended dialect recalls. -/
theorem step_recall {n : Nat} (h : b.step? d (.recall n) = some b') :
    d = .extended ∧ b' = b.push (.recall n) := by
  cases d with
  | regular => cases h
  | extended =>
    rw [Builder.step?, Option.ite_none_right_eq_some, Option.some.injEq] at h
    exact ⟨rfl, h.2.symm⟩

/-- A bracket is opened; around what is looked at only in the extended dialect. -/
theorem step_opening {kind : Opening} (h : b.step? d (.opening kind) = some b') :
    b.open? d kind = some b' ∧ ((∃ behind negative, kind = .look behind negative) → d = .extended) := by
  cases kind with
  | plain | capture => exact ⟨h, nofun⟩
  | look behind negative =>
    cases d with
    | regular => cases h
    | extended => exact ⟨h, fun _ => rfl⟩

/-- Not too many brackets are open, and only the extended dialect has open what looks around. -/
structure Builder.Allowed (d : Dialect) (b : Builder) : Prop where
  length : b.outer.length ≤ d.maxOpen
  look : ∀ o ∈ b.outer, (∃ behind negative, o.1 = .look behind negative) → d = .extended

/-- Every step keeps the brackets allowed. -/
theorem Builder.Allowed.step {t : Token} (h : b.Allowed d) (hb : b.step? d t = some b') :
    b'.Allowed d := by
  cases t with
  | char | chars | start | stop | bar => cases hb; exact ⟨h.length, h.look⟩
  | opening kind =>
    obtain ⟨hopen, hlook⟩ := step_opening hb
    obtain ⟨hlength, rfl⟩ := open_eq_some.mp hopen
    exact ⟨hlength, List.forall_mem_cons.mpr ⟨hlook, h.look⟩⟩
  | closing =>
    obtain ⟨kind, index, level, outer, houter, rfl⟩ := step_closing.mp hb
    obtain ⟨hlength, hlook⟩ := h
    rw [houter] at hlength hlook
    exact ⟨Nat.le_of_succ_le hlength, fun o ho => hlook o (List.mem_cons_of_mem _ ho)⟩
  | count c spaced =>
    obtain ⟨p, items, -, -, rfl⟩ := step_count.mp hb
    exact ⟨h.length, h.look⟩
  | «recall» n =>
    obtain ⟨-, rfl⟩ := step_recall hb
    exact ⟨h.length, h.look⟩

/-- What each token adds is of this kind. -/
theorem Builder.Holds.step (hP : Inherited d I B W) {t : Token}
    (ht : ∀ set k, t = .chars set → I k (.chars set)) (h : b.Holds I B) (hd : b.Allowed d)
    (hb : b.step? d t = some b') : b'.Holds I B := by
  cases t with
  | char c => cases hb; exact h.push (hP.char _ c)
  | chars set => cases hb; exact h.push (ht set _ rfl)
  | start => cases hb; exact h.push (hP.start _)
  | stop => cases hb; exact h.push (hP.stop _)
  | bar =>
    cases hb
    exact ⟨⟨h.1.empty, nofun, List.forall_mem_cons.mpr ⟨hP.items h.1, h.1.branches⟩⟩, h.2⟩
  | opening kind =>
    obtain ⟨-, rfl⟩ := open_eq_some.mp (step_opening hb).1
    exact ⟨⟨hP.nothing _, nofun, nofun⟩, h⟩
  | closing =>
    obtain ⟨kind, index, level, outer, houter, rfl⟩ := step_closing.mp hb
    have hpattern := hP.level h.1
    obtain ⟨-, hrest⟩ := h
    obtain ⟨hlength, hlook⟩ := hd
    rw [houter] at hrest hlength hlook hpattern
    refine ⟨hrest.1.push ?_, hrest.2⟩
    cases kind with
    | plain | capture => exact hP.group _ hlength hpattern
    | look behind negative =>
      exact hP.look behind negative (hlook _ List.mem_cons_self ⟨_, _, rfl⟩) hlength hpattern
  | count c spaced =>
    obtain ⟨p, items, hitems, hp, rfl⟩ := step_count.mp hb
    obtain ⟨⟨hempty, hall, hbranches⟩, houter⟩ := h
    rw [hitems] at hall
    obtain ⟨hheld, hrest⟩ := List.forall_mem_cons.mp hall
    exact ⟨⟨hempty, List.forall_mem_cons.mpr ⟨hP.repeated c hp hheld, hrest⟩, hbranches⟩, houter⟩
  | «recall» n =>
    obtain ⟨hd, rfl⟩ := step_recall hb
    exact h.push (hP.recalled n hd)

/-- So what holds of all written items holds of all that is put together. -/
theorem Builder.Holds.steps (hP : Inherited d I B W) {ts : List Token}
    (ht : ∀ set k, .chars set ∈ ts → I k (.chars set)) (h : b.Holds I B) (hd : b.Allowed d)
    (hb : b.steps? d ts = some b') : b'.Holds I B := by
  induction ts generalizing b with
  | nil =>
    cases hb
    exact h
  | cons t ts ih =>
    rw [Builder.steps?] at hb
    split at hb
    · cases hb
    · rename_i hstep
      refine ih (fun set k hset => ht set k (List.mem_cons_of_mem t hset))
        (h.step hP (fun set k hset => ht set k (hset ▸ List.mem_cons_self)) hd hstep)
        (hd.step hstep) hb

/-- At the end no bracket is open, and the pattern is that of the only level. -/
theorem finish_eq_some {p : Pattern} (h : b.finish? d = some p) :
    b.outer = [] ∧ p = b.level.pattern := by
  rw [Builder.finish?, Option.ite_none_right_eq_some] at h
  exact ⟨List.isEmpty_iff.mp h.1.1, (Option.some.inj h.2).symm⟩

/-- To read a text is to take its tokens, step through them and finish. -/
theorem read_eq_some {s : String} {p : Pattern} (h : read? d s = some p) :
    ∃ ts b, Token.all? d s.toList = some ts ∧ ({} : Builder).steps? d ts = some b ∧
      b.finish? d = some p := by
  unfold read? at h
  split at h
  · cases h
  · obtain ⟨b, hb, hp⟩ := Option.bind_eq_some_iff.mp h
    exact ⟨_, b, ‹_›, hb, hp⟩

/-- What the regular dialect reads nests no deeper than is accepted. -/
theorem depth_of_read {s : String} {p : Pattern} (h : read? .regular s = some p) :
    p.depth ≤ maxDepth := by
  obtain ⟨ts, b, -, -, hp⟩ := read_eq_some h
  obtain ⟨-, rfl⟩ := finish_eq_some hp
  rw [Builder.finish?, Option.ite_none_right_eq_some] at hp
  exact hp.1.2 rfl

/-- What holds of all parts that are written holds of what is read. -/
theorem Inherited.read (hP : Inherited d I B W) {s : String} {p : Pattern}
    (hchars : ∀ (set : CharSet) k, set.Valid → I k (.chars set)) (h : read? d s = some p) :
    W 0 p := by
  obtain ⟨ts, b, hts, hb, hp⟩ := read_eq_some h
  have hvalid : ∀ set k, Token.chars set ∈ ts → I k (.chars set) := fun set k hset =>
    hchars set k (Token.valid_of_all hts hset)
  obtain ⟨houter, rfl⟩ := finish_eq_some hp
  have hstart : ({} : Builder).Holds I B := ⟨⟨hP.nothing 0, nofun, nofun⟩, trivial⟩
  have hheld := (hstart.steps hP hvalid ⟨Nat.zero_le _, nofun⟩ hb).1
  rw [houter] at hheld
  exact hP.level hheld

/-- **Every class that is read is in order.** -/
theorem valid_of_read {s : String} {p : Pattern} (h : read? d s = some p) : p.Valid := by
  have hP : Inherited d (fun _ => Valid) (fun _ => Valid) fun _ => Valid :=
    { char := fun _ _ => nofun
      start := fun _ => nofun
      stop := fun _ => nofun
      branch := fun {_} => @forall_ofItems Valid nofun fun hp hq =>
        List.forall_mem_append.mpr ⟨hp, hq⟩
      whole := fun {_} => @forall_ofBranches Valid nofun fun hp hq =>
        List.forall_mem_append.mpr ⟨hp, hq⟩
      group := fun _ _ _ _ hp => hp
      repeated := fun _ _ _ _ hp => hp
      look := fun _ _ _ _ _ _ hp => hp
      recalled := fun _ _ _ => nofun }
  exact hP.read (fun set _ hset => List.forall_mem_singleton.mpr hset) h

/-- **In the regular dialect nothing that is read looks around or recalls.** -/
theorem plain_of_read {s : String} {p : Pattern} (h : read? .regular s = some p) :
    p.isPlain = true := by
  have hP : Inherited .regular (fun _ p => p.isPlain = true) (fun _ p => p.isPlain = true)
      fun _ p => p.isPlain = true :=
    { char := fun _ _ => rfl
      start := fun _ => rfl
      stop := fun _ => rfl
      branch := fun {_} => @forall_ofItems (·.isPlain = true) rfl fun hp hq =>
        Bool.and_eq_true_iff.mpr ⟨hp, hq⟩
      whole := fun {_} => @forall_ofBranches (·.isPlain = true) rfl fun hp hq =>
        Bool.and_eq_true_iff.mpr ⟨hp, hq⟩
      group := fun _ _ _ _ hp => hp
      repeated := fun _ _ _ _ hp => hp
      look := nofun
      recalled := nofun }
  exact hP.read (fun _ _ _ => rfl) h

/-! ### Repetitions and brackets -/

/-- How many brackets stand around one another. -/
def brackets : Pattern → Nat
  | .cat p q | .alt p q => max p.brackets q.brackets
  | .group _ p | .look _ _ p => p.brackets + 1
  | .repeated _ p => p.brackets
  | _ => 0

/-- All that is repeated has the property. -/
def Repeats (Q : Pattern → Prop) (p : Pattern) : Prop := ∀ r ∈ p.repetitions, Q r.2

/-- **What is repeated the dialect lets repeat.** -/
theorem repeatable_of_read {s : String} {p : Pattern} (h : read? d s = some p) :
    p.Repeats (·.repeatable d = true) := by
  have hP : Inherited d (fun _ => Repeats (·.repeatable d = true))
      (fun _ => Repeats (·.repeatable d = true)) fun _ => Repeats (·.repeatable d = true) :=
    { char := fun _ _ => nofun
      start := fun _ => nofun
      stop := fun _ => nofun
      branch := fun {_} => @forall_ofItems (Repeats _) nofun fun hp hq =>
        List.forall_mem_append.mpr ⟨hp, hq⟩
      whole := fun {_} => @forall_ofBranches (Repeats _) nofun fun hp hq =>
        List.forall_mem_append.mpr ⟨hp, hq⟩
      group := fun _ _ _ _ hp => hp
      repeated := fun _ _ _ hr hp => List.forall_mem_cons.mpr ⟨hr, hp⟩
      look := fun _ _ _ _ _ _ hp => hp
      recalled := fun _ _ _ => nofun }
  exact hP.read (fun _ _ _ => nofun) h

/-- **No more brackets stand around one another than the dialect lets open.** -/
theorem brackets_of_read {s : String} {p : Pattern} (h : read? d s = some p) :
    p.brackets ≤ d.maxOpen := by
  have hmax : ∀ {k : Nat} {p q : Pattern}, (k ≤ d.maxOpen → p.brackets + k ≤ d.maxOpen) →
      (k ≤ d.maxOpen → q.brackets + k ≤ d.maxOpen) → k ≤ d.maxOpen →
      max p.brackets q.brackets + k ≤ d.maxOpen := by
    intro k p q hp hq hk
    have := hp hk
    have := hq hk
    omega
  have hatom : ∀ {k : Nat}, k ≤ d.maxOpen → 0 + k ≤ d.maxOpen := fun hk => by omega
  have hgroup : ∀ {k : Nat} {p : Pattern}, k < d.maxOpen →
      (k + 1 ≤ d.maxOpen → p.brackets + (k + 1) ≤ d.maxOpen) → k ≤ d.maxOpen →
      p.brackets + 1 + k ≤ d.maxOpen := fun hk hp _ => by have := hp hk; omega
  have hP : Inherited d (fun k p => k ≤ d.maxOpen → p.brackets + k ≤ d.maxOpen)
      (fun k p => k ≤ d.maxOpen → p.brackets + k ≤ d.maxOpen)
      fun k p => k ≤ d.maxOpen → p.brackets + k ≤ d.maxOpen :=
    { char := fun _ _ => hatom
      start := fun _ => hatom
      stop := fun _ => hatom
      branch := forall_ofItems hatom hmax
      whole := forall_ofBranches hatom hmax
      group := fun _ _ _ => hgroup
      repeated := fun _ _ _ _ hp => hp
      look := fun _ _ _ _ _ => hgroup
      recalled := fun _ _ _ => hatom }
  exact hP.read (fun _ _ _ => hatom) h (Nat.zero_le _)

/-! ### Brackets where they must be -/

/-- How tightly the text of a pattern binds: an alternation least, then a sequence, then a
repetition. -/
def binding : Pattern → Nat
  | .alt .. => 0
  | .cat .. => 1
  | .repeated .. => 2
  | _ => 3

/-- What stands in a sequence, in an alternation or before a count binds more tightly than these do,
or stands in brackets. -/
def Bracketed : Pattern → Prop
  | .cat p q => 2 ≤ p.binding ∧ 1 ≤ q.binding ∧ p.Bracketed ∧ q.Bracketed
  | .alt p q => 1 ≤ p.binding ∧ p.Bracketed ∧ q.Bracketed
  | .repeated _ p => 3 ≤ p.binding ∧ p.Bracketed
  | .group _ p | .look _ _ p => p.Bracketed
  | _ => True

/-- A sequence of items binds weaker than they do, and keeps brackets where they must be. -/
theorem binding_ofItems {ps : List Pattern} (h : ∀ p ∈ ps, 2 ≤ p.binding ∧ p.Bracketed) :
    1 ≤ (ofItems ps).binding ∧ (ofItems ps).Bracketed := by
  induction ps with
  | nil => exact ⟨by decide, trivial⟩
  | cons p ps ih =>
    obtain ⟨hp, hps⟩ := List.forall_mem_cons.mp h
    cases ps with
    | nil => exact ⟨Nat.le_of_succ_le hp.1, hp.2⟩
    | cons =>
      obtain ⟨hq, hbracketed⟩ := ih hps
      exact ⟨Nat.le_refl 1, hp.1, hq, hp.2, hbracketed⟩

/-- An alternation of sequences has brackets where they must be. -/
theorem bracketed_ofBranches {ps : List Pattern} (h : ∀ p ∈ ps, 1 ≤ p.binding ∧ p.Bracketed) :
    (ofBranches ps).Bracketed := by
  induction ps with
  | nil => exact trivial
  | cons p ps ih =>
    obtain ⟨hp, hps⟩ := List.forall_mem_cons.mp h
    cases ps with
    | nil => exact hp.2
    | cons => exact ⟨hp.1, hp.2, ih hps⟩

/-- An item that the extended dialect lets repeat is no repetition. -/
theorem binding_of_repeatable {p : Pattern} (h : p.repeatable .extended = true)
    (hp : 2 ≤ p.binding) : 3 ≤ p.binding := by
  cases p with
  | repeated => cases h
  | cat => exact absurd (show 2 ≤ 1 from hp) (by decide)
  | alt => exact absurd (show 2 ≤ 0 from hp) (by decide)
  | _ => exact Nat.le_refl 3

/-- **What the extended dialect reads has its brackets where they must be.** -/
theorem bracketed_of_read {s : String} {p : Pattern} (h : read? .extended s = some p) :
    p.Bracketed := by
  have hatom : 2 ≤ 3 := by decide
  have hP : Inherited .extended (fun _ p => 2 ≤ p.binding ∧ p.Bracketed)
      (fun _ p => 1 ≤ p.binding ∧ p.Bracketed) fun _ => Bracketed :=
    { char := fun _ _ => ⟨hatom, trivial⟩
      start := fun _ => ⟨hatom, trivial⟩
      stop := fun _ => ⟨hatom, trivial⟩
      branch := binding_ofItems
      whole := bracketed_ofBranches
      group := fun _ _ _ _ hp => ⟨hatom, hp⟩
      repeated := fun _ _ _ hr hp => ⟨Nat.le_refl 2, binding_of_repeatable hr hp.1, hp.2⟩
      look := fun _ _ _ _ _ _ hp => ⟨hatom, hp⟩
      recalled := fun _ _ _ => ⟨hatom, trivial⟩ }
  exact hP.read (fun _ _ _ => ⟨hatom, trivial⟩) h

end Pattern

end MailPattern
