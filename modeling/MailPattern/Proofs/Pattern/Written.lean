import MailPattern.Address.Whitelist
import MailPattern.Pattern.Reader
import Mathlib.Tactic

/-!
# Proofs — Pattern — Written

Texts of patterns put together from parts, and the trees they are read as.  `Written d s items k`
says that the text `s` is read as the items, one after the other, wherever it stands in a pattern
and with at most `k` brackets open at once.  Texts in sequence give the items of both
(`Written.append`), brackets give one item (`Written.group`), and a count belongs to the one item
before it (`Written.counted`).

Only a count looks at what follows it: a question mark would make it lazy.
-/

namespace MailPattern

/-! ### Tokens -/

namespace Token

/-- The text is read as these tokens whatever follows it; but no question mark follows a count.  No
count has white space in its braces. -/
structure Lexes (d : Dialect) (s : List Char) (ts : List Token) : Prop where
  head : s.head? ≠ some '?'
  length : ts.length ≤ s.length
  tight : ∀ t ∈ ts, t.isSpaced = false
  upTo (fuel : Nat) (atom : Bool) (rest : List Char)
    (h : ∀ c, ts.getLast? = some (.count c false) → rest.head? ≠ some '?') :
    upTo? d (fuel + ts.length) atom (s ++ rest) =
      (upTo? d fuel ((ts.getLast?.map endsAtom).getD atom) rest).map (ts ++ ·)

variable {d : Dialect} {s s' : List Char} {ts ts' : List Token}

/-- One token more takes one step more. -/
theorem upTo_succ {fuel : Nat} {atom : Bool} {t : Token} {rest : List Char}
    (h : next? d atom s = some (t, rest)) :
    upTo? d (fuel + 1) atom s = (upTo? d fuel t.endsAtom rest).map (t :: ·) := by
  cases s with
  | nil => cases h
  | cons c s => simp only [upTo?, h]

namespace Lexes

theorem nil (d : Dialect) : Lexes d [] [] where
  head := nofun
  length := le_rfl
  tight := nofun
  upTo fuel atom rest _ := by
    cases h : upTo? d fuel atom rest <;> simp [h]

theorem single {t : Token} (hs : s.head? ≠ some '?') (hne : s ≠ []) (ht : t.isSpaced = false)
    (h : ∀ atom rest, next? d atom (s ++ rest) = some (t, rest)) : Lexes d s [t] where
  head := hs
  length := List.length_pos_iff.mpr hne
  tight := List.forall_mem_singleton.mpr ht
  upTo _ atom rest _ := upTo_succ (h atom rest)

/-- Texts in a row have the tokens of both. -/
theorem append (h : Lexes d s ts) (h' : Lexes d s' ts') : Lexes d (s ++ s') (ts ++ ts') where
  head := by
    cases s with
    | nil => exact h'.head
    | cons c s => exact h.head
  length := by
    rw [List.length_append, List.length_append]
    exact Nat.add_le_add h.length h'.length
  tight := List.forall_mem_append.mpr ⟨h.tight, h'.tight⟩
  upTo fuel atom rest hrest := by
    have hlater : ∀ c, ts'.getLast? = some (.count c false) → rest.head? ≠ some '?' := fun c hc =>
      hrest c (by rw [List.getLast?_append, hc]; rfl)
    have hnext : ∀ c, ts.getLast? = some (.count c false) → (s' ++ rest).head? ≠ some '?' := by
      intro c hc
      cases s' with
      | nil =>
        have : ts' = [] := List.length_eq_zero_iff.mp (Nat.le_zero.mp h'.length)
        exact hrest c (by rw [this, List.append_nil, hc])
      | cons c s' => exact h'.head
    rw [List.length_append, Nat.add_comm ts.length, ← Nat.add_assoc, List.append_assoc,
      h.upTo _ _ _ hnext, h'.upTo _ _ _ hlater, Option.map_map]
    have hlast : ((ts ++ ts').getLast?.map endsAtom).getD atom =
        (ts'.getLast?.map endsAtom).getD ((ts.getLast?.map endsAtom).getD atom) := by
      rw [List.getLast?_append]
      cases ts'.getLast? <;> rfl
    rw [hlast]
    congr 1
    funext more
    exact (List.append_assoc ..).symm

/-- A count after what ends an atom. -/
theorem counted {c : Count} (h : Lexes d s ts) (hatom : ts.getLast?.map endsAtom = some true)
    (hc : ∀ rest, rest.head? ≠ some '?' → next? d true (s' ++ rest) = some (.count c false, rest))
    (hne : s' ≠ []) : Lexes d (s ++ s') (ts ++ [.count c false]) where
  head := by
    cases s with
    | nil =>
      have : ts = [] := List.length_eq_zero_iff.mp (Nat.le_zero.mp h.length)
      rw [this] at hatom
      cases hatom
    | cons c s => exact h.head
  length := by
    rw [List.length_append, List.length_append]
    exact Nat.add_le_add h.length (List.length_pos_iff.mpr hne)
  tight := List.forall_mem_append.mpr ⟨h.tight, List.forall_mem_singleton.mpr rfl⟩
  upTo fuel atom rest hrest := by
    have hlast : ∀ c, ts.getLast? = some (.count c false) → (s' ++ rest).head? ≠ some '?' := by
      intro c hlast
      rw [hlast] at hatom
      cases hatom
    rw [List.length_append, Nat.add_comm ts.length, ← Nat.add_assoc, List.append_assoc,
      h.upTo _ _ _ hlast, hatom]
    have hstep : upTo? d (fuel + 1) true (s' ++ rest) =
        (upTo? d fuel (endsAtom (.count c false)) rest).map (.count c false :: ·) :=
      upTo_succ (hc rest (hrest c (by rw [List.getLast?_append]; rfl)))
    rw [show fuel + [Token.count c false].length = fuel + 1 from rfl]
    simp only [Option.getD_some, hstep, Option.map_map, List.getLast?_append, List.getLast?_singleton,
      Option.some_or, Option.map_some]
    congr 1
    funext more
    exact (List.append_assoc ts [_] more).symm

/-- The tokens are all tokens of the text. -/
theorem all (h : Lexes d s ts) : Token.all? d s = some ts := by
  have hfuel : s.length = (s.length - ts.length) + ts.length := by
    have := h.length
    omega
  have := h.upTo (s.length - ts.length) false [] fun _ _ => nofun
  rw [← hfuel, List.append_nil] at this
  rw [all?, this]
  cases s.length - ts.length <;> simp [upTo?]

end Lexes

/-- A character written to stand for itself. -/
theorem lexes_escapeChar (d : Dialect) (c : Char) :
    Lexes d (Whitelist.escapeChar c) [.char c] := by
  by_cases hc : c ∈ Whitelist.special
  · have hescape : Whitelist.escapeChar c = ['\\', c] := by
      rw [Whitelist.escapeChar, if_pos (List.contains_iff_mem.mpr hc)]
    rw [hescape]
    refine .single nofun nofun rfl fun atom rest => ?_
    simp only [Whitelist.special, List.mem_cons, List.not_mem_nil, or_false] at hc
    rcases hc with rfl | rfl | rfl | rfl | rfl | rfl | rfl | rfl | rfl | rfl | rfl | rfl | rfl | rfl |
      rfl | rfl | rfl | rfl <;> rfl
  · have hescape : Whitelist.escapeChar c = [c] := by
      rw [Whitelist.escapeChar, if_neg (by rwa [List.contains_iff_mem])]
    rw [hescape]
    refine .single ?_ nofun rfl fun atom rest => ?_
    · rintro ⟨⟩
      exact hc (by decide)
    · show next? d atom (c :: rest) = _
      unfold next?
      split <;> simp_all [Whitelist.special]

end Token

/-! ### Items -/

namespace Pattern

/-- The state after more items. -/
def Builder.pushAll (b : Builder) (items : List Pattern) : Builder :=
  { b with level := { b.level with items := items.reverse ++ b.level.items } }

/-- The tokens are read as the items, with `k` more brackets open at most. -/
def Reads (d : Dialect) (ts : List Token) (items : List Pattern) (k : Nat) : Prop :=
  ∀ (b : Builder) (more : List Token), b.outer.length + k ≤ d.maxOpen →
    b.steps? d (ts ++ more) = (b.pushAll items).steps? d more

/-- The tokens are read as the branches, after others. -/
def ReadsChoice (d : Dialect) (ts : List Token) (branches : List (List Pattern)) (k : Nat) : Prop :=
  ∀ (b : Builder) (more : List Token), b.outer.length + k ≤ d.maxOpen → b.level.items = [] →
    ∃ level : Level, level.pattern =
        ofBranches (b.level.branches.reverse ++ branches.map ofItems) ∧
      b.steps? d (ts ++ more) = ({ b with level } : Builder).steps? d more

variable {d : Dialect} {ts ts' : List Token} {items items' : List Pattern} {k k' : Nat}

theorem reads_nil (d : Dialect) (k : Nat) : Reads d [] [] k := fun _ _ _ => rfl

theorem Reads.mono (h : Reads d ts items k) (hk : k ≤ k') : Reads d ts items k' :=
  fun b more hb => h b more (by omega)

/-- Tokens in a row are read as the items of both. -/
theorem Reads.append (h : Reads d ts items k) (h' : Reads d ts' items' k) :
    Reads d (ts ++ ts') (items ++ items') k := fun b more hb => by
  rw [List.append_assoc, h b _ hb, h' (b.pushAll items) more hb]
  simp [Builder.pushAll, List.append_assoc]

/-- A token that adds an item is read as that item. -/
theorem reads_push {t : Token} {p : Pattern} (h : ∀ b : Builder, b.step? d t = some (b.push p)) :
    Reads d [t] [p] 0 := fun b more _ => by
  rw [List.singleton_append, Builder.steps?, h]
  rfl

/-- Items are one branch. -/
theorem ReadsChoice.single (h : Reads d ts items k) : ReadsChoice d ts [items] k := by
  intro b more hb hitems
  refine ⟨(b.pushAll items).level, ?_, h b more hb⟩
  simp [Builder.pushAll, Level.pattern, hitems]

/-- A bar sets another branch before the others. -/
theorem ReadsChoice.cons {branches : List (List Pattern)} (h : Reads d ts items k)
    (h' : ReadsChoice d ts' branches k) : ReadsChoice d (ts ++ .bar :: ts') (items :: branches) k := by
  intro b more hb hitems
  obtain ⟨level, hlevel, hsteps⟩ :=
    h' { b with level := { branches := ofItems items :: b.level.branches } } more hb rfl
  refine ⟨level, ?_, ?_⟩
  · rw [hlevel]
    simp
  · rw [← hsteps, List.append_assoc, h b _ hb, List.cons_append, Builder.steps?]
    simp [Builder.step?, Builder.pushAll, hitems]

/-- Plain brackets make one item. -/
theorem ReadsChoice.group {branches : List (List Pattern)} (h : ReadsChoice d ts branches k) :
    Reads d (.opening .plain :: ts ++ [.closing])
      [.group none (ofBranches (branches.map ofItems))] (k + 1) := by
  intro b more hb
  have hopen : b.step? d (.opening .plain) =
      some { level := {}, outer := (.plain, b.captures, b.level) :: b.outer, captures := b.captures } := by
    show b.open? d .plain = _
    rw [Builder.open?, if_pos (by omega)]
    rfl
  obtain ⟨level, hlevel, hsteps⟩ := h
    { level := {}, outer := (.plain, b.captures, b.level) :: b.outer, captures := b.captures }
    (.closing :: more) (by rw [List.length_cons]; omega) rfl
  rw [List.cons_append, List.cons_append, List.append_assoc, List.singleton_append, Builder.steps?,
    hopen]
  refine hsteps.trans ?_
  show (b.pushAll [.group none level.pattern]).steps? d more = _
  rw [hlevel]
  rfl

/-- A count belongs to the item before it. -/
theorem Reads.counted {p : Pattern} (h : Reads d ts [p] k) (hp : p.repeatable d = true)
    (c : Count) : Reads d (ts ++ [.count c false]) [.repeated c p] k := fun b more hb => by
  rw [List.append_assoc, h b _ hb, List.singleton_append, Builder.steps?]
  have : (b.pushAll [p]).step? d (.count c false) = some (b.pushAll [.repeated c p]) := by
    show (if p.repeatable d then some _ else none) = _
    rw [if_pos hp]
    rfl
  rw [this]

/-! ### Texts -/

/-- The text is read as the items wherever it stands, with `k` brackets open at most. -/
def Written (d : Dialect) (s : String) (items : List Pattern) (k : Nat) : Prop :=
  ∃ ts, Token.Lexes d s.toList ts ∧ Reads d ts items k

/-- The text is read as the one item, to which a count may be added. -/
def WrittenAtom (d : Dialect) (s : String) (p : Pattern) (k : Nat) : Prop :=
  ∃ ts, Token.Lexes d s.toList ts ∧ Reads d ts [p] k ∧ ts.getLast?.map Token.endsAtom = some true

/-- The texts with bars between them are read as the branches. -/
def WrittenChoice (d : Dialect) (branches : List String) (items : List (List Pattern)) (k : Nat) :
    Prop :=
  ∃ ts, Token.Lexes d ("|".intercalate branches).toList ts ∧ ReadsChoice d ts items k

variable {s s' : String}

theorem WrittenAtom.written {p : Pattern} (h : WrittenAtom d s p k) : Written d s [p] k := by
  obtain ⟨ts, hl, hr, -⟩ := h
  exact ⟨ts, hl, hr⟩

/-- What is written so has no white space in a count. -/
theorem Written.tight (h : Written .regular s items k) : Token.tight s.toList = true := by
  obtain ⟨ts, hl, -⟩ := h
  exact (Token.tight_iff hl.all).mpr hl.tight

theorem Written.mono (h : Written d s items k) (hk : k ≤ k') : Written d s items k' := by
  obtain ⟨ts, hl, hr⟩ := h
  exact ⟨ts, hl, hr.mono hk⟩

/-- Texts in a row are read as the items of both. -/
theorem Written.append (h : Written d s items k) (h' : Written d s' items' k') :
    Written d (s ++ s') (items ++ items') (max k k') := by
  obtain ⟨ts, hl, hr⟩ := h
  obtain ⟨ts', hl', hr'⟩ := h'
  refine ⟨ts ++ ts', ?_, (hr.mono (le_max_left _ _)).append (hr'.mono (le_max_right _ _))⟩
  rw [String.toList_append]
  exact hl.append hl'

/-- A character written to stand for itself. -/
theorem writtenAtom_char (d : Dialect) (c : Char) :
    WrittenAtom d (String.ofList (Whitelist.escapeChar c)) (.char c) 0 := by
  refine ⟨[.char c], ?_, reads_push fun _ => rfl, rfl⟩
  rw [String.toList_ofList]
  exact Token.lexes_escapeChar d c

/-- A text written to stand for itself. -/
theorem written_escape (d : Dialect) (s : String) :
    Written d (Whitelist.escape s) (s.toList.map .char) 0 := by
  refine ⟨s.toList.map .char, ?_, ?_⟩
  · rw [Whitelist.escape, String.toList_ofList]
    induction s.toList with
    | nil => exact .nil d
    | cons c cs ih => exact (Token.lexes_escapeChar d c).append ih
  · induction s.toList with
    | nil => exact reads_nil d 0
    | cons c cs ih => exact Reads.append (reads_push fun _ => rfl) ih

/-- A class. -/
theorem writtenAtom_chars {set : CharSet} (hs : s.toList.head? ≠ some '?') (hne : s.toList ≠ [])
    (h : ∀ atom rest, Token.next? d atom (s.toList ++ rest) = some (.chars set, rest)) :
    WrittenAtom d s (.chars set) 0 :=
  ⟨[.chars set], .single hs hne rfl h, reads_push fun _ => rfl, rfl⟩

/-- A character as it is. -/
theorem writtenAtom_plain {c : Char} (hs : s.toList.head? ≠ some '?') (hne : s.toList ≠ [])
    (h : ∀ atom rest, Token.next? d atom (s.toList ++ rest) = some (.char c, rest)) :
    WrittenAtom d s (.char c) 0 :=
  ⟨[.char c], .single hs hne rfl h, reads_push fun _ => rfl, rfl⟩

theorem written_start (d : Dialect) : Written d "^" [.start] 0 :=
  ⟨[.start], .single nofun nofun rfl fun _ _ => rfl, reads_push fun _ => rfl⟩

theorem written_stop (d : Dialect) : Written d "$" [.stop] 0 :=
  ⟨[.stop], .single nofun nofun rfl fun _ _ => rfl, reads_push fun _ => rfl⟩

/-- A count after an item.  What the extended dialect lets repeat may be repeated in both. -/
theorem WrittenAtom.counted {p : Pattern} {least : Nat} {most : Option Nat}
    (h : WrittenAtom d s p k) (s' : String) (hp : p.repeatable .extended = true) (hne : s'.toList ≠ [])
    (hc : ∀ rest, Token.next? d true (s'.toList ++ rest) =
      some (Token.ofBounds (least, most) false rest)) :
    Written d (s ++ s') [.repeated ⟨least, most, true⟩ p] k := by
  obtain ⟨ts, hl, hr, hatom⟩ := h
  have hp : p.repeatable d = true := by
    cases d with
    | regular => rfl
    | extended => exact hp
  refine ⟨ts ++ [.count ⟨least, most, true⟩ false], ?_, hr.counted hp _⟩
  rw [String.toList_append]
  refine hl.counted hatom (fun rest hrest => (hc rest).trans ?_) hne
  unfold Token.ofBounds
  split
  · exact absurd rfl hrest
  · rfl

/-- One text is a choice of one. -/
theorem Written.choice (h : Written d s items k) : WrittenChoice d [s] [items] k := by
  obtain ⟨ts, hl, hr⟩ := h
  exact ⟨ts, by rwa [String.toList_intercalate, List.map_singleton, List.intercalate_singleton],
    .single hr⟩

/-- A text before others, with a bar between. -/
theorem WrittenChoice.cons {t : String} {texts : List String} {branches : List (List Pattern)}
    (h : Written d s items k) (h' : WrittenChoice d (t :: texts) branches k') :
    WrittenChoice d (s :: t :: texts) (items :: branches) (max k k') := by
  obtain ⟨ts, hl, hr⟩ := h
  obtain ⟨ts', hl', hr'⟩ := h'
  have hbar : Token.Lexes d "|".toList [.bar] := .single nofun nofun rfl fun _ _ => rfl
  refine ⟨ts ++ .bar :: ts', ?_, .cons (hr.mono (le_max_left _ _)) fun b more hb =>
    hr' b more (by omega)⟩
  rw [String.toList_intercalate] at hl' ⊢
  rw [List.map_cons, List.map_cons, List.intercalate_cons_cons, List.append_assoc]
  exact hl.append (hbar.append hl')

/-- Brackets around a choice make one item. -/
theorem WrittenChoice.group {texts : List String} {branches : List (List Pattern)}
    (h : WrittenChoice d texts branches k) :
    WrittenAtom d ("(?:" ++ "|".intercalate texts ++ ")")
      (.group none (ofBranches (branches.map ofItems))) (k + 1) := by
  obtain ⟨ts, hl, hr⟩ := h
  have hopen : Token.Lexes d "(?:".toList [.opening .plain] := .single nofun nofun rfl fun _ _ => rfl
  have hclose : Token.Lexes d ")".toList [.closing] := .single nofun nofun rfl fun _ _ => rfl
  refine ⟨_, ?_, hr.group, ?_⟩
  · rw [String.toList_append, String.toList_append]
    exact (hopen.append hl).append hclose
  · rw [List.getLast?_append]
    rfl

/-- Brackets around a sequence. -/
theorem Written.group (h : Written d s items k) :
    WrittenAtom d ("(?:" ++ s ++ ")") (.group none (ofItems items)) (k + 1) := by
  have := h.choice.group
  rwa [show "|".intercalate [s] = s from rfl] at this

/-- **A text is read as the alternation of its branches**, if the dialect allows their depth. -/
theorem WrittenChoice.read {texts : List String} {branches : List (List Pattern)}
    (h : WrittenChoice d texts branches k) (hk : k ≤ d.maxOpen)
    (hdepth : (ofBranches (branches.map ofItems)).depth ≤ maxDepth) :
    read? d ("|".intercalate texts) = some (ofBranches (branches.map ofItems)) := by
  obtain ⟨ts, hl, hr⟩ := h
  obtain ⟨level, hlevel, hsteps⟩ := hr {} [] (by simpa using hk) rfl
  replace hlevel : level.pattern = ofBranches (branches.map ofItems) := hlevel
  rw [List.append_nil] at hsteps
  rw [read?, hl.all]
  show (({} : Builder).steps? d ts).bind _ = _
  rw [hsteps, Builder.steps?, Option.bind_some, Builder.finish?]
  simp only [hlevel]
  exact if_pos ⟨rfl, fun _ => hdepth⟩

/-- A text is read as the sequence of its items. -/
theorem Written.read (h : Written d s items k) (hk : k ≤ d.maxOpen)
    (hdepth : (ofItems items).depth ≤ maxDepth) : read? d s = some (ofItems items) :=
  h.choice.read hk hdepth

end Pattern

end MailPattern
