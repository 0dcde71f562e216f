import MailPattern.Proofs.Engine.Threads

/-!
# Proofs — Engine — Latch

The safe engine is loaded at most once, however many threads share the selector and in whatever order
they take their steps (`System.latched`).  No call waits for ever (`System.exists_step`), and what a
thread does alone is what its calls do one after the other (`System.run_alone`).

A run goes through three phases (`System.Phase`).  First nothing is known of the safe engine; then one
thread loads it; and from when it has stored what came of it on, that is known and never changes.  A
thread that has an answer to a request has it from the last phase.
-/

namespace MailPattern

variable {ι : Type} {loader : Loader} {n : Nat}

/-! ### One load -/

/-- What is known once the loader has been called for the `n`th time. -/
def Loader.outcome (loader : Loader) (n : Nat) : Availability :=
  match loader n with
  | .ok () => .available
  | .error _ => .unavailable

/-- What is told of that. -/
def Loader.event (loader : Loader) (n : Nat) : Event :=
  match loader n with
  | .ok () => .loaded
  | .error e => .unavailable e

/-- The selector that knows of the safe engine. -/
def Loader.settled (loader : Loader) (n : Nat) : Selector where
  loader := loader
  availability := loader.outcome n
  loads := n + 1

/-- Once the loader has been called something is known. -/
theorem Loader.outcome_ne (loader : Loader) (n : Nat) : loader.outcome n ≠ .unknown := by
  unfold Loader.outcome
  split <;> nofun

theorem Loader.outcome_eq_available : loader.outcome n = .available ↔ loader n = .ok () := by
  unfold Loader.outcome
  split <;> simp_all

theorem Loader.outcome_eq_unavailable : loader.outcome n = .unavailable ↔ loader n ≠ .ok () := by
  unfold Loader.outcome
  split <;> simp_all

theorem Loader.ofLoading_event (loader : Loader) (n : Nat) : (loader.event n).ofLoading = true := by
  unfold Loader.event
  split <;> rfl

/-- The first request calls the loader, tells of it once, and knows the outcome from then on. -/
theorem Selector.safeEngine_fresh (loader : Loader) (n : Nat) :
    ({ loader, loads := n } : Selector).safeEngine =
      { value := (loader.outcome n = .available, loader.settled n), events := [loader.event n] } := by
  cases hl : loader n <;>
    simp [Selector.safeEngine, Loader.settled, Loader.outcome, Loader.event, hl]

/-! ### What a history tells -/

namespace History

/-- How often loading began. -/
def began : History ι → Nat
  | [] => 0
  | (_, .began) :: h => began h + 1
  | _ :: h => began h

/-- How often an outcome was stored. -/
def stored : History ι → Nat
  | [] => 0
  | (_, .stored) :: h => stored h + 1
  | _ :: h => stored h

/-- What was told, the earliest first. -/
def told : History ι → List Event
  | [] => []
  | (_, .told e) :: h => told h ++ [e]
  | _ :: h => told h

/-- What was told of loading, the earliest first. -/
def toldOfLoading (h : History ι) : List Event := (told h).filter (·.ofLoading)

/-- Somebody requested the safe engine. -/
def Requested (h : History ι) : Prop := ∃ i c, (i, Action.made c) ∈ h ∧ c.requests = true

/-- The action neither begins to load, nor stores an outcome, nor tells of loading. -/
def Silent : Action → Prop
  | .began | .stored => False
  | .told e => e.ofLoading = false
  | _ => True

variable {h : History ι} {i : ι} {a : Action}

/-- A silent action begins no loading. -/
theorem began_silent (ha : Silent a) : began ((i, a) :: h) = began h := by
  cases a <;> first | rfl | exact ha.elim

/-- A silent action stores no outcome. -/
theorem stored_silent (ha : Silent a) : stored ((i, a) :: h) = stored h := by
  cases a <;> first | rfl | exact ha.elim

/-- What is told in two stretches of a history is told in the order of them. -/
theorem told_append (h h' : History ι) : told (h' ++ h) = told h ++ told h' := by
  induction h' with
  | nil => exact (List.append_nil _).symm
  | cons x h' ih =>
    obtain ⟨i, a⟩ := x
    cases a with
    | told e =>
      show told (h' ++ h) ++ [e] = told h ++ (told h' ++ [e])
      rw [ih, List.append_assoc]
    | _ => exact ih

theorem toldOfLoading_told (i : ι) (h : History ι) (e : Event) :
    toldOfLoading ((i, .told e) :: h) = toldOfLoading h ++ [e].filter (·.ofLoading) :=
  List.filter_append ..

/-- A silent action tells nothing of loading. -/
theorem toldOfLoading_silent (ha : Silent a) : toldOfLoading ((i, a) :: h) = toldOfLoading h := by
  cases a with
  | told e =>
    rw [toldOfLoading_told, List.filter_cons_of_neg (Bool.eq_false_iff.mp ha)]
    exact List.append_nil _
  | began | stored => exact ha.elim
  | _ => rfl

end History

namespace System

open History

variable [DecidableEq ι]

/-! ### Phases -/

/-- How far the loading has come. -/
inductive Phase (loader : Loader) (n : Nat) (h : History ι) (s : System ι) : Prop where
  | unasked (hselector : s.selector = { loader, loads := n })
      (hidle : ∀ j, (s.threads j).isLoading = false)
      (hbegan : began h = 0) (hstored : stored h = 0) (htold : toldOfLoading h = [])
  | loading (i : ι) (c : Call) (es : List Event) (hselector : s.selector = { loader, loads := n })
      (hi : s.threads i = .loading c es (loader.settled n))
      (hothers : ∀ j, j ≠ i → (s.threads j).isLoading = false)
      (hbegan : began h = 1) (hstored : stored h = 0) (htold : toldOfLoading h ++ es = [loader.event n])
  | settled (hselector : s.selector = loader.settled n)
      (hidle : ∀ j, (s.threads j).isLoading = false)
      (hbegan : began h = 1) (hstored : stored h = 1) (htold : toldOfLoading h = [loader.event n])

variable {h : History ι} {s s' : System ι} {i : ι} {a : Action} {t : Activity}

/-- A silent step of a thread that does not load leaves the phase as it is. -/
theorem Phase.silent (hp : Phase loader n h s) (ha : Silent a)
    (hi : (s.threads i).isLoading = false) (ht : t.isLoading = false) :
    Phase loader n ((i, a) :: h) (s.put i t) := by
  have hbegan := @began_silent _ h i a ha
  have hstored := @stored_silent _ h i a ha
  have htold := @toldOfLoading_silent _ h i a ha
  cases hp with
  | unasked hselector hidle hb hs ht' =>
    exact .unasked hselector (forall_put (fun _ t => t.isLoading = false) (fun j _ => hidle j) ht)
      (hbegan.trans hb) (hstored.trans hs) (htold.trans ht')
  | loading k c es hselector hk hothers hb hs ht' =>
    have hki : k ≠ i := by
      rintro rfl
      rw [hk] at hi
      cases hi
    refine .loading k c es hselector ((threads_put_of_ne hki).trans hk) ?_ (hbegan.trans hb)
      (hstored.trans hs) (htold.symm ▸ ht')
    exact forall_put (fun j t => j ≠ k → t.isLoading = false) (fun j _ => hothers j) fun _ => ht
  | settled hselector hidle hb hs ht' =>
    exact .settled hselector (forall_put (fun _ t => t.isLoading = false) (fun j _ => hidle j) ht)
      (hbegan.trans hb) (hstored.trans hs) (htold.trans ht')

/-- What is known where a thread loads. -/
theorem Phase.of_loading (hp : Phase loader n h s) {c : Call} {es : List Event} {next : Selector}
    (hi : s.threads i = .loading c es next) :
    s.selector = { loader, loads := n } ∧ next = loader.settled n ∧
      (∀ j, j ≠ i → (s.threads j).isLoading = false) ∧ began h = 1 ∧ stored h = 0 ∧
      toldOfLoading h ++ es = [loader.event n] := by
  have hloading : (s.threads i).isLoading = true := by rw [hi]; rfl
  cases hp with
  | unasked _ hidle | settled _ hidle =>
    rw [hidle i] at hloading
    cases hloading
  | loading k d es' hselector hk hothers hb hs ht =>
    by_cases hik : i = k
    · subst hik
      cases hi.symm.trans hk
      exact ⟨hselector, rfl, hothers, hb, hs, ht⟩
    · rw [hothers i hik] at hloading
      cases hloading

/-- A thread begins to load in the first phase. -/
theorem Phase.began (hp : Phase loader n h s) {c : Call}
    (hunknown : s.selector.availability = .unknown) (halone : ∀ j, (s.threads j).isLoading = false) :
    Phase loader n ((i, .began) :: h)
      (s.put i (.loading c s.selector.safeEngine.events s.selector.safeEngine.value.2)) := by
  cases hp with
  | unasked hselector hidle hb hs ht =>
    rw [hselector, Selector.safeEngine_fresh]
    refine .loading i c _ hselector threads_put_self (fun j hj => ?_) (congrArg (· + 1) hb) hs
      (congrArg (· ++ _) ht)
    rw [threads_put_of_ne hj]
    exact hidle j
  | loading k c es _ hk =>
    have := halone k
    rw [hk] at this
    cases this
  | settled hselector =>
    rw [hselector] at hunknown
    exact absurd hunknown (loader.outcome_ne n)

/-- The thread that loads tells of it, once. -/
theorem Phase.toldLoading (hp : Phase loader n h s) {c : Call} {e : Event} {es : List Event}
    {next : Selector} (hi : s.threads i = .loading c (e :: es) next) :
    Phase loader n ((i, .told e) :: h) (s.put i (.loading c es next)) := by
  obtain ⟨hselector, rfl, hothers, hb, hs, ht⟩ := hp.of_loading hi
  have he : e.ofLoading = true := by
    have : e ∈ toldOfLoading h ++ e :: es := List.mem_append_right _ List.mem_cons_self
    rw [ht, List.mem_singleton] at this
    rw [this]
    exact loader.ofLoading_event n
  refine .loading i c es hselector threads_put_self (fun j hj => ?_) hb hs ?_
  · rw [threads_put_of_ne hj]
    exact hothers j hj
  · rw [toldOfLoading_told, List.filter_cons_of_pos he, List.append_assoc]
    exact ht

/-- With what it has stored the last phase begins. -/
theorem Phase.stored (hp : Phase loader n h s) {c : Call} {next : Selector}
    (hi : s.threads i = .loading c [] next) :
    Phase loader n ((i, .stored) :: h) ((s.put i (.asked c)).store next) := by
  obtain ⟨-, rfl, hothers, hb, hs, ht⟩ := hp.of_loading hi
  refine .settled rfl ?_ hb (congrArg (· + 1) hs) ((List.append_nil _).symm.trans ht)
  exact forall_put (fun _ t => t.isLoading = false) hothers rfl

/-! ### Threads -/

/-- An answer to a request comes from the last phase. -/
def Justified (loader : Loader) (n : Nat) (selector : Selector) (c : Call) (answer : Answer) : Prop :=
  c.requests = true →
    selector = loader.settled n ∧ answer = (c.run (loader.settled n)).value.1

/-- What a thread does comes of a call that it has made.  Who loads has a request, and who has an
answer tells nothing of loading. -/
def Fits (loader : Loader) (n : Nat) (h : History ι) (selector : Selector) (i : ι) : Activity → Prop
  | .idle => True
  | .asked c => (i, .made c) ∈ h
  | .loading c _ _ => (i, .made c) ∈ h ∧ c.requests = true
  | .telling c answer events =>
    (i, .made c) ∈ h ∧ (∀ e ∈ events, e.ofLoading = false) ∧ Justified loader n selector c answer

/-- What holds of all systems that a run comes to. -/
structure Sound (loader : Loader) (n : Nat) (h : History ι) (s : System ι) : Prop where
  phase : Phase loader n h s
  threads : ∀ i, Fits loader n h s.selector i (s.threads i)
  requested : 0 < began h → Requested h
  returned : ∀ i c answer, (i, Action.returned c answer) ∈ h →
    Justified loader n s.selector c answer
  pending : ∀ i c, (i, Action.made c) ∈ h →
    (s.threads i).call? = some c ∨ ∃ answer, (i, Action.returned c answer) ∈ h

/-- An answer stays justified while the selector keeps what it has settled. -/
theorem Justified.mono {sel sel' : Selector} {c : Call} {answer : Answer}
    (hsel : sel = loader.settled n → sel' = loader.settled n)
    (h : Justified loader n sel c answer) : Justified loader n sel' c answer :=
  fun hc => ⟨hsel (h hc).1, (h hc).2⟩

omit [DecidableEq ι] in
/-- What a thread does fits a longer history too. -/
theorem Fits.mono {h' : History ι} {sel sel' : Selector} (hh : ∀ x ∈ h, x ∈ h')
    (hsel : sel = loader.settled n → sel' = loader.settled n) (hf : Fits loader n h sel i t) :
    Fits loader n h' sel' i t := by
  cases t with
  | idle => trivial
  | asked c => exact hh _ hf
  | loading c es next => exact ⟨hh _ hf.1, hf.2⟩
  | telling c answer es => exact ⟨hh _ hf.1, hf.2.1, hf.2.2.mono hsel⟩

/-- What a step has to keep: the phase, and what holds of the thread that takes it. -/
theorem Sound.next (hs : Sound loader n h s) (hphase : Phase loader n ((i, a) :: h) s')
    (hthreads : s'.threads = (s.put i t).threads)
    (hselector : s.selector = loader.settled n → s'.selector = loader.settled n)
    (hfits : Fits loader n ((i, a) :: h) s'.selector i t)
    (hrequested : a = .began → Requested h)
    (hreturned : ∀ c answer, a = .returned c answer → Justified loader n s'.selector c answer)
    (hpending : ∀ c, (s.threads i).call? = some c ∨ a = .made c →
      t.call? = some c ∨ ∃ answer, a = .returned c answer) :
    Sound loader n ((i, a) :: h) s' := by
  have hcons : ∀ x ∈ h, x ∈ (i, a) :: h := fun x hx => List.mem_cons_of_mem _ hx
  refine ⟨hphase, ?_, fun hb => ?_, fun j c answer hj => ?_, fun j c hj => ?_⟩
  · rw [hthreads]
    exact forall_put (fun j t => Fits loader n _ s'.selector j t)
      (fun j _ => (hs.threads j).mono hcons hselector) hfits
  · have hbefore : Requested h := by
      cases a with
      | began => exact hrequested rfl
      | _ => exact hs.requested hb
    obtain ⟨j, c, hc, hrequests⟩ := hbefore
    exact ⟨j, c, hcons _ hc, hrequests⟩
  · rcases List.mem_cons.mp hj with hj | hj
    · cases hj
      exact hreturned c answer rfl
    · exact (hs.returned j c answer hj).mono hselector
  · rw [hthreads]
    by_cases hji : j = i
    · subst hji
      rw [threads_put_self]
      have hmade : (s.threads j).call? = some c ∨ a = .made c ∨
          ∃ answer, (j, Action.returned c answer) ∈ h := by
        rcases List.mem_cons.mp hj with hj | hj
        · cases hj
          exact .inr (.inl rfl)
        · exact (hs.pending j c hj).imp_right .inr
      rcases or_assoc.mpr hmade with hmade | ⟨answer, hmem⟩
      · refine (hpending c hmade).imp_right ?_
        rintro ⟨answer, rfl⟩
        exact ⟨answer, List.mem_cons_self⟩
      · exact .inr ⟨answer, hcons _ hmem⟩
    · rw [threads_put_of_ne hji]
      have hmem : (j, Action.made c) ∈ h := by
        rcases List.mem_cons.mp hj with hj | hj
        · cases hj
          exact absurd rfl hji
        · exact hj
      exact (hs.pending j c hmem).imp_right fun ⟨answer, hmem⟩ => ⟨answer, hcons _ hmem⟩

/-- **Every step keeps what holds of a run.** -/
theorem Sound.step (hs : Sound loader n h s) (hstep : Step s i a s') :
    Sound loader n ((i, a) :: h) s' := by
  have hthread := hs.threads i
  have hnot {t : Activity} (hi : s.threads i = t) (ht : t.isLoading = false) :
      (s.threads i).isLoading = false := hi ▸ ht
  -- a call that was made is pending until it returns
  have hkept {t t' : Activity} (hi : s.threads i = t) (ht : t.call? = t'.call?)
      (ha : ∀ c, a ≠ .made c) : ∀ c, (s.threads i).call? = some c ∨ a = .made c →
        t'.call? = some c ∨ ∃ answer, a = .returned c answer := by
    rintro c (hc | hc)
    · rw [hi, ht] at hc
      exact .inl hc
    · exact absurd hc (ha c)
  cases hstep with
  | made c hi =>
    have hp := hs.phase.silent (a := .made c) trivial (hnot hi rfl) (t := .asked c) rfl
    refine hs.next (t := .asked c) hp rfl id List.mem_cons_self nofun (fun _ _ => nofun) ?_
    rintro d (hd | hd)
    · rw [hi] at hd
      cases hd
    · cases hd
      exact .inl rfl
  | @began c hi hc hunknown halone =>
    rw [hi] at hthread
    refine hs.next (t := .loading c _ _) (hs.phase.began hunknown halone) rfl id
      ⟨List.mem_cons_of_mem _ hthread, hc⟩ (fun _ => ⟨i, c, hthread, hc⟩) (fun _ _ => nofun)
      (hkept hi rfl fun _ => nofun)
  | @toldLoading c e es next hi =>
    rw [hi] at hthread
    refine hs.next (t := .loading c es next) (hs.phase.toldLoading hi) rfl id
      ⟨List.mem_cons_of_mem _ hthread.1, hthread.2⟩ nofun (fun _ _ => nofun)
      (hkept hi rfl fun _ => nofun)
  | @stored c next hi =>
    rw [hi] at hthread
    refine hs.next (t := .asked c) (hs.phase.stored hi) rfl
      (fun _ => (hs.phase.of_loading hi).2.1) (List.mem_cons_of_mem _ hthread.1) nofun (fun _ _ => nofun)
      (hkept hi rfl fun _ => nofun)
  | @answered c hi hc =>
    rw [hi] at hthread
    have hquiet := Call.run_quiet hc
    rw [hquiet.selector, ← put_store, store_selector]
    have hjustified : Justified loader n s.selector c (c.run s.selector).value.1 := by
      intro hrequests
      cases hs.phase with
      | unasked hselector | loading _ _ _ hselector =>
        exact absurd (congrArg Selector.availability hselector) (hc hrequests)
      | settled hselector => exact ⟨hselector, by rw [hselector]⟩
    have hp := hs.phase.silent (a := .answered) trivial (hnot hi rfl)
      (t := .telling c (c.run s.selector).value.1 (c.run s.selector).events) rfl
    refine hs.next (t := .telling c _ _) hp rfl id
      ⟨List.mem_cons_of_mem _ hthread, hquiet.events, hjustified⟩ nofun (fun _ _ => nofun)
      (hkept hi rfl fun _ => nofun)
  | @told c answer e es hi =>
    rw [hi] at hthread
    obtain ⟨hmade, hevents, hjustified⟩ := hthread
    obtain ⟨he, hevents⟩ := List.forall_mem_cons.mp hevents
    have hp := hs.phase.silent (a := .told e) he (hnot hi rfl) (t := .telling c answer es) rfl
    refine hs.next (t := .telling c answer es) hp rfl id
      ⟨List.mem_cons_of_mem _ hmade, hevents, hjustified⟩ nofun (fun _ _ => nofun)
      (hkept hi rfl fun _ => nofun)
  | @returned c answer hi =>
    rw [hi] at hthread
    have hp := hs.phase.silent (a := .returned c answer) trivial (hnot hi rfl) (t := .idle) rfl
    refine hs.next (t := .idle) hp rfl id trivial nofun ?_ ?_
    · intro d b h
      cases h
      exact hthread.2.2
    · rintro d (hd | hd)
      · rw [hi] at hd
        cases hd
        exact .inr ⟨answer, rfl⟩
      · cases hd

/-! ### Runs -/

/-- Every system that a run comes to is sound. -/
theorem Run.sound (hrun : Run (fresh ι loader n) h s) : Sound loader n h s := by
  induction hrun with
  | start =>
    exact ⟨.unasked rfl (fun _ => rfl) rfl rfl rfl, fun _ => trivial, nofun, fun _ _ _ => nofun,
      fun _ _ => nofun⟩
  | step _ hstep ih => exact ih.step hstep

/-- Only to store an outcome changes the selector, and only when nothing was known. -/
theorem Sound.selector_step (hs : Sound loader n h s) (hstep : Step s i a s') :
    s'.selector = s.selector ∨ a = .stored ∧ s.selector.availability = .unknown := by
  cases hstep with
  | stored hi => exact .inr ⟨rfl, congrArg Selector.availability (hs.phase.of_loading hi).1⟩
  | answered hi hc => exact .inl (Call.run_quiet hc).selector
  | _ => exact .inl rfl

/-- What is known of the safe engine no run changes. -/
theorem Sound.selector_run (hs : Sound loader n h s) (hknown : s.selector.availability ≠ .unknown)
    {h' : History ι} (hrun : Run s h' s') : s'.selector = s.selector := by
  have key : Sound loader n (h' ++ h) s' ∧ s'.selector = s.selector := by
    induction hrun with
    | start => exact ⟨hs, rfl⟩
    | step _ hstep ih =>
      refine ⟨ih.1.step hstep, ?_⟩
      rcases ih.1.selector_step hstep with heq | ⟨-, hunknown⟩
      · exact heq.trans ih.2
      · exact absurd (ih.2 ▸ hunknown) hknown
  exact key.2

/-- What a run makes of a selector of which nothing was known. -/
structure Latched (loader : Loader) (n : Nat) (h : History ι) (s : System ι) : Prop where
  /-- Loading begins once at most, and its outcome is stored once at most. -/
  once : stored h ≤ began h ∧ began h ≤ 1
  /-- It begins only if somebody requests the safe engine. -/
  requested : 0 < began h → Requested h
  /-- Once all calls have returned it has been done if somebody has. -/
  served : (∀ i, s.threads i = .idle) → Requested h → stored h = 1
  /-- The selector knows the outcome from when it is stored on, and counts one call of the loader. -/
  selector : s.selector = if stored h = 0 then { loader, loads := n } else loader.settled n
  /-- The safe engine is there exactly if that call was successful. -/
  available : s.selector.availability = .available ↔ stored h = 1 ∧ loader n = .ok ()
  unavailable : s.selector.availability = .unavailable ↔ stored h = 1 ∧ loader n ≠ .ok ()
  /-- Nothing but an outcome stored where nothing was known changes the selector. -/
  changed : ∀ i a s', Step s i a s' → s'.selector ≠ s.selector →
    a = .stored ∧ s.selector.availability = .unknown
  /-- What is known stays known. -/
  forever : s.selector.availability ≠ .unknown → ∀ h' s', Run s h' s' → s'.selector = s.selector
  /-- Who has requested the safe engine gets the answer of the call of the loader. -/
  answered : ∀ i c answer, (i, Action.returned c answer) ∈ h → c.requests = true →
    stored h = 1 ∧ answer = (c.run (loader.settled n)).value.1
  /-- Loading is told of once. -/
  told : toldOfLoading h <+: [loader.event n] ∧ (stored h = 1 → toldOfLoading h = [loader.event n])

/-- **A shared selector loads the safe engine once at most, and keeps the outcome**, for any number of
threads and any order of their steps. -/
theorem latched (hrun : Run (fresh ι loader n) h s) : Latched loader n h s := by
  have hs := hrun.sound
  have hstored : s.selector = loader.settled n → stored h = 1 := by
    intro hselector
    cases hs.phase with
    | unasked hfresh | loading _ _ _ hfresh =>
      have := congrArg Selector.availability (hfresh.symm.trans hselector)
      exact absurd this.symm (loader.outcome_ne n)
    | settled _ _ _ hstored => exact hstored
  have hanswered : ∀ i c answer, (i, Action.returned c answer) ∈ h → c.requests = true →
      stored h = 1 ∧ answer = (c.run (loader.settled n)).value.1 := by
    intro i c answer hmem hc
    obtain ⟨hselector, hanswer⟩ := hs.returned i c answer hmem hc
    exact ⟨hstored hselector, hanswer⟩
  refine
    { once := ?_, requested := hs.requested, served := ?_, selector := ?_, available := ?_
      unavailable := ?_, changed := ?_, forever := fun hknown h' s' => hs.selector_run hknown
      answered := hanswered, told := ?_ }
  · cases hs.phase <;> omega
  · rintro hidle ⟨i, c, hmade, hc⟩
    rcases hs.pending i c hmade with hpending | ⟨answer, hmem⟩
    · rw [hidle i] at hpending
      cases hpending
    · exact (hanswered i c answer hmem hc).1
  · cases hs.phase with
    | unasked hselector _ _ h0 | loading _ _ _ hselector _ _ _ h0 => rw [h0, hselector]; rfl
    | settled hselector _ _ h1 => rw [h1, hselector]; rfl
  · cases hs.phase with
    | unasked hselector _ _ h0 | loading _ _ _ hselector _ _ _ h0 =>
      rw [hselector, h0]
      exact ⟨nofun, fun h => absurd h.1 (by decide)⟩
    | settled hselector _ _ h1 =>
      rw [hselector, h1]
      exact Loader.outcome_eq_available.trans (and_iff_right rfl).symm
  · cases hs.phase with
    | unasked hselector _ _ h0 | loading _ _ _ hselector _ _ _ h0 =>
      rw [hselector, h0]
      exact ⟨nofun, fun h => absurd h.1 (by decide)⟩
    | settled hselector _ _ h1 =>
      rw [hselector, h1]
      exact Loader.outcome_eq_unavailable.trans (and_iff_right rfl).symm
  · intro i a s' hstep hne
    exact (hs.selector_step hstep).resolve_left hne
  · cases hs.phase with
    | unasked _ _ _ h0 ht =>
      rw [ht, h0]
      exact ⟨List.nil_prefix, nofun⟩
    | loading _ _ es _ _ _ _ h0 ht =>
      rw [h0]
      exact ⟨⟨es, ht⟩, nofun⟩
    | settled _ _ _ _ ht => exact ⟨ht ▸ List.prefix_refl _, fun _ => ht⟩

/-- A thread that asks for the safe engine while another loads it, in vain, learns that it is not there,
though another call of the loader would find it. -/
theorem latched_waiting : ∃ (h : History Bool) (s : System Bool),
    Run (fresh Bool (.script [.error .disabled, .ok ()]) 0) h s ∧
      Latched (.script [.error .disabled, .ok ()]) 0 h s ∧
      (true, .returned .safeEngine (.safeEngine false)) ∈ h ∧
      s.selector.availability = .unavailable := by
  have h₀ : Run (fresh Bool (.script [.error .disabled, .ok ()]) 0) [] _ := .start
  have h₁ := h₀.step (.made (i := false) (.select true) rfl)
  have h₂ := h₁.step (.began (i := false) (c := .select true) rfl rfl rfl fun j => by cases j <;> rfl)
  have h₃ := h₂.step (.made (i := true) .safeEngine rfl)
  have h₄ := h₃.step (.toldLoading (i := false) (c := .select true) rfl)
  have h₅ := h₄.step (.stored (i := false) (c := .select true) rfl)
  have h₆ := h₅.step (.answered (i := true) (c := .safeEngine) rfl fun _ => by decide)
  have h₇ := h₆.step (.returned (i := true) (c := .safeEngine) rfl)
  exact ⟨_, _, h₇, latched h₇, List.mem_cons_self, rfl⟩

/-- Some thread that has made a call can go on with it, if there is one. -/
theorem exists_step (hi : s.threads i ≠ .idle) :
    ∃ j a s', Step s j a s' ∧ ∀ c, a ≠ .made c := by
  have load {j : ι} (hj : (s.threads j).isLoading = true) :
      ∃ j a s', Step s j a s' ∧ ∀ c, a ≠ .made c := by
    cases hthread : s.threads j with
    | loading c es next =>
      cases es with
      | nil => exact ⟨j, _, _, .stored hthread, fun _ => nofun⟩
      | cons e es => exact ⟨j, _, _, .toldLoading hthread, fun _ => nofun⟩
    | _ =>
      rw [hthread] at hj
      cases hj
  cases hthread : s.threads i with
  | idle => exact absurd hthread hi
  | loading c es next => exact load (hthread ▸ rfl : (s.threads i).isLoading = true)
  | telling c answer es =>
    cases es with
    | nil => exact ⟨i, _, _, .returned hthread, fun _ => nofun⟩
    | cons e es => exact ⟨i, _, _, .told hthread, fun _ => nofun⟩
  | asked c =>
    by_cases hc : c.requests = true ∧ s.selector.availability = .unknown
    · by_cases halone : ∀ j, (s.threads j).isLoading = false
      · exact ⟨i, _, _, .began hthread hc.1 hc.2 halone, fun _ => nofun⟩
      · obtain ⟨j, hj⟩ := not_forall.mp halone
        exact load (Bool.not_eq_false _ |>.mp hj)
    · exact ⟨i, _, _, .answered hthread fun hr hu => hc ⟨hr, hu⟩, fun _ => nofun⟩

/-! ### One thread alone -/

/-- A thread tells what it has to tell, and returns. -/
theorem run_telling {c : Call} {answer : Answer} {es : List Event}
    (hi : s.threads i = .telling c answer es) :
    ∃ h, Run s h (s.put i .idle) ∧ told h = es ∧ (i, .returned c answer) ∈ h := by
  induction es generalizing s with
  | nil => exact ⟨_, .step .start (.returned hi), rfl, List.mem_cons_self⟩
  | cons e es ih =>
    obtain ⟨h, hrun, htold, hmem⟩ := ih (s := s.put i (.telling c answer es)) threads_put_self
    rw [put_put] at hrun
    refine ⟨h ++ [(i, .told e)], (Run.step .start (.told hi)).trans hrun, ?_,
      List.mem_append_left _ hmem⟩
    rw [told_append, htold]
    rfl

/-- A thread that loads tells of it, and stores what came of it. -/
theorem run_loading {c : Call} {es : List Event} {next : Selector}
    (hi : s.threads i = .loading c es next) :
    ∃ h, Run s h ((s.put i (.asked c)).store next) ∧ told h = es := by
  induction es generalizing s with
  | nil => exact ⟨_, .step .start (.stored hi), rfl⟩
  | cons e es ih =>
    obtain ⟨h, hrun, htold⟩ := ih (s := s.put i (.loading c es next)) threads_put_self
    rw [put_put] at hrun
    refine ⟨h ++ [(i, .told e)], (Run.step .start (.toldLoading hi)).trans hrun, ?_⟩
    rw [told_append, htold]
    rfl

/-- A thread that need not load answers as it does alone. -/
theorem run_asked {c : Call} (hi : s.threads i = .asked c)
    (hc : c.requests = true → s.selector.availability ≠ .unknown) :
    ∃ h, Run s h ((s.put i .idle).store (c.run s.selector).value.2) ∧
      told h = (c.run s.selector).events ∧ (i, .returned c (c.run s.selector).value.1) ∈ h := by
  have hanswered := Run.step .start (Step.answered hi hc)
  obtain ⟨h, hrun, htold, hmem⟩ := run_telling (i := i)
    (s := (s.put i (.telling c (c.run s.selector).value.1 (c.run s.selector).events)).store
      (c.run s.selector).value.2) threads_put_self
  rw [put_store, put_put] at hrun
  refine ⟨h ++ [(i, .answered)], hanswered.trans hrun, ?_, List.mem_append_left _ hmem⟩
  rw [told_append, htold]
  rfl

/-- **A call of one thread alone answers, tells and leaves the selector as `Call.run` says.** -/
theorem run_alone (hidle : ∀ j, s.threads j = .idle) (i : ι) (c : Call) :
    ∃ h, Run s h (s.store (c.run s.selector).value.2) ∧
      told h = (c.run s.selector).events ∧ (i, .returned c (c.run s.selector).value.1) ∈ h := by
  have hmade : Run s [(i, .made c)] (s.put i (.asked c)) := .step .start (.made c (hidle i))
  have hback : s.put i .idle = s := by
    rw [← hidle i]
    exact congrArg (System.mk s.selector) (Function.update_eq_self i s.threads)
  by_cases hc : c.requests = true ∧ s.selector.availability = .unknown
  · -- the call begins to load, and goes on with what it has stored
    have halone : ∀ j, ((s.put i (.asked c)).threads j).isLoading = false :=
      forall_put (fun _ t => t.isLoading = false) (fun j _ => by rw [hidle j]; rfl) rfl
    have hbegan : Run s [(i, .began), (i, .made c)] (s.put i (.loading c
        s.selector.safeEngine.events s.selector.safeEngine.value.2)) :=
      put_put (s := s) ▸ Run.step hmade (.began threads_put_self hc.1 hc.2 halone)
    obtain ⟨h₁, hloading, htold₁⟩ := run_loading (i := i) (c := c) (s := s.put i (.loading c
      s.selector.safeEngine.events s.selector.safeEngine.value.2)) threads_put_self
    obtain ⟨h₂, hrun, htold₂, hmem⟩ := run_asked (i := i) (c := c)
      (s := (s.put i (.asked c)).store s.selector.safeEngine.value.2) threads_put_self
      fun _ => Selector.safeEngine_known s.selector
    rw [put_put] at hloading
    rw [put_store, put_put, hback, store_store] at hrun
    obtain ⟨hvalue, hevents⟩ := Call.run_unknown hc.1 hc.2
    rw [hvalue, hevents]
    refine ⟨_, (hbegan.trans hloading).trans hrun, ?_, List.mem_append_left _ hmem⟩
    rw [told_append, told_append, htold₁, htold₂]
    rfl
  · obtain ⟨h, hrun, htold, hmem⟩ := run_asked (s := s.put i (.asked c)) threads_put_self
      fun hr hu => hc ⟨hr, hu⟩
    rw [put_put, hback] at hrun
    refine ⟨h ++ [(i, .made c)], hmade.trans hrun, ?_, List.mem_append_left _ hmem⟩
    rw [told_append]
    exact htold

end System

end MailPattern
