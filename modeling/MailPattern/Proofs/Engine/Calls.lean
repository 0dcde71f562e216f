import MailPattern.Engine.Build

/-!
# Proofs — Engine — Calls

What may be asked of a selector, as one kind of call (`Call`), and what each call does to it.  A call
that does not request the safe engine, or finds it loaded or missing, leaves the selector as it is and
tells nothing of loading (`Call.run_quiet`).  One that requests it for the first time loads it, and
goes on as if it had been loaded before (`Call.run_unknown`).
-/

namespace MailPattern

/-- What may be asked of a selector. -/
inductive Call where
  | availability
  | safeEngine
  | select (useSafe : Bool)
  | compile (pattern : String) (flags : Flags) (useSafe : Bool)
  | compileWith (options : Options)
  | buildWith (options : Options)

/-- What a call answers. -/
inductive Answer where
  | availability (availability : Availability)
  | safeEngine (there : Bool)
  | engine (engine : Engine)
  | regex (result : Except BuildError Regex)
  | output (result : Except BuildError Output)

/-- The event tells of loading. -/
def Event.ofLoading : Event → Bool
  | .loaded | .unavailable _ => true
  | _ => false

namespace Call

/-- The answer of a call that is alone with the selector. -/
def run : Call → Selector → Logged (Answer × Selector)
  | .availability, s => pure (.availability s.availability, s)
  | .safeEngine, s => do
    let (there, s) ← s.safeEngine
    pure (.safeEngine there, s)
  | .select useSafe, s => do
    let (engine, s) ← s.select useSafe
    pure (.engine engine, s)
  | .compile pattern flags useSafe, s => do
    let (result, s) ← s.compile pattern flags useSafe
    pure (.regex result, s)
  | .compileWith o, s => do
    let (result, s) ← o.compile s
    pure (.regex result, s)
  | .buildWith o, s => do
    let (result, s) ← o.build s
    pure (.output result, s)

/-- The call requests the safe engine. -/
def requests : Call → Bool
  | .availability => false
  | .safeEngine => true
  | .select useSafe | .compile _ _ useSafe => useSafe
  | .compileWith o => o.useSafeEngine
  | .buildWith o => !o.returnPatternOnly && o.useSafeEngine

end Call

namespace Selector

variable {α β : Type} {s : Selector}

/-- The selector stays as it is, and nothing is told of loading. -/
structure Quiet (s : Selector) (x : Logged (α × Selector)) : Prop where
  selector : x.value.2 = s
  events : ∀ e ∈ x.events, e.ofLoading = false

theorem Quiet.after {x : Logged α} {f : α → Logged (β × Selector)}
    (hx : ∀ e ∈ x.events, e.ofLoading = false) (hf : Quiet s (f x.value)) : Quiet s (x >>= f) :=
  ⟨hf.selector, List.forall_mem_append.mpr ⟨hx, hf.events⟩⟩

theorem Quiet.bind {x : Logged (α × Selector)} {f : α × Selector → Logged (β × Selector)}
    (hx : Quiet s x) (hf : ∀ a, Quiet s (f (a, s))) : Quiet s (x >>= f) := by
  have hvalue : x.value = (x.value.1, s) := Prod.ext rfl hx.selector
  refine .after hx.events ?_
  rw [hvalue]
  exact hf x.value.1

theorem quiet_pure (s : Selector) (a : α) : Quiet s (pure (a, s)) := ⟨rfl, nofun⟩

/-- What is known of the safe engine is answered. -/
theorem quiet_safeEngine (h : s.availability ≠ .unknown) : Quiet s s.safeEngine := by
  unfold safeEngine
  split
  · exact ⟨rfl, nofun⟩
  · exact ⟨rfl, nofun⟩
  · exact absurd ‹_› h

/-- Once it has been asked for, it is known whether the safe engine is there. -/
theorem safeEngine_known (s : Selector) : s.safeEngine.value.2.availability ≠ .unknown := by
  unfold safeEngine
  split
  · simp_all
  · simp_all
  · split <;> nofun

/-- To compile tells nothing of loading. -/
theorem ofLoading_compile (engine : Engine) (pattern : String) (flags : Flags) :
    ∀ e ∈ (engine.compile pattern flags).events, e.ofLoading = false := by
  unfold Engine.compile
  split
  · nofun
  · exact List.forall_mem_singleton.mpr rfl

/-- A selection is quiet once the safe engine is known, or if it is not asked for. -/
theorem quiet_select {useSafe : Bool} (h : useSafe = true → s.availability ≠ .unknown) :
    Quiet s (s.select useSafe) := by
  cases useSafe with
  | false => exact ⟨rfl, nofun⟩
  | true => exact (quiet_safeEngine (h rfl)).bind fun _ => quiet_pure s _

/-- Compiling leaves the selector as selecting does, whatever the engines make of the pattern. -/
theorem quiet_compile {useSafe : Bool} (h : useSafe = true → s.availability ≠ .unknown)
    (pattern : String) (flags : Flags) : Quiet s (s.compile pattern flags useSafe) := by
  refine (quiet_select h).bind fun engine => .after (ofLoading_compile engine pattern flags) ?_
  split
  · refine .after (List.forall_mem_singleton.mpr rfl) (.after (ofLoading_compile _ _ _) ?_)
    exact quiet_pure s _
  · exact quiet_pure s _

/-- What is asked of the selector is answered as after loading, once loading has been told. -/
def AsLoaded (s : Selector) (f : Selector → Logged α) : Prop :=
  (f s).value = (f s.safeEngine.value.2).value ∧
    (f s).events = s.safeEngine.events ++ (f s.safeEngine.value.2).events

theorem AsLoaded.bind {f : Selector → Logged α} (h : AsLoaded s f) (k : α → Logged β) :
    AsLoaded s fun s => f s >>= k := by
  unfold AsLoaded
  simp only [Logged.value_bind, Logged.events_bind, h.1, h.2, List.append_assoc, and_self]

theorem asLoaded_safeEngine (h : s.availability = .unknown) : AsLoaded s safeEngine := by
  obtain ⟨loader, availability, loads⟩ := s
  subst h
  cases hl : loader loads <;> simp [AsLoaded, safeEngine, hl]

theorem asLoaded_select (h : s.availability = .unknown) : AsLoaded s (·.select true) :=
  (asLoaded_safeEngine h).bind _

/-- The first request to compile loads the engine, and then compiles as if that had been known. -/
theorem asLoaded_compile (h : s.availability = .unknown) (pattern : String) (flags : Flags) :
    AsLoaded s (·.compile pattern flags true) :=
  (asLoaded_select h).bind _

end Selector

namespace Call

variable {c : Call} {s : Selector}

open Selector

/-- **A call that does not ask for what is unknown changes nothing**, whatever comes of it. -/
theorem run_quiet (h : c.requests = true → s.availability ≠ .unknown) : Quiet s (c.run s) := by
  cases c with
  | availability => exact quiet_pure s _
  | safeEngine => exact (quiet_safeEngine (h rfl)).bind fun _ => quiet_pure s _
  | select useSafe => exact (quiet_select h).bind fun _ => quiet_pure s _
  | compile pattern flags useSafe => exact (quiet_compile h pattern flags).bind fun _ => quiet_pure s _
  | compileWith o => exact (quiet_compile h _ _).bind fun _ => quiet_pure s _
  | buildWith o =>
    refine Quiet.bind ?_ fun _ => quiet_pure s _
    unfold Options.build
    cases ho : o.returnPatternOnly with
    | true => exact quiet_pure s _
    | false =>
      refine (quiet_compile (fun hu => h ?_) _ _).bind fun _ => quiet_pure s _
      simp [requests, ho, hu]

/-- **A call that requests the safe engine first loads it**, and then answers as if it had been
loaded. -/
theorem run_unknown (h : c.requests = true) (hs : s.availability = .unknown) :
    AsLoaded s c.run := by
  cases c with
  | availability => cases h
  | safeEngine => exact (asLoaded_safeEngine hs).bind _
  | select useSafe =>
    obtain rfl : useSafe = true := h
    exact (asLoaded_select hs).bind _
  | compile pattern flags useSafe =>
    obtain rfl : useSafe = true := h
    exact (asLoaded_compile hs pattern flags).bind _
  | compileWith o =>
    have hcompile := asLoaded_compile hs o.compileArgs.1 o.compileArgs.2
    rw [← show o.useSafeEngine = true from h] at hcompile
    exact hcompile.bind _
  | buildWith o =>
    obtain ⟨hpattern, huse⟩ := Bool.and_eq_true_iff.mp h
    have hcompile := asLoaded_compile hs o.compileArgs.1 o.compileArgs.2
    rw [← huse] at hcompile
    refine AsLoaded.bind ?_ _
    unfold Options.build
    rw [Bool.not_eq_true'] at hpattern
    simp only [hpattern]
    exact hcompile.bind _

end Call

end MailPattern
