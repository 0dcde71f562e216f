import MailPattern.Proofs.Address.Light
import MailPattern.Proofs.Engine.Latch

/-!
# Proofs — Engine — Building

What comes of building with options, whatever they are and whatever the selector has been asked before
(`Options.built`).  A selector that starts out knowing nothing of the safe engine goes through two
states only (`Selector.Reached`): it knows nothing still, or it knows what came of the one load.  In
both the engine it gives depends on that load alone (`Selector.Reached.select`).

Both engines read the pattern of an address as the same tree, so the engine selected takes it and
nothing is tried again, unless the pattern is too heavy.
-/

namespace MailPattern

variable {loader : Loader} {n : Nat} {s : Selector}

/-! ### Selectors -/

/-- The engine that compiles, given what came of the `n`th call of the loader. -/
def Loader.engine (loader : Loader) (n : Nat) (useSafe : Bool) : Engine :=
  if useSafe = true ∧ loader.outcome n = .available then .safe else .fallback

/-- The safe engine is taken if it is asked for and its loading succeeds. -/
theorem Loader.engine_eq_safe {useSafe : Bool} :
    loader.engine n useSafe = .safe ↔ useSafe = true ∧ loader n = .ok () := by
  rw [Loader.engine, ← Loader.outcome_eq_available]
  split
  · exact iff_of_true rfl ‹_›
  · exact iff_of_false nofun ‹_›

namespace Selector

/-- Asked again, the selector answers what it knows. -/
theorem safeEngine_settled (loader : Loader) (n : Nat) :
    (loader.settled n).safeEngine =
      { value := (loader.outcome n = .available, loader.settled n) } := by
  cases hl : loader n <;> simp [safeEngine, Loader.settled, Loader.outcome, hl]

/-- The selector after these calls, one after the other. -/
def after (s : Selector) : List Call → Selector
  | [] => s
  | c :: calls => (c.run s).value.2.after calls

/-- The selectors that calls lead to. -/
inductive Reached (loader : Loader) (n : Nat) : Selector → Prop where
  | fresh : Reached loader n { loader, loads := n }
  | settled : Reached loader n (loader.settled n)

namespace Reached

/-- **A call that requests the safe engine settles the selector, and any other leaves it.** -/
theorem run (h : Reached loader n s) (c : Call) :
    (c.run s).value.2 = if c.requests = true then loader.settled n else s := by
  have hsettled : (c.run (loader.settled n)).value.2 = loader.settled n :=
    (Call.run_quiet fun _ => loader.outcome_ne n).selector
  split
  · cases h with
    | fresh =>
      rw [(Call.run_unknown ‹_› rfl).1, safeEngine_fresh]
      exact hsettled
    | settled => exact hsettled
  · exact (Call.run_quiet fun hc => absurd hc ‹_›).selector

theorem next (h : Reached loader n s) (c : Call) : Reached loader n (c.run s).value.2 := by
  rw [h.run]
  split
  · exact .settled
  · exact h

theorem after (h : Reached loader n s) (calls : List Call) : Reached loader n (s.after calls) := by
  induction calls generalizing s with
  | nil => exact h
  | cons c calls ih => exact ih (h.next c)

/-- The engine depends on the one load; who requests the safe engine first tells of that. -/
theorem select (h : Reached loader n s) (useSafe : Bool) :
    s.select useSafe =
      { value := (loader.engine n useSafe, if useSafe = true then loader.settled n else s)
        events := if useSafe = true ∧ s.availability = .unknown then [loader.event n] else [] } := by
  cases useSafe with
  | false => rfl
  | true =>
    cases h with
    | fresh => simp [Selector.select, safeEngine_fresh, Loader.engine, bind, Logged.bind, pure]
    | settled =>
      have hne : (loader.settled n).availability ≠ .unknown := loader.outcome_ne n
      simp [Selector.select, safeEngine_settled, Loader.engine, hne, bind, Logged.bind, pure]

/-- The state changes only where nothing was known. -/
theorem availability_of_ne (h : Reached loader n s) (hs : loader.settled n ≠ s) :
    s.availability = .unknown := by
  cases h with
  | fresh => rfl
  | settled => exact absurd rfl hs

end Reached

end Selector

/-! ### Building -/

/-- An engine that takes a pattern tells of that. -/
theorem Engine.events_compile {engine : Engine} {pattern : String} {flags : Flags} {r : Regex}
    (h : (engine.compile pattern flags).value = .ok r) :
    (engine.compile pattern flags).events = [.compiled engine flags pattern.utf8ByteSize] := by
  unfold Engine.compile at h ⊢
  split at h
  · cases h
  · rfl

namespace Options

open Selector

variable (o : Options)

/-- A pattern that is not too heavy is compiled by the engine selected, and not tried again. -/
theorem compile_of_light (h : o.Light) (hs : Reached loader n s) :
    o.compile s =
      { value := (.ok (o.regex (loader.engine n o.useSafeEngine)),
          if o.useSafeEngine = true then loader.settled n else s)
        events := (if o.useSafeEngine = true ∧ s.availability = .unknown then [loader.event n] else []) ++
          [.compiled (loader.engine n o.useSafeEngine) o.compileArgs.2
            o.compileArgs.1.utf8ByteSize] } := by
  have hvalue (engine : Engine) :
      (engine.compile o.compileArgs.1 o.compileArgs.2).value = .ok (o.regex engine) :=
    (o.engine_compile engine).trans (if_pos h)
  have hcompile (engine : Engine) : engine.compile o.compileArgs.1 o.compileArgs.2 =
      { value := .ok (o.regex engine)
        events := [.compiled engine o.compileArgs.2 o.compileArgs.1.utf8ByteSize] } := by
    rw [← hvalue, ← Engine.events_compile (hvalue engine)]
  rw [compile, Selector.compile, hs.select]
  simp only [bind, Logged.bind, hcompile, pure, List.append_nil]

/-- What comes of building with a selector. -/
structure Built (o : Options) (loader : Loader) (n : Nat) (s : Selector) : Prop where
  /-- The pattern alone is not anchored; the selector is not asked, and nothing is told. -/
  pattern : o.returnPatternOnly = true → o.build s = pure (.ok (.pattern o.pattern), s)
  /-- Else there is one regex, which compiling gives whether or not the pattern alone is asked for. -/
  regex : o.Light → ∃ r : Regex,
    (r.pattern = if o.exact then anchored o.pattern else o.pattern) ∧
    r.flags = { caseless := true, global := !o.exact } ∧
    (r.engine = .safe ↔ o.useSafeEngine = true ∧ loader n = .ok ()) ∧
    (∀ b, (({ o with returnPatternOnly := b } : Options).compile s).value.1 = .ok r) ∧
    (o.returnPatternOnly = false → (o.build s).value.1 = .ok (.regex r) ∧ (o.build s).events =
      (if o.useSafeEngine = true ∧ s.availability = .unknown then [loader.event n] else []) ++
        [.compiled r.engine r.flags r.pattern.utf8ByteSize])
  /-- All that can go wrong is that a long whitelist makes the pattern too heavy. -/
  error : ∀ e, (o.build s).value.1 = .error e → o.returnPatternOnly = false ∧ ¬ o.Light ∧
    o.strict = false ∧ 3300 < (o.topLevelDomains.map (·.length + 1)).sum
  /-- The selector knows what came of the load if the safe engine was wanted, and else what it knew. -/
  selector : (o.build s).value.2 =
    if o.returnPatternOnly = false ∧ o.useSafeEngine = true then loader.settled n else s
  /-- Only a selector that knew nothing changes, and only if the safe engine was wanted. -/
  unknown : (o.build s).value.2 ≠ s →
    o.returnPatternOnly = false ∧ o.useSafeEngine = true ∧ s.availability = .unknown

/-- Where only the pattern is asked for nothing is compiled, loaded or told. -/
theorem build_of_patternOnly (h : o.returnPatternOnly = true) (s : Selector) :
    o.build s = pure (.ok (.pattern o.pattern), s) :=
  if_pos h

/-- Elsewhere a build is a compilation. -/
theorem build_of_not_patternOnly (h : o.returnPatternOnly = false) (s : Selector) :
    o.build s = { value := ((o.compile s).value.1.map .regex, (o.compile s).value.2)
                  events := (o.compile s).events } := by
  rw [build, if_neg (Bool.eq_false_iff.mp h)]
  simp only [bind, Logged.bind, pure, List.append_nil]

/-- Options whose pattern is too heavy have a long whitelist. -/
theorem long_of_not_light (h : ¬ o.Light) :
    o.strict = false ∧ 3300 < (o.topLevelDomains.map (·.length + 1)).sum :=
  ⟨Bool.eq_false_iff.mpr fun hs => h (o.light_of_strict hs),
    Nat.lt_of_not_le fun hs => h (o.light_of_short hs)⟩

/-- The selector after building. -/
theorem selector_build (hs : Reached loader n s) : (o.build s).value.2 =
    if o.returnPatternOnly = false ∧ o.useSafeEngine = true then loader.settled n else s := by
  have hrun := hs.run (.buildWith o)
  simpa [Call.run, Call.requests] using hrun

/-- Building fails only if a pattern is compiled that is too heavy. -/
theorem not_light_of_build (hs : Reached loader n s) {e : BuildError}
    (he : (o.build s).value.1 = .error e) : o.returnPatternOnly = false ∧ ¬ o.Light := by
  cases h : o.returnPatternOnly with
  | true =>
    rw [o.build_of_patternOnly h] at he
    cases he
  | false =>
    refine ⟨rfl, fun hlight => ?_⟩
    rw [o.build_of_not_patternOnly h, o.compile_of_light hlight hs] at he
    cases he

/-- **Building gives the pattern alone or a regex by the engine that the one load allows**, for all
options and every selector that calls have led to. -/
theorem built (o : Options) (loader : Loader) (n : Nat) (calls : List Call) :
    Built o loader n (({ loader, loads := n } : Selector).after calls) := by
  have hs := (Reached.fresh : Reached loader n { loader, loads := n }).after calls
  generalize ({ loader, loads := n } : Selector).after calls = s at hs ⊢
  refine ⟨fun h => o.build_of_patternOnly h s, fun hlight => ?_, fun e he => ?_, o.selector_build hs,
    fun hne => ?_⟩
  · have hcompile := o.compile_of_light hlight hs
    refine ⟨o.regex (loader.engine n o.useSafeEngine), ?_, ?_, Loader.engine_eq_safe,
      fun _ => congrArg (·.value.1) hcompile, fun h => ?_⟩
    · show o.compileArgs.1 = _
      rw [compileArgs, apply_ite Prod.fst]
    · show o.compileArgs.2 = _
      rw [← o.caseless_compileArgs, ← o.global_compileArgs]
    · rw [o.build_of_not_patternOnly h, hcompile]
      exact ⟨rfl, rfl⟩
  · obtain ⟨hpattern, hlight⟩ := o.not_light_of_build hs he
    exact ⟨hpattern, hlight, o.long_of_not_light hlight⟩
  · rw [o.selector_build hs] at hne
    split at hne
    · rename_i hsafe
      exact ⟨hsafe.1, hsafe.2, hs.availability_of_ne hne⟩
    · exact absurd rfl hne

end Options

end MailPattern
