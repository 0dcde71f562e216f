import Mathlib.Logic.Function.Basic
import MailPattern.Proofs.Engine.Calls

/-!
# Proofs — Engine — Threads

A selector that threads share.  Each thread makes one call after the other, and the steps of all threads
interleave in any order (`System.Step`, `System.Run`).

* A call that requests the safe engine while nothing is known of it begins to load it, unless somebody
  is loading; then it waits.  Nobody else learns of what was loaded before it is stored.
* Any other call answers what it answers when it is alone (`Call.run`), and then tells its events one by
  one before it returns.

What a run did is its history, the latest first.  The theory of runs is in `Proofs.Engine.Latch`.
-/

namespace MailPattern

/-- What a thread does.  One that loads goes on with its call once it has told the events of loading
and has stored what came of it; one that has an answer returns it once it has told its events. -/
inductive Activity where
  | idle
  | asked (call : Call)
  | loading (call : Call) (events : List Event) (next : Selector)
  | telling (call : Call) (answer : Answer) (events : List Event)

namespace Activity

/-- The call that the thread has made and that has not returned. -/
def call? : Activity → Option Call
  | .idle => none
  | .asked c | .loading c _ _ | .telling c _ _ => some c

/-- The thread is loading the safe engine. -/
def isLoading : Activity → Bool
  | .loading .. => true
  | _ => false

end Activity

/-- What a step of a thread is. -/
inductive Action where
  | made (call : Call)
  | began
  | told (event : Event)
  | stored
  | answered
  | returned (call : Call) (answer : Answer)

/-- A selector and the threads that share it. -/
structure System (ι : Type) where
  selector : Selector
  threads : ι → Activity

/-- Who did what, the latest first. -/
abbrev History (ι : Type) := List (ι × Action)

namespace System

variable {ι : Type} [DecidableEq ι]

/-- The threads before their first calls, with a selector that nothing has been asked of.  Its loader
may have been called before, by others. -/
def fresh (ι : Type) (loader : Loader) (loads : Nat) : System ι where
  selector := { loader, loads }
  threads := fun _ => .idle

/-- The system with one thread's state changed. -/
def put (s : System ι) (i : ι) (t : Activity) : System ι :=
  { s with threads := Function.update s.threads i t }

/-- The system with another selector. -/
def store (s : System ι) (selector : Selector) : System ι := { s with selector }

/-- A step of a thread. -/
inductive Step : System ι → ι → Action → System ι → Prop where
  | made {s : System ι} {i : ι} (c : Call) (h : s.threads i = .idle) :
      Step s i (.made c) (s.put i (.asked c))
  | began {s : System ι} {i : ι} {c : Call} (h : s.threads i = .asked c) (hc : c.requests = true)
      (hunknown : s.selector.availability = .unknown)
      (halone : ∀ j, (s.threads j).isLoading = false) :
      Step s i .began
        (s.put i (.loading c s.selector.safeEngine.events s.selector.safeEngine.value.2))
  | toldLoading {s : System ι} {i : ι} {c : Call} {e : Event} {es : List Event} {next : Selector}
      (h : s.threads i = .loading c (e :: es) next) :
      Step s i (.told e) (s.put i (.loading c es next))
  | stored {s : System ι} {i : ι} {c : Call} {next : Selector}
      (h : s.threads i = .loading c [] next) :
      Step s i .stored ((s.put i (.asked c)).store next)
  | answered {s : System ι} {i : ι} {c : Call} (h : s.threads i = .asked c)
      (hc : c.requests = true → s.selector.availability ≠ .unknown) :
      Step s i .answered
        ((s.put i (.telling c (c.run s.selector).value.1 (c.run s.selector).events)).store
          (c.run s.selector).value.2)
  | told {s : System ι} {i : ι} {c : Call} {a : Answer} {e : Event} {es : List Event}
      (h : s.threads i = .telling c a (e :: es)) : Step s i (.told e) (s.put i (.telling c a es))
  | returned {s : System ι} {i : ι} {c : Call} {a : Answer} (h : s.threads i = .telling c a []) :
      Step s i (.returned c a) (s.put i .idle)

/-- The steps of the history lead from the first system to the second. -/
inductive Run (s₀ : System ι) : History ι → System ι → Prop where
  | start : Run s₀ [] s₀
  | step {h : History ι} {s s' : System ι} {i : ι} {a : Action} (hrun : Run s₀ h s)
      (hstep : Step s i a s') : Run s₀ ((i, a) :: h) s'

theorem Run.trans {s₀ s s' : System ι} {h h' : History ι} (hrun : Run s₀ h s)
    (hrun' : Run s h' s') : Run s₀ (h' ++ h) s' := by
  induction hrun' with
  | start => exact hrun
  | step _ hstep ih => exact .step ih hstep

variable {s s' : System ι} {i j : ι} {t : Activity}

@[simp] theorem threads_put_self : (s.put i t).threads i = t := Function.update_self ..

@[simp] theorem threads_put_of_ne (h : j ≠ i) : (s.put i t).threads j = s.threads j :=
  Function.update_of_ne h ..

@[simp] theorem put_put {t' : Activity} : (s.put i t).put i t' = s.put i t' := by
  simp [put]

omit [DecidableEq ι] in
theorem store_selector : s.store s.selector = s := rfl

omit [DecidableEq ι] in
@[simp] theorem store_store {x y : Selector} : (s.store x).store y = s.store y := rfl

theorem put_store {x : Selector} : (s.store x).put i t = (s.put i t).store x := rfl

/-- A property of all threads is kept by a step that keeps it for the thread that takes the step. -/
theorem forall_put (P : ι → Activity → Prop) (h : ∀ j, j ≠ i → P j (s.threads j)) (hi : P i t) :
    ∀ j, P j ((s.put i t).threads j) := by
  intro j
  by_cases hj : j = i
  · subst hj
    rw [threads_put_self]
    exact hi
  · rw [threads_put_of_ne hj]
    exact h j hj

end System

end MailPattern
