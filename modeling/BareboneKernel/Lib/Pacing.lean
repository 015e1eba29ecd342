import Mathlib.Algebra.Order.Monoid.Defs
import Mathlib.Algebra.Order.Monoid.Unbundled.Basic
import Mathlib.Logic.Relation

/-!
# Timers that rearm themselves

A timer has a clock and a deadline. It fires only at or after the deadline, and each time it fires
it is armed again, for one period after the clock it finds then. Time is any ordered monoid.

* `Timer`, `armed`, `Step`: the timer, its first deadline, and what can happen to it;
* `OnPace`: fires and deadlines do not run ahead of the clock;
* **`Step.onPace`**, **`onPace_of_run`**: every step keeps this, and so does every run from `armed`.
-/

set_option autoImplicit false

namespace Pacing

open Relation (ReflTransGen)

/-- A clock, the deadline of the next fire, and how often the timer has fired. -/
@[ext]
structure Timer (T : Type) where
  now : T
  deadline : T
  fires : ℕ

variable {T : Type} [AddCommMonoid T] [PartialOrder T]

/-- A timer that is armed for the first time. -/
def armed (period now : T) : Timer T := ⟨now, now + period, 0⟩

/-- The clock moves on, or the timer fires. -/
inductive Step (period : T) : Timer T → Timer T → Prop
  | wait {t : Timer T} {now : T} : t.now ≤ now → Step period t { t with now := now }
  | fire {t : Timer T} {now : T} : t.now ≤ now → t.deadline ≤ now →
      Step period t ⟨now, now + period, t.fires + 1⟩

/-- Every fire so far, and the one to come, has had its whole period, and the one to come is at most
one period away. -/
structure OnPace (start period : T) (t : Timer T) : Prop where
  elapsed : start + t.fires • period ≤ t.now
  next : start + (t.fires + 1) • period ≤ t.deadline
  near : t.deadline ≤ t.now + period

variable {start period : T} {t t' : Timer T}

theorem onPace_armed : OnPace start period (armed period start) where
  elapsed := by
    simp [armed]
  next := by
    show start + (0 + 1) • period ≤ start + period
    rw [Nat.zero_add, one_nsmul]
  near := le_refl _

variable [IsOrderedAddMonoid T]

/-- **A step keeps the pace.** -/
theorem Step.onPace (hstep : Step period t t') (h : OnPace start period t) :
    OnPace start period t' := by
  cases hstep with
  | wait hnow =>
    exact ⟨h.elapsed.trans hnow, h.next, h.near.trans (add_le_add_left hnow period)⟩
  | fire hnow hdue =>
    -- the deadline that was due is the start of the next period
    refine ⟨h.next.trans hdue, ?_, le_refl _⟩
    rw [succ_nsmul, ← add_assoc]
    exact add_le_add_left (h.next.trans hdue) period

/-- **A run keeps the pace.** -/
theorem onPace_of_run (hrun : ReflTransGen (Step period) (armed period start) t) :
    OnPace start period t := by
  induction hrun with
  | refl => exact onPace_armed
  | tail _ hstep ih => exact hstep.onPace ih

end Pacing
