import Mathlib.Data.List.Basic

/-!
# Cells that remember

A system has cells, and some of its steps write one. A log is the list of the writes of a run, oldest
first.

* `replay log a b`: what is in the cell `a` after the writes of a log, when it was `b` before;
* `Logged step s log s'`: a run from `s` to `s'` with its log;
* **`Logged.holds`**: when every step leaves in a cell what its own write says, a run leaves in it
  what the log says.
-/

set_option autoImplicit false

namespace Cells

variable {A B σ : Type} [DecidableEq A]

/-- What a cell holds after the writes of a log. -/
def replay (log : List (A × B)) (a : A) (b : B) : B :=
  log.foldl (fun b write => if write.1 = a then write.2 else b) b

@[simp] theorem replay_nil (a : A) (b : B) : replay [] a b = b := rfl

@[simp] theorem replay_singleton (a a' : A) (b b' : B) :
    replay [(a', b')] a b = if a' = a then b' else b := rfl

theorem replay_append (log log' : List (A × B)) (a : A) (b : B) :
    replay (log ++ log') a b = replay log' a (replay log a b) :=
  List.foldl_append

/-- A run with its log. A step makes no write or one. -/
inductive Logged (step : σ → Option (A × B) → σ → Prop) (s : σ) : List (A × B) → σ → Prop
  | start : Logged step s [] s
  | next {log : List (A × B)} {write : Option (A × B)} {s₁ s₂ : σ} (run : Logged step s log s₁)
      (last : step s₁ write s₂) : Logged step s (log ++ write.toList) s₂

variable {step : σ → Option (A × B) → σ → Prop} {s s' s'' : σ} {log log' : List (A × B)}

omit [DecidableEq A] in
theorem Logged.trans (h : Logged step s log s') (h' : Logged step s' log' s'') :
    Logged step s (log ++ log') s'' := by
  induction h' with
  | start =>
    rw [List.append_nil]
    exact h
  | next _ hlast ih =>
    rw [← List.append_assoc]
    exact ih.next hlast

/-- **Cells remember**: if a step leaves in a cell what its write says, and what was there when it
writes elsewhere, then a run leaves in it what the log says. -/
theorem Logged.holds {I : σ → Prop} {holds : σ → A → B → Prop} (h : Logged step s log s') (hI : I s)
    (hstep : ∀ {s₁ write s₂}, I s₁ → step s₁ write s₂ →
      I s₂ ∧ ∀ a b, holds s₁ a b → holds s₂ a (replay write.toList a b)) {a : A} {b : B}
    (ha : holds s a b) : I s' ∧ holds s' a (replay log a b) := by
  induction h with
  | start => exact ⟨hI, ha⟩
  | next _ hlast ih =>
    obtain ⟨hI₁, hholds⟩ := ih
    obtain ⟨hI₂, hnext⟩ := hstep hI₁ hlast
    refine ⟨hI₂, ?_⟩
    rw [replay_append]
    exact hnext a _ hholds

end Cells
