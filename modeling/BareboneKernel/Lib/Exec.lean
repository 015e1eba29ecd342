import Mathlib.Tactic.Common
import Mathlib.Data.List.Forall2

/-!
# Fallible programs over a state

A program `c : Exec σ ε α` runs from a state and ends in one of two ways: it returns a result, a
value of `α` or an error of `ε`, together with the state it leaves, or it is aborted. A program
that stops with an error keeps the state it has reached; an aborted one has no final state.

* `Returns c s a s'`: from `s` the program `c` returns the value `a` in state `s'`;
* `Fails c s e s'`: it returns the error `e` in state `s'`;
* `Safe c s`: it is not aborted;
* `Sat c s Q`: it is not aborted and its result and final state satisfy `Q`;
* `Succeeds c s Q`: it returns a value that satisfies `Q` with its final state;
* `Hides p c d`: seen through `p : σ → τ`, it runs as the program `d` over `τ` does;
* `Decides c Q`: from every state it is not aborted, leaves the state alone, and returns exactly
  the values that satisfy `Q`.

Loops carry their own bound (`Exec.iterate`): a loop that uses it up is aborted, so `Safe` also
says that the loop ends. `safe_iterate` is the rule for a loop with a decreasing measure.
-/

set_option autoImplicit false

/-- How a run ends that has no result. -/
inductive Abort where
  /-- A check of the program that cannot fail has failed. -/
  | panicked (message : String)
  /-- A memory access at this address was refused. -/
  | faulted (address : ℕ)
  /-- A loop used up its bound. -/
  | exhausted
  deriving DecidableEq

/-- A sequence of fallible computations succeeds when each of them does. -/
theorem Except.bind_eq_ok_iff {ε α β : Type} {x : Except ε α} {f : α → Except ε β} {b : β} :
    (x >>= f) = .ok b ↔ ∃ a, x = .ok a ∧ f a = .ok b := by
  cases x <;> simp [bind, Except.bind]

/-- A program over states `σ` with errors `ε` and values `α`. -/
def Exec (σ ε α : Type) : Type := σ → Except Abort (Except ε α × σ)

namespace Exec

variable {σ τ ε ε' α β : Type}

instance : Monad (Exec σ ε) where
  pure a := fun s => .ok (.ok a, s)
  bind c f := fun s =>
    match c s with
    | .ok (.ok a, s') => f a s'
    | .ok (.error e, s') => .ok (.error e, s')
    | .error b => .error b

/-- Stop with the error `e`. -/
def fail (e : ε) : Exec σ ε α := fun s => .ok (.error e, s)

/-- Abort the run. -/
def abort (b : Abort) : Exec σ ε α := fun _ => .error b

/-- The current state. -/
def get : Exec σ ε σ := fun s => .ok (.ok s, s)

/-- Replace the state. -/
def set (s : σ) : Exec σ ε Unit := fun _ => .ok (.ok (), s)

/-- Change the state. -/
def modify (f : σ → σ) : Exec σ ε Unit := fun s => .ok (.ok (), f s)

/-- A result that is already known. -/
def ofExcept (r : Except ε α) : Exec σ ε α := fun s => .ok (r, s)

/-- Abort the run unless `p` holds. -/
def require (p : Prop) [Decidable p] (message : String) : Exec σ ε Unit :=
  if p then pure () else abort (.panicked message)

/-- The value of an option that cannot be empty: an empty one aborts the run. -/
def expectSome (message : String) : Option α → Exec σ ε α
  | some a => pure a
  | none => abort (.panicked message)

/-- Convert the error of a program. -/
def mapError (f : ε → ε') (c : Exec σ ε α) : Exec σ ε' α := fun s =>
  (c s).map fun p => (p.1.mapError f, p.2)

/-- Run a program to its result, error or value, and hand the result on as a value. -/
def attempt (c : Exec σ ε α) : Exec σ ε' (Except ε α) := fun s =>
  (c s).map fun p => (.ok p.1, p.2)

/-- Run a program for the state it leaves. -/
def ignore (c : Exec σ ε α) : Exec σ Unit Unit := fun s =>
  (c s).map fun p => (.ok (), p.2)

/-- Run a program that cannot fail: an error of it aborts the run. -/
def expect (message : String) (c : Exec σ ε α) : Exec σ ε' α := fun s =>
  match c s with
  | .ok (.ok a, s') => .ok (.ok a, s')
  | .ok (.error _, _) => .error (.panicked message)
  | .error b => .error b

/-- Run a program from a state of its own, which is dropped afterwards. -/
def onLocal (t : τ) (c : Exec τ ε α) : Exec σ ε α := fun s =>
  (c t).map fun p => (p.1, s)

/-- Run a program with a variable `t` of its own besides the state, and return the value of the
variable too. -/
def withLocal (t : τ) (c : Exec (τ × σ) ε α) : Exec σ ε (α × τ) := fun s =>
  (c (t, s)).map fun p => (p.1.map (·, p.2.1), p.2.2)

/-- Run a program on a part of the state. -/
def zoom (proj : σ → τ) (put : τ → σ → σ) (c : Exec τ ε α) : Exec σ ε α := fun s =>
  (c (proj s)).map fun p => (p.1, put p.2 s)

/-- At most `n` rounds of `body`, which either goes on with new loop variables or leaves the loop
with a value. -/
def iterate (body : β → Exec σ ε (β ⊕ α)) : ℕ → β → Exec σ ε α
  | 0, _ => abort .exhausted
  | n + 1, b => body b >>= fun
    | .inl b' => iterate body n b'
    | .inr a => pure a

/-- The loop over `0, …, n - 1`. -/
def forRange : ℕ → (ℕ → Exec σ ε Unit) → Exec σ ε Unit
  | 0, _ => pure ()
  | n + 1, body => do
    forRange n body
    body n

/-! ## Runs -/

/-- From `s`, the program returns `a` and leaves `s'`. -/
def Returns (c : Exec σ ε α) (s : σ) (a : α) (s' : σ) : Prop := c s = .ok (.ok a, s')

/-- From `s`, the program stops with the error `e` and leaves `s'`. -/
def Fails (c : Exec σ ε α) (s : σ) (e : ε) (s' : σ) : Prop := c s = .ok (.error e, s')

/-- From `s`, the program is not aborted. -/
def Safe (c : Exec σ ε α) (s : σ) : Prop := ∃ p, c s = .ok p

/-- From `s`, the program ends with a result and a state that satisfy `Q`. -/
def Sat (c : Exec σ ε α) (s : σ) (Q : Except ε α → σ → Prop) : Prop :=
  ∃ r s', c s = .ok (r, s') ∧ Q r s'

theorem bind_apply (c : Exec σ ε α) (f : α → Exec σ ε β) (s : σ) :
    (c >>= f) s = match c s with
      | .ok (.ok a, s') => f a s'
      | .ok (.error e, s') => .ok (.error e, s')
      | .error b => .error b := rfl

theorem bind_assoc {γ : Type} (c : Exec σ ε α) (f : α → Exec σ ε β) (g : β → Exec σ ε γ) :
    (c >>= f) >>= g = c >>= fun a => f a >>= g := by
  funext s
  simp only [bind_apply]
  rcases c s with b | ⟨r | a, s'⟩ <;> rfl

theorem forM_append {body : β → Exec σ ε Unit} (as bs : List β) :
    (as ++ bs).forM body = as.forM body >>= fun _ => bs.forM body := by
  induction as with
  | nil => rfl
  | cons a as ih =>
    show (body a >>= fun _ => (as ++ bs).forM body) = (body a >>= fun _ => as.forM body) >>= _
    rw [ih, bind_assoc]

theorem pure_apply (a : α) (s : σ) : (pure a : Exec σ ε α) s = .ok (.ok a, s) := rfl

theorem Returns.unique {c : Exec σ ε α} {s : σ} {a a' : α} {s₁ s₂ : σ} (h₁ : Returns c s a s₁)
    (h₂ : Returns c s a' s₂) : a = a' ∧ s₁ = s₂ := by
  unfold Returns at h₁ h₂
  rw [h₁] at h₂
  simpa using h₂

theorem Returns.not_fails {c : Exec σ ε α} {s s₁ s₂ : σ} {a : α} {e : ε} (h : Returns c s a s₁) :
    ¬ Fails c s e s₂ := by
  unfold Returns Fails at *
  rw [h]
  simp

theorem Returns.safe {c : Exec σ ε α} {s : σ} {a : α} {s' : σ} (h : Returns c s a s') : Safe c s :=
  ⟨_, h⟩

@[simp] theorem returns_pure {a b : α} {s s' : σ} :
    Returns (pure a : Exec σ ε α) s b s' ↔ b = a ∧ s' = s := by
  simp only [Returns, pure_apply, Except.ok.injEq, Prod.mk.injEq]
  constructor <;> rintro ⟨rfl, rfl⟩ <;> exact ⟨rfl, rfl⟩

@[simp] theorem returns_fail {e : ε} {b : α} {s s' : σ} :
    Returns (fail e : Exec σ ε α) s b s' ↔ False := by
  simp [Returns, fail]

@[simp] theorem returns_abort {e : Abort} {b : α} {s s' : σ} :
    Returns (abort e : Exec σ ε α) s b s' ↔ False := by
  simp [Returns, abort]

@[simp] theorem returns_get {s t s' : σ} :
    Returns (get : Exec σ ε σ) s t s' ↔ t = s ∧ s' = s := by
  simp only [Returns, get, Except.ok.injEq, Prod.mk.injEq]
  constructor <;> rintro ⟨rfl, rfl⟩ <;> exact ⟨rfl, rfl⟩

theorem returns_bind {c : Exec σ ε α} {f : α → Exec σ ε β} {s : σ} {b : β} {s' : σ} :
    Returns (c >>= f) s b s' ↔ ∃ a s₁, Returns c s a s₁ ∧ Returns (f a) s₁ b s' := by
  simp only [Returns, bind_apply]
  constructor
  · intro h
    split at h
    · exact ⟨_, _, by assumption, h⟩
    · simp at h
    · simp at h
  · rintro ⟨a, s₁, h₁, h₂⟩
    rw [h₁]
    exact h₂

theorem bind_of_returns {c : Exec σ ε α} {f : α → Exec σ ε β} {s s' : σ} {a : α}
    (h : Returns c s a s') : (c >>= f) s = f a s' := by
  unfold Returns at h
  simp only [bind_apply, h]

theorem Fails.bind {c : Exec σ ε α} {f : α → Exec σ ε β} {s : σ} {e : ε} {s' : σ}
    (h : Fails c s e s') : Fails (c >>= f) s e s' := by
  unfold Fails at h
  rw [Fails, bind_apply, h]

theorem Returns.fails_bind {c : Exec σ ε α} {f : α → Exec σ ε β} {s s₁ : σ} {a : α} {e : ε} {s' : σ}
    (hc : Returns c s a s₁) (hf : Fails (f a) s₁ e s') : Fails (c >>= f) s e s' := by
  unfold Returns at hc
  rw [Fails, bind_apply, hc]
  exact hf

theorem fails_fail (e : ε) (s : σ) : Fails (fail e : Exec σ ε α) s e s := rfl

theorem fails_ofExcept (e : ε) (s : σ) : Fails (ofExcept (.error e) : Exec σ ε α) s e s := rfl

theorem returns_mapError {f : ε → ε'} {c : Exec σ ε α} {s : σ} {a : α} {s' : σ} :
    Returns (mapError f c) s a s' ↔ Returns c s a s' := by
  simp only [Returns, mapError]
  rcases c s with b | ⟨r | a', t⟩ <;> simp [Except.map, Except.mapError]

theorem Returns.attempt {c : Exec σ ε α} {s : σ} {a : α} {s' : σ} (h : Returns c s a s') :
    Returns (attempt c : Exec σ ε' (Except ε α)) s (.ok a) s' := by
  unfold Returns at h
  rw [Returns, Exec.attempt, h]
  rfl

theorem Fails.attempt {c : Exec σ ε α} {s s' : σ} {e : ε} (h : Fails c s e s') :
    Returns (attempt c : Exec σ ε' (Except ε α)) s (.error e) s' := by
  unfold Fails at h
  rw [Returns, Exec.attempt, h]
  rfl

theorem returns_ofExcept {r : Except ε α} {s : σ} {a : α} {s' : σ} :
    Returns (ofExcept r) s a s' ↔ r = .ok a ∧ s' = s := by
  simp only [Returns, ofExcept, Except.ok.injEq, Prod.mk.injEq]
  constructor <;> rintro ⟨rfl, rfl⟩ <;> exact ⟨rfl, rfl⟩

@[simp] theorem returns_require {p : Prop} [Decidable p] {m : String} {s : σ} {a : Unit} {s' : σ} :
    Returns (require p m : Exec σ ε Unit) s a s' ↔ p ∧ s' = s := by
  unfold require
  split <;> simp [*]

theorem returns_onLocal {t : τ} {c : Exec τ ε α} {s : σ} {a : α} {s' : σ} :
    Returns (onLocal t c) s a s' ↔ s' = s ∧ ∃ t', Returns c t a t' := by
  simp only [Returns, onLocal]
  rcases c t with b | ⟨r | a', t'⟩
  · simp [Except.map]
  · simp [Except.map]
  · simp only [Except.map, Except.ok.injEq, Prod.mk.injEq]
    constructor
    · rintro ⟨rfl, rfl⟩; exact ⟨rfl, t', rfl, rfl⟩
    · rintro ⟨rfl, t'', rfl, -⟩; exact ⟨rfl, rfl⟩

theorem returns_modify {f : σ → σ} {s : σ} {a : Unit} {s' : σ} :
    Returns (modify f : Exec σ ε Unit) s a s' ↔ s' = f s := by
  simp only [Returns, modify, Except.ok.injEq, Prod.mk.injEq, true_and]
  exact eq_comm

theorem returns_expect {m : String} {c : Exec σ ε α} {s : σ} {a : α} {s' : σ} :
    Returns (expect m c : Exec σ ε' α) s a s' ↔ Returns c s a s' := by
  simp only [Returns, expect]
  rcases c s with b | ⟨r | a', t⟩ <;> simp

theorem returns_expectSome {m : String} {o : Option α} {s : σ} {a : α} {s' : σ} :
    Returns (expectSome m o : Exec σ ε α) s a s' ↔ o = some a ∧ s' = s := by
  cases o <;> simp [expectSome, eq_comm]

theorem returns_zoom {proj : σ → τ} {put : τ → σ → σ} {c : Exec τ ε α} {s : σ} {a : α} {s' : σ} :
    Returns (zoom proj put c) s a s' ↔ ∃ t, Returns c (proj s) a t ∧ s' = put t s := by
  simp only [Returns, zoom]
  rcases c (proj s) with b | ⟨r | a', t⟩
  · simp [Except.map]
  · simp [Except.map]
  · simp only [Except.map, Except.ok.injEq, Prod.mk.injEq]
    constructor
    · rintro ⟨rfl, rfl⟩; exact ⟨t, ⟨rfl, rfl⟩, rfl⟩
    · rintro ⟨t', ⟨rfl, rfl⟩, rfl⟩; exact ⟨rfl, rfl⟩

theorem Fails.zoom {proj : σ → τ} {put : τ → σ → σ} {c : Exec τ ε α} {s : σ} {e : ε} {t : τ}
    (h : Fails c (proj s) e t) : Fails (zoom proj put c) s e (put t s) := by
  unfold Fails at h
  rw [Fails, Exec.zoom, h]
  rfl

theorem returns_withLocal {t t' : τ} {c : Exec (τ × σ) ε α} {s s' : σ} {a : α} :
    Returns (withLocal t c) s (a, t') s' ↔ Returns c (t, s) a (t', s') := by
  simp only [Returns, withLocal]
  rcases c (t, s) with b | ⟨r | a', t', s''⟩ <;> simp [Except.map, and_assoc]

/-- The first round of a loop goes on or leaves it. -/
theorem returns_iterate_succ {body : β → Exec σ ε (β ⊕ α)} {n : ℕ} {b : β} {s : σ} {a : α} {s' : σ} :
    Returns (iterate body (n + 1) b) s a s' ↔
      (∃ b' s₁, Returns (body b) s (.inl b') s₁ ∧ Returns (iterate body n b') s₁ a s') ∨
        Returns (body b) s (.inr a) s' := by
  rw [iterate, returns_bind]
  constructor
  · rintro ⟨x, s₁, h₁, h₂⟩
    cases x with
    | inl b' => exact .inl ⟨b', s₁, h₁, h₂⟩
    | inr a' =>
      obtain ⟨rfl, rfl⟩ := returns_pure.mp h₂
      exact .inr h₁
  · rintro (⟨b', s₁, h₁, h₂⟩ | h)
    · exact ⟨.inl b', s₁, h₁, h₂⟩
    · exact ⟨.inr a, s', h, returns_pure.mpr ⟨rfl, rfl⟩⟩

/-- `k` rounds of a loop that all go on, leading from `b` in `s` to `b'` in `s'`. -/
inductive Rounds (body : β → Exec σ ε (β ⊕ α)) : ℕ → β → σ → β → σ → Prop
  | zero (b : β) (s : σ) : Rounds body 0 b s b s
  | succ {k : ℕ} {b b₁ b₂ : β} {s s₁ s₂ : σ} (head : Returns (body b) s (.inl b₁) s₁)
      (tail : Rounds body k b₁ s₁ b₂ s₂) : Rounds body (k + 1) b s b₂ s₂

theorem Rounds.trans {body : β → Exec σ ε (β ⊕ α)} {j k : ℕ} {b b₁ b₂ : β} {s s₁ s₂ : σ}
    (h : Rounds body j b s b₁ s₁) (h' : Rounds body k b₁ s₁ b₂ s₂) : Rounds body (j + k) b s b₂ s₂ := by
  induction h with
  | zero => simpa using h'
  | @succ j _ _ _ _ _ _ head _ ih =>
    rw [show j + 1 + k = (j + k) + 1 by omega]
    exact .succ head (ih h')

theorem Rounds.snoc {body : β → Exec σ ε (β ⊕ α)} {k : ℕ} {b b₁ b₂ : β} {s s₁ s₂ : σ}
    (h : Rounds body k b s b₁ s₁) (h' : Returns (body b₁) s₁ (.inl b₂) s₂) :
    Rounds body (k + 1) b s b₂ s₂ :=
  h.trans (.succ h' (.zero b₂ s₂))

theorem Rounds.unique {body : β → Exec σ ε (β ⊕ α)} {k : ℕ} {b b₁ b₂ : β} {s s₁ s₂ : σ}
    (h : Rounds body k b s b₁ s₁) (h' : Rounds body k b s b₂ s₂) : b₁ = b₂ ∧ s₁ = s₂ := by
  induction h with
  | zero =>
    cases h'
    exact ⟨rfl, rfl⟩
  | succ head _ ih =>
    cases h' with
    | succ head' tail' =>
      obtain ⟨heq, rfl⟩ := head.unique head'
      cases heq
      exact ih tail'

theorem Rounds.split {body : β → Exec σ ε (β ⊕ α)} {j k : ℕ} {b b₂ : β} {s s₂ : σ}
    (h : Rounds body (j + k) b s b₂ s₂) :
    ∃ b₁ s₁, Rounds body j b s b₁ s₁ ∧ Rounds body k b₁ s₁ b₂ s₂ := by
  induction j generalizing b s with
  | zero => exact ⟨b, s, .zero b s, by rwa [Nat.zero_add] at h⟩
  | succ j ih =>
    rw [show j + 1 + k = (j + k) + 1 by omega] at h
    cases h with
    | succ head tail =>
      obtain ⟨b₁, s₁, h₁, h₂⟩ := ih tail
      exact ⟨b₁, s₁, .succ head h₁, h₂⟩

/-- After the rounds that lead to the exit there are no more. -/
theorem Rounds.le_of_exit {body : β → Exec σ ε (β ⊕ α)} {j k : ℕ} {b b₁ b₂ : β} {s s₁ s₂ s' : σ}
    {a : α} (h : Rounds body k b s b₁ s₁) (h' : Returns (body b₁) s₁ (.inr a) s')
    (hj : Rounds body j b s b₂ s₂) : j ≤ k := by
  by_contra hlt
  obtain ⟨i, rfl⟩ := Nat.exists_eq_add_of_lt (Nat.lt_of_not_le hlt)
  rw [Nat.add_assoc] at hj
  obtain ⟨b₃, s₃, h₃, h₄⟩ := hj.split
  obtain ⟨rfl, rfl⟩ := h.unique h₃
  cases h₄ with
  | succ head _ =>
    obtain ⟨heq, -⟩ := h'.unique head
    cases heq

/-- A loop goes through a sequence of rounds and is then left. -/
theorem returns_iterate_of_rounds {body : β → Exec σ ε (β ⊕ α)} {k n : ℕ} {b b₁ : β} {s s₁ : σ}
    {a : α} {s' : σ} (h : Rounds body k b s b₁ s₁) (h' : Returns (body b₁) s₁ (.inr a) s')
    (hn : k < n) : Returns (iterate body n b) s a s' := by
  induction h generalizing n with
  | zero =>
    obtain ⟨n, rfl⟩ : ∃ m, n = m + 1 := ⟨n - 1, by omega⟩
    exact returns_iterate_succ.mpr (.inr h')
  | succ head _ ih =>
    obtain ⟨n, rfl⟩ : ∃ m, n = m + 1 := ⟨n - 1, by omega⟩
    exact returns_iterate_succ.mpr (.inl ⟨_, _, head, ih h' (by omega)⟩)

/-- A loop that returns does so after some rounds. -/
theorem exists_rounds_of_returns {body : β → Exec σ ε (β ⊕ α)} {n : ℕ} :
    ∀ {b : β} {s s' : σ} {a : α}, Returns (iterate body n b) s a s' →
      ∃ k b₁ s₁, Rounds body k b s b₁ s₁ ∧ Returns (body b₁) s₁ (.inr a) s' := by
  induction n with
  | zero => intro b s s' a h; exact absurd h (by simp [iterate])
  | succ n ih =>
    intro b s s' a h
    rcases returns_iterate_succ.mp h with ⟨b', s₁, h₁, h₂⟩ | h
    · obtain ⟨k, b₁, s₂, hrounds, hexit⟩ := ih h₂
      exact ⟨k + 1, b₁, s₂, .succ h₁ hrounds, hexit⟩
    · exact ⟨0, b, s, .zero b s, h⟩

/-! ## Errors -/

@[simp] theorem fails_pure {a : α} {s s' : σ} {e : ε} :
    Fails (pure a : Exec σ ε α) s e s' ↔ False := by
  simp [Fails, pure_apply]

@[simp] theorem fails_get {s s' : σ} {e : ε} : Fails (get : Exec σ ε σ) s e s' ↔ False := by
  simp [Fails, get]

theorem fails_fail_iff {e e' : ε} {s s' : σ} :
    Fails (fail e : Exec σ ε α) s e' s' ↔ e' = e ∧ s' = s := by
  simp only [Fails, fail, Except.ok.injEq, Prod.mk.injEq, Except.error.injEq]
  constructor <;> rintro ⟨rfl, rfl⟩ <;> exact ⟨rfl, rfl⟩

theorem fails_ofExcept_iff {r : Except ε α} {e : ε} {s s' : σ} :
    Fails (ofExcept r) s e s' ↔ r = .error e ∧ s' = s := by
  simp only [Fails, ofExcept, Except.ok.injEq, Prod.mk.injEq]
  constructor <;> rintro ⟨rfl, rfl⟩ <;> exact ⟨rfl, rfl⟩

theorem fails_mapError {f : ε → ε'} {c : Exec σ ε α} {s s' : σ} {e : ε'} :
    Fails (mapError f c) s e s' ↔ ∃ e', Fails c s e' s' ∧ e = f e' := by
  simp only [Fails, mapError]
  rcases c s with b | ⟨r | a', t⟩
  · simp [Except.map]
  · simp only [Except.map, Except.mapError, Except.ok.injEq, Prod.mk.injEq, Except.error.injEq]
    constructor
    · rintro ⟨rfl, rfl⟩; exact ⟨r, ⟨rfl, rfl⟩, rfl⟩
    · rintro ⟨e', ⟨rfl, rfl⟩, rfl⟩; exact ⟨rfl, rfl⟩
  · simp [Except.map, Except.mapError]

theorem fails_onLocal {t : τ} {c : Exec τ ε α} {s s' : σ} {e : ε} :
    Fails (onLocal t c) s e s' ↔ s' = s ∧ ∃ t', Fails c t e t' := by
  simp only [Fails, onLocal]
  rcases c t with b | ⟨r | a', t'⟩
  · simp [Except.map]
  · simp only [Except.map, Except.ok.injEq, Prod.mk.injEq, Except.error.injEq]
    constructor
    · rintro ⟨rfl, rfl⟩; exact ⟨rfl, t', rfl, rfl⟩
    · rintro ⟨rfl, t'', rfl, -⟩; exact ⟨rfl, rfl⟩
  · simp [Except.map]

/-- A sequence fails in its first or in its second part. -/
theorem fails_bind {c : Exec σ ε α} {f : α → Exec σ ε β} {s s' : σ} {e : ε} :
    Fails (c >>= f) s e s' ↔
      Fails c s e s' ∨ ∃ a s₁, Returns c s a s₁ ∧ Fails (f a) s₁ e s' := by
  constructor
  · intro h
    unfold Fails at h
    rw [bind_apply] at h
    split at h
    · rename_i a s₁ hc
      exact .inr ⟨a, s₁, hc, h⟩
    · rename_i e' s₁ hc
      obtain ⟨he, rfl⟩ := Prod.mk.inj (Except.ok.inj h)
      obtain rfl := Except.error.inj he
      exact .inl hc
    · cases h
  · rintro (h | ⟨a, s₁, hc, hf⟩)
    · exact h.bind
    · exact hc.fails_bind hf

/-- A loop that fails does so in one of its rounds. -/
theorem exists_rounds_of_fails {body : β → Exec σ ε (β ⊕ α)} {n : ℕ} :
    ∀ {b : β} {s s' : σ} {e : ε}, Fails (iterate body n b) s e s' →
      ∃ k b₁ s₁, Rounds body k b s b₁ s₁ ∧ Fails (body b₁) s₁ e s' := by
  induction n with
  | zero => intro b s s' e h; exact absurd h (by simp [Fails, iterate, abort])
  | succ n ih =>
    intro b s s' e h
    rw [iterate, fails_bind] at h
    rcases h with h | ⟨x, s₁, hbody, h⟩
    · exact ⟨0, b, s, .zero b s, h⟩
    · cases x with
      | inl b' =>
        obtain ⟨k, b₁, s₂, hrounds, hfails⟩ := ih h
        exact ⟨k + 1, b₁, s₂, .succ hbody hrounds, hfails⟩
      | inr a => simp at h

/-! ## Safety -/

@[simp] theorem safe_pure {a : α} {s : σ} : Safe (pure a : Exec σ ε α) s := ⟨_, rfl⟩

@[simp] theorem safe_fail {e : ε} {s : σ} : Safe (fail e : Exec σ ε α) s := ⟨_, rfl⟩

@[simp] theorem safe_get {s : σ} : Safe (get : Exec σ ε σ) s := ⟨_, rfl⟩

@[simp] theorem safe_ofExcept {r : Except ε α} {s : σ} : Safe (ofExcept r : Exec σ ε α) s := ⟨_, rfl⟩

theorem safe_require {p : Prop} [Decidable p] {m : String} {s : σ} (h : p) :
    Safe (require p m : Exec σ ε Unit) s := by
  rw [require, if_pos h]
  exact safe_pure

theorem safe_bind {c : Exec σ ε α} {f : α → Exec σ ε β} {s : σ} (hc : Safe c s)
    (hf : ∀ a s', Returns c s a s' → Safe (f a) s') : Safe (c >>= f) s := by
  obtain ⟨⟨r, s'⟩, h⟩ := hc
  cases r with
  | error e => exact ⟨(.error e, s'), by simp only [bind_apply, h]⟩
  | ok a =>
    obtain ⟨p, hp⟩ := hf a s' h
    exact ⟨p, by simp only [bind_apply, h, hp]⟩

theorem safe_mapError {f : ε → ε'} {c : Exec σ ε α} {s : σ} (h : Safe c s) :
    Safe (mapError f c) s := by
  obtain ⟨p, hp⟩ := h
  exact ⟨_, by simp only [mapError, hp, Except.map]; rfl⟩

theorem safe_onLocal {t : τ} {c : Exec τ ε α} {s : σ} (h : Safe c t) :
    Safe (onLocal t c : Exec σ ε α) s := by
  obtain ⟨p, hp⟩ := h
  exact ⟨_, by simp only [onLocal, hp, Except.map]; rfl⟩

/-- A loop ends when its rounds are safe and decrease a measure that its bound exceeds. -/
theorem safe_iterate {body : β → Exec σ ε (β ⊕ α)} (Inv : β → σ → Prop) (measure : β → σ → ℕ)
    (hsafe : ∀ b s, Inv b s → Safe (body b) s)
    (hstep : ∀ b s b' s', Inv b s → Returns (body b) s (.inl b') s' →
      Inv b' s' ∧ measure b' s' < measure b s) :
    ∀ {n : ℕ} {b : β} {s : σ}, Inv b s → measure b s < n → Safe (iterate body n b) s := by
  intro n
  induction n with
  | zero => intro b s _ h; omega
  | succ n ih =>
    intro b s hinv hn
    refine safe_bind (hsafe b s hinv) fun x s' hx => ?_
    cases x with
    | inl b' =>
      obtain ⟨h₁, h₂⟩ := hstep b s b' s' hinv hx
      exact ih h₁ (by omega)
    | inr a => exact safe_pure

/-! ## Results and final states -/

theorem sat_pure {a : α} {s : σ} {Q : Except ε α → σ → Prop} (h : Q (.ok a) s) :
    Sat (pure a : Exec σ ε α) s Q := ⟨_, s, rfl, h⟩

theorem sat_fail {e : ε} {s : σ} {Q : Except ε α → σ → Prop} (h : Q (.error e) s) :
    Sat (fail e : Exec σ ε α) s Q := ⟨_, s, rfl, h⟩

theorem sat_get {f : σ → Exec σ ε α} {s : σ} {Q : Except ε α → σ → Prop} (h : Sat (f s) s Q) :
    Sat (get >>= f) s Q := h

theorem sat_modify {g : σ → σ} {f : Unit → Exec σ ε α} {s : σ} {Q : Except ε α → σ → Prop}
    (h : Sat (f ()) (g s) Q) : Sat (modify g >>= f) s Q := h

/-- A sequence: the second program starts where the first one returned. -/
theorem Sat.bind {c : Exec σ ε α} {f : α → Exec σ ε β} {s : σ} {P : Except ε α → σ → Prop}
    {Q : Except ε β → σ → Prop} (hc : Sat c s P) (hok : ∀ a s', P (.ok a) s' → Sat (f a) s' Q)
    (herr : ∀ e s', P (.error e) s' → Q (.error e) s') : Sat (c >>= f) s Q := by
  obtain ⟨r, s', hr, hp⟩ := hc
  cases r with
  | error e => exact ⟨_, s', by simp only [bind_apply, hr], herr e s' hp⟩
  | ok a =>
    obtain ⟨r', s'', hr', hq⟩ := hok a s' hp
    exact ⟨r', s'', by simp only [bind_apply, hr, hr'], hq⟩

theorem Returns.sat {c : Exec σ ε α} {s s' : σ} {a : α} {Q : Except ε α → σ → Prop}
    (h : Returns c s a s') (hq : Q (.ok a) s') : Sat c s Q := ⟨_, s', h, hq⟩

theorem Returns.sat_bind {c : Exec σ ε α} {f : α → Exec σ ε β} {s s' : σ} {a : α}
    {Q : Except ε β → σ → Prop} (h : Returns c s a s') (hf : Sat (f a) s' Q) :
    Sat (c >>= f) s Q := by
  obtain ⟨r, s'', hr, hq⟩ := hf
  unfold Returns at h
  exact ⟨r, s'', by rw [bind_apply, h]; exact hr, hq⟩

theorem Fails.sat {c : Exec σ ε α} {s s' : σ} {e : ε} {Q : Except ε α → σ → Prop}
    (h : Fails c s e s') (hq : Q (.error e) s') : Sat c s Q := ⟨_, s', h, hq⟩

theorem sat_ofExcept {r : Except ε α} {s : σ} {Q : Except ε α → σ → Prop} (h : Q r s) :
    Sat (ofExcept r) s Q := ⟨r, s, rfl, h⟩

theorem Sat.zoom {proj : σ → τ} {put : τ → σ → σ} {c : Exec τ ε α} {s : σ}
    {P : Except ε α → τ → Prop} (h : Sat c (proj s) P) :
    Sat (zoom proj put c) s fun r s' => ∃ t, P r t ∧ s' = put t s := by
  obtain ⟨r, t, hr, hp⟩ := h
  exact ⟨r, put t s, by rw [Exec.zoom, hr]; rfl, t, hp, rfl⟩

theorem Sat.mapError {f : ε → ε'} {c : Exec σ ε α} {s : σ} {P : Except ε α → σ → Prop}
    (h : Sat c s P) : Sat (mapError f c) s fun r s' => ∃ r', P r' s' ∧ r = r'.mapError f := by
  obtain ⟨r, t, hr, hp⟩ := h
  exact ⟨r.mapError f, t, by rw [Exec.mapError, hr]; rfl, r, hp, rfl⟩

theorem Sat.mapError_ok {f : ε → ε'} {c : Exec σ ε α} {s : σ} {P : α → σ → Prop}
    (h : Sat c s fun r s' => ∀ a, r = .ok a → P a s') :
    Sat (Exec.mapError f c) s fun r s' => ∀ a, r = .ok a → P a s' := by
  obtain ⟨r, s', hrun, hp⟩ := h
  refine ⟨r.mapError f, s', by rw [Exec.mapError, hrun]; rfl, fun a ha => ?_⟩
  cases r with
  | error e => cases ha
  | ok a' =>
    obtain rfl : a' = a := Except.ok.inj ha
    exact hp a' rfl

/-- A program on a state of its own leaves the other state as it is. -/
theorem Safe.sat_onLocal {t : τ} {c : Exec τ ε α} (h : Safe c t) (s : σ) :
    Sat (onLocal t c : Exec σ ε α) s fun r s' => ∀ a, r = .ok a →
      s' = s ∧ ∃ t', Returns c t a t' := by
  obtain ⟨⟨r, t'⟩, hrun⟩ := h
  refine ⟨r, s, by rw [onLocal, hrun]; rfl, fun a ha => ⟨rfl, t', ?_⟩⟩
  rw [ha] at hrun
  exact hrun

theorem Sat.ignore {c : Exec σ ε α} {s : σ} {P : σ → Prop} (h : Sat c s fun _ => P) :
    Sat (ignore c) s fun _ => P := by
  obtain ⟨r, s', hr, hp⟩ := h
  exact ⟨.ok (), s', by rw [Exec.ignore, hr]; rfl, hp⟩

/-- One round of a loop, and what follows it. -/
theorem sat_iterate_succ {body : β → Exec σ ε (β ⊕ α)} {n : ℕ} {b : β} {s : σ}
    {P : Except ε (β ⊕ α) → σ → Prop} {Q : Except ε α → σ → Prop} (h : Sat (body b) s P)
    (hnext : ∀ b' s', P (.ok (.inl b')) s' → Sat (iterate body n b') s' Q)
    (hleave : ∀ a s', P (.ok (.inr a)) s' → Q (.ok a) s')
    (herr : ∀ e s', P (.error e) s' → Q (.error e) s') : Sat (iterate body (n + 1) b) s Q := by
  refine h.bind (fun x s' hp => ?_) herr
  cases x with
  | inl b' => exact hnext b' s' hp
  | inr a => exact sat_pure (hleave a s' hp)

/-- A loop keeps an invariant until it is left or fails, and its rounds decrease a measure that its
bound exceeds. -/
theorem sat_iterate {body : β → Exec σ ε (β ⊕ α)} {Q : Except ε α → σ → Prop}
    (Inv : β → σ → Prop) (measure : σ → ℕ)
    (hround : ∀ b s, Inv b s → Sat (body b) s fun r s' =>
      (∀ b', r = .ok (.inl b') → Inv b' s' ∧ measure s' < measure s) ∧
        (∀ a, r = .ok (.inr a) → Q (.ok a) s') ∧ ∀ e, r = .error e → Q (.error e) s') :
    ∀ {n : ℕ} {b : β} {s : σ}, Inv b s → measure s < n → Sat (iterate body n b) s Q := by
  intro n
  induction n with
  | zero => intro b s _ h; omega
  | succ n ih =>
    intro b s hinv hn
    refine sat_iterate_succ (hround b s hinv) (fun b' s' h => ?_) (fun a s' h => h.2.1 a rfl)
      fun e s' h => h.2.2 e rfl
    obtain ⟨hinv', hlt⟩ := h.1 b' rfl
    exact ih hinv' (by omega)

theorem Sat.and {c : Exec σ ε α} {s : σ} {P Q : Except ε α → σ → Prop} (h : Sat c s P)
    (h' : Sat c s Q) : Sat c s fun r s' => P r s' ∧ Q r s' := by
  obtain ⟨r, s₁, hrun, hp⟩ := h
  obtain ⟨r', s₂, hrun', hq⟩ := h'
  obtain ⟨rfl, rfl⟩ := Prod.mk.inj (Except.ok.inj (hrun.symm.trans hrun'))
  exact ⟨r, s₁, hrun, hp, hq⟩

theorem Sat.mono {c : Exec σ ε α} {s : σ} {P Q : Except ε α → σ → Prop} (h : Sat c s P)
    (himp : ∀ r s', P r s' → Q r s') : Sat c s Q := by
  obtain ⟨r, s', hr, hp⟩ := h
  exact ⟨r, s', hr, himp r s' hp⟩

/-- A loop over a range keeps an invariant, or fails in one of its rounds. -/
theorem sat_forRange {n : ℕ} {body : ℕ → Exec σ ε Unit} {s : σ} {P : ℕ → σ → Prop}
    {Q : Except ε Unit → σ → Prop} (hstart : P 0 s)
    (hstep : ∀ i s', i < n → P i s' → Sat (body i) s' fun r s'' =>
      (r = .ok () → P (i + 1) s'') ∧ ∀ e, r = .error e → Q (.error e) s'')
    (hend : ∀ s', P n s' → Q (.ok ()) s') : Sat (forRange n body) s Q := by
  have hgo : ∀ k ≤ n, Sat (forRange k body) s fun r s' =>
      (r = .ok () → P k s') ∧ ∀ e, r = .error e → Q (.error e) s' := by
    intro k
    induction k with
    | zero => exact fun _ => sat_pure ⟨fun _ => hstart, by simp⟩
    | succ k ih =>
      intro hk
      exact (ih (by omega)).bind (fun _ s' h => hstep k s' hk (h.1 rfl)) fun e s' h =>
        ⟨by simp, fun e' heq => by obtain rfl := Except.error.inj heq; exact h.2 e rfl⟩
  refine (hgo n (Nat.le_refl n)).mono fun r s' h => ?_
  cases r with
  | ok u => exact hend s' (h.1 rfl)
  | error e => exact h.2 e rfl

/-! ## Success -/

/-- The program returns a value, which satisfies `Q` with the final state. -/
def Succeeds (c : Exec σ ε α) (s : σ) (Q : α → σ → Prop) : Prop :=
  ∃ a s', Returns c s a s' ∧ Q a s'

theorem Returns.succeeds {c : Exec σ ε α} {s s' : σ} {a : α} {Q : α → σ → Prop}
    (h : Returns c s a s') (hq : Q a s') : Succeeds c s Q := ⟨a, s', h, hq⟩

theorem succeeds_pure {a : α} {s : σ} {Q : α → σ → Prop} (h : Q a s) :
    Succeeds (pure a : Exec σ ε α) s Q := ⟨a, s, rfl, h⟩

theorem succeeds_get {f : σ → Exec σ ε α} {s : σ} {Q : α → σ → Prop} (h : Succeeds (f s) s Q) :
    Succeeds (get >>= f) s Q := h

theorem succeeds_modify {g : σ → σ} {f : Unit → Exec σ ε α} {s : σ} {Q : α → σ → Prop}
    (h : Succeeds (f ()) (g s) Q) : Succeeds (modify g >>= f) s Q := h

/-- A sequence of programs that succeed. -/
theorem Succeeds.bind {c : Exec σ ε α} {f : α → Exec σ ε β} {s : σ} {P : α → σ → Prop}
    {Q : β → σ → Prop} (hc : Succeeds c s P) (hf : ∀ a s', P a s' → Succeeds (f a) s' Q) :
    Succeeds (c >>= f) s Q := by
  obtain ⟨a, s₁, hreturns, hp⟩ := hc
  obtain ⟨b, s₂, hreturns', hq⟩ := hf a s₁ hp
  exact ⟨b, s₂, returns_bind.mpr ⟨a, s₁, hreturns, hreturns'⟩, hq⟩

theorem Returns.succeeds_bind {c : Exec σ ε α} {f : α → Exec σ ε β} {s s' : σ} {a : α}
    {Q : β → σ → Prop} (h : Returns c s a s') (hf : Succeeds (f a) s' Q) :
    Succeeds (c >>= f) s Q := by
  obtain ⟨b, s₂, hreturns, hq⟩ := hf
  exact ⟨b, s₂, returns_bind.mpr ⟨a, s', h, hreturns⟩, hq⟩

theorem Succeeds.mono {c : Exec σ ε α} {s : σ} {P Q : α → σ → Prop} (h : Succeeds c s P)
    (himp : ∀ a s', P a s' → Q a s') : Succeeds c s Q := by
  obtain ⟨a, s', hreturns, hp⟩ := h
  exact ⟨a, s', hreturns, himp a s' hp⟩

/-- **Success and what is known of every result.** -/
theorem Succeeds.and {c : Exec σ ε α} {s : σ} {P : α → σ → Prop} {Q : Except ε α → σ → Prop}
    (h : Succeeds c s P) (h' : Sat c s Q) : Succeeds c s fun a s' => P a s' ∧ Q (.ok a) s' := by
  obtain ⟨a, s₁, hreturns, hp⟩ := h
  obtain ⟨r, s₂, hrun, hq⟩ := h'
  obtain ⟨rfl, rfl⟩ := Prod.mk.inj (Except.ok.inj (hreturns.symm.trans hrun))
  exact ⟨a, s₁, hreturns, hp, hq⟩

/-- A program succeeds when nothing that is known of it allows a failure. -/
theorem Sat.succeeds {c : Exec σ ε α} {s : σ} {Q : Except ε α → σ → Prop} (h : Sat c s Q)
    (hnot : ∀ e s', ¬Q (.error e) s') : Succeeds c s fun a s' => Q (.ok a) s' := by
  obtain ⟨r, s', hrun, hq⟩ := h
  cases r with
  | ok a => exact ⟨a, s', hrun, hq⟩
  | error e => exact absurd hq (hnot e s')

/-- A run of a program that succeeds. -/
theorem Succeeds.eq_ok {c : Exec σ ε α} {s s' : σ} {r : Except ε α} {Q : α → σ → Prop}
    (h : Succeeds c s Q) (hrun : c s = .ok (r, s')) : ∃ a, r = .ok a ∧ Q a s' := by
  obtain ⟨a, s₁, hreturns, hq⟩ := h
  obtain ⟨rfl, rfl⟩ := Prod.mk.inj (Except.ok.inj (hreturns.symm.trans hrun))
  exact ⟨a, rfl, hq⟩

theorem Succeeds.mapError {f : ε → ε'} {c : Exec σ ε α} {s : σ} {Q : α → σ → Prop}
    (h : Succeeds c s Q) : Succeeds (mapError f c) s Q := by
  obtain ⟨a, s', hreturns, hq⟩ := h
  exact ⟨a, s', returns_mapError.mpr hreturns, hq⟩

/-- A loop over a range whose rounds succeed. -/
theorem succeeds_forRange {n : ℕ} {body : ℕ → Exec σ ε Unit} {s : σ} {P : ℕ → σ → Prop}
    (hstart : P 0 s)
    (hstep : ∀ i s', i < n → P i s' → Succeeds (body i) s' fun _ s'' => P (i + 1) s'') :
    Succeeds (forRange n body) s fun _ s' => P n s' := by
  induction n with
  | zero => exact succeeds_pure hstart
  | succ n ih =>
    have hbefore := ih fun i s' hi => hstep i s' (Nat.lt_succ_of_lt hi)
    exact hbefore.bind fun _ s' hp => hstep n s' (Nat.lt_succ_self n) hp

/-! ## Sequences of programs -/

/-- The states reached by running allowed programs one after the other, whatever their results. -/
inductive Run (allowed : σ → Exec σ ε α → Prop) (s : σ) : σ → Prop
  | start : Run allowed s s
  | next {s₁ s₂ : σ} {c : Exec σ ε α} {r : Except ε α} (run : Run allowed s s₁)
      (ok : allowed s₁ c) (step : c s₁ = .ok (r, s₂)) : Run allowed s s₂

/-- What one program establishes of its final state and the state before, along a run. -/
theorem Run.induct {allowed : σ → Exec σ ε α → Prop} {P : σ → Prop} {s s' : σ}
    (h : Run allowed s s') (hs : P s)
    (hstep : ∀ s₁ c, P s₁ → allowed s₁ c → Sat c s₁ fun _ s₂ => P s₂) : P s' := by
  induction h with
  | start => exact hs
  | next _ hok hrun ih =>
    obtain ⟨r, s₂, hc, hp⟩ := hstep _ _ ih hok
    obtain ⟨rfl, rfl⟩ := Prod.mk.inj (Except.ok.inj (hrun.symm.trans hc))
    exact hp

theorem Run.trans {allowed : σ → Exec σ ε α → Prop} {s s' s'' : σ} (h : Run allowed s s')
    (h' : Run allowed s' s'') : Run allowed s s'' := by
  induction h' with
  | start => exact h
  | next _ hok hstep ih => exact ih.next hok hstep

/-! ## Hidden state -/

/-- Seen through `p`, the program `c` runs as `d` does. -/
def Hides (p : σ → τ) (c : Exec σ ε α) (d : Exec τ ε α) : Prop :=
  ∀ s, (c s).map (fun x => (x.1, p x.2)) = d (p s)

section Hides

variable {p : σ → τ} {c : Exec σ ε α} {d : Exec τ ε α}

theorem hides_refl (c : Exec σ ε α) : Hides id c c := by
  intro s
  rw [id]
  rcases c s with b | x <;> rfl

theorem hides_pure (a : α) : Hides p (pure a : Exec σ ε α) (pure a) := fun _ => rfl

theorem hides_fail (e : ε) : Hides p (fail e : Exec σ ε α) (fail e) := fun _ => rfl

theorem Hides.bind (h : Hides p c d) {f : α → Exec σ ε β} {g : α → Exec τ ε β}
    (hfg : ∀ a, Hides p (f a) (g a)) : Hides p (c >>= f) (d >>= g) := by
  intro s
  rw [bind_apply, bind_apply, ← h s]
  rcases c s with b | ⟨e | a, s'⟩
  · rfl
  · rfl
  · exact hfg a s'

/-- The program may look at what is not hidden. -/
theorem hides_get {f : σ → Exec σ ε α} {g : τ → Exec τ ε α} (h : ∀ s, Hides p (f s) (g (p s))) :
    Hides p (get >>= f) (get >>= g) := fun s => h s s

theorem hides_modify {f : σ → σ} {g : τ → τ} (h : ∀ s, p (f s) = g (p s)) :
    Hides p (modify f : Exec σ ε Unit) (modify g) := by
  intro s
  show Except.ok (Except.ok (), p (f s)) = Except.ok (Except.ok (), g (p s))
  rw [h]

theorem Hides.mapError (h : Hides p c d) (f : ε → ε') :
    Hides p (mapError f c) (Exec.mapError f d) := by
  intro s
  rw [Exec.mapError, Exec.mapError, ← h s]
  rcases c s with b | x <;> rfl

theorem Hides.ignore (h : Hides p c d) : Hides p (ignore c) (Exec.ignore d) := by
  intro s
  rw [Exec.ignore, Exec.ignore, ← h s]
  rcases c s with b | x <;> rfl

theorem Hides.zoom {υ φ : Type} {q : υ → σ} {proj : υ → φ} {put : φ → υ → υ} {proj' : σ → τ}
    {put' : τ → σ → σ} {r : φ → τ} {c : Exec φ ε α} (h : Hides r c d)
    (hproj : ∀ s, r (proj s) = proj' (q s)) (hput : ∀ t s, q (put t s) = put' (r t) (q s)) :
    Hides q (zoom proj put c) (Exec.zoom proj' put' d) := by
  intro s
  rw [Exec.zoom, Exec.zoom, ← hproj, ← h (proj s)]
  rcases c (proj s) with b | x
  · rfl
  · show Except.ok (x.1, q (put x.2 s)) = Except.ok (x.1, put' (r x.2) (q s))
    rw [hput]

theorem Hides.withLocal {c : Exec (β × σ) ε α} {d : Exec (β × τ) ε α}
    (h : Hides (fun s => (s.1, p s.2)) c d) (b : β) :
    Hides p (withLocal b c) (Exec.withLocal b d) := by
  intro s
  rw [Exec.withLocal, Exec.withLocal, ← h (b, s)]
  rcases c (b, s) with _ | x <;> rfl

/-- What the program seen through `p` returns. -/
theorem Hides.returns (h : Hides p c d) {s : σ} {a : α} {t : τ} (hd : Returns d (p s) a t) :
    ∃ s', Returns c s a s' ∧ p s' = t := by
  unfold Returns at hd
  rw [← h s] at hd
  rcases hcase : c s with b | ⟨r, s'⟩
  · rw [hcase] at hd
    cases hd
  · rw [hcase] at hd
    cases hd
    exact ⟨s', hcase, rfl⟩

theorem Hides.iterate {body : β → Exec σ ε (β ⊕ α)} {body' : β → Exec τ ε (β ⊕ α)}
    (h : ∀ b, Hides p (body b) (body' b)) (n : ℕ) :
    ∀ b, Hides p (iterate body n b) (Exec.iterate body' n b) := by
  induction n with
  | zero => exact fun _ _ => rfl
  | succ n ih =>
    intro b
    refine (h b).bind fun x => ?_
    cases x with
    | inl b' => exact ih b'
    | inr a => exact hides_pure a

/-- A run is a run of programs that keep more. -/
theorem Run.lift {allowed : σ → Exec σ ε α → Prop} {allowed' : τ → Exec τ ε α → Prop} {s : σ} {t : τ}
    (hstep : ∀ s d, allowed' (p s) d → ∃ c, allowed s c ∧ Hides p c d)
    (h : Run allowed' (p s) t) : ∃ s', Run allowed s s' ∧ p s' = t := by
  induction h with
  | start => exact ⟨s, .start, rfl⟩
  | next _ hok hrun ih =>
    obtain ⟨s₁, hs₁, rfl⟩ := ih
    obtain ⟨c, hc, hhides⟩ := hstep s₁ _ hok
    rw [← hhides s₁] at hrun
    rcases hcase : c s₁ with b | ⟨r, s₂⟩
    · rw [hcase] at hrun
      cases hrun
    · rw [hcase] at hrun
      cases hrun
      exact ⟨s₂, .next hs₁ hc hcase, rfl⟩

end Hides

/-! ## Checks -/

/-- The program is a check: it is never aborted, leaves the state alone and returns exactly the
values that satisfy `Q`. -/
def Decides (c : Exec σ ε α) (Q : α → Prop) : Prop :=
  ∀ s, ∃ r, c s = .ok (r, s) ∧ ∀ a, r = .ok a ↔ Q a

theorem Decides.safe {c : Exec σ ε α} {Q : α → Prop} (h : Decides c Q) (s : σ) : Safe c s := by
  obtain ⟨r, hr, -⟩ := h s
  exact ⟨_, hr⟩

theorem Decides.returns_iff {c : Exec σ ε α} {Q : α → Prop} (h : Decides c Q) {s s' : σ} {a : α} :
    Returns c s a s' ↔ Q a ∧ s' = s := by
  obtain ⟨r, hr, hq⟩ := h s
  rw [Returns, hr, ← hq a]
  simp only [Except.ok.injEq, Prod.mk.injEq]
  exact and_congr_right fun _ => eq_comm

theorem Decides.congr {c : Exec σ ε α} {P Q : α → Prop} (h : Decides c P) (hpq : ∀ a, P a ↔ Q a) :
    Decides c Q := fun s => by
  obtain ⟨r, hr, hq⟩ := h s
  exact ⟨r, hr, fun a => (hq a).trans (hpq a)⟩

theorem decides_pure (a : α) : Decides (pure a : Exec σ ε α) (· = a) := fun _ =>
  ⟨.ok a, rfl, fun _ => by simp [eq_comm]⟩

theorem decides_fail (e : ε) : Decides (fail e : Exec σ ε α) fun _ => False := fun _ =>
  ⟨.error e, rfl, fun _ => by simp⟩

theorem decides_ofExcept (r : Except ε α) : Decides (ofExcept r : Exec σ ε α) (r = .ok ·) := fun _ =>
  ⟨r, rfl, fun _ => Iff.rfl⟩

theorem decides_require {p : Prop} [Decidable p] {m : String} (h : p) :
    Decides (require p m : Exec σ ε Unit) fun _ => True := by
  rw [require, if_pos h]
  exact (decides_pure ()).congr fun _ => by simp

theorem decides_bind {c : Exec σ ε α} {f : α → Exec σ ε β} {P : α → Prop} {Q : α → β → Prop}
    (hc : Decides c P) (hf : ∀ a, P a → Decides (f a) (Q a)) :
    Decides (c >>= f) fun b => ∃ a, P a ∧ Q a b := fun s => by
  obtain ⟨r, hr, hp⟩ := hc s
  cases r with
  | error e =>
    refine ⟨.error e, by simp only [bind_apply, hr], fun b => ?_⟩
    simp only [reduceCtorEq, false_iff, not_exists, not_and]
    exact fun a ha => absurd ((hp a).mpr ha) (by simp)
  | ok a =>
    have ha := (hp a).mp rfl
    obtain ⟨r', hr', hq⟩ := hf a ha s
    refine ⟨r', by simp only [bind_apply, hr, hr'], fun b => ?_⟩
    rw [hq b]
    constructor
    · exact fun hb => ⟨a, ha, hb⟩
    · rintro ⟨a', ha', hb⟩
      obtain rfl : a = a' := by simpa using (hp a').mpr ha'
      exact hb

theorem decides_mapError {c : Exec σ ε α} {Q : α → Prop} {f : ε → ε'} (h : Decides c Q) :
    Decides (mapError f c) Q := fun s => by
  obtain ⟨r, hr, hq⟩ := h s
  refine ⟨r.mapError f, by simp only [mapError, hr, Except.map], fun a => ?_⟩
  rw [← hq a]
  cases r <;> simp [Except.mapError]

theorem decides_expect {c : Exec σ ε α} {Q : α → Prop} {m : String} (h : Decides c Q)
    (hex : ∃ a, Q a) : Decides (expect m c : Exec σ ε' α) Q := fun s => by
  obtain ⟨r, hr, hq⟩ := h s
  obtain ⟨a, ha⟩ := hex
  obtain rfl := (hq a).mpr ha
  refine ⟨.ok a, by simp only [expect, hr], fun b => ?_⟩
  rw [← hq b]
  simp

theorem decides_of_returns {c : Exec σ ε α} {a : α} (h : ∀ s, Returns c s a s) :
    Decides c (· = a) := fun s => ⟨.ok a, h s, fun b => by simp [eq_comm]⟩

/-- A check that starts with a program that returns a known value. -/
theorem decides_bind_of_returns {c : Exec σ ε α} {f : α → Exec σ ε β} {a : α} {Q : β → Prop}
    (hc : ∀ s, Returns c s a s) (hf : Decides (f a) Q) : Decides (c >>= f) Q := by
  refine (decides_bind (decides_of_returns hc) (Q := fun _ => Q) ?_).congr fun _ => by simp
  rintro _ rfl
  exact hf

/-- A loop of checks over a list. -/
theorem decides_foldlM {f : Unit → α → Exec σ ε Unit} {P : β → Prop} {as : List α} {bs : List β}
    (h : List.Forall₂ (fun a b => Decides (f () a) fun _ => P b) as bs) :
    Decides (as.foldlM f ()) fun _ => ∀ b ∈ bs, P b := by
  induction h with
  | nil => exact (decides_pure ()).congr fun _ => by simp
  | cons head _ ih =>
    rw [List.foldlM_cons]
    exact (decides_bind head fun _ _ => ih).congr fun _ => by simp

end Exec
