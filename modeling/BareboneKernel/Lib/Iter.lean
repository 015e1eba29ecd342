import BareboneKernel.Lib.Exec
import Mathlib.Data.List.Basic

/-!
# Iterators

An iterator is a state `it : ι` with a program `next : Exec ι ε (Option α)` over it.

* `Yields next as it`: from `it` the iterator yields exactly `as` and then nothing, however often
  it is asked;
* `Pulled next it a`: asked often enough, the iterator gives `a`;
* `findNext`: advance to the first value that satisfies a predicate (`Iterator::find`);
* `foldIter`: run a program on every value (a `for` loop);
* `findSomeIter`: run a program on the values until it gives something (a `for` loop with an early
  return); `skipIter`: leave out the first values;
* `times`: ask a number of times;
* **`foldIter_eq`**, **`Yields.findNext`**, **`Yields.findSomeIter`**, **`Yields.skipIter`**: over
  an iterator that yields `as` these are the same operations on the list `as`.
-/

set_option autoImplicit false

namespace Exec

variable {σ ι ε α β : Type}

/-- Advance an iterator held in a variable. -/
def advance (next : Exec ι ε (Option α)) (it : ι) : Exec σ ε (Option α × ι) := fun s =>
  match next it with
  | .ok (.ok a, it') => .ok (.ok (a, it'), s)
  | .ok (.error e, _) => .ok (.error e, s)
  | .error b => .error b

/-- Advance to the first value that satisfies `p`. -/
def findNext (next : Exec ι ε (Option α)) (p : α → Bool) (fuel : ℕ) : Exec ι ε (Option α) :=
  iterate (fun _ => do
    match ← next with
    | none => pure (.inr none)
    | some a => if p a then pure (.inr (some a)) else pure (.inl ())) fuel ()

/-- Run `f` on every value, starting with `b`. -/
def foldIter (next : Exec ι ε (Option α)) (f : β → α → Exec σ ε β) : ℕ → ι → β → Exec σ ε β
  | 0, _, _ => abort .exhausted
  | n + 1, it, b => advance next it >>= fun
    | (none, _) => pure b
    | (some a, it') => f b a >>= foldIter next f n it'

/-- Run `f` on the values until it gives something. -/
def findSomeIter (next : Exec ι ε (Option α)) (f : α → Exec σ ε (Option β)) :
    ℕ → ι → Exec σ ε (Option β)
  | 0, _ => abort .exhausted
  | n + 1, it => advance next it >>= fun
    | (none, _) => pure none
    | (some a, it') => f a >>= fun
      | some b => pure (some b)
      | none => findSomeIter next f n it'

/-- Leave out the first `n` values. -/
def skipIter (next : Exec ι ε (Option α)) : ℕ → ι → Exec σ ε ι
  | 0, it => pure it
  | n + 1, it => advance next it >>= fun
    | (none, it') => pure it'
    | (some _, it') => skipIter next n it'

/-- The results of `n` runs in a row. -/
def times (c : Exec σ ε α) : ℕ → Exec σ ε (List α)
  | 0 => pure []
  | n + 1 => do
    let a ← c
    let as ← times c n
    pure (a :: as)

/-- From this state the iterator yields the given values and then nothing. -/
def Yields (next : Exec ι ε (Option α)) : List α → ι → Prop
  | [], it => ∃ it', Returns next it none it' ∧ Returns next it' none it'
  | a :: as, it => ∃ it', Returns next it (some a) it' ∧ Yields next as it'

/-- An iterator yields one list of values only. -/
theorem Yields.unique {next : Exec ι ε (Option α)} {as bs : List α} {it : ι}
    (h : Yields next as it) (h' : Yields next bs it) : as = bs := by
  induction as generalizing bs it with
  | nil =>
    obtain ⟨_, h₁, -⟩ := h
    cases bs with
    | nil => rfl
    | cons b bs =>
      obtain ⟨_, h₂, -⟩ := h'
      cases (h₁.unique h₂).1
  | cons a as ih =>
    obtain ⟨_, h₁, h₂⟩ := h
    cases bs with
    | nil =>
      obtain ⟨_, h₃, -⟩ := h'
      cases (h₁.unique h₃).1
    | cons b bs =>
      obtain ⟨_, h₃, h₄⟩ := h'
      obtain ⟨heq, rfl⟩ := h₁.unique h₃
      rw [Option.some.inj heq, ih h₂ h₄]

/-- Asked often enough, the iterator gives `a`. -/
inductive Pulled (next : Exec ι ε (Option α)) : ι → α → Prop
  | here {it it' : ι} {a : α} (step : Returns next it (some a) it') : Pulled next it a
  | later {it it' : ι} {o : Option α} {a : α} (step : Returns next it o it')
      (rest : Pulled next it' a) : Pulled next it a

theorem Yields.mem_of_pulled {next : Exec ι ε (Option α)} {it : ι} {a : α}
    (h : Pulled next it a) : ∀ {as : List α}, Yields next as it → a ∈ as := by
  induction h with
  | here step =>
    intro as hy
    cases as with
    | nil =>
      obtain ⟨_, h₁, -⟩ := hy
      exact absurd (step.unique h₁).1 (by simp)
    | cons b as =>
      obtain ⟨_, h₁, -⟩ := hy
      exact List.mem_cons.mpr (.inl (Option.some.inj (step.unique h₁).1))
  | later step _ ih =>
    intro as hy
    cases as with
    | nil =>
      obtain ⟨it', h₁, h₂⟩ := hy
      obtain ⟨-, rfl⟩ := step.unique h₁
      exact ih (show Yields next [] _ from ⟨_, h₂, h₂⟩)
    | cons b as =>
      obtain ⟨it', h₁, h₂⟩ := hy
      obtain ⟨-, rfl⟩ := step.unique h₁
      exact List.mem_cons_of_mem b (ih h₂)

theorem advance_of_returns {next : Exec ι ε (Option α)} {it it' : ι} {a : Option α} (s : σ)
    (h : Returns next it a it') : Returns (advance next it) s (a, it') s := by
  unfold Returns at h
  simp only [Returns, advance, h]

/-- **A `for` loop** over an iterator is the fold over what it yields. -/
theorem foldIter_eq {next : Exec ι ε (Option α)} {f : β → α → Exec σ ε β} {as : List α} :
    ∀ {it : ι} {fuel : ℕ} {b : β}, Yields next as it → as.length < fuel →
      foldIter next f fuel it b = as.foldlM f b := by
  induction as with
  | nil =>
    intro it fuel b h hf
    obtain ⟨fuel, rfl⟩ : ∃ n, fuel = n + 1 := ⟨fuel - 1, by omega⟩
    obtain ⟨it', h₁, -⟩ := h
    funext s
    rw [foldIter, bind_of_returns (advance_of_returns s h₁)]
    rfl
  | cons a as ih =>
    intro it fuel b h hf
    rw [List.length_cons] at hf
    obtain ⟨fuel, rfl⟩ : ∃ n, fuel = n + 1 := ⟨fuel - 1, by omega⟩
    obtain ⟨it', h₁, h₂⟩ := h
    funext s
    rw [foldIter, bind_of_returns (advance_of_returns s h₁), List.foldlM_cons]
    have : foldIter next f fuel it' = fun b => as.foldlM f b := funext fun b => ih h₂ (by omega)
    simp only [this]

/-- **A `for` loop with an early return**: it returns what `f` gives on one of the values, or
nothing when `f` gives nothing on all of them. -/
theorem Yields.findSomeIter {next : Exec ι ε (Option α)} {f : α → Exec σ ε (Option β)}
    {P : α → Option β → Prop} {s : σ} {as : List α} : ∀ {it : ι} {fuel : ℕ},
    Yields next as it → as.length < fuel → (∀ a ∈ as, ∃ o, Returns (f a) s o s ∧ P a o) →
      (∃ a ∈ as, ∃ b, P a (some b) ∧ Returns (Exec.findSomeIter next f fuel it) s (some b) s) ∨
        (∀ a ∈ as, P a none) ∧ Returns (Exec.findSomeIter next f fuel it) s none s := by
  induction as with
  | nil =>
    intro it fuel h hf _
    obtain ⟨fuel, rfl⟩ : ∃ n, fuel = n + 1 := ⟨fuel - 1, by omega⟩
    obtain ⟨it', h₁, -⟩ := h
    refine .inr ⟨by simp, returns_bind.mpr ⟨_, s, advance_of_returns s h₁, ?_⟩⟩
    exact returns_pure.mpr ⟨rfl, rfl⟩
  | cons a as ih =>
    intro it fuel h hf hp
    rw [List.length_cons] at hf
    obtain ⟨fuel, rfl⟩ : ∃ n, fuel = n + 1 := ⟨fuel - 1, by omega⟩
    obtain ⟨it', h₁, h₂⟩ := h
    obtain ⟨o, ho, hpo⟩ := hp a List.mem_cons_self
    have hstep : ∀ {r}, Returns (match o with
        | some b => pure (some b)
        | none => Exec.findSomeIter next f fuel it') s r s →
        Returns (Exec.findSomeIter next f (fuel + 1) it) s r s := fun hr =>
      returns_bind.mpr ⟨_, s, advance_of_returns s h₁, returns_bind.mpr ⟨o, s, ho, hr⟩⟩
    cases o with
    | some b =>
      exact .inl ⟨a, List.mem_cons_self, b, hpo, hstep (returns_pure.mpr ⟨rfl, rfl⟩)⟩
    | none =>
      rcases ih h₂ (show as.length < fuel by omega) fun a' ha => hp a' (List.mem_cons_of_mem _ ha)
        with ⟨a', ha, b, hb, hr⟩ | ⟨hall, hr⟩
      · exact .inl ⟨a', List.mem_cons_of_mem _ ha, b, hb, hstep hr⟩
      · exact .inr ⟨List.forall_mem_cons.mpr ⟨hpo, hall⟩, hstep hr⟩

/-- **`Iterator::skip`** leaves out the first values. -/
theorem Yields.skipIter {next : Exec ι ε (Option α)} {n : ℕ} : ∀ {as : List α} {it : ι},
    Yields next as it →
      ∃ it', (∀ s : σ, Returns (Exec.skipIter next n it) s it' s) ∧ Yields next (as.drop n) it' := by
  induction n with
  | zero => exact fun {as it} h => ⟨it, fun s => returns_pure.mpr ⟨rfl, rfl⟩, h⟩
  | succ n ih =>
    intro as it h
    cases as with
    | nil =>
      obtain ⟨it', h₁, h₂⟩ := h
      refine ⟨it', fun s => returns_bind.mpr ⟨_, s, advance_of_returns s h₁, ?_⟩, ⟨it', h₂, h₂⟩⟩
      exact returns_pure.mpr ⟨rfl, rfl⟩
    | cons a as =>
      obtain ⟨it', h₁, h₂⟩ := h
      obtain ⟨it'', h₃, h₄⟩ := ih h₂
      exact ⟨it'', fun s => returns_bind.mpr ⟨_, s, advance_of_returns s h₁, h₃ s⟩, h₄⟩

/-- The `k`-th of any number of calls returns the `k`-th value, and nothing after the last one. -/
theorem Yields.times {next : Exec ι ε (Option α)} {n : ℕ} : ∀ {as : List α} {it : ι},
    Yields next as it →
      ∃ it', Returns (Exec.times next n) it ((List.range n).map fun k => as[k]?) it' := by
  induction n with
  | zero => exact fun {as it} _ => ⟨it, returns_pure.mpr ⟨rfl, rfl⟩⟩
  | succ n ih =>
    intro as it h
    obtain ⟨it', h₁, h₂⟩ : ∃ it', Returns next it as.head? it' ∧ Yields next as.tail it' := by
      cases as with
      | nil =>
        obtain ⟨it', h₁, h₂⟩ := h
        exact ⟨it', h₁, it', h₂, h₂⟩
      | cons a as => exact h
    obtain ⟨it'', h₃⟩ := ih h₂
    refine ⟨it'', ?_⟩
    rw [Exec.times, returns_bind]
    refine ⟨_, it', h₁, returns_bind.mpr ⟨_, it'', h₃, ?_⟩⟩
    rw [returns_pure, List.range_succ_eq_map, List.map_cons, List.map_map]
    refine ⟨?_, rfl⟩
    cases as <;> simp [Function.comp_def]

/-- The values after the first one that satisfies `p`. -/
def afterFind (p : α → Bool) : List α → List α
  | [] => []
  | a :: as => if p a then as else afterFind p as

/-- **`Iterator::find`** returns the first value that satisfies the predicate, and the iterator
goes on behind it. -/
theorem Yields.findNext {next : Exec ι ε (Option α)} {p : α → Bool} {as : List α} :
    ∀ {it : ι} {fuel : ℕ}, Yields next as it → as.length < fuel →
      ∃ it', Returns (Exec.findNext next p fuel) it (as.find? p) it' ∧
        Yields next (afterFind p as) it' ∧ (as.find? p = none → Returns next it' none it') := by
  induction as with
  | nil =>
    intro it fuel h hf
    obtain ⟨fuel, rfl⟩ : ∃ n, fuel = n + 1 := ⟨fuel - 1, by omega⟩
    obtain ⟨it', h₁, h₂⟩ := h
    refine ⟨it', returns_iterate_succ.mpr (.inr ?_), ⟨it', h₂, h₂⟩, fun _ => h₂⟩
    rw [returns_bind]
    exact ⟨none, it', h₁, returns_pure.mpr ⟨rfl, rfl⟩⟩
  | cons a as ih =>
    intro it fuel h hf
    rw [List.length_cons] at hf
    obtain ⟨fuel, rfl⟩ : ∃ n, fuel = n + 1 := ⟨fuel - 1, by omega⟩
    obtain ⟨it', h₁, h₂⟩ := h
    rw [List.find?_cons, afterFind]
    cases hp : p a with
    | true =>
      refine ⟨it', returns_iterate_succ.mpr (.inr ?_), by simpa using h₂, by simp⟩
      rw [returns_bind]
      refine ⟨some a, it', h₁, ?_⟩
      simp [hp]
    | false =>
      obtain ⟨it'', h₃, h₄, h₅⟩ := ih h₂ (show as.length < fuel by omega)
      refine ⟨it'', returns_iterate_succ.mpr (.inl ⟨(), it', ?_, h₃⟩), by simpa using h₄, h₅⟩
      rw [returns_bind]
      refine ⟨some a, it', h₁, ?_⟩
      simp [hp]

/-- An iterator that goes through the items of one source after the other: `Inv it as bs` says that
the items `as` of the current source and the sources `bs` are still to come. -/
theorem yields_flatten {next : Exec ι ε (Option α)} {items : β → List α}
    (Inv : ι → List α → List β → Prop)
    (hitem : ∀ it a as bs, Inv it (a :: as) bs → ∃ it', Returns next it (some a) it' ∧ Inv it' as bs)
    (hsource : ∀ it b bs, Inv it [] (b :: bs) →
      ∃ a as it', items b = a :: as ∧ Returns next it (some a) it' ∧ Inv it' as bs)
    (hstop : ∀ it, Inv it [] [] → ∃ it', Returns next it none it' ∧ Returns next it' none it')
    {bs : List β} : ∀ {as : List α} {it : ι}, Inv it as bs → Yields next (as ++ bs.flatMap items) it := by
  have hitems : ∀ (bs : List β), (∀ it, Inv it [] bs → Yields next (bs.flatMap items) it) →
      ∀ (as : List α) (it : ι), Inv it as bs → Yields next (as ++ bs.flatMap items) it := by
    intro bs hbs as
    induction as with
    | nil => exact hbs
    | cons a as ih =>
      intro it h
      obtain ⟨it', h₁, h₂⟩ := hitem it a as bs h
      exact ⟨it', h₁, ih it' h₂⟩
  intro as it h
  refine hitems bs ?_ as it h
  clear h as it
  induction bs with
  | nil => exact hstop
  | cons b bs ih =>
    intro it h
    obtain ⟨a, as, it', he, h₁, h₂⟩ := hsource it b bs h
    rw [List.flatMap_cons, he]
    exact ⟨it', h₁, hitems bs ih as it' h₂⟩

end Exec
