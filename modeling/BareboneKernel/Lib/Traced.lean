import BareboneKernel.Lib.Exec

/-!
# Programs that report events

A program `c : Traced σ ω α` runs over states `σ` and reports events `ω` on its way. A run that is
aborted has reported what came before.

* `Traced.atomic`: one step, which reports the states around it;
* `Traced.mapEvents`: change the events of a program;
* `Traced.reported`: report the call that a program is, once it returns;
* `snd_bind` and its like: what a program returns, without its events;
* `Emits c s P Q`: from `s` all events satisfy `P`, and what is returned satisfies `Q`. There is one
  rule for each way to build a program; **`Traced.Emits.bind`** is that of a sequence.
-/

set_option autoImplicit false

/-- A program over states `σ` that reports events `ω` and returns a value of `α`. -/
def Traced (σ ω α : Type) : Type := σ → List ω × Except Abort (α × σ)

namespace Traced

variable {σ ω α β : Type}

instance : Monad (Traced σ ω) where
  pure a := fun s => ([], .ok (a, s))
  bind c f := fun s =>
    match c s with
    | (es, .ok (a, s')) => (es ++ (f a s').1, (f a s').2)
    | (es, .error b) => (es, .error b)

/-- One step. A step that is aborted reports nothing. -/
def atomic (step : σ → Except Abort (α × σ)) (event : σ → σ → ω) : Traced σ ω α := fun s =>
  match step s with
  | .ok (a, s') => ([event s s'], .ok (a, s'))
  | .error b => ([], .error b)

/-- Report an event. -/
def report (event : σ → ω) : Traced σ ω Unit := fun s => ([event s], .ok ((), s))

/-- Change the events of a program. -/
def mapEvents (f : ω → ω) (c : Traced σ ω α) : Traced σ ω α := fun s => ((c s).1.map f, (c s).2)

/-- Report, once `c` returns, what it returned and the states before and after. -/
def reported (event : α → σ → σ → ω) (c : Traced σ ω α) : Traced σ ω α := fun s =>
  match c s with
  | (es, .ok (a, s')) => (es ++ [event a s s'], .ok (a, s'))
  | (es, .error b) => (es, .error b)

/-- A sequence stops with its first program, or goes on where that has returned. -/
theorem bind_cases (c : Traced σ ω α) (f : α → Traced σ ω β) (s : σ) :
    (∃ es b, c s = (es, .error b) ∧ (c >>= f) s = (es, .error b)) ∨
      ∃ es a s', c s = (es, .ok (a, s')) ∧ (c >>= f) s = (es ++ (f a s').1, (f a s').2) := by
  have hbind : (c >>= f) s = match c s with
      | (es, .ok (a, s')) => (es ++ (f a s').1, (f a s').2)
      | (es, .error b) => (es, .error b) := rfl
  rcases hrun : c s with ⟨es, b | ⟨a, s'⟩⟩
  · rw [hrun] at hbind
    exact .inl ⟨es, b, rfl, hbind⟩
  · rw [hrun] at hbind
    exact .inr ⟨es, a, s', rfl, hbind⟩

theorem reported_cases (event : α → σ → σ → ω) (c : Traced σ ω α) (s : σ) :
    (∃ es b, c s = (es, .error b) ∧ reported event c s = (es, .error b)) ∨
      ∃ es a s', c s = (es, .ok (a, s')) ∧ reported event c s = (es ++ [event a s s'], .ok (a, s')) := by
  unfold reported
  rcases hrun : c s with ⟨es, b | ⟨a, s'⟩⟩
  · exact .inl ⟨es, b, rfl, rfl⟩
  · exact .inr ⟨es, a, s', rfl, rfl⟩

/-! ## Results -/

section Results

variable {s : σ}

@[simp] theorem snd_pure (a : α) : ((pure a : Traced σ ω α) s).2 = .ok (a, s) := rfl

theorem snd_bind (c : Traced σ ω α) (f : α → Traced σ ω β) :
    ((c >>= f) s).2 = (c s).2.bind fun x => (f x.1 x.2).2 := by
  rcases bind_cases c f s with ⟨es, b, hrun, hbind⟩ | ⟨es, a, s', hrun, hbind⟩
  · rw [hrun, hbind]
    rfl
  · rw [hrun, hbind]
    rfl

@[simp] theorem snd_atomic (step : σ → Except Abort (α × σ)) (event : σ → σ → ω) :
    (atomic step event s).2 = step s := by
  unfold atomic
  rcases step s with b | ⟨a, s'⟩ <;> rfl

@[simp] theorem snd_mapEvents (f : ω → ω) (c : Traced σ ω α) : (mapEvents f c s).2 = (c s).2 := rfl

@[simp] theorem snd_report (event : σ → ω) : (report event s).2 = .ok ((), s) := rfl

@[simp] theorem snd_reported (event : α → σ → σ → ω) (c : Traced σ ω α) :
    (reported event c s).2 = (c s).2 := by
  rcases reported_cases event c s with ⟨es, b, hrun, hcall⟩ | ⟨es, a, s', hrun, hcall⟩
  · rw [hrun, hcall]
  · rw [hrun, hcall]

end Results

/-! ## Events and results -/

/-- From `s`, all events satisfy `P`, and what is returned satisfies `Q`. -/
def Emits (c : Traced σ ω α) (s : σ) (P : ω → Prop) (Q : α → σ → Prop) : Prop :=
  (∀ e ∈ (c s).1, P e) ∧ ∀ a s', (c s).2 = .ok (a, s') → Q a s'

section Emits

variable {c : Traced σ ω α} {f : α → Traced σ ω β} {s : σ} {P P' : ω → Prop} {Q Q' : α → σ → Prop}

theorem emits_pure {a : α} (h : Q a s) : Emits (pure a) s P Q := by
  refine ⟨fun e he => absurd he List.not_mem_nil, fun a' s' heq => ?_⟩
  cases heq
  exact h

theorem Emits.bind {Q' : β → σ → Prop} (hc : Emits c s P Q)
    (hf : ∀ a s', Q a s' → Emits (f a) s' P Q') : Emits (c >>= f) s P Q' := by
  obtain ⟨hevents, hresult⟩ := hc
  rcases bind_cases c f s with ⟨es, b, hrun, hbind⟩ | ⟨es, a, s', hrun, hbind⟩
  · rw [hrun] at hevents
    rw [Emits, hbind]
    exact ⟨hevents, by simp⟩
  · rw [hrun] at hevents hresult
    obtain ⟨hevents', hresult'⟩ := hf a s' (hresult a s' rfl)
    rw [Emits, hbind]
    exact ⟨List.forall_mem_append.mpr ⟨hevents, hevents'⟩, hresult'⟩

theorem Emits.mono (h : Emits c s P Q) (hP : ∀ e, P e → P' e) (hQ : ∀ a s', Q a s' → Q' a s') :
    Emits c s P' Q' :=
  ⟨fun e he => hP e (h.1 e he), fun a s' heq => hQ a s' (h.2 a s' heq)⟩

theorem emits_atomic {step : σ → Except Abort (α × σ)} {event : σ → σ → ω}
    (h : ∀ a s', step s = .ok (a, s') → P (event s s') ∧ Q a s') :
    Emits (atomic step event) s P Q := by
  unfold Emits atomic
  rcases hstep : step s with b | ⟨a, s'⟩
  · exact ⟨by simp, by simp⟩
  · obtain ⟨hevent, hresult⟩ := h a s' hstep
    refine ⟨by simpa using hevent, fun a' t heq => ?_⟩
    cases heq
    exact hresult

theorem emits_report {event : σ → ω} {Q : Unit → σ → Prop} (hevent : P (event s)) (h : Q () s) :
    Emits (report event) s P Q := by
  refine ⟨by simpa [report] using hevent, fun a t heq => ?_⟩
  cases heq
  exact h

theorem Emits.mapEvents {g : ω → ω} (h : Emits c s (fun e => P (g e)) Q) :
    Emits (mapEvents g c) s P Q := by
  refine ⟨fun e he => ?_, h.2⟩
  obtain ⟨e', he', rfl⟩ := List.mem_map.mp he
  exact h.1 e' he'

theorem Emits.reported {event : α → σ → σ → ω} (h : Emits c s P Q)
    (hevent : ∀ a s', Q a s' → P (event a s s')) : Emits (reported event c) s P Q := by
  obtain ⟨hevents, hresult⟩ := h
  rcases reported_cases event c s with ⟨es, b, hrun, hcall⟩ | ⟨es, a, s', hrun, hcall⟩
  · rw [hrun] at hevents
    rw [Emits, hcall]
    exact ⟨hevents, by simp⟩
  · rw [hrun] at hevents hresult
    rw [Emits, hcall]
    refine ⟨List.forall_mem_append.mpr ⟨hevents, ?_⟩, hresult⟩
    simpa using hevent a s' (hresult a s' rfl)

end Emits

end Traced
