import BareboneKernel.Lib.Traced
import BareboneKernel.Lib.Riscv
import BareboneKernel.Kernel.AddressSpace

/-!
# The global memory state

`KernelAllocator` guards the installed memory state with a flag. A call takes the flag with
supervisor interrupts disabled and gives it back before they are restored; a call that finds the flag
taken is refused.

* `withState`: the gate; `alloc`, `withPaging` and `initializeMemory` are its callers;
* `Event`: what a run reports, `Event.deeper` for what happens inside an operation;
* `Calls held c`: `c` is a finite tree of calls, made while the gate is held or not;
* `Event.Sound`: what the gate promises about an event;
* **`gate_exclusive`**: it holds of every event of every tree, and a state is installed once.
-/

set_option autoImplicit false

namespace Barebone.Kernel

open Riscv (SIE setBit getLsbD_setBit)

variable {F α β ε : Type}

/-! ## State -/

/-- Owned memory-management capabilities. -/
structure MemoryState (F : Type) where
  heap : KernelHeap
  paging : KernelPaging
  frames : F

structure KernelAllocator (F : Type) where
  busy : Bool
  state : Option (MemoryState F)

/-- What calls act on: the status register of the hart, the global allocator and the memory. -/
structure System (F : Type) where
  sstatus : Riscv.Word
  allocator : KernelAllocator F
  machine : Machine

inductive AllocatorInitError where
  | busy
  | alreadyInitialized
  deriving DecidableEq

inductive MemoryAccessError where
  | busy
  | notInitialized
  deriving DecidableEq

namespace System

/-- Supervisor interrupts are enabled. -/
def interruptible (s : System F) : Bool := s.sstatus.getLsbD SIE

/-- Some operation holds the memory state. -/
def held (s : System F) : Bool := s.allocator.busy

/-- Memory state has been installed. -/
def installed (s : System F) : Bool := s.allocator.state.isSome

end System

/-! ## Events -/

/-- A call and what it returned. -/
inductive Outcome (F : Type) where
  | alloc (pointer : Option NonNull)
  | withPaging (result : Except MemoryAccessError Unit)
  | initializeMemory (supplied : MemoryState F) (result : Except AllocatorInitError Unit)

/-- What a run reports, with the number of operations it happens inside of. -/
inductive Event (F : Type) where
  | step (depth : ℕ) (before after : System F)
  /-- An operation starts with the memory state. -/
  | entered (depth : ℕ) (state : System F)
  /-- A call returns. -/
  | returned (depth : ℕ) (outcome : Outcome F) (before after : System F)

/-- The same event, inside one more operation. -/
def Event.deeper : Event F → Event F
  | step depth before after => step (depth + 1) before after
  | entered depth state => entered (depth + 1) state
  | returned depth outcome before after => returned (depth + 1) outcome before after

/-- A program over the system whose run is observed. -/
abbrev Observed (F α : Type) : Type := Traced (System F) (Event F) α

def step (f : System F → Except Abort (α × System F)) : Observed F α := Traced.atomic f (.step 0)

/-! ## Interrupts -/

structure InterruptGuard where
  wasEnabled : Bool

/-- `csrrci status, sstatus, 2` -/
def disableInterrupts : Observed F InterruptGuard := step fun s =>
  .ok (⟨s.sstatus.getLsbD SIE⟩, { s with sstatus := setBit s.sstatus SIE false })

/-- `csrsi sstatus, 2` or `csrci sstatus, 2` -/
def InterruptGuard.drop (guard : InterruptGuard) : Observed F Unit := step fun s =>
  .ok ((), { s with sstatus := setBit s.sstatus SIE guard.wasEnabled })

/-! ## The gate -/

/-- `self.busy.compare_exchange(current, new, ..)` -/
def compareExchange (current new : Bool) : Observed F (Except Bool Bool) := step fun s =>
  if s.allocator.busy = current then
    .ok (.ok current, { s with allocator := { s.allocator with busy := new } })
  else .ok (.error s.allocator.busy, s)

/-- Dropping a `StateGuard`. -/
def dropStateGuard : Observed F Unit := step fun s =>
  .ok ((), { s with allocator := { s.allocator with busy := false } })

/-- Run an operation with the memory state. -/
def running (operation : Observed F α) : Observed F α := do
  Traced.report (.entered 0)
  Traced.mapEvents .deeper operation

def withState (operation : Observed F α) : Observed F (Option α) := do
  let interrupts ← disableInterrupts
  match ← compareExchange false true with
  | .error _ => do
    interrupts.drop
    pure none
  | .ok _ => do
    let result ← running operation
    -- the guards are dropped in the reverse order of their acquisition
    dropStateGuard
    interrupts.drop
    pure (some result)

/-! ## Callers -/

/-- Access to the memory state and the memory inside an operation. -/
def onState (f : Option (MemoryState F) × Machine →
    Except Abort (α × Option (MemoryState F) × Machine)) : Observed F α := step fun s =>
  (f (s.allocator.state, s.machine)).map fun x =>
    (x.1, { s with allocator := { s.allocator with state := x.2.1 }, machine := x.2.2 })

/-- The operation of `alloc`; null is `none`. -/
def allocFrom [FrameAllocator F] (layout : Layout) : Option (MemoryState F) × Machine →
    Except Abort (Option NonNull × Option (MemoryState F) × Machine)
  | (none, m) => .ok (none, none, m)
  | (some state, m) =>
    (KernelHeap.allocate state.paging.heapBacking layout (state.heap, m, state.frames)).map fun x =>
      (x.1.toOption, some { state with heap := x.2.1, frames := x.2.2.2 }, x.2.2.1)

def alloc [FrameAllocator F] (layout : Layout) : Observed F (Option NonNull) :=
  Traced.reported (fun pointer => .returned 0 (.alloc pointer)) do
    let result ← withState (onState (allocFrom layout))
    pure (result.getD none)

/-- Work with the capabilities of the installed state; an operation of `withPaging` does not run
without it. -/
def workOn (c : Exec (KernelPaging × Machine × F) ε α) : Option (MemoryState F) × Machine →
    Except Abort (Except ε α × Option (MemoryState F) × Machine)
  | (none, _) => .error (.panicked "operation runs on installed memory state")
  | (some state, m) => (c (state.paging, m, state.frames)).map fun x =>
    (x.1, some { state with paging := x.2.1, frames := x.2.2.2 }, x.2.2.1)

/-- Work of an operation of `withPaging` on what it is given. -/
def onPaging (c : Exec (KernelPaging × Machine × F) ε α) : Observed F (Except ε α) :=
  onState (workOn c)

def withPaging (operation : Observed F α) : Observed F (Except MemoryAccessError α) :=
  Traced.reported (fun result => .returned 0 (.withPaging (result.map fun _ => ()))) do
    let result ← withState do
      match ← onState fun s => .ok (s.1, s) with
      | none => pure (.error .notInitialized)
      | some _ => do
        let value ← operation
        pure (.ok value)
    pure (result.getD (.error .busy))

/-- The operation of `initialize`. -/
def install (state : MemoryState F) : Option (MemoryState F) × Machine →
    Except Abort (Except AllocatorInitError Unit × Option (MemoryState F) × Machine)
  | (some installed, m) => .ok (.error .alreadyInitialized, some installed, m)
  | (none, m) => .ok (.ok (), some state, m)

/-- `initialize` -/
def initializeMemory (heap : KernelHeap) (paging : KernelPaging) (frames : F) :
    Observed F (Except AllocatorInitError Unit) :=
  Traced.reported (fun result => .returned 0 (.initializeMemory ⟨heap, paging, frames⟩ result)) do
    let result ← withState (onState (install ⟨heap, paging, frames⟩))
    pure (result.getD (.error .busy))

/-- What other code does between calls: it changes memory and the interrupt state. -/
def elsewhere (f : Riscv.Word × Machine → Riscv.Word × Machine) : Observed F Unit := step fun s =>
  .ok ((), { s with sstatus := (f (s.sstatus, s.machine)).1, machine := (f (s.sstatus, s.machine)).2 })

/-- **Trees of calls.** `Calls held α c`: the program `c` makes finitely many calls one after the
other. With `held` it is inside an operation, which may work on what it is given between its calls. -/
inductive Calls [FrameAllocator F] : Bool → (α : Type) → Observed F α → Prop
  | pure {held : Bool} {α : Type} (a : α) : Calls held α (pure a)
  | bind {held : Bool} {α β : Type} {c : Observed F α} {f : α → Observed F β}
      (first : Calls held α c) (next : ∀ a, Calls held β (f a)) : Calls held β (c >>= f)
  | elsewhere (f : Riscv.Word × Machine → Riscv.Word × Machine) : Calls false Unit (elsewhere f)
  | onPaging {ε α : Type} (c : Exec (KernelPaging × Machine × F) ε α) :
      Calls true (Except ε α) (onPaging c)
  | alloc {held : Bool} (layout : Layout) : Calls held (Option NonNull) (alloc layout)
  | withPaging {held : Bool} {α : Type} {operation : Observed F α}
      (inside : Calls true α operation) : Calls held (Except MemoryAccessError α) (withPaging operation)
  | initializeMemory {held : Bool} (heap : KernelHeap) (paging : KernelPaging) (frames : F) :
      Calls held (Except AllocatorInitError Unit) (initializeMemory heap paging frames)

/-! ## What the gate promises -/

/-- The call was refused because the memory state is held. -/
def Outcome.Refused : Outcome F → Prop
  | alloc pointer => pointer = none
  | withPaging result => result = .error .busy
  | initializeMemory _ result => result = .error .busy

/-- What a call that takes the gate has done. -/
def Outcome.Effect (before after : System F) : Outcome F → Prop
  | alloc _ => True
  | withPaging result => result ≠ .error .busy
  | initializeMemory supplied (.ok ()) =>
    before.allocator.state = none ∧ after.allocator.state = some supplied
  | initializeMemory _ (.error e) => e = .alreadyInitialized ∧ before.installed = true ∧
    after.allocator.state = before.allocator.state

/-- **Promises about an event.**

* Interrupts are disabled before and after every step that starts or ends with the gate held.
* Only outermost calls run their operation; all inside of it happens with the gate held.
* An outermost call starts and ends with the gate free and restores the status register; a call inside
  an operation is refused and changes nothing. -/
def Event.Sound : Event F → Prop
  | step depth before after =>
    (before.held = true ∨ after.held = true →
      before.interruptible = false ∧ after.interruptible = false) ∧
    (depth ≠ 0 → before.held = true ∧ after.held = true)
  | entered depth state => depth = 0 ∧ state.held = true ∧ state.interruptible = false
  | returned depth outcome before after =>
    (depth = 0 → before.held = false ∧ after.held = false ∧ after.sstatus = before.sstatus ∧
      outcome.Effect before after) ∧
    (depth ≠ 0 → before.held = true ∧ outcome.Refused ∧ after = before)

/-- The call has installed memory state. -/
def Outcome.Installs (outcome : Outcome F) : Prop :=
  ∃ supplied, outcome = .initializeMemory supplied (.ok ())

/-- The event is the return of a successful `initialize`. -/
def Event.Installs : Event F → Prop
  | returned _ outcome _ _ => outcome.Installs
  | _ => False

/-- The event happens when memory state is installed, and does not install any. -/
def Event.AfterInstall : Event F → Prop
  | step _ before after => before.installed = true ∧ after.installed = true
  | entered _ state => state.installed = true
  | returned _ outcome before after =>
    before.installed = true ∧ after.installed = true ∧ ¬outcome.Installs

/-! ## The status register -/

theorem setBit_eq_self (w : Riscv.Word) : setBit w SIE (w.getLsbD SIE) = w := by
  apply BitVec.eq_of_getLsbD_eq
  intro i _
  rw [getLsbD_setBit _ _ _ (by decide)]
  split
  · rename_i h
    rw [h]
  · rfl

/-- Restoring the bit undoes every change of it. -/
theorem setBit_setBit (w : Riscv.Word) (b : Bool) :
    setBit (setBit w SIE b) SIE (w.getLsbD SIE) = w := by
  apply BitVec.eq_of_getLsbD_eq
  intro i _
  rw [getLsbD_setBit _ _ _ (by decide), getLsbD_setBit _ _ _ (by decide)]
  split
  · rename_i h
    rw [h]
  · rfl

namespace System

variable (s : System F)

/-- Interrupts are disabled, the gate is free. -/
def masked : System F := { s with sstatus := setBit s.sstatus SIE false }

/-- The gate has been taken. -/
def taken : System F := { s.masked with allocator := { s.allocator with busy := true } }

/-- The gate has been given back. -/
def freed : System F := { s with allocator := { s.allocator with busy := false } }

@[simp] theorem interruptible_masked : s.masked.interruptible = false := by
  rw [interruptible, masked, getLsbD_setBit _ _ _ (by decide), if_pos rfl]

@[simp] theorem held_masked : s.masked.held = s.held := rfl

@[simp] theorem installed_masked : s.masked.installed = s.installed := rfl

@[simp] theorem interruptible_taken : s.taken.interruptible = false := s.interruptible_masked

@[simp] theorem held_taken : s.taken.held = true := rfl

@[simp] theorem installed_taken : s.taken.installed = s.installed := rfl

@[simp] theorem interruptible_freed : s.freed.interruptible = s.interruptible := rfl

@[simp] theorem held_freed : s.freed.held = false := rfl

@[simp] theorem installed_freed : s.freed.installed = s.installed := rfl

theorem masked_eq_self {s : System F} (h : s.interruptible = false) : s.masked = s := by
  rw [interruptible] at h
  rw [masked, ← h, setBit_eq_self]

end System

/-! ## The gate, step by step -/

section Gate

variable {P : Event F → Prop} {Q : α → System F → Prop} {s : System F} {operation : Observed F α}

/-- A call that finds the gate taken is refused and changes nothing. -/
theorem emits_withState_of_held (hheld : s.held = true) (hquiet : s.interruptible = false)
    (hstep : P (.step 0 s s)) :
    Traced.Emits (withState operation) s P fun r s' => r = none ∧ s' = s := by
  have hmasked := System.masked_eq_self hquiet
  refine Traced.Emits.bind (Q := fun guard s' => guard = ⟨false⟩ ∧ s' = s) ?_ ?_
  · refine Traced.emits_atomic fun guard s' h => ?_
    cases h
    rw [← System.masked, hmasked]
    exact ⟨hstep, congrArg InterruptGuard.mk hquiet, rfl⟩
  rintro guard s₁ ⟨rfl, hs₁⟩
  rw [hs₁]
  refine Traced.Emits.bind (Q := fun r s' => r = .error true ∧ s' = s) ?_ ?_
  · refine Traced.emits_atomic fun r s' h => ?_
    rw [if_neg (by rw [show s.allocator.busy = true from hheld]; simp)] at h
    cases h
    exact ⟨hstep, congrArg Except.error hheld, rfl⟩
  rintro r s₂ ⟨rfl, hs₂⟩
  rw [hs₂]
  refine Traced.Emits.bind (Q := fun _ s' => s' = s) ?_ ?_
  · refine Traced.emits_atomic fun u s' h => ?_
    cases h
    rw [← System.masked, hmasked]
    exact ⟨hstep, rfl⟩
  rintro u s₃ hs₃
  exact Traced.emits_pure ⟨rfl, hs₃⟩

/-- A step of the gate: it keeps the memory state, and interrupts are disabled around the time the
gate is held. -/
structure GateStep (s t t' : System F) : Prop where
  state : t'.allocator.state = t.allocator.state
  installed : s.installed = true → t.installed = true
  quiet : t.held = true ∨ t'.held = true → t.interruptible = false ∧ t'.interruptible = false

/-- A call that finds the gate free runs its operation with the gate taken, and then gives the gate
back and restores the status register. -/
theorem emits_withState_of_free (hfree : s.held = false)
    (hoperation : Traced.Emits operation s.taken (fun e => P e.deeper) Q)
    (hkeeps : ∀ a t, Q a t → t.sstatus = s.taken.sstatus ∧ (s.installed = true → t.installed = true))
    (hentered : P (.entered 0 s.taken)) (hstep : ∀ t t', GateStep s t t' → P (.step 0 t t')) :
    Traced.Emits (withState operation) s P fun r s' =>
      ∃ a t, Q a t ∧ r = some a ∧ s' = { t.freed with sstatus := s.sstatus } := by
  refine Traced.Emits.bind (Q := fun guard s' => guard = ⟨s.sstatus.getLsbD SIE⟩ ∧ s' = s.masked)
    ?_ ?_
  · refine Traced.emits_atomic fun guard s' h => ?_
    cases h
    refine ⟨hstep s s.masked ⟨rfl, id, fun h => ?_⟩, rfl, rfl⟩
    rw [System.held_masked, or_self, hfree] at h
    cases h
  rintro guard s₁ ⟨rfl, hs₁⟩
  rw [hs₁]
  refine Traced.Emits.bind (Q := fun r s' => r = .ok false ∧ s' = s.taken) ?_ ?_
  · refine Traced.emits_atomic fun r s' h => ?_
    rw [if_pos (show s.masked.allocator.busy = false from hfree)] at h
    cases h
    exact ⟨hstep s.masked s.taken ⟨rfl, id, fun _ => ⟨s.interruptible_masked, s.interruptible_taken⟩⟩,
      rfl, rfl⟩
  rintro r s₂ ⟨rfl, hs₂⟩
  rw [hs₂]
  refine Traced.Emits.bind (Q := Q) ?_ fun a t hq => ?_
  · exact (Traced.emits_report (Q := fun _ s' => s' = s.taken) hentered rfl).bind fun _ s' hs' =>
      hs' ▸ hoperation.mapEvents
  obtain ⟨hstatus, hinstalled⟩ := hkeeps a t hq
  have hquiet : t.interruptible = false := by
    rw [System.interruptible, hstatus]
    exact s.interruptible_taken
  refine Traced.Emits.bind (Q := fun _ s' => s' = t.freed) ?_ ?_
  · refine Traced.emits_atomic fun u s' h => ?_
    cases h
    exact ⟨hstep t t.freed ⟨rfl, hinstalled, fun _ => ⟨hquiet, hquiet⟩⟩, rfl⟩
  rintro u s₃ hs₃
  rw [hs₃]
  refine Traced.Emits.bind (Q := fun _ s' => s' = { t.freed with sstatus := s.sstatus }) ?_ ?_
  · refine Traced.emits_atomic fun u s' h => ?_
    cases h
    have hrestore : setBit t.freed.sstatus SIE (s.sstatus.getLsbD SIE) = s.sstatus := by
      show setBit t.sstatus SIE _ = _
      rw [hstatus]
      exact setBit_setBit s.sstatus false
    rw [hrestore]
    refine ⟨hstep t.freed _ ⟨rfl, hinstalled, fun h => ?_⟩, rfl⟩
    rcases h with h | h <;> cases h
  rintro u s₄ hs₄
  exact Traced.emits_pure ⟨a, t, hq, rfl, hs₄⟩

end Gate

/-! ## Trees of calls -/

/-- An event of a program that runs inside an operation or outside of one. -/
def Event.at (held : Bool) (e : Event F) : Event F := if held then e.deeper else e

/-- Where programs run: outside of an operation the gate is free, inside of one it is held and
interrupts are disabled. -/
structure Runs (held : Bool) (s : System F) : Prop where
  gate : s.held = held
  quiet : held = true → s.interruptible = false

/-- What is reported: sound events, and after an installation only such as keep the state. -/
structure Reports (held : Bool) (s : System F) (e : Event F) : Prop where
  sound : (e.at held).Sound
  later : s.installed = true → e.AfterInstall

/-- What a program leaves: the gate as it found it, and an installed state if there was one. -/
structure Leaves (held : Bool) (s s' : System F) : Prop where
  runs : Runs held s'
  sstatus : held = true → s'.sstatus = s.sstatus
  installed : s.installed = true → s'.installed = true

/-- A run of `c` from `s` keeps the promises. -/
structure Guarded (held : Bool) (s : System F) (c : Observed F α) : Prop where
  emits : Traced.Emits c s (Reports held s) fun _ => Leaves held s
  once : (c s).1.Pairwise fun e e' => e.Installs → e'.AfterInstall
  installed : ∀ e ∈ (c s).1, e.Installs → ∀ a s', (c s).2 = .ok (a, s') → s'.installed = true

section Tree

variable {held : Bool} {s s' s'' : System F}

theorem Leaves.refl (h : Runs held s) : Leaves held s s := ⟨h, fun _ => rfl, id⟩

theorem Leaves.trans (h : Leaves held s s') (h' : Leaves held s' s'') : Leaves held s s'' :=
  ⟨h'.runs, fun hheld => (h'.sstatus hheld).trans (h.sstatus hheld),
    fun hin => h'.installed (h.installed hin)⟩

theorem Runs.taken (s : System F) : Runs true s.taken := ⟨rfl, fun _ => s.interruptible_taken⟩

theorem Reports.gateStep {t t' : System F} (h : GateStep s t t') :
    Reports false s (.step 0 t t') := by
  refine ⟨⟨h.quiet, fun hdepth => absurd rfl hdepth⟩, fun hin => ?_⟩
  have ht := h.installed hin
  refine ⟨ht, ?_⟩
  rw [System.installed, h.state]
  exact ht

theorem Reports.entered (s : System F) : Reports false s (.entered 0 s.taken) :=
  ⟨⟨rfl, s.held_taken, s.interruptible_taken⟩, fun h => h⟩

theorem Event.afterInstall_deeper (e : Event F) : e.deeper.AfterInstall ↔ e.AfterInstall := by
  cases e <;> exact Iff.rfl

theorem Event.installs_deeper (e : Event F) : e.deeper.Installs ↔ e.Installs := by
  cases e <;> exact Iff.rfl

theorem Outcome.Refused.not_installs {outcome : Outcome F} (h : outcome.Refused) :
    ¬outcome.Installs := by
  rintro ⟨supplied, rfl⟩
  cases h

/-- A successful `initialize` finds no memory state. -/
theorem Outcome.Effect.not_installs {outcome : Outcome F} (h : outcome.Effect s s')
    (hin : s.installed = true) : ¬outcome.Installs := by
  rintro ⟨supplied, rfl⟩
  rw [System.installed, h.1] at hin
  cases hin

theorem Outcome.Effect.installed {outcome : Outcome F} (h : outcome.Effect s s')
    (hin : outcome.Installs) : s'.installed = true := by
  obtain ⟨supplied, rfl⟩ := hin
  rw [System.installed, h.2]
  rfl

/-- Inside an operation no state is installed. -/
theorem Reports.not_installs {e : Event F} (h : Reports true s e) : ¬e.Installs := by
  cases e with
  | returned depth outcome before after =>
    exact (h.sound.2 (Nat.succ_ne_zero depth)).2.1.not_installs
  | _ => exact id

theorem pairwise_of_not_installs {es : List (Event F)} (h : ∀ e ∈ es, ¬e.Installs) :
    es.Pairwise fun e e' => e.Installs → e'.AfterInstall :=
  List.Pairwise.imp_of_mem (fun he _ _ hin => absurd hin (h _ he))
    (List.pairwise_of_forall (R := fun _ _ => True) fun _ _ => trivial)

/-- A program that installs nothing. -/
theorem Guarded.of_not_installs {c : Observed F α} (h : Traced.Emits c s (Reports held s) fun _ =>
    Leaves held s) (hnot : ∀ e ∈ (c s).1, ¬e.Installs) : Guarded held s c :=
  ⟨h, pairwise_of_not_installs hnot, fun e he hin => absurd hin (hnot e he)⟩

theorem Guarded.of_inside {c : Observed F α}
    (h : Traced.Emits c s (Reports true s) fun _ => Leaves true s) : Guarded true s c :=
  .of_not_installs h fun e he => (h.1 e he).not_installs

/-- A call that at most installs a state as it returns. -/
theorem Guarded.of_reported {body : Observed F β} {outcome : β → Outcome F}
    (h : Traced.Emits body s (fun e => Reports held s e ∧ ¬e.Installs) fun b s' => Leaves held s s' ∧
      Reports held s (.returned 0 (outcome b) s s') ∧ ((outcome b).Installs → s'.installed = true)) :
    Guarded held s (Traced.reported (fun b => .returned 0 (outcome b)) body) := by
  refine ⟨((h.mono (fun _ he => he.1) fun _ _ h => h).reported fun _ _ h => h.2.1).mono
    (fun _ h => h) fun _ _ h => h.1, ?_, ?_⟩
  all_goals
    obtain ⟨hevents, hresult⟩ := h
    rcases Traced.reported_cases (fun b => .returned 0 (outcome b)) body s with
      ⟨es, b, hrun, hcall⟩ | ⟨es, b, s', hrun, hcall⟩
    all_goals
      rw [hrun] at hevents hresult
      rw [hcall]
  · exact pairwise_of_not_installs fun e he => (hevents e he).2
  · refine List.pairwise_append.mpr ⟨pairwise_of_not_installs fun e he => (hevents e he).2,
      List.pairwise_singleton _ _, fun e he _ _ hin => absurd hin (hevents e he).2⟩
  · exact fun e he hin => absurd hin (hevents e he).2
  · intro e he hin b' t heq
    cases heq
    rcases List.mem_append.mp he with he | he
    · exact absurd hin (hevents e he).2
    · rw [List.mem_singleton.mp he] at hin
      exact (hresult b s' rfl).2.2 hin

/-- **A call.** Inside an operation it is refused, outside it runs its operation; `finish` is what it
makes of the result of the gate. -/
theorem guarded_call (hs : Runs held s) (finish : Option α → β) (outcome : β → Outcome F)
    {operation : Observed F α} {Q : α → System F → Prop} (hrefused : (outcome (finish none)).Refused)
    (hoperation : held = false → Traced.Emits operation s.taken (Reports true s.taken) fun a t =>
      Leaves true s.taken t ∧ Q a t)
    (heffect : ∀ a t s', Q a t → s'.allocator.state = t.allocator.state →
      (outcome (finish (some a))).Effect s s') :
    Guarded held s (Traced.reported (fun b => .returned 0 (outcome b)) (do
      let result ← withState operation
      pure (finish result))) := by
  refine .of_reported ?_
  cases held with
  | true =>
    -- refused
    have hstep : Reports true s (.step 0 s s) :=
      ⟨⟨fun _ => ⟨hs.quiet rfl, hs.quiet rfl⟩, fun _ => ⟨hs.gate, hs.gate⟩⟩, fun h => ⟨h, h⟩⟩
    refine Traced.Emits.bind (emits_withState_of_held hs.gate (hs.quiet rfl) ⟨hstep, id⟩) ?_
    rintro r s₁ ⟨rfl, hs₁⟩
    rw [hs₁]
    refine Traced.emits_pure ⟨.refl hs, ⟨⟨?_, ?_⟩, ?_⟩, fun h => absurd h hrefused.not_installs⟩
    · exact fun h => absurd h (Nat.succ_ne_zero 0)
    · exact fun _ => ⟨hs.gate, hrefused, rfl⟩
    · exact fun h => ⟨h, h, hrefused.not_installs⟩
  | false =>
    -- the operation runs
    have hinside : Traced.Emits operation s.taken
        (fun e => Reports false s e.deeper ∧ ¬e.deeper.Installs) fun a t =>
          Leaves true s.taken t ∧ Q a t := by
      refine (hoperation rfl).mono (fun e he => ⟨⟨he.sound, fun h => ?_⟩, ?_⟩) fun _ _ h => h
      · exact e.afterInstall_deeper.mpr (he.later h)
      · exact fun h => he.not_installs (e.installs_deeper.mp h)
    refine Traced.Emits.bind (emits_withState_of_free hs.gate hinside
      (fun a t h => ⟨h.1.sstatus rfl, h.1.installed⟩) ⟨.entered s, id⟩
      fun t t' h => ⟨.gateStep h, id⟩) ?_
    rintro r s₁ ⟨a, t, ⟨hleaves, hq⟩, rfl, rfl⟩
    have hdone := heffect a t { t.freed with sstatus := s.sstatus } hq rfl
    refine Traced.emits_pure ⟨⟨⟨rfl, by simp⟩, by simp, hleaves.installed⟩, ⟨⟨?_, ?_⟩, ?_⟩, ?_⟩
    · exact fun _ => ⟨hs.gate, rfl, rfl, hdone⟩
    · exact fun h => absurd rfl h
    · exact fun hin => ⟨hin, hleaves.installed hin, hdone.not_installs hin⟩
    · exact hdone.installed

/-- A step inside an operation, which keeps the gate and the status register. -/
theorem emits_onState {f : Option (MemoryState F) × Machine →
      Except Abort (α × Option (MemoryState F) × Machine)} (hs : Runs true s)
    {R : α → Option (MemoryState F) → Prop}
    (hf : ∀ a state m, f (s.allocator.state, s.machine) = .ok (a, state, m) →
      (s.installed = true → state.isSome = true) ∧ R a state) :
    Traced.Emits (onState f) s (Reports true s) fun a t =>
      Leaves true s t ∧ R a t.allocator.state := by
  refine Traced.emits_atomic fun a t h => ?_
  rcases hrun : f (s.allocator.state, s.machine) with b | ⟨a', state, m⟩
  · rw [hrun] at h
    cases h
  · rw [hrun] at h
    cases h
    obtain ⟨hin, hr⟩ := hf a' state m hrun
    refine ⟨⟨⟨fun _ => ⟨hs.quiet rfl, hs.quiet rfl⟩, fun _ => ⟨hs.gate, hs.gate⟩⟩,
      fun h => ⟨h, hin h⟩⟩, ?_⟩
    exact ⟨⟨⟨hs.gate, hs.quiet⟩, fun _ => rfl, hin⟩, hr⟩

theorem emits_onPaging (hs : Runs true s) (c : Exec (KernelPaging × Machine × F) ε α) :
    Traced.Emits (onPaging c) s (Reports true s) fun _ => Leaves true s := by
  refine (emits_onState (R := fun _ _ => True) hs fun r state m h => ⟨fun _ => ?_, trivial⟩).mono
    (fun e he => he) fun _ _ h => h.1
  cases hstate : s.allocator.state with
  | none =>
    rw [hstate] at h
    cases h
  | some installed =>
    rw [hstate, workOn] at h
    rcases hrun : c (installed.paging, s.machine, installed.frames) with b | x
    · rw [hrun] at h
      cases h
    · rw [hrun] at h
      cases h
      rfl

theorem guarded_alloc [FrameAllocator F] (hs : Runs held s) (layout : Layout) :
    Guarded held s (alloc layout) := by
  refine guarded_call hs (·.getD none) .alloc (Q := fun _ _ => True) rfl (fun _ => ?_)
    fun _ _ _ _ _ => trivial
  refine emits_onState (R := fun _ _ => True) (.taken s) fun a state m h => ⟨fun hin => ?_, trivial⟩
  cases hstate : s.taken.allocator.state with
  | none =>
    rw [System.installed, hstate] at hin
    cases hin
  | some installed =>
    rw [hstate, allocFrom] at h
    rcases hrun : KernelHeap.allocate installed.paging.heapBacking layout
        (installed.heap, s.taken.machine, installed.frames) with b | x
    · rw [hrun] at h
      cases h
    · rw [hrun] at h
      cases h
      rfl

theorem guarded_initializeMemory (hs : Runs held s) (heap : KernelHeap) (paging : KernelPaging)
    (frames : F) : Guarded held s (initializeMemory heap paging frames) := by
  -- the operation finds no state and leaves the one supplied, or finds one and leaves it
  let R : Except AllocatorInitError Unit → Option (MemoryState F) → Prop := fun r state =>
    (r = .ok () ∧ s.allocator.state = none ∧ state = some ⟨heap, paging, frames⟩) ∨
      (r = .error .alreadyInitialized ∧ s.installed = true ∧ state = s.allocator.state)
  refine guarded_call hs
    (fun r : Option (Except AllocatorInitError Unit) => r.getD (.error .busy))
    (.initializeMemory ⟨heap, paging, frames⟩) (Q := fun r t => R r t.allocator.state) rfl
    (fun _ => ?_) ?_
  · refine emits_onState (R := R) (.taken s) fun r state m h => ?_
    rw [show s.taken.allocator.state = s.allocator.state from rfl] at h
    rw [System.installed_taken, System.installed]
    cases hstate : s.allocator.state with
    | none =>
      rw [hstate] at h
      cases h
      exact ⟨by simp, .inl ⟨rfl, hstate, rfl⟩⟩
    | some installed =>
      rw [hstate] at h
      cases h
      refine ⟨fun _ => rfl, .inr ⟨rfl, ?_, hstate.symm⟩⟩
      rw [System.installed, hstate]
      rfl
  · rintro r t s' (⟨rfl, hnone, hsome⟩ | ⟨rfl, hin, hsame⟩) hstate
    · exact ⟨hnone, hstate.trans hsome⟩
    · exact ⟨rfl, hin, hstate.trans hsame⟩

theorem guarded_withPaging (hs : Runs held s) {operation : Observed F α}
    (h : ∀ {s : System F}, Runs true s →
      Traced.Emits operation s (Reports true s) fun _ => Leaves true s) :
    Guarded held s (withPaging operation) := by
  refine guarded_call hs
    (fun r : Option (Except MemoryAccessError α) => r.getD (.error .busy))
    (fun r : Except MemoryAccessError α => .withPaging (r.map fun _ => ()))
    (Q := fun r _ => r ≠ .error .busy) rfl (fun _ => ?_) ?_
  · refine Traced.Emits.bind (emits_onState (R := fun _ _ => True) (.taken s) ?_) ?_
    · intro a state m heq
      cases heq
      exact ⟨id, trivial⟩
    · rintro slot t ⟨ht, -⟩
      cases slot with
      | none => exact Traced.emits_pure ⟨ht, by simp⟩
      | some state =>
        refine Traced.Emits.bind ((h ht.runs).mono (fun e he => ⟨he.sound, fun hin => ?_⟩)
          fun _ _ hleaves => ht.trans hleaves) ?_
        · exact he.later (ht.installed hin)
        · exact fun a t' ht' => Traced.emits_pure ⟨ht', by simp⟩
  · intro r t s' hr _ heq
    cases r with
    | error e => exact hr (congrArg Except.error (Except.error.inj heq))
    | ok a => cases heq

/-- One program after the other. -/
theorem Guarded.bind {c : Observed F α} {f : α → Observed F β} (h : Guarded held s c)
    (hf : ∀ a s', Leaves held s s' → Guarded held s' (f a)) : Guarded held s (c >>= f) := by
  have hemits : Traced.Emits (c >>= f) s (Reports held s) fun _ => Leaves held s :=
    h.emits.bind fun a s' hleaves => (hf a s' hleaves).emits.mono
      (fun e he => ⟨he.sound, fun hin => he.later (hleaves.installed hin)⟩)
      fun _ _ h => hleaves.trans h
  refine ⟨hemits, ?_, ?_⟩
  all_goals
    obtain ⟨⟨-, hresult⟩, honce, hinstalled⟩ := h
    rcases Traced.bind_cases c f s with ⟨es, b, hrun, hbind⟩ | ⟨es, a, s', hrun, hbind⟩
    all_goals
      rw [hrun] at hresult honce hinstalled
      rw [hbind]
  · exact honce
  · have hnext := hf a s' (hresult a s' rfl)
    refine List.pairwise_append.mpr ⟨honce, hnext.once, fun e he e' he' hin => ?_⟩
    exact (hnext.emits.1 e' he').later (hinstalled e he hin a s' rfl)
  · exact fun e he hin b t heq => by cases heq
  · have hnext := hf a s' (hresult a s' rfl)
    intro e he hin b t heq
    rcases List.mem_append.mp he with he | he
    · exact (hnext.emits.2 b t heq).installed (hinstalled e he hin a s' rfl)
    · exact hnext.installed e he hin b t heq

/-- **Every tree of calls** keeps the promises of the gate. -/
theorem Calls.guarded [FrameAllocator F] {c : Observed F α} (h : Calls held α c) :
    ∀ {s : System F}, Runs held s → Guarded held s c := by
  induction h with
  | pure a =>
    exact fun hs => .of_not_installs (Traced.emits_pure (.refl hs)) fun e he => by cases he
  | bind _ _ ih ih' => exact fun hs => (ih hs).bind fun a s' hleaves => ih' a hleaves.runs
  | elsewhere f =>
    intro s hs
    have hfree : ¬s.held = true := by simp [hs.gate]
    refine .of_not_installs (Traced.emits_atomic fun u s' heq => ?_) fun e he => ?_
    · cases heq
      refine ⟨⟨⟨fun h => ?_, fun h => absurd rfl h⟩, fun hin => ⟨hin, hin⟩⟩, ⟨hs.gate, by simp⟩,
        by simp, id⟩
      exact h.elim (fun h => absurd h hfree) fun h => absurd h hfree
    · rw [List.mem_singleton.mp he]
      exact id
  | onPaging c => exact fun hs => .of_inside (emits_onPaging hs c)
  | alloc layout => exact fun hs => guarded_alloc hs layout
  | withPaging _ ih => exact fun hs => guarded_withPaging hs fun hs => (ih hs).emits
  | initializeMemory heap paging frames => exact fun hs => guarded_initializeMemory hs heap paging frames

end Tree

/-- **The gate is exclusive, gives everything back, and lets a state be installed once.** In every
tree of calls that starts with the gate free, whatever the interrupt state:

* every event is sound;
* after a successful `initialize` the memory state stays installed and no other one succeeds;
* when the tree has returned, the gate is free. -/
theorem gate_exclusive [FrameAllocator F] {c : Observed F α} (h : Calls false α c) {s : System F}
    (hfree : s.allocator.busy = false) :
    (∀ e ∈ (c s).1, e.Sound) ∧
    (c s).1.Pairwise (fun e e' => e.Installs → e'.AfterInstall) ∧
    ∀ a s', (c s).2 = .ok (a, s') → s'.allocator.busy = false := by
  have hguarded := h.guarded ⟨hfree, by simp⟩
  refine ⟨fun e he => (hguarded.emits.1 e he).sound, hguarded.once, fun a s' heq => ?_⟩
  exact (hguarded.emits.2 a s' heq).runs.gate

/-- Memory state to be installed. -/
def sampleMemoryState : MemoryState (List AllocatedFrame) :=
  ⟨⟨sampleRange, sampleRange.stop, sampleRange.stop⟩, samplePaging, sampleFrames⟩

/-- The gate is free, nothing is installed, and interrupts are enabled. -/
def sampleSystem : System (List AllocatedFrame) := ⟨2, ⟨false, none⟩, sampleMachine⟩

/-- The state is installed, an operation allocates and installs again, and so does other code. -/
def sampleCalls : Observed (List AllocatedFrame) (Except AllocatorInitError Unit ×
    Except MemoryAccessError (Option NonNull × Except AllocatorInitError Unit) ×
    Except AllocatorInitError Unit) := do
  let first ← initializeMemory sampleMemoryState.heap sampleMemoryState.paging sampleMemoryState.frames
  let inside ← withPaging do
    let pointer ← alloc sampleLayout
    let again ← initializeMemory sampleMemoryState.heap sampleMemoryState.paging sampleMemoryState.frames
    pure (pointer, again)
  let last ← initializeMemory sampleMemoryState.heap sampleMemoryState.paging sampleMemoryState.frames
  pure (first, inside, last)

theorem calls_sampleCalls : Calls false _ sampleCalls := by
  refine .bind (.initializeMemory _ _ _) fun _ => .bind (.withPaging ?_) fun _ => ?_
  · exact .bind (.alloc _) fun _ => .bind (.initializeMemory _ _ _) fun _ => .pure _
  · exact .bind (.initializeMemory _ _ _) fun _ => .pure _

theorem gate_exclusive_sample :
    (∃ s', (sampleCalls sampleSystem).2 =
      .ok ((.ok (), .ok (none, .error .busy), .error .alreadyInitialized), s')) ∧
    (∀ e ∈ (sampleCalls sampleSystem).1, e.Sound) ∧
    (sampleCalls sampleSystem).1.Pairwise (fun e e' => e.Installs → e'.AfterInstall) ∧
    ∀ a s', (sampleCalls sampleSystem).2 = .ok (a, s') → s'.allocator.busy = false :=
  ⟨⟨_, rfl⟩, gate_exclusive calls_sampleCalls rfl⟩

end Barebone.Kernel
