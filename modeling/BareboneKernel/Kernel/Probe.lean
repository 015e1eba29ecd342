import BareboneKernel.Kernel.Timer

/-!
# Probing the time counter

Firmware may deny `rdtime` to the kernel, and then the instruction traps. `__probe_time` executes it
once, and the trap handler resumes a denied read at `__probe_time_unavailable`.

* `probeCode`, `ProbeStep`: the code at its addresses, with the traps it can take on the way;
* `TimeInit`: `time::init` around the probe;
* `Probing`: what holds at each instruction;
* **`counter_probed`**: the probe always returns, tells whether the counter is readable and leaves
  no trace, so that `time::init` does what the board's `initTime` does.
-/

set_option autoImplicit false

namespace Barebone.Kernel

open Riscv

/-! ## The code -/

inductive ProbeLabel where
  | probeTimeRead
  | probeTimeUnavailable
  | restoreAndReturn
  deriving DecidableEq

/-- The instructions of the probe; `plain` ones have no control flow and do not trap. -/
inductive ProbeInstr where
  | plain (i : Instr Empty)
  | csrrci (rd : Reg) (csr : Csr) (mask : Word)
  | rdtime (rd : Reg)
  | j (target : ProbeLabel)
  | ret

/-- `__probe_time` -/
def probeCode : List (Option ProbeLabel × ProbeInstr) := [
  (none, .csrrci .t1 .sstatus 2),

  (some .probeTimeRead, .rdtime .a1),
  (none, .plain (.li .a0 1)),
  (none, .j .restoreAndReturn),

  (some .probeTimeUnavailable, .plain (.li .a0 0)),

  (some .restoreAndReturn, .plain (.csrw .sstatus .t1)),
  (none, .ret)]

/-- The instruction behind a label. -/
def probeTarget (l : ProbeLabel) : ℕ := probeCode.findIdx fun item => item.1 = some l

/-- Where the linker has put the instructions, each at an address of its own. -/
structure ProbeLayout (s : Symbols) where
  address : ℕ → Word
  injective : ∀ i < probeCode.length, ∀ j < probeCode.length, address i = address j → i = j
  read : address (probeTarget .probeTimeRead) = s.probeTimeRead
  unavailable : address (probeTarget .probeTimeUnavailable) = s.probeTimeUnavailable

/-- The hart takes a trap with this cause, the handler returns, and so does the trap. -/
def TrapReturns (s : Symbols) (k : TrapState) (h : Hart) (cause : Word) (k' : TrapState)
    (h' : Hart) : Prop :=
  ∃ (p : Platform) (value : Word) (entry : Hart) (states : List Hart) (exit final : Hart),
    Runs (trapCode s) (trapCode s) (h.trap cause value) (.call restoreCode entry) ∧
      HandlerReturns s p k entry states k' exit ∧
      Runs (trapCode s) restoreCode exit (.sret final) ∧ h' = final.sret

section Steps

variable {s : Symbols} (layout : ProbeLayout s)

/-- The instruction at an address. -/
def ProbeLayout.At (pc : Word) (k : ℕ) (i : ProbeInstr) : Prop :=
  layout.address k = pc ∧ (probeCode[k]?).map Prod.snd = some i

/-- The hart goes on with instruction `k`. -/
def ProbeLayout.goto (h : Hart) (k : ℕ) : Hart := { h with pc := layout.address k }

@[simp] theorem get_goto (h : Hart) (k : ℕ) (r : Reg) : (layout.goto h k).get r = h.get r := rfl

@[simp] theorem csrs_goto (h : Hart) (k : ℕ) : (layout.goto h k).csrs = h.csrs := rfl

@[simp] theorem mem_goto (h : Hart) (k : ℕ) : (layout.goto h k).mem = h.mem := rfl

@[simp] theorem mode_goto (h : Hart) (k : ℕ) : (layout.goto h k).mode = h.mode := rfl

/-- What the hart does next in the probe: an instruction, a trap of a read that is denied, or a timer
interrupt while interrupts are enabled. -/
inductive ProbeStep (readable : Bool) : TrapState × Hart → TrapState × Hart → Prop
  | plain {k : TrapState} {h : Hart} {n : ℕ} {i : Instr Empty} :
      layout.At h.pc n (.plain i) → ProbeStep readable (k, h) (k, layout.goto (exec h i) (n + 1))
  | csrrci {k : TrapState} {h : Hart} {n : ℕ} {rd : Reg} {csr : Csr} {mask : Word} :
      layout.At h.pc n (.csrrci rd csr mask) → ProbeStep readable (k, h) (k,
        layout.goto ((h.setCsr csr (h.csrs csr &&& ~~~ mask)).set rd (h.csrs csr)) (n + 1))
  | rdtime {k : TrapState} {h : Hart} {n : ℕ} {rd : Reg} (time : Word) :
      layout.At h.pc n (.rdtime rd) → readable = true →
        ProbeStep readable (k, h) (k, layout.goto (h.set rd time) (n + 1))
  | denied {k k' : TrapState} {h h' : Hart} {n : ℕ} {rd : Reg} :
      layout.At h.pc n (.rdtime rd) → readable = false →
        TrapReturns s k h illegalInstruction k' h' → ProbeStep readable (k, h) (k', h')
  | j {k : TrapState} {h : Hart} {n : ℕ} {l : ProbeLabel} :
      layout.At h.pc n (.j l) → ProbeStep readable (k, h) (k, layout.goto h (probeTarget l))
  | interrupt {k k' : TrapState} {h h' : Hart} : (h.csrs .sstatus).getLsbD SIE = true →
      TrapReturns s k h timerInterrupt k' h' → ProbeStep readable (k, h) (k', h')

/-- The probe, on its way. -/
abbrev Probes (readable : Bool) : TrapState × Hart → TrapState × Hart → Prop :=
  Relation.ReflTransGen (ProbeStep layout readable)

/-- A call of the probe returns to the address in `ra`. -/
def ProbeReturns (readable : Bool) (k : TrapState) (h : Hart) (k' : TrapState) (h' : Hart) : Prop :=
  ∃ last n, Probes layout readable (k, h) (k', last) ∧ layout.At last.pc n .ret ∧
    h' = { last with pc := last.get .ra &&& ~~~ 1 }

/-- A call of `__probe_time` from supervisor code. -/
structure AtProbe (h : Hart) : Prop where
  pc : h.pc = layout.address 0
  mode : h.mode = .supervisor
  sscratch : h.csrs .sscratch = 0

/-- `time::init`: the first call probes the counter and retains the result. -/
inductive TimeInit (readable : Bool) (b : Board) (h : Hart) : Board → Hart → Prop
  | already : b.counter ≠ .uninitialized → TimeInit readable b h b h
  | first {k : TrapState} {h' : Hart} : b.counter = .uninitialized →
      ProbeReturns layout readable { b with counter := .unavailable }.trapState h k h' →
      TimeInit readable b h { b with
        counter := if h'.get .a0 ≠ 0 then .available else .unavailable
        interval := k.interval
        ticks := k.ticks
        userTicks := k.userTicks } h'

end Steps

/-! ## Traps on the way -/

section Traps

variable {s : Symbols} {k k' : TrapState} {h h' : Hart} {cause : Word}

theorem trapHandler_timer {p : Platform} {f f' : TrapFrame} (hcause : f.cause = timerInterrupt)
    (h : trapHandler s p k f = some (k', f')) : ∃ k₁, handleInterrupt p k = .ok k₁ := by
  have hne := timerInterrupt_ne.1
  rw [trapHandler, if_neg (by rw [hcause]; exact fun hand => hne hand.2.1), if_pos hcause] at h
  cases hinterrupt : handleInterrupt p k with
  | error e => rw [hinterrupt] at h; cases h
  | ok k₁ => exact ⟨k₁, rfl⟩

/-- While the counter is unavailable no timer interrupt returns. -/
theorem handleInterrupt_unavailable {p : Platform} {k₁ : TrapState} (hcounter : k.counter = false)
    (h : handleInterrupt p k = .ok k₁) : False := by
  unfold handleInterrupt nextDeadline timeTicks at h
  rw [hcounter] at h
  split at h
  · cases h
  · cases h

/-- **A denied read** is resumed behind the one that is not. -/
theorem TrapReturns.probe (h₁ : TrapReturns s k h illegalInstruction k' h')
    (hmode : h.mode = .supervisor) (hzero : h.csrs .sscratch = 0) (hpc : h.pc = s.probeTimeRead) :
    k' = k ∧ Resumes h (h.get .a0) s.probeTimeUnavailable h' := by
  obtain ⟨p, value, entry, states, exit, final, hruns, hret, hruns', rfl⟩ := h₁
  obtain ⟨entry', hentry', hat, -⟩ := supervisor_trap (s := s) hmode hzero illegalInstruction value
  obtain ⟨-, rfl⟩ : _ ∧ entry = entry' := Stop.call.inj (hruns.unique hentry')
  obtain ⟨-, final', frame, hfinal, hframe, hres⟩ := hret.runs hat
  obtain rfl : final = final' := Stop.sret.inj (hruns'.unique hfinal)
  have hne : h.mode ≠ .user := by
    rw [hmode]
    decide
  have hbool : ((savedFrame h illegalInstruction value).status &&& supervisorOrigin != 0) = true := by
    rw [bne_iff_ne]
    exact (trapStatus_and_supervisorOrigin _ _).not.mpr hne
  rw [trapHandler, if_pos ⟨hbool, rfl, hpc⟩] at hframe
  obtain ⟨rfl, rfl⟩ := Prod.mk.inj (Option.some.inj hframe)
  exact ⟨rfl, hres.resumes rfl (Function.update_eq_self ..).symm (by rw [if_neg hne, hzero])⟩

theorem TrapReturns.timer (h₁ : TrapReturns s k h timerInterrupt k' h')
    (hmode : h.mode = .supervisor) (hzero : h.csrs .sscratch = 0) :
    ∃ p k₁, handleInterrupt p k = .ok k₁ := by
  obtain ⟨p, value, entry, states, exit, final, hruns, hret, -, -⟩ := h₁
  obtain ⟨entry', hentry', hat, -⟩ := supervisor_trap (s := s) hmode hzero timerInterrupt value
  obtain ⟨-, rfl⟩ : _ ∧ entry = entry' := Stop.call.inj (hruns.unique hentry')
  obtain ⟨-, final', frame, -, hframe, -⟩ := hret.runs hat
  obtain ⟨k₁, hk₁⟩ := trapHandler_timer (f := savedFrame h timerInterrupt value) rfl hframe
  exact ⟨p, k₁, hk₁⟩

end Traps

/-! ## Instruction by instruction -/

theorem probeTargets : probeTarget .probeTimeRead = 1 ∧ probeTarget .probeTimeUnavailable = 4 ∧
    probeTarget .restoreAndReturn = 5 := by decide

/-- The instructions by number. -/
theorem probeCode_cases {n : ℕ} {i : ProbeInstr} (h : (probeCode[n]?).map Prod.snd = some i) :
    n = 0 ∧ i = .csrrci .t1 .sstatus 2 ∨ n = 1 ∧ i = .rdtime .a1 ∨ n = 2 ∧ i = .plain (.li .a0 1) ∨
      n = 3 ∧ i = .j .restoreAndReturn ∨ n = 4 ∧ i = .plain (.li .a0 0) ∨
      n = 5 ∧ i = .plain (.csrw .sstatus .t1) ∨ n = 6 ∧ i = .ret := by
  have hn : n < 7 := by
    by_contra hge
    rw [List.getElem?_eq_none (Nat.not_lt.mp hge)] at h
    cases h
  interval_cases n <;> simp_all [probeCode]

theorem ProbeLayout.at_address {s : Symbols} {layout : ProbeLayout s} {n m : ℕ} {i : ProbeInstr}
    (hn : n < 7) (h : layout.At (layout.address n) m i) :
    m = n ∧ (probeCode[n]?).map Prod.snd = some i := by
  obtain ⟨haddress, hinstr⟩ := h
  have hm : m < 7 := by
    rcases probeCode_cases hinstr with h | h | h | h | h | h | h <;> omega
  obtain rfl := layout.injective m hm n hn haddress
  exact ⟨rfl, hinstr⟩

/-- **The state at instruction `n`** of a probe that was called in the state `h₀`. -/
structure Probing {s : Symbols} (layout : ProbeLayout s) (readable : Bool) (h₀ : Hart) (n : ℕ)
    (h : Hart) : Prop where
  lt : n < 7
  pc : h.pc = layout.address n
  mode : h.mode = .supervisor
  sscratch : h.csrs .sscratch = 0
  registers : ∀ r, r ∉ [Reg.t1, .a0, .a1] → h.get r = h₀.get r
  memory : readable = true → h.mem = h₀.mem
  status : n = 0 ∨ n = 6 → h.csrs .sstatus = h₀.csrs .sstatus
  retained : 1 ≤ n → n ≤ 5 → h.get .t1 = h₀.csrs .sstatus
  masked : 1 ≤ n → n ≤ 5 → (h.csrs .sstatus).getLsbD SIE = false
  read : n = 2 ∨ n = 3 → readable = true
  denied : n = 4 → readable = false
  answer : n = 3 ∨ n = 5 ∨ n = 6 → h.get .a0 = if readable then 1 else 0

/-- What a call of the probe leaves behind. -/
structure Probed (readable : Bool) (h h' : Hart) : Prop where
  answer : h'.get .a0 = if readable then 1 else 0
  registers : ∀ r, r ∉ [Reg.t1, .a0, .a1] → h'.get r = h.get r
  pc : h'.pc = h.get .ra &&& ~~~ 1
  mode : h'.mode = h.mode
  sstatus : h'.csrs .sstatus = h.csrs .sstatus
  sscratch : h'.csrs .sscratch = h.csrs .sscratch
  memory : readable = true → h'.mem = h.mem

section Probing

variable {s : Symbols} {layout : ProbeLayout s} {readable : Bool} {h₀ h h' : Hart} {n : ℕ}
  {k : TrapState}

theorem AtProbe.probing (h : AtProbe layout h₀) : Probing layout readable h₀ 0 h₀ where
  lt := by omega
  pc := h.pc
  mode := h.mode
  sscratch := h.sscratch
  registers _ _ := rfl
  memory _ := rfl
  status _ := rfl
  retained h := by omega
  masked h := by omega
  read h := by omega
  denied h := by omega
  answer h := by omega

/-- `csrrci` retains the status and masks interrupts. -/
theorem Probing.enter (h₁ : Probing layout readable h₀ 0 h) : Probing layout readable h₀ 1
    (layout.goto ((h.setCsr .sstatus (h.csrs .sstatus &&& ~~~ 2)).set .t1 (h.csrs .sstatus)) 1) where
  lt := by omega
  pc := rfl
  mode := by
    rw [mode_goto, Hart.set_mode, Hart.setCsr_mode, h₁.mode]
  sscratch := by
    rw [csrs_goto, Hart.set_csrs, Hart.setCsr_csrs, if_neg (by decide), h₁.sscratch]
  registers r hr := by
    have hne : r ≠ .t1 := by
      rintro rfl
      exact hr (by decide)
    rw [get_goto, Hart.get_set_of_ne _ _ hne, Hart.get_setCsr, h₁.registers r hr]
  memory hread := by
    rw [mem_goto, Hart.set_mem, Hart.setCsr_mem, h₁.memory hread]
  status h := by omega
  retained _ _ := by
    rw [get_goto, Hart.get_set_same _ _ (by decide), h₁.status (.inl rfl)]
  masked _ _ := by
    have hmask : (~~~ 2 : Word) = -3 := by decide
    rw [csrs_goto, Hart.set_csrs, Hart.setCsr_csrs, if_pos rfl, hmask, getLsbD_and_neg_three,
      if_pos rfl]
  read h := by omega
  denied h := by omega
  answer h := by omega

/-- A read that is granted writes `a1` only. -/
theorem Probing.granted (h₁ : Probing layout readable h₀ 1 h) (hread : readable = true) (time : Word) :
    Probing layout readable h₀ 2 (layout.goto (h.set .a1 time) 2) where
  lt := by omega
  pc := rfl
  mode := by
    rw [mode_goto, Hart.set_mode, h₁.mode]
  sscratch := by
    rw [csrs_goto, Hart.set_csrs, h₁.sscratch]
  registers r hr := by
    have hne : r ≠ .a1 := by
      rintro rfl
      exact hr (by decide)
    rw [get_goto, Hart.get_set_of_ne _ _ hne, h₁.registers r hr]
  memory hread := by
    rw [mem_goto, Hart.set_mem, h₁.memory hread]
  status h := by omega
  retained _ _ := by
    rw [get_goto, Hart.get_set_of_ne _ _ (by decide)]
    exact h₁.retained le_rfl (by omega)
  masked _ _ := by
    rw [csrs_goto, Hart.set_csrs]
    exact h₁.masked le_rfl (by omega)
  read _ := hread
  denied h := by omega
  answer h := by omega

/-- A read that is denied resumes at the recovery point. -/
theorem Probing.recovered (h₁ : Probing layout readable h₀ 1 h) (hdenied : readable = false) {a0 : Word}
    (hres : Resumes h a0 s.probeTimeUnavailable h') : Probing layout readable h₀ 4 h' where
  lt := by omega
  pc := by
    rw [hres.pc, ← layout.unavailable, probeTargets.2.1]
  mode := hres.mode.trans h₁.mode
  sscratch := hres.sscratch.trans h₁.sscratch
  registers r hr := by
    have hne : r ≠ .a0 := by
      rintro rfl
      exact hr (by decide)
    rw [hres.registers, if_neg hne]
    exact h₁.registers r hr
  memory hread := by
    rw [hdenied] at hread
    cases hread
  status h := by omega
  retained _ _ := by
    rw [hres.registers, if_neg (by decide)]
    exact h₁.retained le_rfl (by omega)
  masked _ _ := (hres.status SIE (by decide) (by decide)).trans (h₁.masked le_rfl (by omega))
  read h := by omega
  denied _ := hdenied
  answer h := by omega

/-- An instruction that gives the answer in `a0`. -/
theorem Probing.answered (h₁ : Probing layout readable h₀ n h) {m : ℕ} {value : Word}
    (hn : n = 2 ∧ m = 3 ∨ n = 4 ∧ m = 5) (hvalue : value = if readable then 1 else 0) :
    Probing layout readable h₀ m (layout.goto (h.set .a0 value) m) where
  lt := by omega
  pc := rfl
  mode := by
    rw [mode_goto, Hart.set_mode, h₁.mode]
  sscratch := by
    rw [csrs_goto, Hart.set_csrs, h₁.sscratch]
  registers r hr := by
    have hne : r ≠ .a0 := by
      rintro rfl
      exact hr (by decide)
    rw [get_goto, Hart.get_set_of_ne _ _ hne, h₁.registers r hr]
  memory hread := by
    rw [mem_goto, Hart.set_mem, h₁.memory hread]
  status h := by omega
  retained _ _ := by
    rw [get_goto, Hart.get_set_of_ne _ _ (by decide)]
    exact h₁.retained (by omega) (by omega)
  masked _ _ := by
    rw [csrs_goto, Hart.set_csrs]
    exact h₁.masked (by omega) (by omega)
  read h := h₁.read (by omega)
  denied h := by omega
  answer _ := by
    rw [get_goto, Hart.get_set_same _ _ (by decide), hvalue]

theorem Probing.jumped (h₁ : Probing layout readable h₀ 3 h) :
    Probing layout readable h₀ 5 (layout.goto h 5) where
  lt := by omega
  pc := rfl
  mode := h₁.mode
  sscratch := h₁.sscratch
  registers := h₁.registers
  memory := h₁.memory
  status h := by omega
  retained _ _ := h₁.retained (by omega) (by omega)
  masked _ _ := h₁.masked (by omega) (by omega)
  read h := by omega
  denied h := by omega
  answer _ := h₁.answer (by omega)

/-- The status is back at the return. -/
theorem Probing.restored (h₁ : Probing layout readable h₀ 5 h) :
    Probing layout readable h₀ 6 (layout.goto (h.setCsr .sstatus (h.get .t1)) 6) where
  lt := by omega
  pc := rfl
  mode := h₁.mode
  sscratch := by
    rw [csrs_goto, Hart.setCsr_csrs, if_neg (by decide), h₁.sscratch]
  registers := h₁.registers
  memory := h₁.memory
  status _ := by
    rw [csrs_goto, Hart.setCsr_csrs, if_pos rfl, h₁.retained (by omega) le_rfl]
  retained h := by omega
  masked h := by omega
  read h := by omega
  denied h := by omega
  answer _ := h₁.answer (by omega)

/-- **What a step preserves.** No interrupt returns while the counter is unavailable. -/
theorem Probing.step (h₁ : Probing layout readable h₀ n h) (hcounter : k.counter = false)
    {x : TrapState × Hart} (hstep : ProbeStep layout readable (k, h) x) :
    x.1 = k ∧ ∃ m, Probing layout readable h₀ m x.2 := by
  obtain ⟨htarget, -, hreturn⟩ := probeTargets
  cases hstep with
  | @plain _ _ m _ hat =>
    obtain ⟨rfl, hinstr⟩ := ProbeLayout.at_address h₁.lt (h₁.pc ▸ hat)
    refine ⟨rfl, m + 1, ?_⟩
    rcases probeCode_cases hinstr with ⟨-, h⟩ | ⟨-, h⟩ | ⟨rfl, h⟩ | ⟨-, h⟩ | ⟨rfl, h⟩ | ⟨rfl, h⟩ | ⟨-, h⟩
    all_goals cases h
    · exact h₁.answered (.inl ⟨rfl, rfl⟩) (if_pos (h₁.read (.inl rfl))).symm
    · exact h₁.answered (.inr ⟨rfl, rfl⟩) (by rw [h₁.denied rfl]; rfl)
    · exact h₁.restored
  | @csrrci _ _ m _ _ _ hat =>
    obtain ⟨rfl, hinstr⟩ := ProbeLayout.at_address h₁.lt (h₁.pc ▸ hat)
    refine ⟨rfl, m + 1, ?_⟩
    rcases probeCode_cases hinstr with ⟨rfl, h⟩ | ⟨-, h⟩ | ⟨-, h⟩ | ⟨-, h⟩ | ⟨-, h⟩ | ⟨-, h⟩ | ⟨-, h⟩
    all_goals cases h
    exact h₁.enter
  | @rdtime _ _ m _ time hat hread =>
    obtain ⟨rfl, hinstr⟩ := ProbeLayout.at_address h₁.lt (h₁.pc ▸ hat)
    refine ⟨rfl, m + 1, ?_⟩
    rcases probeCode_cases hinstr with ⟨-, h⟩ | ⟨rfl, h⟩ | ⟨-, h⟩ | ⟨-, h⟩ | ⟨-, h⟩ | ⟨-, h⟩ | ⟨-, h⟩
    all_goals cases h
    exact h₁.granted hread time
  | denied hat hdenied htrap =>
    obtain ⟨rfl, hinstr⟩ := ProbeLayout.at_address h₁.lt (h₁.pc ▸ hat)
    rcases probeCode_cases hinstr with ⟨-, h⟩ | ⟨rfl, h⟩ | ⟨-, h⟩ | ⟨-, h⟩ | ⟨-, h⟩ | ⟨-, h⟩ | ⟨-, h⟩
    all_goals cases h
    have hpc : h.pc = s.probeTimeRead := by rw [h₁.pc, ← layout.read, htarget]
    obtain ⟨rfl, hres⟩ := htrap.probe h₁.mode h₁.sscratch hpc
    exact ⟨rfl, 4, h₁.recovered hdenied hres⟩
  | j hat =>
    obtain ⟨rfl, hinstr⟩ := ProbeLayout.at_address h₁.lt (h₁.pc ▸ hat)
    rcases probeCode_cases hinstr with ⟨-, h⟩ | ⟨-, h⟩ | ⟨-, h⟩ | ⟨rfl, h⟩ | ⟨-, h⟩ | ⟨-, h⟩ | ⟨-, h⟩
    all_goals cases h
    exact ⟨rfl, 5, hreturn ▸ h₁.jumped⟩
  | interrupt _ htrap =>
    obtain ⟨p, k₁, hinterrupt⟩ := htrap.timer h₁.mode h₁.sscratch
    exact (handleInterrupt_unavailable hcounter hinterrupt).elim

theorem Probing.steps (h₁ : Probing layout readable h₀ n h) (hcounter : k.counter = false)
    {x : TrapState × Hart} (hrun : Probes layout readable (k, h) x) :
    x.1 = k ∧ ∃ m, Probing layout readable h₀ m x.2 := by
  induction hrun with
  | refl => exact ⟨rfl, n, h₁⟩
  | @tail y z _ hstep ih =>
    obtain ⟨rfl, m, hm⟩ := ih
    exact hm.step hcounter hstep

/-- The code is at its addresses. -/
theorem Probing.here (h₁ : Probing layout readable h₀ n h) {i : ProbeInstr}
    (hi : (probeCode[n]?).map Prod.snd = some i) : layout.At h.pc n i := ⟨h₁.pc.symm, hi⟩

theorem TrapFrame.read_store_epc (m : Memory) (base epc : Word) :
    TrapFrame.read (store m (slot base 32) epc) base = { TrapFrame.read m base with epc := epc } := by
  rw [TrapFrame.read_eq, TrapFrame.read_eq]
  ext : 1
  · funext r
    have hr : (r : ℕ) < 32 := r.isLt
    simp (disch := omega) only [load_store_slot, if_neg]
  all_goals simp (disch := omega) [load_store_slot]

/-- A trap of the read can return. -/
theorem exists_trapReturns (k : TrapState) (hmode : h.mode = .supervisor)
    (hzero : h.csrs .sscratch = 0) (hpc : h.pc = s.probeTimeRead) :
    ∃ h', TrapReturns s k h illegalInstruction k h' := by
  obtain ⟨entry, hruns, hat, hexit⟩ := supervisor_trap (s := s) hmode hzero illegalInstruction 0
  let exit : Hart := { entry with mem := store entry.mem (slot (entry.get .a0) 32) s.probeTimeUnavailable }
  have hne : h.mode ≠ .user := by
    rw [hmode]
    decide
  have hbool : ((savedFrame h illegalInstruction 0).status &&& supervisorOrigin != 0) = true := by
    rw [bne_iff_ne]
    exact (trapStatus_and_supervisorOrigin _ _).not.mpr hne
  have hreturns : HandlerReturns s ⟨0, fun _ => 0, fun _ => 0⟩ k entry [exit] k exit := by
    refine ⟨?_, fun r _ => rfl, fun m hm => ?_, List.mem_singleton.mpr rfl⟩
    · rw [TrapFrame.read_store_epc, hat.a0, hat.frame, trapHandler, if_pos ⟨hbool, rfl, hpc⟩]
    · rw [List.mem_singleton.mp hm]
  obtain ⟨-, final, hfinal, -⟩ := hexit _ k k [exit] exit hreturns
  exact ⟨final.sret, _, 0, entry, [exit], exit, final, hruns, hreturns, hfinal, rfl⟩

/-- **The probe goes on** until its return. -/
theorem Probing.advances (h₁ : Probing layout readable h₀ n h) (hn : n ≠ 6) (k : TrapState) :
    ∃ m h', n < m ∧ ProbeStep layout readable (k, h) (k, h') ∧ Probing layout readable h₀ m h' := by
  have hlt := h₁.lt
  interval_cases n
  · exact ⟨1, _, by omega, .csrrci (h₁.here rfl), h₁.enter⟩
  · cases hread : readable with
    | true => exact ⟨2, _, by omega, .rdtime 0 (h₁.here rfl) rfl, hread ▸ h₁.granted hread 0⟩
    | false =>
      have hpc : h.pc = s.probeTimeRead := by rw [h₁.pc, ← layout.read, probeTargets.1]
      obtain ⟨h', htrap⟩ := exists_trapReturns k h₁.mode h₁.sscratch hpc
      obtain ⟨-, hres⟩ := htrap.probe h₁.mode h₁.sscratch hpc
      exact ⟨4, h', by omega, .denied (h₁.here rfl) rfl htrap, hread ▸ h₁.recovered hread hres⟩
  · exact ⟨3, _, by omega, .plain (h₁.here rfl),
      h₁.answered (.inl ⟨rfl, rfl⟩) (if_pos (h₁.read (.inl rfl))).symm⟩
  · have hjump : ProbeStep layout readable (k, h) (k, layout.goto h 5) :=
      probeTargets.2.2 ▸ .j (h₁.here rfl)
    exact ⟨5, _, by omega, hjump, h₁.jumped⟩
  · exact ⟨5, _, by omega, .plain (h₁.here rfl),
      h₁.answered (.inr ⟨rfl, rfl⟩) (by rw [h₁.denied rfl]; rfl)⟩
  · exact ⟨6, _, by omega, .plain (h₁.here rfl), h₁.restored⟩
  · exact absurd rfl hn

theorem Probing.returns (k : TrapState) (d : ℕ) : ∀ {n : ℕ} {h : Hart}, 6 ≤ n + d →
    Probing layout readable h₀ n h → ∃ h', ProbeReturns layout readable k h k h' := by
  induction d with
  | zero =>
    intro n h hd h₁
    obtain rfl : n = 6 := Nat.le_antisymm (Nat.le_of_lt_succ h₁.lt) hd
    exact ⟨_, h, 6, .refl, h₁.here rfl, rfl⟩
  | succ d ih =>
    intro n h hd h₁
    by_cases hn : n = 6
    · exact ih (by omega) h₁
    · obtain ⟨m, h', hlt, hstep, hm⟩ := h₁.advances hn k
      obtain ⟨h'', last, n', hrun, hat, hlast⟩ := ih (by omega) hm
      exact ⟨h'', last, n', .head hstep hrun, hat, hlast⟩

/-- What a return of the probe shows. -/
theorem AtProbe.probed (hcall : AtProbe layout h) {k' : TrapState} (hcounter : k.counter = false)
    (hreturns : ProbeReturns layout readable k h k' h') : k' = k ∧ Probed readable h h' := by
  obtain ⟨last, n, hrun, hat, rfl⟩ := hreturns
  obtain ⟨hk, m, hm⟩ := hcall.probing.steps hcounter hrun
  obtain ⟨rfl, hinstr⟩ := ProbeLayout.at_address hm.lt (hm.pc ▸ hat)
  rcases probeCode_cases hinstr with ⟨-, h⟩ | ⟨-, h⟩ | ⟨-, h⟩ | ⟨-, h⟩ | ⟨-, h⟩ | ⟨-, h⟩ | ⟨rfl, -⟩
  iterate 6 cases h
  refine ⟨hk, hm.answer (by omega), hm.registers, ?_, hm.mode.trans hcall.mode.symm,
    hm.status (.inr rfl), hm.sscratch.trans hcall.sscratch.symm, hm.memory⟩
  rw [← hm.registers .ra (by decide)]

end Probing

/-- **The counter is probed without a trace.** A call of `__probe_time` always comes to its return: a
denied read traps, is recognized by the handler and resumed behind the other one. Whatever happens on
the way, the answer tells whether the counter is readable, and the status, the stack pointer and every
register but `t1`, `a0` and `a1` are as they were. So `time::init` changes the board as `initTime` does
when firmware grants reads exactly if the counter is readable. -/
theorem counter_probed (s : Symbols) (layout : ProbeLayout s) (readable : Bool) (b : Board) (h : Hart)
    (hcall : AtProbe layout h) :
    (∀ x, Probes layout readable ({ b with counter := .unavailable }.trapState, h) x →
      ∃ h', ProbeReturns layout readable x.1 x.2 x.1 h') ∧
    ∀ b' h', TimeInit layout readable b h b' h' →
      Exec.Returns (initTime readable : Exec Board Unit Unit) b () b' ∧
        (b.counter = .uninitialized → Probed readable h h') := by
  refine ⟨fun x hrun => ?_, fun b' h' hinit => ?_⟩
  · obtain ⟨-, m, hm⟩ := hcall.probing.steps rfl hrun
    exact hm.returns x.1 6 (by omega)
  · cases hinit with
    | already hne =>
      refine ⟨?_, fun heq => absurd heq hne⟩
      rw [Exec.Returns, initTime, Exec.modify, if_neg hne]
    | first heq hreturns =>
      obtain ⟨rfl, hprobed⟩ := hcall.probed rfl hreturns
      refine ⟨?_, fun _ => hprobed⟩
      rw [Exec.Returns, initTime, Exec.modify, if_pos heq, hprobed.answer]
      cases readable <;> rfl

/-- Instructions of four bytes each. -/
def sampleProbeLayout : ProbeLayout sampleSymbols where
  address k := 0xffffffff80200200 + BitVec.ofNat 64 (4 * k)
  injective := by decide
  read := by decide
  unavailable := by decide

/-- Supervisor code that calls the probe. -/
def sampleCaller : Hart := { sampleHart with pc := sampleProbeLayout.address 0 }

/-- The sample board has no readable counter. -/
theorem counter_probed_sample : ∃ b' h', TimeInit sampleProbeLayout false sampleBoard sampleCaller b' h' ∧
    b'.counter = .unavailable ∧ h'.get .sp = sampleCaller.get .sp := by
  have hcall : AtProbe sampleProbeLayout sampleCaller := ⟨rfl, rfl, rfl⟩
  obtain ⟨hreturn, hinit⟩ := counter_probed sampleSymbols sampleProbeLayout false sampleBoard sampleCaller
    hcall
  obtain ⟨h', hreturns⟩ := hreturn _ .refl
  have hfirst : TimeInit sampleProbeLayout false sampleBoard sampleCaller _ h' := .first rfl hreturns
  obtain ⟨-, hprobed⟩ := hinit _ _ hfirst
  refine ⟨_, h', hfirst, ?_, (hprobed rfl).registers .sp (by decide)⟩
  exact if_neg (not_not_intro (hprobed rfl).answer)

end Barebone.Kernel
