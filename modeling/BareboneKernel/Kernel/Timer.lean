import BareboneKernel.Kernel.Trap
import BareboneKernel.Lib.Exec
import BareboneKernel.Lib.Pacing
import Mathlib.Order.Bounds.Basic

/-!
# The periodic timer

The driver arms firmware's timer for one interval after the counter it reads, and again at every
interrupt. Interrupts come whenever the hart lets them through, in user code and in the kernel, and
between them there are system calls, faults and further calls of the driver.

* `Board`: the statics of `time`, `timer` and `trap`, the interrupt enables of the hart, its counter,
  and what firmware was told;
* `initTime`, `initTimer`, `takeTrap`: the driver and `trap_handler` on the board;
* `refines_trapHandler`: on the statics `takeTrap` is `trapHandler`;
* `Board.Allowed`: what can run next, in any order;
* **`timer_paced`**: however long the kernel runs, interrupts are counted exactly and never run ahead
  of the clock, and nothing but the counter's end and firmware can stop them.
-/

set_option autoImplicit false

namespace Barebone.Kernel

open Riscv
open Exec (fail get modify ofExcept mapError attempt ignore Returns Fails Sat Run)
open Pacing (OnPace)
open Relation (ReflTransGen)

/-! ## Durations and intervals -/

/-- `core::time::Duration` -/
structure Duration where
  secs : ℕ
  nanos : ℕ
  secs_lt : secs < 2 ^ 64
  nanos_lt : nanos < 1000000000

namespace Duration

/-- `Duration::as_nanos` -/
def asNanos (d : Duration) : ℕ := d.secs * 1000000000 + d.nanos

/-- `Duration::from_millis` -/
def fromMillis (millis : ℕ) (h : millis < 2 ^ 64) : Duration where
  secs := millis / 1000
  nanos := millis % 1000 * 1000000
  secs_lt := by omega
  nanos_lt := by omega

end Duration

/-- `core::num::NonZeroU32` -/
structure NonZeroU32 where
  get : ℕ
  pos : 0 < get
  lt : get < 2 ^ 32

/-- Failures while configuring a periodic timer; the last are those that servicing it shares. -/
inductive InitTimerError where
  | alreadyInitialized
  | invalidInterval
  | timer (error : TimerError)
  deriving DecidableEq

/-- Converts a duration to a non-zero tick count, rounding upward. -/
def intervalTicks (timebase : NonZeroU32) (period : Duration) : Except InitTimerError Word :=
  -- `u128::checked_mul`
  if timebase.get * period.asNanos < 2 ^ 128 then
    let ticks := (timebase.get * period.asNanos + (1000000000 - 1)) / 1000000000
    if ticks < 2 ^ 64 then
      if ticks = 0 then .error .invalidInterval else .ok (BitVec.ofNat 64 ticks)
    else .error .invalidInterval
  else .error .invalidInterval

theorem checked_scaled (timebase : NonZeroU32) (period : Duration) :
    timebase.get * period.asNanos < 2 ^ 128 := by
  have htimebase := timebase.lt
  have hperiod : period.asNanos < 2 ^ 96 := by
    have h := period.secs_lt
    have h' := period.nanos_lt
    unfold Duration.asNanos
    omega
  calc timebase.get * period.asNanos < 2 ^ 32 * 2 ^ 96 := by
        exact Nat.mul_lt_mul'' htimebase hperiod
    _ = 2 ^ 128 := by norm_num

/-- **The interval** is the least number of ticks that last the period, and not zero. -/
theorem intervalTicks_eq_ok {timebase : NonZeroU32} {period : Duration} {interval : Word}
    (h : intervalTicks timebase period = .ok interval) :
    interval ≠ 0 ∧ IsLeast {n | timebase.get * period.asNanos ≤ n * 1000000000} interval.toNat := by
  unfold intervalTicks at h
  rw [if_pos (checked_scaled timebase period)] at h
  dsimp only at h
  split_ifs at h with hlt hzero
  have htoNat := BitVec.toNat_ofNat
    ((timebase.get * period.asNanos + (1000000000 - 1)) / 1000000000) 64
  rw [Nat.mod_eq_of_lt hlt, Except.ok.inj h] at htoNat
  refine ⟨fun hw => hzero ?_, ?_, ?_⟩
  · rw [← htoNat, hw]
    rfl
  · show timebase.get * period.asNanos ≤ interval.toNat * 1000000000
    omega
  · intro n (hn : timebase.get * period.asNanos ≤ n * 1000000000)
    omega

/-- A period of whole milliseconds gives an interval at every frequency, when it is not too long. -/
theorem intervalTicks_fromMillis (timebase : NonZeroU32) (millis : ℕ) (hpos : 0 < millis)
    (hlt : millis < 2 ^ 32) (h : millis < 2 ^ 64) :
    ∃ interval, intervalTicks timebase (.fromMillis millis h) = .ok interval := by
  have htimebase := timebase.lt
  have hnanos : (Duration.fromMillis millis h).asNanos = millis * 1000000 := by
    unfold Duration.asNanos Duration.fromMillis
    dsimp only
    omega
  have hone : 1 ≤ timebase.get * millis := Nat.mul_pos timebase.pos hpos
  have hbound : timebase.get * millis < 2 ^ 32 * 2 ^ 32 := Nat.mul_lt_mul'' htimebase hlt
  have hscaled : timebase.get * (millis * 1000000) = timebase.get * millis * 1000000 := by
    rw [Nat.mul_assoc]
  unfold intervalTicks
  rw [if_pos (checked_scaled _ _), hnanos, hscaled]
  dsimp only
  rw [if_pos (by omega), if_neg (by omega)]
  exact ⟨_, rfl⟩

/-! ## The board -/

/-- Availability of counter reads on the probed hart. -/
inductive CounterState where
  | uninitialized
  | unavailable
  | available
  deriving DecidableEq

/-- What the driver and `trap_handler` read and write, and what firmware does for them. -/
structure Board where
  /-- `time::STATE` -/
  counter : CounterState
  /-- Configured interval in time-counter ticks, or zero before initialization. -/
  interval : Word
  ticks : Word
  userTicks : Word
  /-- The timer's interrupt-enable bit in `sie`. -/
  source : Bool
  /-- Supervisor interrupts are enabled (`sstatus.SIE`). -/
  enabled : Bool
  /-- The time counter. -/
  clock : Word
  /-- The deadline that firmware has accepted last. -/
  deadline : Option Word
  /-- The bytes that firmware has accepted for user code; records of the kernel's log are not counted. -/
  console : List UInt8
  /-- `arch::halt` has been called. -/
  halted : Bool
  /-- How many interrupts have been serviced, as an observer counts them. -/
  served : ℕ
  /-- How many of them interrupted user code. -/
  servedUser : ℕ

namespace Board

/-- The statics that the handler reads and writes. -/
def trapState (b : Board) : TrapState := ⟨b.interval, b.counter = .available, b.ticks, b.userTicks⟩

/-- The timer interrupt is pending at this reading of the counter. Before the first deadline it may
be. -/
def pending (b : Board) (now : Word) : Bool :=
  match b.deadline with
  | none => true
  | some deadline => deadline ≤ now

/-- The hart takes a timer interrupt; user code cannot keep it off. -/
def delivers (b : Board) (now : Word) (supervisor : Bool) : Bool :=
  b.source && b.pending now && (!supervisor || b.enabled)

end Board

section Driver

variable {ε α : Type}

/-- The platform is read, at this time. -/
def readPlatform (p : Platform) : Exec Board ε Unit := modify fun b => { b with clock := p.time }

/-- Runs `c` under an `InterruptGuard`. -/
def withInterruptsDisabled (c : Exec Board ε α) : Exec Board ε α := fun b =>
  match c { b with enabled := false } with
  | .ok (r, b') => .ok (r, { b' with enabled := b.enabled })
  | .error e => .error e

/-- `interrupt::enable` -/
def enableInterrupts : Exec Board ε Unit := modify fun b => { b with enabled := true }

/-- `time::init`; firmware grants reads of the counter or denies them. -/
def initTime (granted : Bool) : Exec Board ε Unit := modify fun b =>
  if b.counter = .uninitialized then
    { b with counter := if granted then .available else .unavailable }
  else b

/-- `sbi::set_timer` -/
def setTimer (p : Platform) (deadline : Word) : Exec Board SetTimerError Unit := do
  ofExcept (p.sbiSetTimer deadline)
  modify fun b => { b with deadline := some deadline }

/-- `next_deadline` -/
def deadlineAfter (p : Platform) (interval : Word) : Exec Board TimerError Word := do
  let b ← get
  ofExcept (nextDeadline p b.trapState interval)

/-- Arms a periodic timer and unmasks its local interrupt source. -/
def initTimer (timebase : NonZeroU32) (period : Duration) (p : Platform) :
    Exec Board InitTimerError Unit := do
  readPlatform p
  withInterruptsDisabled do
    let b ← get
    if b.interval ≠ 0 then fail .alreadyInitialized else
      let interval ← ofExcept (intervalTicks timebase period)
      let deadline ← mapError .timer (deadlineAfter p interval)
      mapError (.timer ∘ .firmware) (setTimer p deadline)
      modify fun b => { b with interval := interval }
      modify fun b => { b with source := true }

/-- Rearms the periodic timer and records one delivered interrupt. -/
def handleTimer (p : Platform) : Exec Board TimerError Unit := do
  let b ← get
  if b.interval = 0 then fail .notInitialized else
    let deadline ← deadlineAfter p b.interval
    mapError .firmware (setTimer p deadline)
    modify fun b => { b with ticks := b.ticks + 1, served := b.served + 1 }

/-! ## Traps on the board -/

/-- How the hart leaves for good the code that trapped. -/
inductive Ending where
  | halted
  | exited (status : Word)
  | faulted (cause pc value : Word)
  deriving DecidableEq

/-- `arch::halt` -/
def halt : Exec Board Ending α := do
  modify fun b => { b with enabled := false, halted := true }
  fail .halted

/-- Disables counter reads and parks the hart. -/
def fatal : Exec Board Ending α := do
  modify fun b => { b with counter := .unavailable }
  halt

/-- Records the process exit status and resumes interruptible supervisor idling. -/
def exit (status : Word) : Exec Board Ending α := do
  enableInterrupts
  fail (.exited status)

/-- Reports a user exception and ends the process without retrying the fault. -/
def fault (cause pc value : Word) : Exec Board Ending α := do
  enableInterrupts
  fail (.faulted cause pc value)

/-- `SbiConsole::write_byte` -/
def SbiConsole.writeByte (p : Platform) (byte : UInt8) : Exec Board WriteByteError Unit := do
  ofExcept (p.sbiWriteByte byte)
  modify fun b => { b with console := b.console ++ [byte] }

/-- Handles a syscall number and `a0` argument, returning the scalar `a0` result. -/
def handle (p : Platform) (number argument : Word) : Exec Board Ending Word := do
  if number = consoleWriteByte then
    if argument.toNat < 256 then
      match ← attempt (SbiConsole.writeByte p (UInt8.ofNat argument.toNat)) with
      | .ok () => pure 0
      | .error _ => pure errorIo
    else pure errorInvalidArgument
  else if number = timerTicksCall then
    let b ← get
    pure b.userTicks
  else if number = exitCall then exit argument
  else pure errorNotSupported

/-- Dispatches timer interrupts, scalar user syscalls, and fatal exceptions. -/
def takeTrap (s : Symbols) (p : Platform) (f : TrapFrame) : Exec Board Ending TrapFrame := do
  readPlatform p
  let supervisor : Bool := f.status &&& supervisorOrigin != 0
  if supervisor ∧ f.cause = illegalInstruction ∧ f.epc = s.probeTimeRead then
    pure { f with epc := s.probeTimeUnavailable }
  else if f.cause = timerInterrupt then
    match ← attempt (handleTimer p) with
    | .error _ => fatal
    | .ok () =>
      if supervisor then pure f
      else
        modify fun b => { b with userTicks := b.userTicks + 1, servedUser := b.servedUser + 1 }
        pure f
  else if ¬supervisor then
    if f.cause = userEcall then
      match checkedAddWord f.epc 4 with
      | none => fault f.cause f.epc f.value
      | some next =>
        let result ← handle p (f.registers .a7) (f.registers .a0)
        pure { f with epc := next, registers := Function.update f.registers .a0 result }
    else fault f.cause f.epc f.value
  else fatal

end Driver

/-! ## What a trap does -/

variable {s : Symbols} {p : Platform} {f : TrapFrame} {b : Board}

theorem sbiSetTimer_eq_ok {deadline : Word} : p.sbiSetTimer deadline = .ok () ↔ p.setTimer deadline = 0 := by
  unfold Platform.sbiSetTimer
  split <;> simp_all

theorem sbiWriteByte_eq_ok {byte : UInt8} : p.sbiWriteByte byte = .ok () ↔ p.writeByte byte = 0 := by
  unfold Platform.sbiWriteByte
  split <;> simp_all

/-- The codes with which a system call answers are told apart by the bytes it has written. -/
def writtenBytes (p : Platform) (number argument : Word) : List UInt8 :=
  if number = consoleWriteByte ∧ argument.toNat < 256 ∧
    p.writeByte (UInt8.ofNat argument.toNat) = 0 then [UInt8.ofNat argument.toNat] else []

/-- An interrupt can be serviced, and firmware accepts the next deadline. -/
structure Serviceable (p : Platform) (k : TrapState) : Prop where
  interval : k.interval ≠ 0
  counter : k.counter = true
  fits : p.time.toNat + k.interval.toNat < 2 ^ 64
  accepted : p.setTimer (p.time + k.interval) = 0

theorem nextDeadline_eq_ok {k : TrapState} {interval deadline : Word} :
    nextDeadline p k interval = .ok deadline ↔
      k.counter = true ∧ p.time.toNat + interval.toNat < 2 ^ 64 ∧ deadline = p.time + interval := by
  unfold nextDeadline timeTicks checkedAddWord
  cases k.counter
  · simp
  · by_cases hfits : p.time.toNat + interval.toNat < 2 ^ 64
    · simp only [if_true, Except.ok.injEq, true_and, hfits]
      exact eq_comm
    · simp only [if_true, if_false, reduceCtorEq, hfits, false_and, and_false]

theorem handleInterrupt_eq_ok {k k' : TrapState} :
    handleInterrupt p k = .ok k' ↔ Serviceable p k ∧ k' = { k with ticks := k.ticks + 1 } := by
  unfold handleInterrupt
  constructor
  · intro h
    split_ifs at h with hzero
    split at h
    · cases h
    · next deadline hdeadline =>
      obtain ⟨hcounter, hfits, rfl⟩ := nextDeadline_eq_ok.mp hdeadline
      split at h
      · cases h
      · next haccepted =>
        exact ⟨⟨hzero, hcounter, hfits, sbiSetTimer_eq_ok.mp haccepted⟩, (Except.ok.inj h).symm⟩
  · rintro ⟨⟨hzero, hcounter, hfits, haccepted⟩, rfl⟩
    rw [if_neg hzero, nextDeadline_eq_ok.mpr ⟨hcounter, hfits, rfl⟩]
    dsimp only
    rw [sbiSetTimer_eq_ok.mpr haccepted]

namespace Board

/-- The platform has been read. -/
def read (b : Board) (p : Platform) : Board := { b with clock := p.time }

/-- A timer interrupt has been serviced. -/
def serve (b : Board) (supervisor : Bool) : Board :=
  { b with
    deadline := some (b.clock + b.interval)
    ticks := b.ticks + 1
    served := b.served + 1
    userTicks := if supervisor then b.userTicks else b.userTicks + 1
    servedUser := if supervisor then b.servedUser else b.servedUser + 1 }

/-- The hart is parked for good. -/
def park (b : Board) : Board := { b with counter := .unavailable, enabled := false, halted := true }

end Board

/-- The trap came from the kernel. -/
def TrapFrame.supervisor (f : TrapFrame) : Bool := f.status &&& supervisorOrigin != 0

/-- **Everything a trap can do**, to the frame and to the board. -/
inductive TrapEffect (s : Symbols) (p : Platform) (f : TrapFrame) (b : Board) :
    Except Ending TrapFrame → Board → Prop
  | probe : f.supervisor = true → f.cause = illegalInstruction → f.epc = s.probeTimeRead →
      TrapEffect s p f b (.ok { f with epc := s.probeTimeUnavailable }) (b.read p)
  | timer : f.cause = timerInterrupt → Serviceable p b.trapState →
      TrapEffect s p f b (.ok f) ((b.read p).serve f.supervisor)
  | failed : f.cause = timerInterrupt → ¬Serviceable p b.trapState →
      TrapEffect s p f b (.error .halted) (b.read p).park
  | syscall {result : Word} : f.supervisor = false → f.cause = userEcall →
      f.epc.toNat + 4 < 2 ^ 64 →
      handleSyscall p b.trapState (f.registers .a7) (f.registers .a0) = some result →
      TrapEffect s p f b
        (.ok { f with epc := f.epc + 4, registers := Function.update f.registers .a0 result })
        { b.read p with
          console := b.console ++ writtenBytes p (f.registers .a7) (f.registers .a0) }
  | exit : f.supervisor = false → f.cause = userEcall → f.epc.toNat + 4 < 2 ^ 64 →
      f.registers .a7 = exitCall →
      TrapEffect s p f b (.error (.exited (f.registers .a0))) { b.read p with enabled := true }
  | fault : f.supervisor = false → f.cause ≠ timerInterrupt →
      (f.cause = userEcall → 2 ^ 64 ≤ f.epc.toNat + 4) →
      TrapEffect s p f b (.error (.faulted f.cause f.epc f.value)) { b.read p with enabled := true }
  | unexpected : f.supervisor = true → f.cause ≠ timerInterrupt →
      ¬(f.cause = illegalInstruction ∧ f.epc = s.probeTimeRead) →
      TrapEffect s p f b (.error .halted) (b.read p).park

/-- **The driver on the board** changes the statics as `handleInterrupt` does. -/
theorem handleTimer_apply (p : Platform) (b : Board) : handleTimer p b =
    match handleInterrupt p b.trapState with
    | .error e => .ok (.error e, b)
    | .ok _ => .ok (.ok (), { b with
        deadline := some (p.time + b.interval), ticks := b.ticks + 1, served := b.served + 1 }) := by
  unfold handleTimer handleInterrupt deadlineAfter setTimer
  rw [Exec.bind_apply]
  show (if b.interval = 0 then _ else _ : Exec Board TimerError Unit) b = _
  by_cases hzero : b.interval = 0
  · rw [if_pos hzero, if_pos (show b.trapState.interval = 0 from hzero)]
    rfl
  · rw [if_neg hzero, if_neg (show ¬b.trapState.interval = 0 from hzero)]
    have hinterval : b.trapState.interval = b.interval := rfl
    rw [hinterval]
    cases hnext : nextDeadline p b.trapState b.interval with
    | error e => simp [Exec.bind_apply, Exec.get, Exec.ofExcept, hnext]
    | ok deadline =>
      obtain ⟨-, -, rfl⟩ := nextDeadline_eq_ok.mp hnext
      cases hset : p.sbiSetTimer (p.time + b.interval) with
      | error e =>
        simp [Exec.bind_apply, Exec.get, Exec.ofExcept, hnext, hset, mapError, Except.mapError,
          Except.map]
      | ok u =>
        simp [Exec.bind_apply, Exec.get, Exec.ofExcept, Exec.modify, hnext, hset, mapError,
          Except.mapError, Except.map]

theorem attempt_writeByte (p : Platform) (byte : UInt8) (b : Board) :
    (attempt (SbiConsole.writeByte p byte) : Exec Board Ending _) b =
      match p.sbiWriteByte byte with
      | .error e => .ok (.ok (.error e), b)
      | .ok () => .ok (.ok (.ok ()), { b with console := b.console ++ [byte] }) := by
  unfold attempt SbiConsole.writeByte
  rw [Exec.bind_apply]
  cases hbyte : p.sbiWriteByte byte <;> rfl

/-- **System calls on the board** answer as `handleSyscall` does. -/
theorem handle_apply (p : Platform) (number argument : Word) (b : Board) :
    handle p number argument b =
      match handleSyscall p b.trapState number argument with
      | none => .ok (.error (.exited argument), { b with enabled := true })
      | some result => .ok (.ok result,
          { b with console := b.console ++ writtenBytes p number argument }) := by
  have hquiet : ∀ {result : Word}, ¬(number = consoleWriteByte ∧ argument.toNat < 256 ∧
      p.writeByte (UInt8.ofNat argument.toNat) = 0) → (.ok (.ok result, b) :
        Except Abort (Except Ending Word × Board)) =
      .ok (.ok result, { b with console := b.console ++ writtenBytes p number argument }) := by
    intro result hnot
    rw [writtenBytes, if_neg hnot, List.append_nil]
  unfold handle handleSyscall
  by_cases hwrite : number = consoleWriteByte
  · rw [if_pos hwrite, if_pos hwrite]
    by_cases hbyte : argument.toNat < 256
    · rw [if_pos hbyte, if_pos hbyte, Exec.bind_apply, attempt_writeByte]
      cases hsent : p.sbiWriteByte (UInt8.ofNat argument.toNat) with
      | error e =>
        refine hquiet fun h => ?_
        rw [sbiWriteByte_eq_ok.mpr h.2.2] at hsent
        cases hsent
      | ok u =>
        rw [writtenBytes, if_pos ⟨hwrite, hbyte, sbiWriteByte_eq_ok.mp hsent⟩]
        rfl
    · rw [if_neg hbyte, if_neg hbyte]
      exact hquiet fun h => hbyte h.2.1
  · rw [if_neg hwrite, if_neg hwrite]
    by_cases htimer : number = timerTicksCall
    · rw [if_pos htimer, if_pos htimer]
      exact hquiet fun h => hwrite h.1
    · rw [if_neg htimer, if_neg htimer]
      by_cases hexit : number = exitCall
      · rw [if_pos hexit, if_pos hexit]
        rfl
      · rw [if_neg hexit, if_neg hexit]
        exact hquiet fun h => hwrite h.1

theorem handleSyscall_eq_none {k : TrapState} {number argument : Word} :
    handleSyscall p k number argument = none ↔ number = exitCall := by
  unfold handleSyscall
  constructor
  · intro h
    split_ifs at h <;> first | assumption | (split at h <;> cases h)
  · rintro rfl
    rfl

/-- **A trap has one of these effects.** -/
theorem takeTrap_effect (s : Symbols) (p : Platform) (f : TrapFrame) (b : Board) :
    ∃ r b', takeTrap s p f b = .ok (r, b') ∧ TrapEffect s p f b r b' := by
  have hsupervisor : (f.status &&& supervisorOrigin != 0) = f.supervisor := rfl
  have hread : Returns (readPlatform p : Exec Board Ending Unit) b () (b.read p) := rfl
  unfold takeTrap
  rw [Exec.bind_of_returns hread]
  simp only [hsupervisor]
  by_cases hprobe : f.supervisor = true ∧ f.cause = illegalInstruction ∧ f.epc = s.probeTimeRead
  · rw [if_pos hprobe]
    exact ⟨_, _, rfl, .probe hprobe.1 hprobe.2.1 hprobe.2.2⟩
  rw [if_neg hprobe]
  by_cases htimer : f.cause = timerInterrupt
  · rw [if_pos htimer, Exec.bind_apply, attempt, handleTimer_apply]
    cases hi : handleInterrupt p (b.read p).trapState with
    | error e =>
      refine ⟨_, _, rfl, .failed htimer fun h => ?_⟩
      rw [show (b.read p).trapState = b.trapState from rfl, handleInterrupt_eq_ok.mpr ⟨h, rfl⟩] at hi
      cases hi
    | ok k =>
      have hserviceable : Serviceable p b.trapState := (handleInterrupt_eq_ok.mp hi).1
      have heffect := TrapEffect.timer (s := s) htimer hserviceable
      cases hmode : f.supervisor with
      | true =>
        rw [hmode] at heffect
        exact ⟨_, _, rfl, heffect⟩
      | false =>
        rw [hmode] at heffect
        exact ⟨_, _, rfl, heffect⟩
  rw [if_neg htimer]
  cases hmode : f.supervisor with
  | true =>
    refine ⟨_, _, rfl, .unexpected hmode htimer fun h => hprobe ⟨hmode, h⟩⟩
  | false =>
    rw [if_pos (by simp)]
    by_cases hecall : f.cause = userEcall
    · rw [if_pos hecall]
      by_cases hnext : f.epc.toNat + (4 : Word).toNat < 2 ^ 64
      · rw [checkedAddWord, if_pos hnext]
        show ∃ r b', (handle p _ _ >>= _) _ = _ ∧ _
        rw [Exec.bind_apply, handle_apply]
        cases hcall : handleSyscall p (b.read p).trapState (f.registers .a7) (f.registers .a0) with
        | none => exact ⟨_, _, rfl, .exit hmode hecall hnext (handleSyscall_eq_none.mp hcall)⟩
        | some result => exact ⟨_, _, rfl, .syscall hmode hecall hnext hcall⟩
      · rw [checkedAddWord, if_neg hnext]
        exact ⟨_, _, rfl, .fault hmode htimer fun _ => Nat.not_lt.mp hnext⟩
    · rw [if_neg hecall]
      exact ⟨_, _, rfl, .fault hmode htimer fun h => absurd h hecall⟩

theorem timerInterrupt_ne : timerInterrupt ≠ illegalInstruction ∧ timerInterrupt ≠ userEcall := by
  decide

section Effects

variable {r : Except Ending TrapFrame} {b' : Board}

/-- A timer interrupt is serviced, or the hart is parked. -/
theorem TrapEffect.of_interrupt (h : TrapEffect s p f b r b') (hcause : f.cause = timerInterrupt) :
    Serviceable p b.trapState ∧ r = .ok f ∧ b' = (b.read p).serve f.supervisor ∨
      ¬Serviceable p b.trapState ∧ r = .error .halted ∧ b' = (b.read p).park := by
  cases h with
  | timer _ hserviceable => exact .inl ⟨hserviceable, rfl, rfl⟩
  | failed _ hserviceable => exact .inr ⟨hserviceable, rfl, rfl⟩
  | probe _ h => exact absurd (hcause.symm.trans h) timerInterrupt_ne.1
  | syscall _ h => exact absurd (hcause.symm.trans h) timerInterrupt_ne.2
  | exit _ h => exact absurd (hcause.symm.trans h) timerInterrupt_ne.2
  | fault _ h => exact absurd hcause h
  | unexpected _ h => exact absurd hcause h

/-- A system call of user code is answered, or ends the process. -/
theorem TrapEffect.of_ecall (h : TrapEffect s p f b r b') (hmode : f.supervisor = false)
    (hcause : f.cause = userEcall) (hepc : f.epc.toNat + 4 < 2 ^ 64) :
    (∃ result, handleSyscall p b.trapState (f.registers .a7) (f.registers .a0) = some result ∧
      r = .ok { f with
        epc := f.epc + 4, registers := Function.update f.registers .a0 result } ∧
      b' = { b.read p with
        console := b.console ++ writtenBytes p (f.registers .a7) (f.registers .a0) }) ∨
      f.registers .a7 = exitCall ∧ r = .error (.exited (f.registers .a0)) ∧
        b' = { b.read p with enabled := true } := by
  cases h with
  | syscall _ _ _ hcall => exact .inl ⟨_, hcall, rfl, rfl⟩
  | exit _ _ _ hnumber => exact .inr ⟨hnumber, rfl, rfl⟩
  | timer h => exact absurd (h.symm.trans hcause) timerInterrupt_ne.2
  | failed h => exact absurd (h.symm.trans hcause) timerInterrupt_ne.2
  | probe h => exact absurd (h.symm.trans hmode) (by decide)
  | fault _ _ h => exact absurd (h hcause) (Nat.not_le.mpr hepc)
  | unexpected h => exact absurd (h.symm.trans hmode) (by decide)

end Effects

/-- What the handler gives back of a result on the board. -/
def resumed (b' : Board) : Except Ending TrapFrame → Option (TrapState × TrapFrame)
  | .ok f' => some (b'.trapState, f')
  | .error _ => none

theorem TrapEffect.refines {r : Except Ending TrapFrame} {b' : Board} (h : TrapEffect s p f b r b') :
    trapHandler s p b.trapState f = resumed b' r := by
  have hsupervisor : (f.status &&& supervisorOrigin != 0) = f.supervisor := rfl
  unfold trapHandler
  simp only [hsupervisor]
  cases h with
  | probe hmode hcause hepc =>
    rw [if_pos ⟨hmode, hcause, hepc⟩]
    rfl
  | timer hcause hserviceable =>
    have hne : f.cause ≠ illegalInstruction := hcause.trans_ne timerInterrupt_ne.1
    rw [if_neg fun h => hne h.2.1, if_pos hcause, handleInterrupt_eq_ok.mpr ⟨hserviceable, rfl⟩]
    unfold resumed
    cases f.supervisor <;> rfl
  | failed hcause hserviceable =>
    have hne : f.cause ≠ illegalInstruction := hcause.trans_ne timerInterrupt_ne.1
    rw [if_neg fun h => hne h.2.1, if_pos hcause]
    cases hi : handleInterrupt p b.trapState with
    | error e => rfl
    | ok k => exact absurd (handleInterrupt_eq_ok.mp hi).1 hserviceable
  | syscall hmode hcause hepc hcall =>
    have hne : f.cause ≠ timerInterrupt := hcause.trans_ne timerInterrupt_ne.2.symm
    have hnext : checkedAddWord f.epc 4 = some (f.epc + 4) := if_pos hepc
    simp only [hmode, Bool.false_eq_true, false_and, if_false, if_neg hne, not_false_eq_true, if_true,
      if_pos hcause, hnext, hcall]
    rfl
  | exit hmode hcause hepc hnumber =>
    have hne : f.cause ≠ timerInterrupt := hcause.trans_ne timerInterrupt_ne.2.symm
    have hnext : checkedAddWord f.epc 4 = some (f.epc + 4) := if_pos hepc
    simp only [hmode, Bool.false_eq_true, false_and, if_false, if_neg hne, not_false_eq_true, if_true,
      if_pos hcause, hnext, handleSyscall_eq_none.mpr hnumber]
    rfl
  | fault hmode hcause hecall =>
    simp only [hmode, Bool.false_eq_true, false_and, if_false, if_neg hcause, not_false_eq_true,
      if_true]
    by_cases h : f.cause = userEcall
    · have hnext : checkedAddWord f.epc 4 = none := if_neg (Nat.not_lt.mpr (hecall h))
      rw [if_pos h, hnext]
      rfl
    · rw [if_neg h]
      rfl
  | unexpected hmode hcause hprobe =>
    rw [if_neg fun h => hprobe h.2, if_neg hcause, hmode, if_neg (by simp)]
    rfl

/-- **On the statics the board takes traps as `trapHandler` does.** -/
theorem refines_trapHandler (s : Symbols) (p : Platform) (f : TrapFrame) (b : Board) :
    ∃ r b', takeTrap s p f b = .ok (r, b') ∧ trapHandler s p b.trapState f = resumed b' r := by
  obtain ⟨r, b', hrun, heffect⟩ := takeTrap_effect s p f b
  exact ⟨r, b', hrun, heffect.refines⟩

/-! ## Runs -/

/-- Nothing of the timer has changed; a counter that was probed is left as it is. -/
structure SameTimer (b b' : Board) : Prop where
  interval : b'.interval = b.interval
  source : b'.source = b.source
  deadline : b'.deadline = b.deadline
  ticks : b'.ticks = b.ticks
  userTicks : b'.userTicks = b.userTicks
  served : b'.served = b.served
  servedUser : b'.servedUser = b.servedUser
  clock : b.clock ≤ b'.clock
  counter : b'.halted = false →
    b.halted = false ∧ (b.counter ≠ .uninitialized → b'.counter = b.counter)

theorem sameTimer_read (h : b.clock ≤ p.time) : SameTimer b (b.read p) :=
  ⟨rfl, rfl, rfl, rfl, rfl, rfl, rfl, h, fun hhalted => ⟨hhalted, fun _ => rfl⟩⟩

theorem sameTimer_park (h : b.clock ≤ p.time) : SameTimer b (b.read p).park :=
  ⟨rfl, rfl, rfl, rfl, rfl, rfl, rfl, h, nofun⟩

theorem SameTimer.enabled {b' : Board} (h : SameTimer b b') (e : Bool) :
    SameTimer b { b' with enabled := e } :=
  ⟨h.interval, h.source, h.deadline, h.ticks, h.userTicks, h.served, h.servedUser, h.clock, h.counter⟩

theorem SameTimer.console {b' : Board} (h : SameTimer b b') (bytes : List UInt8) :
    SameTimer b { b' with console := bytes } :=
  ⟨h.interval, h.source, h.deadline, h.ticks, h.userTicks, h.served, h.servedUser, h.clock, h.counter⟩

/-- A trap services the timer or is quiet. -/
theorem TrapEffect.quiet {r : Except Ending TrapFrame} {b' : Board} (h : TrapEffect s p f b r b')
    (hclock : b.clock ≤ p.time) :
    SameTimer b b' ∨ Serviceable p b.trapState ∧ b' = (b.read p).serve f.supervisor := by
  cases h with
  | probe => exact .inl (sameTimer_read hclock)
  | timer _ hserviceable => exact .inr ⟨hserviceable, rfl⟩
  | failed => exact .inl (sameTimer_park hclock)
  | syscall => exact .inl ((sameTimer_read hclock).console _)
  | exit => exact .inl ((sameTimer_read hclock).enabled _)
  | fault => exact .inl ((sameTimer_read hclock).enabled _)
  | unexpected => exact .inl (sameTimer_park hclock)

/-- The timer can be armed, and firmware accepts its first deadline. -/
structure Armable (timebase : NonZeroU32) (period : Duration) (p : Platform) (interval : Word)
    (b : Board) : Prop where
  unarmed : b.interval = 0
  ticks : intervalTicks timebase period = .ok interval
  counter : b.counter = .available
  fits : p.time.toNat + interval.toNat < 2 ^ 64
  accepted : p.setTimer (p.time + interval) = 0

/-- The timer has been armed. -/
def Board.arm (b : Board) (p : Platform) (interval : Word) : Board :=
  { b.read p with deadline := some (p.time + interval), interval := interval, source := true }

/-- **Initialization arms the timer**, or it fails and nothing is installed. -/
theorem initTimer_effect (timebase : NonZeroU32) (period : Duration) (p : Platform) (b : Board) :
    (∃ e, Fails (initTimer timebase period p) b e (b.read p)) ∧
        (∀ interval, ¬Armable timebase period p interval b) ∨
      ∃ interval, Armable timebase period p interval b ∧
        Returns (initTimer timebase period p) b () (b.arm p interval) := by
  have hread : Returns (readPlatform p : Exec Board InitTimerError Unit) b () (b.read p) := rfl
  unfold initTimer Fails Returns
  simp only [Exec.bind_of_returns hread]
  unfold withInterruptsDisabled
  simp only [Exec.bind_apply, Exec.get]
  by_cases hzero : b.interval = 0
  · have hzero' : ¬({ b.read p with enabled := false } : Board).interval ≠ 0 := fun h => h hzero
    rw [if_neg hzero']
    cases hi : intervalTicks timebase period with
    | error e =>
      refine .inl ⟨⟨e, rfl⟩, fun interval h => ?_⟩
      cases hi.symm.trans h.ticks
    | ok interval =>
      have hstate : ({ b.read p with enabled := false } : Board).trapState = b.trapState := rfl
      cases hnext : nextDeadline p b.trapState interval with
      | error e =>
        refine .inl ⟨⟨.timer e, ?_⟩, fun interval' h => ?_⟩
        · simp only [Exec.bind_apply, Exec.get, Exec.ofExcept, deadlineAfter, hstate, hnext, mapError,
            Except.mapError, Except.map]
        · obtain rfl := Except.ok.inj (hi.symm.trans h.ticks)
          cases hnext.symm.trans (nextDeadline_eq_ok.mpr ⟨decide_eq_true h.counter, h.fits, rfl⟩)
      | ok deadline =>
        obtain ⟨hcounter, hfits, rfl⟩ := nextDeadline_eq_ok.mp hnext
        cases hset : p.sbiSetTimer (p.time + interval) with
        | error e =>
          refine .inl ⟨⟨.timer (.firmware e), ?_⟩, fun interval' h => ?_⟩
          · simp only [Exec.bind_apply, Exec.get, Exec.ofExcept, deadlineAfter, setTimer, hstate,
              hnext, hset, mapError, Except.mapError, Except.map]
            rfl
          · obtain rfl := Except.ok.inj (hi.symm.trans h.ticks)
            cases hset.symm.trans (sbiSetTimer_eq_ok.mpr h.accepted)
        | ok u =>
          refine .inr ⟨interval, ⟨hzero, hi, of_decide_eq_true hcounter, hfits,
            sbiSetTimer_eq_ok.mp hset⟩, ?_⟩
          simp only [Exec.bind_apply, Exec.get, Exec.ofExcept, Exec.modify, deadlineAfter, setTimer,
            hstate, hnext, hset, mapError, Except.mapError, Except.map]
          rfl
  · have hzero' : ({ b.read p with enabled := false } : Board).interval ≠ 0 := hzero
    rw [if_pos hzero']
    exact .inl ⟨⟨.alreadyInitialized, rfl⟩, fun interval h => hzero h.unarmed⟩

/-- What can run next: the driver is called and interrupts are switched, from the kernel; the hart
takes a timer interrupt that it lets through; and any other trap is taken. The counter does not go
back. -/
inductive Board.Allowed (s : Symbols) (b : Board) : Exec Board Unit Unit → Prop
  | initTime (granted : Bool) : b.halted = false → Allowed s b (initTime granted)
  | initTimer (timebase : NonZeroU32) (period : Duration) (p : Platform) : b.halted = false →
      b.clock ≤ p.time → Allowed s b (ignore (initTimer timebase period p))
  | switch (enabled : Bool) : b.halted = false →
      Allowed s b (modify fun b => { b with enabled := enabled })
  | interrupt (p : Platform) (f : TrapFrame) : b.halted = false → b.clock ≤ p.time →
      f.cause = timerInterrupt → b.delivers p.time f.supervisor = true →
      Allowed s b (ignore (takeTrap s p f))
  | exception (p : Platform) (f : TrapFrame) : b.halted = false → b.clock ≤ p.time →
      f.cause ≠ timerInterrupt → Allowed s b (ignore (takeTrap s p f))

/-- What one of them does to the timer. -/
inductive Board.Next (b b' : Board) : Prop
  | quiet : SameTimer b b' → Next b b'
  | serviced (p : Platform) (supervisor : Bool) : b.clock ≤ p.time → b.pending p.time = true →
      Serviceable p b.trapState → b' = (b.read p).serve supervisor → Next b b'
  | armed (timebase : NonZeroU32) (period : Duration) (p : Platform) (interval : Word) :
      Armable timebase period p interval b → b' = b.arm p interval → Next b b'

theorem Board.Allowed.sat_next {c : Exec Board Unit Unit} (h : b.Allowed s c) :
    Sat c b fun _ => b.Next := by
  cases h with
  | initTime granted hhalted =>
    refine ⟨_, _, rfl, .quiet ?_⟩
    dsimp only
    by_cases hcounter : b.counter = .uninitialized
    · rw [if_pos hcounter]
      exact ⟨rfl, rfl, rfl, rfl, rfl, rfl, rfl, BitVec.le_refl _,
        fun _ => ⟨hhalted, fun h => absurd hcounter h⟩⟩
    · rw [if_neg hcounter]
      exact ⟨rfl, rfl, rfl, rfl, rfl, rfl, rfl, BitVec.le_refl _,
        fun _ => ⟨hhalted, fun _ => rfl⟩⟩
  | initTimer timebase period p hhalted hclock =>
    rcases initTimer_effect timebase period p b with ⟨⟨e, hfails⟩, -⟩ | ⟨interval, harmable, hreturns⟩
    · exact Sat.ignore (hfails.sat (.quiet (sameTimer_read hclock)))
    · exact Sat.ignore (hreturns.sat (.armed timebase period p interval harmable rfl))
  | switch enabled hhalted =>
    exact ⟨_, _, rfl, .quiet ⟨rfl, rfl, rfl, rfl, rfl, rfl, rfl, BitVec.le_refl _,
      fun _ => ⟨hhalted, fun _ => rfl⟩⟩⟩
  | interrupt p f _ hclock _ hdelivers =>
    obtain ⟨r, b', hrun, heffect⟩ := takeTrap_effect s p f b
    have hpending : b.pending p.time = true := by
      simp only [Board.delivers, Bool.and_eq_true] at hdelivers
      exact hdelivers.1.2
    refine Sat.ignore (P := b.Next) ⟨r, b', hrun, ?_⟩
    rcases heffect.quiet hclock with hquiet | ⟨hserviceable, heq⟩
    · exact .quiet hquiet
    · exact .serviced p f.supervisor hclock hpending hserviceable heq
  | exception p f _ hclock hcause =>
    obtain ⟨r, b', hrun, heffect⟩ := takeTrap_effect s p f b
    refine Sat.ignore (P := b.Next) ⟨r, b', hrun, .quiet ?_⟩
    cases heffect with
    | timer h => exact absurd h hcause
    | failed h => exact absurd h hcause
    | probe => exact sameTimer_read hclock
    | syscall => exact (sameTimer_read hclock).console _
    | exit => exact (sameTimer_read hclock).enabled _
    | fault => exact (sameTimer_read hclock).enabled _
    | unexpected => exact sameTimer_park hclock

/-- No timer has been armed. -/
structure Unarmed (b : Board) : Prop where
  interval : b.interval = 0
  ticks : b.ticks = 0
  userTicks : b.userTicks = 0
  served : b.served = 0
  servedUser : b.servedUser = 0

/-- Without an interval the timer has never been armed. -/
theorem unarmed_of_run {b₀ : Board} (hboot : Unarmed b₀) (hrun : Run (Board.Allowed s) b₀ b) :
    b.interval = 0 → Unarmed b := by
  refine hrun.induct (P := fun b => b.interval = 0 → Unarmed b) (fun _ => hboot)
    fun b₁ c ih hallowed => ?_
  refine hallowed.sat_next.mono fun _ b₂ hnext hzero => ?_
  cases hnext with
  | quiet hq =>
    have h := ih (hq.interval.symm.trans hzero)
    exact ⟨hzero, hq.ticks.trans h.ticks, hq.userTicks.trans h.userTicks, hq.served.trans h.served,
      hq.servedUser.trans h.servedUser⟩
  | serviced p supervisor _ _ hserviceable heq =>
    subst heq
    exact absurd hzero hserviceable.interval
  | armed timebase period p interval harmable heq =>
    subst heq
    exact absurd hzero (intervalTicks_eq_ok harmable.ticks).1

/-- The board as a timer that rearms itself. -/
def Board.timer (b : Board) : Pacing.Timer ℕ :=
  ⟨b.clock.toNat, (b.deadline.getD 0).toNat, b.served⟩

/-- The timer was armed at `start` and has been rearmed ever since. -/
structure Paced (start : ℕ) (interval : Word) (b : Board) : Prop where
  configured : b.interval = interval
  nonzero : interval ≠ 0
  source : b.source = true
  counter : b.halted = false → b.counter = .available
  deadline : b.deadline.isSome = true
  run : ReflTransGen (Pacing.Step interval.toNat) (Pacing.armed interval.toNat start) b.timer
  ticks : b.ticks.toNat = b.served
  userTicks : b.userTicks.toNat = b.servedUser
  users : b.servedUser ≤ b.served

theorem Paced.onPace {start : ℕ} {interval : Word} (h : Paced start interval b) :
    OnPace start interval.toNat b.timer := Pacing.onPace_of_run h.run

/-- The first deadline of a timer. -/
theorem Armable.paced {timebase : NonZeroU32} {period : Duration} {interval : Word}
    (h : Armable timebase period p interval b) (hunarmed : Unarmed b) :
    Paced p.time.toNat interval (b.arm p interval) := by
  refine ⟨rfl, (intervalTicks_eq_ok h.ticks).1, rfl, fun _ => h.counter, rfl, ?_, ?_, ?_, ?_⟩
  · have htimer : (b.arm p interval).timer = Pacing.armed interval.toNat p.time.toNat := by
      ext : 1
      · rfl
      · show (p.time + interval).toNat = _
        exact BitVec.toNat_add_of_lt h.fits
      · exact hunarmed.served
    rw [htimer]
  · show b.ticks.toNat = b.served
    rw [hunarmed.ticks, hunarmed.served]
    rfl
  · show b.userTicks.toNat = b.servedUser
    rw [hunarmed.userTicks, hunarmed.servedUser]
    rfl
  · show b.servedUser ≤ b.served
    rw [hunarmed.servedUser]
    exact Nat.zero_le _

theorem Paced.quiet {start : ℕ} {interval : Word} {b' : Board} (h : Paced start interval b)
    (hq : SameTimer b b') : Paced start interval b' where
  configured := hq.interval.trans h.configured
  nonzero := h.nonzero
  source := hq.source.trans h.source
  counter hhalted := by
    obtain ⟨hb, hcounter⟩ := hq.counter hhalted
    have havailable := h.counter hb
    rw [hcounter (by simp [havailable]), havailable]
  deadline := by
    rw [hq.deadline, h.deadline]
  run := by
    have htimer : b'.timer = { b.timer with now := b'.clock.toNat } := by
      unfold Board.timer
      rw [hq.deadline, hq.served]
    rw [htimer]
    exact h.run.tail (.wait hq.clock)
  ticks := by
    rw [hq.ticks, hq.served, h.ticks]
  userTicks := by
    rw [hq.userTicks, hq.servedUser, h.userTicks]
  users := by
    rw [hq.servedUser, hq.served]
    exact h.users

theorem Paced.enabled {start : ℕ} {interval : Word} (h : Paced start interval b) (e : Bool) :
    Paced start interval { b with enabled := e } :=
  ⟨h.configured, h.nonzero, h.source, h.counter, h.deadline, h.run, h.ticks, h.userTicks, h.users⟩

theorem Paced.console {start : ℕ} {interval : Word} (h : Paced start interval b)
    (bytes : List UInt8) : Paced start interval { b with console := bytes } :=
  ⟨h.configured, h.nonzero, h.source, h.counter, h.deadline, h.run, h.ticks, h.userTicks, h.users⟩

theorem Paced.park {start : ℕ} {interval : Word} (h : Paced start interval b) :
    Paced start interval b.park :=
  ⟨h.configured, h.nonzero, h.source, nofun, h.deadline, h.run, h.ticks, h.userTicks, h.users⟩

theorem Paced.serve {start : ℕ} {interval : Word} (h : Paced start interval b) (supervisor : Bool)
    (hclock : b.clock ≤ p.time) (hpending : b.pending p.time = true)
    (hserviceable : Serviceable p b.trapState) :
    Paced start interval ((b.read p).serve supervisor) := by
  have hfits : p.time.toNat + interval.toNat < 2 ^ 64 := by
    rw [← h.configured]
    exact hserviceable.fits
  have hdeadline : (p.time + interval).toNat = p.time.toNat + interval.toNat :=
    BitVec.toNat_add_of_lt hfits
  have hdue : (b.deadline.getD 0).toNat ≤ p.time.toNat := by
    unfold Board.pending at hpending
    cases hd : b.deadline with
    | none => exact Nat.zero_le _
    | some deadline =>
      rw [hd] at hpending
      exact of_decide_eq_true hpending
  have htimer : ((b.read p).serve supervisor).timer =
      ⟨p.time.toNat, p.time.toNat + interval.toNat, b.served + 1⟩ := by
    ext : 1
    · rfl
    · show (p.time + b.interval).toNat = _
      rw [h.configured, hdeadline]
    · rfl
  have hrun : ReflTransGen (Pacing.Step interval.toNat) (Pacing.armed interval.toNat start)
      ((b.read p).serve supervisor).timer := by
    rw [htimer]
    exact h.run.tail (.fire hclock hdue)
  -- every serviced interrupt has had its interval, so there are fewer of them than words
  have hcount : b.served + 1 < 2 ^ 64 := by
    have hnext := (Pacing.onPace_of_run hrun).elapsed
    rw [htimer] at hnext
    have hpos : 0 < interval.toNat := BitVec.toNat_pos_of_ne_zero h.nonzero
    have hmul : b.served + 1 ≤ (b.served + 1) * interval.toNat := Nat.le_mul_of_pos_right _ hpos
    rw [Nat.nsmul_eq_mul] at hnext
    dsimp only at hnext
    omega
  have hsucc : ∀ (w : Word) (n : ℕ), w.toNat = n → n ≤ b.served → (w + 1).toNat = n + 1 := by
    intro w n hw hn
    rw [BitVec.toNat_add_of_lt, hw]
    · rfl
    · rw [hw]
      exact lt_of_le_of_lt (Nat.succ_le_succ hn) hcount
  refine ⟨h.configured, h.nonzero, h.source, h.counter, rfl, hrun, hsucc _ _ h.ticks le_rfl, ?_, ?_⟩
  · cases supervisor with
    | true => exact h.userTicks
    | false => exact hsucc _ _ h.userTicks h.users
  · cases supervisor with
    | true => exact h.users.trans (Nat.le_succ _)
    | false => exact Nat.succ_le_succ h.users

theorem Paced.next {start : ℕ} {interval : Word} {b' : Board} (h : Paced start interval b)
    (hnext : b.Next b') : Paced start interval b' := by
  cases hnext with
  | quiet hq => exact h.quiet hq
  | serviced p supervisor hclock hpending hserviceable heq =>
    rw [heq]
    exact h.serve supervisor hclock hpending hserviceable
  | armed timebase period p interval' harmable =>
    -- a configured timer is not configured again
    exact absurd (h.configured.symm.trans harmable.unarmed) h.nonzero

theorem paced_of_run {start : ℕ} {interval : Word} {b' : Board} (h : Paced start interval b)
    (hrun : Run (Board.Allowed s) b b') : Paced start interval b' :=
  hrun.induct h fun _ _ ih hallowed => hallowed.sat_next.mono fun _ _ hnext => ih.next hnext

theorem paced_of_initTimer {timebase : NonZeroU32} {period : Duration} {b₀ b' : Board}
    (hboot : Unarmed b₀) (hbefore : Run (Board.Allowed s) b₀ b)
    (hinit : Returns (initTimer timebase period p) b () b') : ∃ interval,
    intervalTicks timebase period = .ok interval ∧ Paced p.time.toNat interval b' := by
  rcases initTimer_effect timebase period p b with ⟨⟨e, hfails⟩, -⟩ | ⟨interval, harmable, hreturns⟩
  · exact absurd hfails hinit.not_fails
  · obtain ⟨-, rfl⟩ := hinit.unique hreturns
    exact ⟨interval, harmable.ticks, harmable.paced (unarmed_of_run hboot hbefore harmable.unarmed)⟩

/-- **Interrupts keep pace with the clock.** Let `init` return on a board on which no timer was armed
at boot, and let anything happen before and after it: calls of the driver, interrupts whenever the
hart lets them through, system calls, faults. Then the two counters have counted every interrupt and
have not wrapped; each interrupt has had its interval; the pending deadline leaves an interval for the
next one, and is at most an interval ahead of the counter; the time that has passed is at least that
many periods; and while the hart is not parked an interrupt is serviced unless the counter is at its
end or firmware refuses. -/
theorem timer_paced (s : Symbols) {timebase : NonZeroU32} {period : Duration} {p : Platform}
    {b₀ b b₁ b₂ : Board} (hboot : Unarmed b₀) (hbefore : Run (Board.Allowed s) b₀ b)
    (hinit : Returns (initTimer timebase period p) b () b₁)
    (hafter : Run (Board.Allowed s) b₁ b₂) :
    b₂.source = true ∧
      IsLeast {n | timebase.get * period.asNanos ≤ n * 1000000000} b₂.interval.toNat ∧
      b₂.ticks.toNat = b₂.served ∧ b₂.userTicks.toNat = b₂.servedUser ∧
      b₂.servedUser ≤ b₂.served ∧
      p.time.toNat + b₂.served * b₂.interval.toNat ≤ b₂.clock.toNat ∧
      (∃ deadline, b₂.deadline = some deadline ∧
        p.time.toNat + (b₂.served + 1) * b₂.interval.toNat ≤ deadline.toNat ∧
        deadline.toNat ≤ b₂.clock.toNat + b₂.interval.toNat) ∧
      b₂.served * (timebase.get * period.asNanos) ≤
        (b₂.clock.toNat - p.time.toNat) * 1000000000 ∧
      (b₂.halted = false → ∀ (p' : Platform) (f : TrapFrame), f.cause = timerInterrupt →
        p'.time.toNat + b₂.interval.toNat < 2 ^ 64 → p'.setTimer (p'.time + b₂.interval) = 0 →
        Returns (takeTrap s p' f) b₂ f ((b₂.read p').serve f.supervisor)) := by
  obtain ⟨interval, hticks, harmed⟩ := paced_of_initTimer hboot hbefore hinit
  obtain ⟨-, hleast⟩ := intervalTicks_eq_ok hticks
  have h := paced_of_run harmed hafter
  have hpace := h.onPace
  have helapsed : p.time.toNat + b₂.served * interval.toNat ≤ b₂.clock.toNat := hpace.elapsed
  rw [h.configured]
  refine ⟨h.source, hleast, h.ticks, h.userTicks, h.users, helapsed, ?_, ?_, ?_⟩
  · obtain ⟨deadline, hdeadline⟩ := Option.isSome_iff_exists.mp h.deadline
    have htimer : b₂.timer.deadline = deadline.toNat := by
      unfold Board.timer
      rw [hdeadline]
      rfl
    refine ⟨deadline, hdeadline, ?_, ?_⟩
    · rw [← htimer]
      exact hpace.next
    · rw [← htimer]
      exact hpace.near
  · calc b₂.served * (timebase.get * period.asNanos)
        ≤ b₂.served * (interval.toNat * 1000000000) := Nat.mul_le_mul_left _ hleast.1
      _ = b₂.served * interval.toNat * 1000000000 := (Nat.mul_assoc ..).symm
      _ ≤ (b₂.clock.toNat - p.time.toNat) * 1000000000 := Nat.mul_le_mul_right _ (by omega)
  · intro hhalted p' f hcause hfits haccepted
    have hserviceable : Serviceable p' b₂.trapState := by
      refine ⟨?_, ?_, ?_, ?_⟩
      · show b₂.interval ≠ 0
        rw [h.configured]
        exact h.nonzero
      · show decide (b₂.counter = .available) = true
        rw [h.counter hhalted]
        rfl
      · show p'.time.toNat + b₂.interval.toNat < 2 ^ 64
        rwa [h.configured]
      · show p'.setTimer (p'.time + b₂.interval) = 0
        rwa [h.configured]
    obtain ⟨r, b', hrun, heffect⟩ := takeTrap_effect s p' f b₂
    rcases heffect.of_interrupt hcause with ⟨-, rfl, rfl⟩ | ⟨hnot, -⟩
    · exact hrun
    · exact absurd hserviceable hnot

/-! ## A sample run -/

section Sample

def sampleBoard : Board :=
  ⟨.uninitialized, 0, 0, 0, false, false, 0, none, [], false, 0, 0⟩

def sampleTimebase : NonZeroU32 := ⟨10000000, by decide, by decide⟩

/-- Ten milliseconds. -/
def samplePeriod : Duration := ⟨0, 10000000, by decide, by decide⟩

/-- User code is interrupted when the first deadline is due. -/
def sampleInterrupt : TrapFrame :=
  { (UserContext.new 0x10000 0x40000000).frame with cause := timerInterrupt }

/-- The counter is probed, the timer is armed, and an interrupt is serviced. -/
theorem timer_paced_sample : ∃ b b₁ b₂ : Board,
    Returns (initTimer sampleTimebase samplePeriod samplePlatform) b () b₁ ∧
      Run (Board.Allowed sampleSymbols) b₁ b₂ ∧ b₂.served = 1 ∧
      b₂.ticks.toNat = b₂.served ∧
      5000 + b₂.served * b₂.interval.toNat ≤ b₂.clock.toNat := by
  have hbefore : Run (Board.Allowed sampleSymbols) sampleBoard
      { sampleBoard with counter := .available } :=
    .next .start (.initTime true rfl) rfl
  have hinit : Returns (initTimer sampleTimebase samplePeriod samplePlatform)
      { sampleBoard with counter := .available } ()
      { sampleBoard with
        counter := .available, interval := 100000, source := true, clock := 5000,
        deadline := some 105000 } := by
    rfl
  have hafter : Run (Board.Allowed sampleSymbols)
      { sampleBoard with
        counter := .available, interval := 100000, source := true, clock := 5000,
        deadline := some 105000 }
      { sampleBoard with
        counter := .available, interval := 100000, source := true, clock := 105000,
        deadline := some 205000, ticks := 1, userTicks := 1, served := 1, servedUser := 1 } :=
    .next .start (.interrupt { samplePlatform with time := 105000 } sampleInterrupt rfl (by decide)
      rfl rfl) rfl
  obtain ⟨-, -, hticks, -, -, helapsed, -⟩ :=
    timer_paced sampleSymbols ⟨rfl, rfl, rfl, rfl, rfl⟩ hbefore hinit hafter
  exact ⟨_, _, _, hinit, hafter, rfl, hticks, helapsed⟩

end Sample

end Barebone.Kernel
