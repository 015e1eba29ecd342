import BareboneKernel.Lib.Riscv

/-!
# Returning traps

A trap runs `__trap_entry`, which saves the interrupted registers in a frame on a supervisor stack,
calls `trap_handler`, and falls through to `__trap_restore`. Both origins share the code: in user mode
`sscratch` holds the top of the supervisor stack, in supervisor mode it is zero.

* `trapCode`, `enterCode`: the instructions of the source, in its order;
* `handleInterrupt`, `handleSyscall`, `trapHandler`: what the handler does to the saved frame;
* `HandlerReturns`: the compiled handler, held to the C ABI and to the source;
* `UserRun`: runs of user code, timer traps and system calls that begin with `enter_user`;
* `runs_trapEntry`, `runs_trapRestore`: the code before and after the handler;
* **`trap_transparent`**: a trap that returns is invisible to the code it interrupts.
-/

set_option autoImplicit false

namespace Barebone.Kernel

open Riscv

/-! ## The saved frame -/

/-- Supervisor origin recorded in `sstatus.SPP`. -/
def supervisorOrigin : Word := 1 <<< 8

/-- Floating-point and vector state fields in `sstatus`. -/
def extensionStateMask : Word := (3 <<< 13) ||| (3 <<< 9)

/-- Supervisor timer interrupt encoded in `scause`. -/
def timerInterrupt : Word := (1 <<< 63) ||| 5

/-- Illegal-instruction exception encoded in `scause`. -/
def illegalInstruction : Word := 2

/-- Environment call raised from user mode. -/
def userEcall : Word := 8

/-- RV64 user status with supervisor interrupts enabled on privilege return. -/
def initialUserStatus : Word := (2 <<< 32) ||| (1 <<< 5)

/-- Saved integer execution state and supervisor trap metadata. -/
@[ext]
structure TrapFrame where
  registers : Reg → Word
  epc : Word
  status : Word
  cause : Word
  value : Word

namespace TrapFrame

/-- `size_of::<TrapFrame>()` -/
def size : Word := 288

/-- Offset of the saved register `k`. -/
def registerOffset (k : ℕ) : Word := BitVec.ofNat 64 (8 * k)

/-- `offset_of!(TrapFrame, epc)` -/
def epcOffset : Word := 256

/-- `offset_of!(TrapFrame, status)` -/
def statusOffset : Word := 264

/-- `offset_of!(TrapFrame, cause)` -/
def causeOffset : Word := 272

/-- `offset_of!(TrapFrame, value)` -/
def valueOffset : Word := 280

/-- The frame in memory at `base`. -/
def read (m : Memory) (base : Word) : TrapFrame where
  registers r := load m (base + registerOffset r)
  epc := load m (base + epcOffset)
  status := load m (base + statusOffset)
  cause := load m (base + causeOffset)
  value := load m (base + valueOffset)

/-- Write a frame to memory at `base`. -/
def write (f : TrapFrame) (m : Memory) (base : Word) : Memory :=
  let m := (List.finRange 32).foldl
    (fun m (r : Reg) => store m (base + registerOffset r) (f.registers r)) m
  let m := store m (base + epcOffset) f.epc
  let m := store m (base + statusOffset) f.status
  let m := store m (base + causeOffset) f.cause
  store m (base + valueOffset) f.value

end TrapFrame

/-! ## The code -/

/-- Addresses the code takes from the linker. -/
structure Symbols where
  globalPointer : Word
  /-- Where `trap_handler` returns to. -/
  handlerReturn : Word
  probeTimeRead : Word
  probeTimeUnavailable : Word

inductive Label where
  | trapRestore
  | userStack
  | saveContext
  | restoreRegisters
  deriving DecidableEq

section Code

open TrapFrame

/-- `__trap_restore` -/
def restoreCode : List (Instr Label) := [
  .label .trapRestore,
  .ld .t0 epcOffset .sp,
  .csrw .sepc .t0,
  .ld .t0 statusOffset .sp,
  .andi .t0 .t0 (-3),
  .csrw .sstatus .t0,

  .csrw .sscratch .zero,
  .andi .t0 .t0 supervisorOrigin,
  .bnez .t0 .restoreRegisters,
  .addi .t0 .sp size,
  .csrw .sscratch .t0,
  .label .restoreRegisters,

  .ld .ra (registerOffset 1) .sp,
  .ld .gp (registerOffset 3) .sp,
  .ld .tp (registerOffset 4) .sp,
  .ld .t1 (registerOffset 6) .sp,
  .ld .t2 (registerOffset 7) .sp,
  .ld .s0 (registerOffset 8) .sp,
  .ld .s1 (registerOffset 9) .sp,
  .ld .a0 (registerOffset 10) .sp,
  .ld .a1 (registerOffset 11) .sp,
  .ld .a2 (registerOffset 12) .sp,
  .ld .a3 (registerOffset 13) .sp,
  .ld .a4 (registerOffset 14) .sp,
  .ld .a5 (registerOffset 15) .sp,
  .ld .a6 (registerOffset 16) .sp,
  .ld .a7 (registerOffset 17) .sp,
  .ld .s2 (registerOffset 18) .sp,
  .ld .s3 (registerOffset 19) .sp,
  .ld .s4 (registerOffset 20) .sp,
  .ld .s5 (registerOffset 21) .sp,
  .ld .s6 (registerOffset 22) .sp,
  .ld .s7 (registerOffset 23) .sp,
  .ld .s8 (registerOffset 24) .sp,
  .ld .s9 (registerOffset 25) .sp,
  .ld .s10 (registerOffset 26) .sp,
  .ld .s11 (registerOffset 27) .sp,
  .ld .t3 (registerOffset 28) .sp,
  .ld .t4 (registerOffset 29) .sp,
  .ld .t5 (registerOffset 30) .sp,
  .ld .t6 (registerOffset 31) .sp,
  .ld .t0 (registerOffset 5) .sp,
  .ld .sp (registerOffset 2) .sp,
  .sret]

/-- `__trap_entry`, with the code it falls through to. -/
def trapCode (s : Symbols) : List (Instr Label) := [
  .csrrw .sp .sscratch .sp,
  .bnez .sp .userStack,
  .csrrw .sp .sscratch .sp,
  .addi .sp .sp (-size),
  .sd .t0 (registerOffset 5) .sp,
  .addi .t0 .sp size,
  .j .saveContext,
  .label .userStack,
  .addi .sp .sp (-size),
  .sd .t0 (registerOffset 5) .sp,
  .csrr .t0 .sscratch,
  .csrw .sscratch .zero,
  .label .saveContext,
  .sd .t0 (registerOffset 2) .sp,
  .sd .zero (registerOffset 0) .sp,
  .sd .ra (registerOffset 1) .sp,
  .sd .gp (registerOffset 3) .sp,
  .sd .tp (registerOffset 4) .sp,
  .sd .t1 (registerOffset 6) .sp,
  .sd .t2 (registerOffset 7) .sp,
  .sd .s0 (registerOffset 8) .sp,
  .sd .s1 (registerOffset 9) .sp,
  .sd .a0 (registerOffset 10) .sp,
  .sd .a1 (registerOffset 11) .sp,
  .sd .a2 (registerOffset 12) .sp,
  .sd .a3 (registerOffset 13) .sp,
  .sd .a4 (registerOffset 14) .sp,
  .sd .a5 (registerOffset 15) .sp,
  .sd .a6 (registerOffset 16) .sp,
  .sd .a7 (registerOffset 17) .sp,
  .sd .s2 (registerOffset 18) .sp,
  .sd .s3 (registerOffset 19) .sp,
  .sd .s4 (registerOffset 20) .sp,
  .sd .s5 (registerOffset 21) .sp,
  .sd .s6 (registerOffset 22) .sp,
  .sd .s7 (registerOffset 23) .sp,
  .sd .s8 (registerOffset 24) .sp,
  .sd .s9 (registerOffset 25) .sp,
  .sd .s10 (registerOffset 26) .sp,
  .sd .s11 (registerOffset 27) .sp,
  .sd .t3 (registerOffset 28) .sp,
  .sd .t4 (registerOffset 29) .sp,
  .sd .t5 (registerOffset 30) .sp,
  .sd .t6 (registerOffset 31) .sp,

  .csrr .t0 .sepc,
  .sd .t0 epcOffset .sp,
  .csrr .t0 .sstatus,
  .sd .t0 statusOffset .sp,
  .csrr .t0 .scause,
  .sd .t0 causeOffset .sp,
  .csrr .t0 .stval,
  .sd .t0 valueOffset .sp,

  .li .t0 extensionStateMask,
  .csrc .sstatus .t0,

  .la .gp s.globalPointer,
  .mv .tp .zero,

  .mv .a0 .sp,
  .call s.handlerReturn] ++ restoreCode

/-- The transfer at the end of `enter_user`; `frame` is the register that holds the frame. -/
def enterCode (frame : Reg) : List (Instr Label) := [
  .csrci .sstatus 2,
  .fenceI,
  .mv .sp frame,
  .j .trapRestore]

end Code

/-! ## The handler -/

/-- `u64::checked_add` -/
def checkedAddWord (a b : Word) : Option Word :=
  if a.toNat + b.toNat < 2 ^ 64 then some (a + b) else none

/-- Failures while programming an SBI timer deadline. -/
inductive SetTimerError where
  | notSupported
  | denied
  | unexpected (error : ℤ)
  deriving DecidableEq

/-- Errors returned when writing a byte through the SBI debug console. -/
inductive WriteByteError where
  | failed
  | denied
  | unexpected (error : ℤ)
  deriving DecidableEq

/-- Failures while servicing a periodic timer. -/
inductive TimerError where
  | notInitialized
  | counterUnavailable
  | deadlineOverflow
  | firmware (error : SetTimerError)
  deriving DecidableEq

/-- What one run of the handler reads from the platform: the time counter, and the codes with which
firmware answers the two calls. -/
structure Platform where
  time : Word
  setTimer : Word → ℤ
  writeByte : UInt8 → ℤ

namespace Platform

/-- `sbi::set_timer` -/
def sbiSetTimer (p : Platform) (deadline : Word) : Except SetTimerError Unit :=
  match p.setTimer deadline with
  | 0 => .ok ()
  | -2 => .error .notSupported
  | -4 => .error .denied
  | error => .error (.unexpected error)

/-- `sbi::write_byte` -/
def sbiWriteByte (p : Platform) (byte : UInt8) : Except WriteByteError Unit :=
  match p.writeByte byte with
  | 0 => .ok ()
  | -1 => .error .failed
  | -4 => .error .denied
  | error => .error (.unexpected error)

end Platform

/-- The kernel state the handler reads and writes. -/
structure TrapState where
  /-- Configured interval in time-counter ticks, or zero before initialization. -/
  interval : Word
  /-- Counter reads are available. -/
  counter : Bool
  /-- Number of successfully handled timer interrupts. -/
  ticks : Word
  /-- Wrapping count of timer interrupts that interrupted user execution. -/
  userTicks : Word
  deriving DecidableEq

/-- `time::ticks` -/
def timeTicks (p : Platform) (k : TrapState) : Option Word := if k.counter then some p.time else none

/-- Computes a future deadline from the current time counter. -/
def nextDeadline (p : Platform) (k : TrapState) (interval : Word) : Except TimerError Word :=
  match timeTicks p k with
  | none => .error .counterUnavailable
  | some now =>
    match checkedAddWord now interval with
    | none => .error .deadlineOverflow
    | some deadline => .ok deadline

/-- Rearms the periodic timer and records one delivered interrupt. -/
def handleInterrupt (p : Platform) (k : TrapState) : Except TimerError TrapState :=
  if k.interval = 0 then .error .notInitialized
  else
    match nextDeadline p k k.interval with
    | .error e => .error e
    | .ok deadline =>
      match p.sbiSetTimer deadline with
      | .error e => .error (.firmware e)
      | .ok () => .ok { k with ticks := k.ticks + 1 }

/-- `user_abi::CONSOLE_WRITE_BYTE` -/
def consoleWriteByte : Word := 1

/-- `user_abi::EXIT` -/
def exitCall : Word := 2

/-- `user_abi::TIMER_TICKS` -/
def timerTicksCall : Word := 3

/-- A console operation failed, encoded as -5. -/
def errorIo : Word := -5

/-- A scalar argument was invalid, encoded as -22. -/
def errorInvalidArgument : Word := -22

/-- The requested syscall is unsupported, encoded as -38. -/
def errorNotSupported : Word := -38

/-- Handles a syscall number and `a0` argument; `none` when the call does not return. -/
def handleSyscall (p : Platform) (k : TrapState) (number argument : Word) : Option Word :=
  if number = consoleWriteByte then
    if argument.toNat < 256 then
      match p.sbiWriteByte (UInt8.ofNat argument.toNat) with
      | .ok () => some 0
      | .error _ => some errorIo
    else some errorInvalidArgument
  else if number = timerTicksCall then some k.userTicks
  else if number = exitCall then none
  else some errorNotSupported

/-- Dispatches timer interrupts, scalar user syscalls, and fatal exceptions; `none` when the handler
does not return. -/
def trapHandler (s : Symbols) (p : Platform) (k : TrapState) (f : TrapFrame) :
    Option (TrapState × TrapFrame) :=
  let supervisor : Bool := f.status &&& supervisorOrigin != 0
  if supervisor ∧ f.cause = illegalInstruction ∧ f.epc = s.probeTimeRead then
    some (k, { f with epc := s.probeTimeUnavailable })
  else if f.cause = timerInterrupt then
    match handleInterrupt p k with
    | .error _ => none
    | .ok k =>
      if supervisor then some (k, f) else some ({ k with userTicks := k.userTicks + 1 }, f)
  else if ¬supervisor then
    if f.cause = userEcall then
      match checkedAddWord f.epc 4 with
      | none => none
      | some next =>
        match handleSyscall p k (f.registers .a7) (f.registers .a0) with
        | none => none
        | some result =>
          some (k, { f with epc := next, registers := Function.update f.registers .a0 result })
    else none
  else none

/-! ## The code before and after the handler -/

/-- The registers whose slots are saved and reloaded in one block. -/
def keptRegisters : List Reg := [.ra, .gp, .tp, .t1, .t2, .s0, .s1, .a0, .a1, .a2, .a3, .a4, .a5, .a6,
  .a7, .s2, .s3, .s4, .s5, .s6, .s7, .s8, .s9, .s10, .s11, .t3, .t4, .t5, .t6]

/-- The slots written behind `.Lsave_context`; `t0` holds the interrupted stack pointer there. -/
def savedSlots : List (Reg × ℕ) :=
  (.t0, 2) :: (.zero, 0) :: keptRegisters.map fun r : Reg => (r, (r : ℕ))

/-- The slots read behind `.Lrestore_registers`, up to the stack pointer. -/
def restoredSlots : List (Reg × ℕ) :=
  keptRegisters.map (fun r : Reg => (r, (r : ℕ))) ++ [(.t0, 5)]

theorem find_savedSlots (r : Reg) : savedSlots.reverse.find? (fun p => p.2 = (r : ℕ)) =
    if r = .t0 then none else if r = .sp then some (.t0, 2) else some (r, (r : ℕ)) := by
  revert r
  decide

theorem find_restoredSlots (r : Reg) : restoredSlots.reverse.find? (fun p => p.1 = r) =
    if r = .zero ∨ r = .sp then none else some (r, (r : ℕ)) := by
  revert r
  decide

namespace TrapFrame

theorem read_eq (m : Memory) (base : Word) : read m base =
    ⟨fun r => load m (slot base r), load m (slot base 32), load m (slot base 33),
      load m (slot base 34), load m (slot base 35)⟩ := rfl

end TrapFrame

variable {s : Symbols}

/-- The instructions between the saved registers and the call. -/
def saveTrap (s : Symbols) : List (Instr Label) := [
  .csrr .t0 .sepc, .sd .t0 TrapFrame.epcOffset .sp,
  .csrr .t0 .sstatus, .sd .t0 TrapFrame.statusOffset .sp,
  .csrr .t0 .scause, .sd .t0 TrapFrame.causeOffset .sp,
  .csrr .t0 .stval, .sd .t0 TrapFrame.valueOffset .sp,
  .li .t0 extensionStateMask, .csrc .sstatus .t0,
  .la .gp s.globalPointer, .mv .tp .zero, .mv .a0 .sp]

theorem target_saveContext : target (trapCode s) .saveContext =
    saves .sp savedSlots ++ (saveTrap s ++ .call s.handlerReturn :: restoreCode) := rfl

/-- The handler is called with a frame at `base`, on the stack below it. -/
structure AtHandler (base : Word) (frame : TrapFrame) (entry : Hart) : Prop where
  sp : entry.get .sp = base
  a0 : entry.get .a0 = base
  sscratch : entry.csrs .sscratch = 0
  mode : entry.mode = .supervisor
  frame : TrapFrame.read entry.mem base = frame

theorem saveTrap_keeps (h : Hart) :
    ((saveTrap s).foldl exec h).get .sp = h.get .sp ∧
      ((saveTrap s).foldl exec h).get .a0 = h.get .sp ∧
      ((saveTrap s).foldl exec h).csrs .sscratch = h.csrs .sscratch ∧
      ((saveTrap s).foldl exec h).mode = h.mode := by
  simp (disch := decide) [saveTrap, exec, Hart.get_set_same, Hart.get_set_of_ne]

theorem mem_saveTrap (h : Hart) : ((saveTrap s).foldl exec h).mem =
    store (store (store (store h.mem (slot (h.get .sp) 32) (h.csrs .sepc)) (slot (h.get .sp) 33)
      (h.csrs .sstatus)) (slot (h.get .sp) 34) (h.csrs .scause)) (slot (h.get .sp) 35)
      (h.csrs .stval) := by
  simp (disch := decide) [saveTrap, exec, Hart.get_set_same, Hart.get_set_of_ne, slot,
    TrapFrame.epcOffset, TrapFrame.statusOffset, TrapFrame.causeOffset, TrapFrame.valueOffset]

theorem read_saveTrap (h : Hart) : TrapFrame.read ((saveTrap s).foldl exec h).mem (h.get .sp) =
    ⟨fun r => load h.mem (slot (h.get .sp) r),
      h.csrs .sepc, h.csrs .sstatus, h.csrs .scause, h.csrs .stval⟩ := by
  rw [mem_saveTrap, TrapFrame.read_eq]
  ext : 1
  · funext r
    have hr : (r : ℕ) < 32 := r.isLt
    simp (disch := omega) only [load_store_slot, if_neg]
  all_goals simp (disch := omega) [load_store_slot]

theorem load_savedSlots (h : Hart) (r : Reg) :
    load ((saves .sp savedSlots : List (Instr Label)).foldl exec h).mem (slot (h.get .sp) r) =
      if r = .t0 then load h.mem (slot (h.get .sp) 5)
      else if r = .sp then h.get .t0 else h.get r := by
  rw [load_saves .sp (by decide) h (by omega), find_savedSlots]
  by_cases ht0 : r = .t0
  · subst ht0
    rfl
  · by_cases hsp : r = .sp
    · subst hsp
      rfl
    · simp only [if_neg ht0, if_neg hsp, Option.map_some, Option.getD_some]

/-- The code behind `.Lsave_context` fills the frame at `sp`. -/
theorem runs_saveContext (h : Hart) (hscratch : h.csrs .sscratch = 0)
    (hmode : h.mode = .supervisor) : ∃ entry,
    Runs (trapCode s) (target (trapCode s) .saveContext) h (.call restoreCode entry) ∧
      AtHandler (h.get .sp)
        ⟨fun r => if r = .t0 then load h.mem (slot (h.get .sp) 5)
          else if r = .sp then h.get .t0 else h.get r,
        h.csrs .sepc, h.csrs .sstatus, h.csrs .scause, h.csrs .stval⟩ entry := by
  have hread := read_saveTrap (s := s) ((saves .sp savedSlots : List (Instr Label)).foldl exec h)
  simp only [get_foldl_saves, csrs_foldl_saves, load_savedSlots] at hread
  obtain ⟨hsp, ha0, hs, hm⟩ := saveTrap_keeps (s := s)
    ((saves .sp savedSlots : List (Instr Label)).foldl exec h)
  refine ⟨((saveTrap s).foldl exec
    ((saves .sp savedSlots : List (Instr Label)).foldl exec h)).set .ra s.handlerReturn,
    ?_, ?_, ?_, ?_, ?_, ?_⟩
  · rw [target_saveContext]
    apply Runs.straight (straight_saves _ _)
    apply Runs.straight (by simp [saveTrap, Instr.straight])
    exact Runs.call
  · rw [Hart.get_set_of_ne _ _ (by decide), hsp, get_foldl_saves]
  · rw [Hart.get_set_of_ne _ _ (by decide), ha0, get_foldl_saves]
  · rw [Hart.set_csrs, hs, csrs_foldl_saves, hscratch]
  · rw [Hart.set_mode, hm, mode_foldl_saves, hmode]
  · rw [Hart.set_mem, hread]

/-- The stack of the frame at `base` has been selected: `t0` is saved in its slot and holds the
interrupted stack pointer, and everything else is as in `h`. -/
structure Selected (h : Hart) (base : Word) (h' : Hart) : Prop where
  sp : h'.get .sp = base
  t0 : h'.get .t0 = h.get .sp
  saved : load h'.mem (slot base 5) = h.get .t0
  get : ∀ r, r ≠ .sp → r ≠ .t0 → h'.get r = h.get r
  sscratch : h'.csrs .sscratch = 0
  csrs : ∀ c, c ≠ .sscratch → h'.csrs c = h.csrs c
  mode : h'.mode = h.mode

theorem Selected.runs {h h' : Hart} {base : Word} (hsel : Selected h base h')
    (hmode : h.mode = .supervisor) : ∃ entry,
    Runs (trapCode s) (target (trapCode s) .saveContext) h' (.call restoreCode entry) ∧
      AtHandler base ⟨h.get, h.csrs .sepc, h.csrs .sstatus, h.csrs .scause, h.csrs .stval⟩
        entry := by
  obtain ⟨entry, hruns, hentry⟩ := runs_saveContext (s := s) h' hsel.sscratch (hsel.mode.trans hmode)
  have hregisters : (fun r : Reg => if r = .t0 then load h'.mem (slot (h'.get .sp) 5)
      else if r = .sp then h'.get .t0 else h'.get r) = h.get := by
    funext r
    by_cases ht0 : r = .t0
    · rw [if_pos ht0, hsel.sp, hsel.saved, ht0]
    · by_cases hsp : r = .sp
      · rw [if_neg ht0, if_pos hsp, hsel.t0, hsp]
      · rw [if_neg ht0, if_neg hsp, hsel.get r hsp ht0]
  rw [hregisters, hsel.sp, hsel.csrs .sepc (by decide), hsel.csrs .sstatus (by decide),
    hsel.csrs .scause (by decide), hsel.csrs .stval (by decide)] at hentry
  exact ⟨entry, hruns, hentry⟩

/-- A trap from supervisor mode stays on the interrupted stack. -/
theorem selected_supervisor (h : Hart) (hs : h.csrs .sscratch = 0) :
    Selected h (h.get .sp + -TrapFrame.size)
      (([.csrrw .sp .sscratch .sp] ++ [.csrrw .sp .sscratch .sp, .addi .sp .sp (-TrapFrame.size),
        .sd .t0 (TrapFrame.registerOffset 5) .sp, .addi .t0 .sp TrapFrame.size] :
        List (Instr Label)).foldl exec h) where
  sp := by
    simp (disch := decide) [exec, Hart.get_set_same, Hart.get_set_of_ne]
  t0 := by
    simp (disch := decide) only [List.cons_append, List.nil_append, List.foldl, exec,
      Hart.get_set_same, Hart.get_set_of_ne, Hart.set_csrs, Hart.setCsr_csrs, if_true, Hart.get_setCsr,
      Hart.get_write, BitVec.add_assoc, BitVec.add_left_neg, BitVec.add_zero]
  saved := by
    simp (disch := decide) only [List.cons_append, List.nil_append, List.foldl, exec,
      Hart.get_set_same, Hart.get_set_of_ne, Hart.set_mem, Hart.setCsr_mem, Hart.write_mem,
      Hart.get_write, Hart.get_setCsr]
    exact load_store_same ..
  get r hsp ht0 := by
    simp [exec, Hart.get_set_of_ne _ _ hsp, Hart.get_set_of_ne _ _ ht0]
  sscratch := by
    simp (disch := decide) [exec, Hart.get_set_same, Hart.get_set_of_ne, hs]
  csrs c hc := by
    simp [exec, hc]
  mode := by
    simp [exec]

/-- A trap from user mode moves to the stack below `sscratch`. -/
theorem selected_user (h : Hart) :
    Selected h (h.csrs .sscratch + -TrapFrame.size)
      (([.csrrw .sp .sscratch .sp] ++ [.addi .sp .sp (-TrapFrame.size),
        .sd .t0 (TrapFrame.registerOffset 5) .sp, .csrr .t0 .sscratch, .csrw .sscratch .zero,
        .label .saveContext] : List (Instr Label)).foldl exec h) where
  sp := by
    simp (disch := decide) [exec, Hart.get_set_same, Hart.get_set_of_ne]
  t0 := by
    simp (disch := decide) [exec, Hart.get_set_same, Hart.get_set_of_ne]
  saved := by
    simp (disch := decide) only [List.cons_append, List.nil_append, List.foldl, exec,
      Hart.get_set_same, Hart.get_set_of_ne, Hart.set_mem, Hart.setCsr_mem, Hart.write_mem,
      Hart.get_write, Hart.get_setCsr]
    exact load_store_same ..
  get r hsp ht0 := by
    simp [exec, Hart.get_set_of_ne _ _ hsp, Hart.get_set_of_ne _ _ ht0]
  sscratch := by
    simp [exec]
  csrs c hc := by
    simp [exec, hc]
  mode := by
    simp [exec]

/-- The stack pointer a trap saves its frame below. -/
def trapStack (h : Hart) : Word := if h.csrs .sscratch = 0 then h.get .sp else h.csrs .sscratch

/-- **The code before the handler.** -/
theorem runs_trapEntry (h : Hart) (hmode : h.mode = .supervisor) : ∃ entry,
    Runs (trapCode s) (trapCode s) h (.call restoreCode entry) ∧
      AtHandler (trapStack h - TrapFrame.size)
        ⟨h.get, h.csrs .sepc, h.csrs .sstatus, h.csrs .scause, h.csrs .stval⟩ entry := by
  have hcode : trapCode s = [.csrrw .sp .sscratch .sp] ++ .bnez .sp .userStack ::
      ([.csrrw .sp .sscratch .sp, .addi .sp .sp (-TrapFrame.size),
        .sd .t0 (TrapFrame.registerOffset 5) .sp, .addi .t0 .sp TrapFrame.size] ++
        .j .saveContext :: .label .userStack :: target (trapCode s) .userStack) := rfl
  have huser : target (trapCode s) .userStack =
      [.addi .sp .sp (-TrapFrame.size), .sd .t0 (TrapFrame.registerOffset 5) .sp,
        .csrr .t0 .sscratch, .csrw .sscratch .zero, .label .saveContext] ++
        target (trapCode s) .saveContext := rfl
  -- the first swap leaves the old `sscratch` in `sp`, and the branch tests it
  have hswap : (exec h (.csrrw (L := Label) .sp .sscratch .sp)).get .sp = h.csrs .sscratch := by
    simp (disch := decide) [exec, Hart.get_set_same]
  by_cases hs : h.csrs .sscratch = 0
  · obtain ⟨entry, hruns, hentry⟩ := (selected_supervisor h hs).runs (s := s) hmode
    rw [List.foldl_append] at hruns
    refine ⟨entry, ?_, by rwa [trapStack, if_pos hs, BitVec.sub_eq_add_neg]⟩
    refine Eq.subst (motive := fun c => Runs (trapCode s) c h _) hcode.symm ?_
    apply Runs.straight (by simp [Instr.straight])
    apply Runs.notTaken (hswap.trans hs)
    apply Runs.straight (by simp [Instr.straight])
    exact Runs.jump hruns
  · obtain ⟨entry, hruns, hentry⟩ := (selected_user h).runs (s := s) hmode
    rw [List.foldl_append] at hruns
    refine ⟨entry, ?_, by rwa [trapStack, if_neg hs, BitVec.sub_eq_add_neg]⟩
    refine Eq.subst (motive := fun c => Runs (trapCode s) c h _) hcode.symm ?_
    apply Runs.straight (by simp [Instr.straight])
    apply Runs.taken (hswap.trans_ne hs)
    rw [huser]
    apply Runs.straight (by simp [Instr.straight])
    exact hruns

/-! ## Reloading the frame -/

/-- The hart is about to execute `sret` with the contents of `frame`. -/
structure Restored (base : Word) (frame : TrapFrame) (final : Hart) : Prop where
  registers : ∀ r, r ≠ .zero → final.get r = frame.registers r
  sepc : final.csrs .sepc = frame.epc
  sstatus : final.csrs .sstatus = frame.status &&& (-3)
  sscratch : final.csrs .sscratch =
    if frame.status &&& supervisorOrigin = 0 then base + TrapFrame.size else 0

theorem target_restoreRegisters : target (trapCode s) .restoreRegisters =
    loads .sp restoredSlots ++ ([.ld .sp (TrapFrame.registerOffset 2) .sp] ++ [.sret]) := rfl

/-- The code behind `.Lrestore_registers` reloads every register. -/
theorem runs_restoreRegisters (h : Hart) : ∃ final,
    Runs (trapCode s) (target (trapCode s) .restoreRegisters) h (.sret final) ∧
      final.csrs = h.csrs ∧
      ∀ r, r ≠ .zero → final.get r = (TrapFrame.read h.mem (h.get .sp)).registers r := by
  obtain ⟨hcsrs, hmem, -⟩ := foldl_loads (L := Label) .sp restoredSlots h
  have hget := fun r => get_loads (L := Label) .sp
    (by decide : ∀ p ∈ restoredSlots, p.1 ≠ .zero ∧ p.1 ≠ .sp) h r
  simp only [find_restoredSlots] at hget
  refine ⟨exec ((loads .sp restoredSlots : List (Instr Label)).foldl exec h)
    (.ld (L := Label) .sp (TrapFrame.registerOffset 2) .sp), ?_, ?_, ?_⟩
  · rw [target_restoreRegisters]
    apply Runs.straight (straight_loads _ _)
    apply Runs.straight (by simp [Instr.straight])
    exact Runs.sret
  · rw [exec, Hart.set_csrs, hcsrs]
  · intro r hr
    by_cases hsp : r = .sp
    · subst hsp
      rw [exec, Hart.get_set_same _ _ (by decide), hmem, hget]
      rfl
    · rw [exec, Hart.get_set_of_ne _ _ hsp, hget, if_neg (by simp [hr, hsp])]
      rfl

/-- The instructions from `__trap_restore` to the test of the origin. -/
def restoreHead : List (Instr Label) := [
  .ld .t0 TrapFrame.epcOffset .sp, .csrw .sepc .t0,
  .ld .t0 TrapFrame.statusOffset .sp, .andi .t0 .t0 (-3), .csrw .sstatus .t0,
  .csrw .sscratch .zero, .andi .t0 .t0 supervisorOrigin]

theorem foldl_restoreHead (h : Hart) :
    (restoreHead.foldl exec h).get .sp = h.get .sp ∧ (restoreHead.foldl exec h).mem = h.mem ∧
      (restoreHead.foldl exec h).get .t0 =
        (TrapFrame.read h.mem (h.get .sp)).status &&& supervisorOrigin ∧
      (restoreHead.foldl exec h).csrs .sepc = (TrapFrame.read h.mem (h.get .sp)).epc ∧
      (restoreHead.foldl exec h).csrs .sstatus =
        (TrapFrame.read h.mem (h.get .sp)).status &&& (-3) ∧
      (restoreHead.foldl exec h).csrs .sscratch = 0 := by
  have hmask : (-3 : Word) &&& supervisorOrigin = supervisorOrigin := by decide
  refine ⟨?_, ?_, ?_, ?_, ?_, ?_⟩
  · simp (disch := decide) [restoreHead, exec, Hart.get_set_of_ne]
  · simp [restoreHead, exec]
  · simp (disch := decide) only [restoreHead, List.foldl, exec, Hart.get_set_same,
      Hart.get_set_of_ne, Hart.get_setCsr, Hart.set_mem, Hart.setCsr_mem]
    rw [BitVec.and_assoc, hmask]
    rfl
  · simp (disch := decide) [restoreHead, exec, Hart.get_set_same, TrapFrame.read]
  · simp (disch := decide) [restoreHead, exec, Hart.get_set_same, Hart.get_set_of_ne,
      TrapFrame.read]
  · simp [restoreHead, exec]

/-- **The code behind the handler.** -/
theorem runs_trapRestore (exit : Hart) : ∃ final,
    Runs (trapCode s) (target (trapCode s) .trapRestore) exit (.sret final) ∧
      Restored (exit.get .sp) (TrapFrame.read exit.mem (exit.get .sp)) final := by
  have hcode : target (trapCode s) .trapRestore = restoreHead ++ .bnez .t0 .restoreRegisters ::
      ([.addi .t0 .sp TrapFrame.size, .csrw .sscratch .t0, .label .restoreRegisters] ++
        target (trapCode s) .restoreRegisters) := rfl
  obtain ⟨hsp, hmem, ht0, hsepc, hstatus, hscratch⟩ := foldl_restoreHead exit
  rw [hcode]
  by_cases horigin : (TrapFrame.read exit.mem (exit.get .sp)).status &&& supervisorOrigin = 0
  · obtain ⟨final, hruns, hcsrs, hget⟩ := runs_restoreRegisters (s := s)
      (([.addi .t0 .sp TrapFrame.size, .csrw .sscratch .t0, .label .restoreRegisters] :
        List (Instr Label)).foldl exec (restoreHead.foldl exec exit))
    refine ⟨final, ?_, ?_, ?_, ?_, ?_⟩
    · apply Runs.straight (by simp [restoreHead, Instr.straight])
      apply Runs.notTaken (ht0.trans horigin)
      exact Runs.straight (by simp [Instr.straight]) hruns
    · intro r hr
      rw [hget r hr]
      simp (disch := decide) only [List.foldl, exec, Hart.get_set_of_ne, Hart.get_setCsr,
        Hart.set_mem, Hart.setCsr_mem, hsp, hmem]
    · simp [hcsrs, exec, hsepc]
    · simp [hcsrs, exec, hstatus]
    · simp (disch := decide) [hcsrs, exec, Hart.get_set_same, hsp, horigin]
  · obtain ⟨final, hruns, hcsrs, hget⟩ :=
      runs_restoreRegisters (s := s) (restoreHead.foldl exec exit)
    refine ⟨final, ?_, ?_, ?_, ?_, ?_⟩
    · apply Runs.straight (by simp [restoreHead, Instr.straight])
      exact Runs.taken (ht0.trans_ne horigin) hruns
    · intro r hr
      rw [hget r hr, hsp, hmem]
    · rw [hcsrs, hsepc]
    · rw [hcsrs, hstatus]
    · rw [hcsrs, hscratch, if_neg horigin]

/-! ## Runs -/

/-- Integer-only execution state for the first return into user mode. -/
structure UserContext where
  frame : TrapFrame
  /-- Only `new` builds a context, and its status has user origin. -/
  origin : frame.status &&& supervisorOrigin = 0

/-- Prepares zeroed integer registers, an entry address, and a user stack. -/
def UserContext.new (entry stack : Word) : UserContext where
  frame := ⟨Function.update (fun _ => 0) .sp stack, entry, initialUserStatus, 0, 0⟩
  origin := (by decide : initialUserStatus &&& supervisorOrigin = 0)

/-- The supervisor stack that callers of `enter_user` supply: its top is aligned and the frame fits
below it. -/
structure TrapStack where
  top : Word
  aligned : top.toNat % 16 = 0
  fits : TrapFrame.size.toNat ≤ top.toNat

/-- Where the frame of every user trap lies. -/
def TrapStack.frame (stack : TrapStack) : Word := stack.top - TrapFrame.size

/-- `enter_user` on a hart in the state `h`, whose register `r` holds the address of the frame, comes
to its `sret` in the state `final`. -/
def EnterUser (s : Symbols) (context : UserContext) (stack : TrapStack) (h : Hart) (r : Reg)
    (final : Hart) : Prop :=
  r ≠ .zero ∧ h.get r = stack.frame ∧
    Runs (trapCode s) (enterCode r) { h with mem := context.frame.write h.mem stack.frame }
      (.sret final)

/-- The compiled handler, called in the state `entry`, returns in the state `exit`: it obeys the
C ABI, writes the saved frame as `trap_handler` does, and passes through `states`, none of which
touches `sscratch`. -/
structure HandlerReturns (s : Symbols) (p : Platform) (k : TrapState) (entry : Hart)
    (states : List Hart) (k' : TrapState) (exit : Hart) : Prop where
  frame : trapHandler s p k (TrapFrame.read entry.mem (entry.get .a0)) =
    some (k', TrapFrame.read exit.mem (entry.get .a0))
  preserved : ∀ r ∈ Reg.preserved, exit.get r = entry.get r
  sscratch : ∀ h ∈ states, h.csrs .sscratch = entry.csrs .sscratch
  exit : exit ∈ states

/-- The interrupted hart takes a trap, the handler returns, and so does the trap. -/
def ReturningTrap (s : Symbols) (k : TrapState) (h : Hart) (k' : TrapState) (h' : Hart) : Prop :=
  ∃ (p : Platform) (cause value : Word) (entry : Hart) (states : List Hart) (exit final : Hart),
    Runs (trapCode s) (trapCode s) (h.trap cause value) (.call restoreCode entry) ∧
      HandlerReturns s p k entry states k' exit ∧
      Runs (trapCode s) restoreCode exit (.sret final) ∧ h' = final.sret

/-- User code may change everything but its mode and `sscratch`. -/
structure Executes (h h' : Hart) : Prop where
  mode : h'.mode = h.mode
  sscratch : h'.csrs .sscratch = h.csrs .sscratch

/-- The states in which user code runs after `enter_user`. -/
inductive UserRun (s : Symbols) (stack : TrapStack) : TrapState → Hart → Prop
  | enter {context : UserContext} {k : TrapState} {h final : Hart} {r : Reg} :
      EnterUser s context stack h r final → UserRun s stack k final.sret
  | execute {k : TrapState} {h h' : Hart} :
      UserRun s stack k h → Executes h h' → UserRun s stack k h'
  | trap {k k' : TrapState} {h h' : Hart} :
      UserRun s stack k h → ReturningTrap s k h k' h' → UserRun s stack k' h'

/-! ## What the handler leaves -/

variable {p : Platform} {k k' : TrapState} {f f' : TrapFrame}

theorem checkedAddWord_eq_some {a b c : Word} (h : checkedAddWord a b = some c) : c = a + b := by
  unfold checkedAddWord at h
  split at h
  · exact (Option.some.inj h).symm
  · exact absurd h (by simp)

/-- A user trap returns after a timer interrupt or a system call. -/
theorem trapHandler_user (huser : f.status &&& supervisorOrigin = 0)
    (h : trapHandler s p k f = some (k', f')) :
    f.cause = timerInterrupt ∧ f' = f ∨
      f.cause = userEcall ∧ ∃ result,
        handleSyscall p k (f.registers .a7) (f.registers .a0) = some result ∧
        f' = { f with epc := f.epc + 4, registers := Function.update f.registers .a0 result } := by
  simp only [trapHandler, huser, bne_self_eq_false, Bool.false_eq_true, false_and, if_false,
    not_false_eq_true, if_true] at h
  by_cases htimer : f.cause = timerInterrupt
  · rw [if_pos htimer] at h
    cases hi : handleInterrupt p k with
    | error e => simp [hi] at h
    | ok k₁ =>
      simp only [hi, Option.some.injEq, Prod.mk.injEq] at h
      exact .inl ⟨htimer, h.2.symm⟩
  · rw [if_neg htimer] at h
    by_cases hecall : f.cause = userEcall
    · rw [if_pos hecall] at h
      cases hnext : checkedAddWord f.epc 4 with
      | none => simp only [hnext, reduceCtorEq] at h
      | some next =>
        cases hcall : handleSyscall p k (f.registers .a7) (f.registers .a0) with
        | none => simp only [hnext, hcall, reduceCtorEq] at h
        | some result =>
          simp only [hnext, hcall, Option.some.injEq, Prod.mk.injEq] at h
          rw [checkedAddWord_eq_some hnext] at h
          exact .inr ⟨hecall, result, rfl, h.2.symm⟩
    · simp [hecall] at h

/-- A supervisor trap returns after a timer interrupt or from the probe of the time counter. -/
theorem trapHandler_supervisor (hsuper : f.status &&& supervisorOrigin ≠ 0)
    (h : trapHandler s p k f = some (k', f')) :
    f.cause = timerInterrupt ∧ f' = f ∨
      f.cause = illegalInstruction ∧ f.epc = s.probeTimeRead ∧
        f' = { f with epc := s.probeTimeUnavailable } := by
  have hbool : (f.status &&& supervisorOrigin != 0) = true := by
    simpa using hsuper
  simp only [trapHandler, hbool, true_and, if_true, not_true_eq_false, if_false] at h
  by_cases hprobe : f.cause = illegalInstruction ∧ f.epc = s.probeTimeRead
  · rw [if_pos hprobe] at h
    simp only [Option.some.injEq, Prod.mk.injEq] at h
    exact .inr ⟨hprobe.1, hprobe.2, h.2.symm⟩
  · rw [if_neg hprobe] at h
    by_cases htimer : f.cause = timerInterrupt
    · rw [if_pos htimer] at h
      cases hi : handleInterrupt p k with
      | error e => simp [hi] at h
      | ok k₁ =>
        simp only [hi, Option.some.injEq, Prod.mk.injEq] at h
        exact .inl ⟨htimer, h.2.symm⟩
    · simp [htimer] at h

/-! ## Status -/

theorem and_supervisorOrigin (w : Word) :
    w &&& supervisorOrigin = if w.getLsbD SPP then supervisorOrigin else 0 := by
  have horigin : supervisorOrigin = BitVec.twoPow 64 SPP := by decide
  rw [horigin, BitVec.and_twoPow]
  rfl

theorem and_supervisorOrigin_eq_zero (w : Word) :
    w &&& supervisorOrigin = 0 ↔ w.getLsbD SPP = false := by
  have hne : supervisorOrigin ≠ 0 := by decide
  rw [and_supervisorOrigin]
  cases w.getLsbD SPP
  · simp
  · simpa using hne

theorem getLsbD_and_neg_three (w : Word) (i : ℕ) :
    (w &&& (-3)).getLsbD i = if i = SIE then false else w.getLsbD i := by
  have hmask : w &&& (-3) = setBit w SIE false := by
    have hnot : (-3 : Word) = ~~~ BitVec.twoPow 64 SIE := by decide
    rw [hnot]
    rfl
  rw [hmask, getLsbD_setBit _ _ _ (by decide)]

theorem getLsbD_trapStatus (w : Word) (mode : Mode) (i : ℕ) : (trapStatus w mode).getLsbD i =
    if i = SIE then false else if i = SPIE then w.getLsbD SIE
      else if i = SPP then mode = .supervisor else w.getLsbD i := by
  rw [trapStatus, getLsbD_setBit _ _ _ (by decide), getLsbD_setBit _ _ _ (by decide),
    getLsbD_setBit _ _ _ (by decide)]

theorem getLsbD_sretStatus (w : Word) (i : ℕ) : (sretStatus w).getLsbD i =
    if i = SPP then false else if i = SPIE then true
      else if i = SIE then w.getLsbD SPIE else w.getLsbD i := by
  rw [sretStatus, getLsbD_setBit _ _ _ (by decide), getLsbD_setBit _ _ _ (by decide),
    getLsbD_setBit _ _ _ (by decide)]

/-- The frame that a trap saves. -/
def savedFrame (h : Hart) (cause value : Word) : TrapFrame :=
  ⟨h.get, h.pc, trapStatus (h.csrs .sstatus) h.mode, cause, value⟩

theorem trapStatus_and_supervisorOrigin (w : Word) (mode : Mode) :
    trapStatus w mode &&& supervisorOrigin = 0 ↔ mode = .user := by
  rw [and_supervisorOrigin_eq_zero, getLsbD_trapStatus, if_neg (by decide), if_neg (by decide),
    if_pos rfl]
  cases mode <;> decide

/-- What the interrupted code finds when it goes on: its registers with `a0` in place of the old
one, its mode and status, and the program counter `pc`. -/
structure Resumes (h : Hart) (a0 pc : Word) (h' : Hart) : Prop where
  registers : ∀ r, h'.get r = if r = .a0 then a0 else h.get r
  pc : h'.pc = pc
  mode : h'.mode = h.mode
  sscratch : h'.csrs .sscratch = h.csrs .sscratch
  /-- All of `sstatus` but the two fields that `sret` itself overwrites. -/
  status : ∀ i, i ≠ SPIE → i ≠ SPP →
    (h'.csrs .sstatus).getLsbD i = (h.csrs .sstatus).getLsbD i

/-- A frame that still has the saved status resumes the interrupted code. -/
theorem Restored.resumes {h final : Hart} {base a0 : Word} {frame : TrapFrame}
    (hres : Restored base frame final) (hstatus : frame.status = trapStatus (h.csrs .sstatus) h.mode)
    (hregisters : frame.registers = Function.update h.get .a0 a0)
    (hscratch : h.csrs .sscratch = if h.mode = .user then base + TrapFrame.size else 0) :
    Resumes h a0 frame.epc final.sret := by
  have hbit : ∀ i, (final.csrs .sstatus).getLsbD i =
      if i = SIE then false else (trapStatus (h.csrs .sstatus) h.mode).getLsbD i := by
    intro i
    rw [hres.sstatus, hstatus, getLsbD_and_neg_three]
  refine ⟨?_, hres.sepc, ?_, ?_, ?_⟩
  · intro r
    rw [Hart.get_sret]
    by_cases hr : r = .zero
    · subst hr
      rfl
    · rw [hres.registers r hr, hregisters, Function.update_apply]
  · have hspp : (final.csrs .sstatus).getLsbD SPP = decide (h.mode = .supervisor) := by
      rw [hbit, getLsbD_trapStatus, if_neg (by decide), if_neg (by decide), if_neg (by decide),
        if_pos rfl]
    show (if (final.csrs .sstatus).getLsbD SPP then Mode.supervisor else Mode.user) = h.mode
    rw [hspp]
    cases h.mode <;> rfl
  · rw [Hart.sret_csrs, if_neg (by decide), hres.sscratch, hstatus, hscratch]
    simp only [trapStatus_and_supervisorOrigin]
  · intro i hspie hspp
    rw [Hart.sret_csrs, if_pos rfl, getLsbD_sretStatus, if_neg hspp, if_neg hspie]
    by_cases hsie : i = SIE
    · -- `sret` moves the saved enable bit back
      rw [if_pos hsie, hbit, if_neg (by decide), getLsbD_trapStatus, if_neg (by decide), if_pos rfl,
        hsie]
    · rw [if_neg hsie, hbit, if_neg hsie, getLsbD_trapStatus, if_neg hsie, if_neg hspie,
        if_neg hspp]

/-! ## Traps that return -/

theorem TrapFrame.read_write (f : TrapFrame) (m : Memory) (base : Word) :
    TrapFrame.read (f.write m base) base = f := by
  have hfind : ∀ r : Reg, ((List.finRange 32).map fun r : Reg => (r, (r : ℕ))).reverse.find?
      (fun p => p.2 = (r : ℕ)) = some (r, (r : ℕ)) := by
    decide
  have hload : ∀ r : Reg, load ((List.finRange 32).foldl
      (fun m (r : Reg) => store m (slot base r) (f.registers r)) m) (slot base r) =
        f.registers r := by
    intro r
    have hslots : ∀ p ∈ (List.finRange 32).map fun r : Reg => (r, (r : ℕ)), p.2 < 2 ^ 60 := by
      decide
    have hfold := load_foldl_store base f.registers hslots m (by omega : (r : ℕ) < 2 ^ 60)
    rw [List.foldl_map, hfind] at hfold
    exact hfold
  have hwrite : f.write m base = store (store (store (store ((List.finRange 32).foldl
      (fun m (r : Reg) => store m (slot base r) (f.registers r)) m) (slot base 32) f.epc)
      (slot base 33) f.status) (slot base 34) f.cause) (slot base 35) f.value := rfl
  rw [hwrite, TrapFrame.read_eq]
  ext : 1
  · funext r
    have hr : (r : ℕ) < 32 := r.isLt
    simp (disch := omega) only [load_store_slot, if_neg]
    exact hload r
  all_goals simp (disch := omega) [load_store_slot]

/-- The code before the handler, from the interrupted hart. -/
theorem runs_trap (h : Hart) (cause value : Word) : ∃ entry,
    Runs (trapCode s) (trapCode s) (h.trap cause value) (.call restoreCode entry) ∧
      AtHandler (trapStack h - TrapFrame.size) (savedFrame h cause value) entry :=
  runs_trapEntry (h.trap cause value) rfl

/-- The code after the handler, from the state in which it was called. -/
theorem HandlerReturns.runs {h entry exit : Hart} {states : List Hart} {base cause value : Word}
    (hret : HandlerReturns s p k entry states k' exit)
    (hentry : AtHandler base (savedFrame h cause value) entry) :
    (∀ m ∈ states, m.csrs .sscratch = 0) ∧ ∃ final frame,
      Runs (trapCode s) restoreCode exit (.sret final) ∧
        trapHandler s p k (savedFrame h cause value) = some (k', frame) ∧
        Restored base frame final := by
  refine ⟨fun m hm => (hret.sscratch m hm).trans hentry.sscratch, ?_⟩
  obtain ⟨final, hruns, hres⟩ := runs_trapRestore (s := s) exit
  have hframe := hret.frame
  rw [hentry.a0, hentry.frame] at hframe
  rw [hret.preserved .sp (by decide), hentry.sp] at hres
  have hcode : restoreCode = [.label .trapRestore] ++ target (trapCode s) .trapRestore := rfl
  refine ⟨final, _, ?_, hframe, hres⟩
  rw [hcode]
  exact Runs.straight (by simp [Instr.straight]) hruns

/-- `enter_user` comes to its `sret` with the context it was given. -/
theorem exists_enterUser (s : Symbols) (context : UserContext) (stack : TrapStack) (h : Hart) {r : Reg}
    (hr : r ≠ .zero) (hframe : h.get r = stack.frame) : ∃ final,
    EnterUser s context stack h r final ∧ Restored stack.frame context.frame final := by
  let h₁ : Hart := { h with mem := context.frame.write h.mem stack.frame }
  have hcode : enterCode r = [.csrci .sstatus 2, .fenceI, .mv .sp r] ++ [.j .trapRestore] := rfl
  have hsp : (([.csrci .sstatus 2, .fenceI, .mv .sp r] : List (Instr Label)).foldl exec h₁).get .sp =
      stack.frame := by
    simp only [List.foldl, exec]
    rw [Hart.get_set_same _ _ (by decide), Hart.get_setCsr]
    exact hframe
  have hmem : (([.csrci .sstatus 2, .fenceI, .mv .sp r] : List (Instr Label)).foldl exec h₁).mem =
      context.frame.write h.mem stack.frame := by
    simp [exec, h₁]
  obtain ⟨final, hruns, hres⟩ := runs_trapRestore (s := s)
    (([.csrci .sstatus 2, .fenceI, .mv .sp r] : List (Instr Label)).foldl exec h₁)
  rw [hsp, hmem, TrapFrame.read_write] at hres
  refine ⟨final, ⟨hr, hframe, ?_⟩, hres⟩
  rw [hcode]
  apply Runs.straight (by simp [Instr.straight])
  exact Runs.jump hruns

theorem EnterUser.restored {context : UserContext} {stack : TrapStack} {h final : Hart} {r : Reg}
    (henter : EnterUser s context stack h r final) :
    Restored stack.frame context.frame final := by
  obtain ⟨hr, hframe, hruns⟩ := henter
  obtain ⟨final', ⟨-, -, hruns'⟩, hres⟩ := exists_enterUser s context stack h hr hframe
  obtain rfl : final = final' := Stop.sret.inj (hruns.unique hruns')
  exact hres

theorem TrapStack.frame_add_size (stack : TrapStack) :
    stack.frame + TrapFrame.size = stack.top :=
  BitVec.sub_add_cancel ..

theorem TrapStack.top_ne_zero (stack : TrapStack) : stack.top ≠ 0 := by
  intro htop
  have hfits := stack.fits
  rw [htop] at hfits
  exact absurd hfits (by decide)

/-- While user code runs, `sscratch` holds the top of its stack. -/
structure InUser (stack : TrapStack) (h : Hart) : Prop where
  mode : h.mode = .user
  sscratch : h.csrs .sscratch = stack.top

theorem EnterUser.inUser {context : UserContext} {stack : TrapStack} {h final : Hart} {r : Reg}
    (henter : EnterUser s context stack h r final) : InUser stack final.sret := by
  have hres := henter.restored
  have hspp : (final.csrs .sstatus).getLsbD SPP = false := by
    rw [hres.sstatus, getLsbD_and_neg_three, if_neg (by decide)]
    exact (and_supervisorOrigin_eq_zero _).mp context.origin
  constructor
  · show (if (final.csrs .sstatus).getLsbD SPP then Mode.supervisor else Mode.user) = .user
    rw [hspp]
    rfl
  · rw [Hart.sret_csrs, if_neg (by decide), hres.sscratch, if_pos context.origin,
      stack.frame_add_size]

/-- The effect of a user trap that returns. -/
def UserTrapReturns (p : Platform) (k : TrapState) (cause : Word) (h h' : Hart) : Prop :=
  cause = timerInterrupt ∧ Resumes h (h.get .a0) h.pc h' ∨
    cause = userEcall ∧ ∃ result, handleSyscall p k (h.get .a7) (h.get .a0) = some result ∧
      Resumes h result (h.pc + 4) h'

/-- The effect of a supervisor trap that returns. -/
def SupervisorTrapReturns (s : Symbols) (cause : Word) (h h' : Hart) : Prop :=
  cause = timerInterrupt ∧ Resumes h (h.get .a0) h.pc h' ∨
    cause = illegalInstruction ∧ h.pc = s.probeTimeRead ∧
      Resumes h (h.get .a0) s.probeTimeUnavailable h'

/-- At `sret` the saved status is back, with interrupts masked. -/
def StatusRestored (h final : Hart) : Prop :=
  ∀ i, i ≠ SIE → (final.csrs .sstatus).getLsbD i =
    (trapStatus (h.csrs .sstatus) h.mode).getLsbD i

theorem Restored.status {h final : Hart} {base : Word} {frame : TrapFrame}
    (hres : Restored base frame final)
    (hstatus : frame.status = trapStatus (h.csrs .sstatus) h.mode) : StatusRestored h final := by
  intro i hi
  rw [hres.sstatus, getLsbD_and_neg_three, if_neg hi, hstatus]

/-- A user trap, from the interrupted hart to the resumed one. -/
theorem InUser.trap {stack : TrapStack} {h : Hart} (hu : InUser stack h) (cause value : Word) :
    ∃ entry, Runs (trapCode s) (trapCode s) (h.trap cause value) (.call restoreCode entry) ∧
      AtHandler stack.frame (savedFrame h cause value) entry ∧
      ∀ p k k' states exit, HandlerReturns s p k entry states k' exit →
        (∀ m ∈ states, m.csrs .sscratch = 0) ∧ ∃ final,
          Runs (trapCode s) restoreCode exit (.sret final) ∧ StatusRestored h final ∧
          UserTrapReturns p k cause h final.sret := by
  have hstack : trapStack h - TrapFrame.size = stack.frame := by
    rw [trapStack, hu.sscratch, if_neg stack.top_ne_zero]
    rfl
  obtain ⟨entry, hruns, hentry⟩ := runs_trap (s := s) h cause value
  rw [hstack] at hentry
  refine ⟨entry, hruns, hentry, fun p k k' states exit hret => ?_⟩
  obtain ⟨hscratch, final, frame, hruns', hframe, hres⟩ := hret.runs hentry
  have huser := (trapStatus_and_supervisorOrigin (h.csrs .sstatus) h.mode).mpr hu.mode
  have htop : h.csrs .sscratch = if h.mode = .user then stack.frame + TrapFrame.size else 0 := by
    rw [if_pos hu.mode, stack.frame_add_size, hu.sscratch]
  refine ⟨hscratch, final, hruns', ?_⟩
  obtain ⟨hcause, rfl⟩ | ⟨hcause, result, hcall, rfl⟩ := trapHandler_user huser hframe
  · exact ⟨hres.status rfl, .inl ⟨hcause, hres.resumes rfl (Function.update_eq_self ..).symm htop⟩⟩
  · exact ⟨hres.status rfl, .inr ⟨hcause, result, hcall, hres.resumes rfl rfl htop⟩⟩

/-- A supervisor trap, from the interrupted hart to the resumed one. -/
theorem supervisor_trap {h : Hart} (hmode : h.mode = .supervisor) (hzero : h.csrs .sscratch = 0)
    (cause value : Word) :
    ∃ entry, Runs (trapCode s) (trapCode s) (h.trap cause value) (.call restoreCode entry) ∧
      AtHandler (h.get .sp - TrapFrame.size) (savedFrame h cause value) entry ∧
      ∀ p k k' states exit, HandlerReturns s p k entry states k' exit →
        (∀ m ∈ states, m.csrs .sscratch = 0) ∧ ∃ final,
          Runs (trapCode s) restoreCode exit (.sret final) ∧ StatusRestored h final ∧
          SupervisorTrapReturns s cause h final.sret := by
  obtain ⟨entry, hruns, hentry⟩ := runs_trap (s := s) h cause value
  rw [trapStack, if_pos hzero] at hentry
  refine ⟨entry, hruns, hentry, fun p k k' states exit hret => ?_⟩
  obtain ⟨hscratch, final, frame, hruns', hframe, hres⟩ := hret.runs hentry
  have hne : h.mode ≠ .user := by
    rw [hmode]
    decide
  have hsuper := (trapStatus_and_supervisorOrigin (h.csrs .sstatus) h.mode).not.mpr hne
  refine ⟨hscratch, final, hruns', ?_⟩
  obtain ⟨hcause, rfl⟩ | ⟨hcause, hpc, rfl⟩ := trapHandler_supervisor hsuper hframe
  · exact ⟨hres.status rfl, .inl ⟨hcause,
      hres.resumes rfl (Function.update_eq_self ..).symm (by rw [if_neg hne, hzero])⟩⟩
  · exact ⟨hres.status rfl, .inr ⟨hcause, hpc,
      hres.resumes rfl (Function.update_eq_self ..).symm (by rw [if_neg hne, hzero])⟩⟩

theorem UserTrapReturns.resumes {cause : Word} {h h' : Hart}
    (hreturns : UserTrapReturns p k cause h h') : ∃ a0 pc, Resumes h a0 pc h' := by
  obtain ⟨-, hres⟩ | ⟨-, result, -, hres⟩ := hreturns
  · exact ⟨_, _, hres⟩
  · exact ⟨_, _, hres⟩

/-- A returning trap leads back to user mode, on the same stack. -/
theorem InUser.returningTrap {stack : TrapStack} {h h' : Hart} (hu : InUser stack h)
    (htrap : ReturningTrap s k h k' h') : InUser stack h' := by
  obtain ⟨p, cause, value, entry, states, exit, final, hruns, hret, hruns', rfl⟩ := htrap
  obtain ⟨entry', hentry, -, hexit⟩ := hu.trap (s := s) cause value
  obtain ⟨-, rfl⟩ : _ ∧ entry = entry' := Stop.call.inj (hruns.unique hentry)
  obtain ⟨-, final', hfinal, -, hreturns⟩ := hexit p k k' states exit hret
  obtain rfl : final = final' := Stop.sret.inj (hruns'.unique hfinal)
  obtain ⟨a0, pc, hres⟩ := hreturns.resumes
  exact ⟨hres.mode.trans hu.mode, hres.sscratch.trans hu.sscratch⟩

theorem UserRun.inUser {stack : TrapStack} {h : Hart} (hrun : UserRun s stack k h) :
    InUser stack h := by
  induction hrun with
  | enter henter => exact henter.inUser
  | execute _ hex ih => exact ⟨hex.mode.trans ih.mode, hex.sscratch.trans ih.sscratch⟩
  | trap _ htrap ih => exact ih.returningTrap htrap

/-- **A trap that returns is invisible to the code it interrupts.** In every state that a run of user
code reaches, a trap saves its frame directly below the top of the supervisor stack and runs its
handler with `sscratch` zero; when the handler returns, so does the trap. The same holds of a trap
from supervisor code, which stays on the interrupted stack. -/
theorem trap_transparent (s : Symbols) :
    (∀ (stack : TrapStack) (k : TrapState) (h : Hart), UserRun s stack k h →
      h.mode = .user ∧ h.csrs .sscratch = stack.top ∧
      ∀ cause value, ∃ entry,
        Runs (trapCode s) (trapCode s) (h.trap cause value) (.call restoreCode entry) ∧
        AtHandler (stack.top - TrapFrame.size) (savedFrame h cause value) entry ∧
        ∀ p k' states exit, HandlerReturns s p k entry states k' exit →
          (∀ m ∈ states, m.csrs .sscratch = 0) ∧ ∃ final,
            Runs (trapCode s) restoreCode exit (.sret final) ∧ StatusRestored h final ∧
            UserTrapReturns p k cause h final.sret) ∧
    ∀ h : Hart, h.mode = .supervisor → h.csrs .sscratch = 0 →
      ∀ cause value, ∃ entry,
        Runs (trapCode s) (trapCode s) (h.trap cause value) (.call restoreCode entry) ∧
        AtHandler (h.get .sp - TrapFrame.size) (savedFrame h cause value) entry ∧
        ∀ p k k' states exit, HandlerReturns s p k entry states k' exit →
          (∀ m ∈ states, m.csrs .sscratch = 0) ∧ ∃ final,
            Runs (trapCode s) restoreCode exit (.sret final) ∧ StatusRestored h final ∧
            SupervisorTrapReturns s cause h final.sret := by
  refine ⟨fun stack k h hrun => ?_, fun h hmode hzero cause value =>
    supervisor_trap hmode hzero cause value⟩
  have hu := hrun.inUser
  refine ⟨hu.mode, hu.sscratch, fun cause value => ?_⟩
  obtain ⟨entry, hruns, hentry, hexit⟩ := hu.trap (s := s) cause value
  exact ⟨entry, hruns, hentry, fun p k' states exit hret => hexit p k k' states exit hret⟩

/-! ## A sample run -/

section Sample

def sampleSymbols : Symbols where
  globalPointer := 0xffffffff80200800
  handlerReturn := 0xffffffff80200100
  probeTimeRead := 0xffffffff80200204
  probeTimeUnavailable := 0xffffffff80200210

def sampleStack : TrapStack := ⟨0xffffffc000004000, by decide, by decide⟩

/-- The hart on which `enter_user` runs, with the address of the frame in `a0`. -/
def sampleHart : Hart where
  regs r := if r = .a0 then sampleStack.frame else 0
  csrs _ := 0
  mem _ := 0
  mode := .supervisor
  pc := 0

/-- The timer has been armed and the counter is available. -/
def sampleState : TrapState := ⟨1000, true, 0, 0⟩

def samplePlatform : Platform := ⟨5000, fun _ => 0, fun _ => 0⟩

/-- User code of the sample is entered and interrupted by the timer. -/
theorem trap_transparent_sample : ∃ h final : Hart, UserRun sampleSymbols sampleStack sampleState h ∧
    h.mode = .user ∧ h.csrs .sscratch = sampleStack.top ∧
      UserTrapReturns samplePlatform sampleState timerInterrupt h final.sret := by
  obtain ⟨first, henter, -⟩ := exists_enterUser sampleSymbols (UserContext.new 0x10000 0x40000000)
    sampleStack sampleHart (by decide : Reg.a0 ≠ .zero) rfl
  have hrun : UserRun sampleSymbols sampleStack sampleState first.sret := .enter henter
  obtain ⟨hmode, hscratch, htrap⟩ := (trap_transparent sampleSymbols).1 _ _ _ hrun
  obtain ⟨entry, -, hentry, hexit⟩ := htrap timerInterrupt 0
  have hbool : ((savedFrame first.sret timerInterrupt 0).status &&& supervisorOrigin != 0) = false := by
    rw [bne_eq_false_iff_eq]
    exact (trapStatus_and_supervisorOrigin _ _).mpr hmode
  have hcause : (savedFrame first.sret timerInterrupt 0).cause = timerInterrupt := rfl
  have hinterrupt : handleInterrupt samplePlatform sampleState = .ok ⟨1000, true, 1, 0⟩ := rfl
  have hreturns : HandlerReturns sampleSymbols samplePlatform sampleState entry [entry]
      ⟨1000, true, 1, 1⟩ entry := by
    refine ⟨?_, fun r _ => rfl, fun h hh => ?_, List.mem_singleton.mpr rfl⟩
    · rw [hentry.a0, hentry.frame, trapHandler]
      simp only [hbool, hcause, hinterrupt, Bool.false_eq_true, false_and, if_false, if_true]
      rfl
    · rw [List.mem_singleton.mp hh]
  obtain ⟨-, final, -, -, hfinal⟩ := hexit samplePlatform _ _ _ hreturns
  exact ⟨first.sret, final, hrun, hmode, hscratch, hfinal⟩

end Sample

end Barebone.Kernel
