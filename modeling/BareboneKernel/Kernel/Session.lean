import BareboneKernel.Fdt.Semantic
import BareboneKernel.Kernel.Image
import BareboneKernel.Kernel.Timer

/-!
# The kernel and its user program

After loading the user program the kernel arms the timer, waits for two interrupts and enters user
mode. The program greets, waits for three interrupts of its own, and confirms; everything it does
outside its registers is a system call.

* `Moment`, `Session`: what the outside does next, and the board it does it to;
* `runKernel`, `userMain`: the two programs;
* `Stable`: what interrupts do not change;
* `Report`: what an observer can have seen when the moments are used up, or the run has ended;
* **`sat_userMain`**, **`sat_waitTicks`**: the program reports, and the kernel waits, whatever the outside
  does.
-/

set_option autoImplicit false

namespace Barebone.Kernel

open Riscv
open Exec (fail abort get set modify mapError attempt iterate zoom Returns Fails Sat)
open Devicetree (ascii)

/-! ## Moments -/

/-- What the outside does next: an interrupt may come, or the code that runs takes its next step. -/
structure Moment where
  /-- The code that runs takes a step. -/
  proceeds : Bool
  platform : Platform
  /-- The context of user code at this point; `user_pc`: it lies below the bound of images. -/
  user : TrapFrame
  user_origin : user.supervisor = false
  user_pc : user.epc.toNat < imageLimit
  /-- The context of the kernel at this point. -/
  kernel : TrapFrame
  kernel_origin : kernel.supervisor = true

/-- The context of the code that runs. -/
def Moment.frame (e : Moment) (supervisor : Bool) : TrapFrame := if supervisor then e.kernel else e.user

/-- The board and the moments to come. -/
structure Session where
  board : Board
  moments : List Moment

/-- Why a run is not observed any further. -/
inductive RunEnd where
  /-- The moments are used up; the code that runs would go on. -/
  | goesOn
  | ended (ending : Ending)
  deriving DecidableEq

section Programs

variable {ε α : Type} (s : Symbols)

/-- Run a program on the board. -/
def onBoard (c : Exec Board ε α) : Exec Session ε α :=
  zoom Session.board (fun b x => { x with board := b }) c

/-- A trap is taken. -/
def trapped (p : Platform) (f : TrapFrame) : Exec Session RunEnd TrapFrame :=
  mapError .ended (onBoard (takeTrap s p f))

/-- The next event. -/
def nextMoment : Exec Session RunEnd Moment := do
  let x ← get
  match x.moments with
  | [] => fail .goesOn
  | e :: moments =>
    set { x with moments := moments }
    pure e

/-- The hart takes a timer interrupt if it lets it through. -/
def interruptible (supervisor : Bool) (e : Moment) : Exec Session RunEnd Unit := do
  let x ← get
  if x.board.delivers e.platform.time supervisor then
    let _ ← trapped s e.platform { e.frame supervisor with cause := timerInterrupt }
    pure ()
  else onBoard (readPlatform e.platform)

/-- Interrupts come until the code that runs takes its next step. -/
def proceed (supervisor : Bool) : Exec Session RunEnd Moment := do
  let x ← get
  iterate (fun _ => do
    let e ← nextMoment
    if e.proceeds then pure (.inr e)
    else
      interruptible s supervisor e
      pure (.inl ())) (x.moments.length + 1) ()

/-! ## The user program -/

/-- Executes a one-argument syscall and returns its scalar result. -/
def syscall (number argument : Word) : Exec Session RunEnd Word := do
  let e ← proceed s false
  let f ← trapped s e.platform { e.user with
    cause := userEcall
    registers := Function.update (Function.update e.user.registers .a7 number) .a0 argument }
  pure (f.registers .a0)

/-- Requests process termination and traps if the non-returning call returns. -/
def userExit (status : Word) : Exec Session RunEnd Empty := do
  let _ ← syscall s exitCall status
  let e ← proceed s false
  let _ ← trapped s e.platform { e.user with cause := illegalInstruction }
  abort (.panicked "unimp")

/-- Writes constant bytes through the scalar console syscall. -/
def write (bytes : List UInt8) : Exec Session RunEnd Unit := bytes.forM fun byte => do
  let result ← syscall s consoleWriteByte (BitVec.ofNat 64 byte.toNat)
  if result ≠ 0 then
    let _ ← userExit s 2
    pure ()

def greeting : List UInt8 := ascii "Hello from user mode\n"

def confirmation : List UInt8 := ascii "User timer resume confirmed\n"

/-- The word that fills the stack data. -/
def pattern : Word := 0x13579bdf2468ace0

/-- One pass over the stack data. -/
def rotate (values : List Word) : List Word := values.map fun v => (v.rotateLeft 1).rotateRight 1

/-- Prints a greeting, retains stack data across timer delivery, and exits. -/
def userMain : Exec Session RunEnd Empty := do
  write s greeting
  let start ← syscall s timerTicksCall 0
  let x ← get
  let values ← iterate (fun values => do
    let ticks ← syscall s timerTicksCall 0
    if ticks - start < 3 then pure (.inl (rotate^[10000] values)) else pure (.inr values))
    (x.moments.length + 1) (List.replicate 32 pattern)
  if values.any (· ≠ pattern) then userExit s 1
  else
    write s confirmation
    userExit s 0

/-! ## The kernel -/

/-- Waits until the timer has delivered two interrupts. -/
def waitTicks (initial : Word) : Exec Session RunEnd Unit := do
  let x ← get
  iterate (fun _ => do
    let _ ← proceed s true
    let x ← get
    if x.board.ticks - initial < 2 then pure (.inl ()) else pure (.inr ())) (x.moments.length + 1) ()

/-- Arms the timer, confirms timer delivery, and enters user execution. -/
def runKernel (timebase : NonZeroU32) : Exec Session RunEnd Empty := do
  let e ← proceed s true
  match ← attempt (onBoard (initTimer timebase (.fromMillis 10 (by decide)) e.platform)) with
  | .error _ => mapError .ended (onBoard halt)
  | .ok () =>
    let x ← get
    onBoard enableInterrupts
    waitTicks s x.board.ticks
    userMain s

end Programs

/-! ## Moments pass -/

variable {s : Symbols} {x : Session} {supervisor : Bool}

/-- A trap on the board of a session. -/
theorem sat_trapped (p : Platform) (f : TrapFrame) : Sat (trapped s p f) x fun r x' =>
    ∃ r' b', TrapEffect s p f x.board r' b' ∧ x' = { x with board := b' } ∧
      r = r'.mapError RunEnd.ended := by
  obtain ⟨r', b', hrun, heffect⟩ := takeTrap_effect s p f x.board
  have hsat : Sat (takeTrap s p f) x.board fun r b => r = r' ∧ b = b' := ⟨r', b', hrun, rfl, rfl⟩
  have hzoom : Sat (onBoard (takeTrap s p f)) x fun r x' => ∃ b, (r = r' ∧ b = b') ∧
      x' = { x with board := b } := hsat.zoom
  refine hzoom.mapError.mono fun r x' h => ?_
  obtain ⟨r₁, ⟨b₁, ⟨rfl, rfl⟩, rfl⟩, rfl⟩ := h
  exact ⟨_, _, heffect, rfl, rfl⟩

/-- How the counts of an observer grow while the kernel or user code runs. -/
structure Counts (supervisor : Bool) (b b' : Board) : Prop where
  served : b.served ≤ b'.served
  users : b.servedUser ≤ b'.servedUser
  kernel : supervisor = true → b'.servedUser = b.servedUser
  user : supervisor = false → b'.served + b.servedUser = b.served + b'.servedUser

theorem Counts.refl (supervisor : Bool) (b : Board) : Counts supervisor b b :=
  ⟨le_rfl, le_rfl, fun _ => rfl, fun _ => rfl⟩

theorem Counts.trans {b b' b'' : Board} (h : Counts supervisor b b') (h' : Counts supervisor b' b'') :
    Counts supervisor b b'' where
  served := h.served.trans h'.served
  users := h.users.trans h'.users
  kernel hs := (h'.kernel hs).trans (h.kernel hs)
  user hs := by
    have h₁ := h.user hs
    have h₂ := h'.user hs
    omega

theorem counts_serve (b : Board) (p : Platform) :
    Counts supervisor b ((b.read p).serve supervisor) := by
  constructor
  · exact Nat.le_succ _
  · cases supervisor with
    | true => exact le_rfl
    | false => exact Nat.le_succ _
  · rintro rfl
    rfl
  · rintro rfl
    show b.served + 1 + b.servedUser = b.served + (b.servedUser + 1)
    omega

/-- What holds of the board while moments pass. -/
structure Stable (supervisor : Bool) (P : Board → Prop) : Prop where
  read : ∀ {b : Board} {p : Platform}, P b → b.clock ≤ p.time → P (b.read p)
  serve : ∀ {b : Board} {p : Platform}, P b → b.clock ≤ p.time →
    b.delivers p.time supervisor = true → Serviceable p b.trapState →
    P ((b.read p).serve supervisor)
  park : ∀ {b : Board}, P b → P b.park

theorem supervisor_frame (e : Moment) : (e.frame supervisor).supervisor = supervisor := by
  cases supervisor with
  | true => exact e.kernel_origin
  | false => exact e.user_origin

theorem sat_interruptible {P : Board → Prop} (hP : Stable supervisor P) {e : Moment} (hx : P x.board)
    (hhalted : x.board.halted = false) (hclock : x.board.clock ≤ e.platform.time) :
    Sat (interruptible s supervisor e) x fun r x' =>
      x'.moments = x.moments ∧ Counts supervisor x.board x'.board ∧
        x'.board.console = x.board.console ∧ P x'.board ∧
        x'.board.clock = e.platform.time ∧ (r = .ok () → x'.board.halted = false) ∧
        ∀ err, r = .error err → err = .ended .halted := by
  refine Exec.sat_get ?_
  by_cases hdelivers : x.board.delivers e.platform.time supervisor = true
  · rw [if_pos hdelivers]
    have hmode : ({ e.frame supervisor with cause := timerInterrupt } : TrapFrame).supervisor =
        supervisor := supervisor_frame e
    refine (sat_trapped e.platform _).bind (fun f x' h => Exec.sat_pure ?_) fun err x' h => ?_
    · obtain ⟨r', b', heffect, rfl, hr⟩ := h
      rcases heffect.of_interrupt rfl with ⟨hserviceable, -, rfl⟩ | ⟨-, rfl, -⟩
      · rw [hmode]
        exact ⟨rfl, counts_serve _ _, rfl, hP.serve hx hclock hdelivers hserviceable, rfl,
          fun _ => hhalted, nofun⟩
      · cases hr
    · obtain ⟨r', b', heffect, rfl, hr⟩ := h
      rcases heffect.of_interrupt rfl with ⟨-, rfl, -⟩ | ⟨-, rfl, rfl⟩
      · cases hr
      · obtain rfl := Except.error.inj hr
        exact ⟨rfl, ⟨le_rfl, le_rfl, fun _ => rfl, fun _ => rfl⟩, rfl, hP.park (hP.read hx hclock),
          rfl, nofun, fun err h => (Except.error.inj h).symm⟩
  · rw [if_neg hdelivers]
    exact ⟨_, _, rfl, rfl, ⟨le_rfl, le_rfl, fun _ => rfl, fun _ => rfl⟩, rfl, hP.read hx hclock,
      rfl, fun _ => hhalted, nofun⟩

/-- The counter does not go back while these moments pass. -/
def Clocked (clock : Word) (moments : List Moment) : Prop :=
  (clock :: moments.map fun e => e.platform.time).Pairwise (· ≤ ·)

theorem Clocked.cons {clock : Word} {e : Moment} {moments : List Moment}
    (h : Clocked clock (e :: moments)) :
    clock ≤ e.platform.time ∧ Clocked e.platform.time moments := by
  obtain ⟨hle, hrest⟩ := List.pairwise_cons.mp h
  exact ⟨hle _ List.mem_cons_self, hrest⟩

/-- A session that goes on. -/
structure Session.Live (P : Board → Prop) (x : Session) : Prop where
  board : P x.board
  running : x.board.halted = false
  clocked : Clocked x.board.clock x.moments

/-- A session at a step of the code that runs. -/
structure Session.At (P : Board → Prop) (e : Moment) (x : Session) : Prop where
  board : P x.board
  running : x.board.halted = false
  clock : x.board.clock ≤ e.platform.time
  clocked : Clocked e.platform.time x.moments

/-- What an observer sees while moments pass. -/
structure Passed (supervisor : Bool) (x x' : Session) : Prop where
  counts : Counts supervisor x.board x'.board
  clock : x.board.clock ≤ x'.board.clock
  console : x'.board.console = x.board.console
  moments : x'.moments.length ≤ x.moments.length

theorem Passed.trans {x' x'' : Session} (h : Passed supervisor x x') (h' : Passed supervisor x' x'') :
    Passed supervisor x x'' :=
  ⟨h.counts.trans h'.counts, BitVec.le_trans h.clock h'.clock, h'.console.trans h.console,
    h'.moments.trans h.moments⟩

/-- While moments pass, a run ends only because they are used up or because the hart is parked. -/
def Interrupted (err : RunEnd) : Prop := err = .goesOn ∨ err = .ended .halted

theorem sat_nextMoment : Sat nextMoment x fun r x' =>
    (∀ e, r = .ok e → x.moments = e :: x'.moments ∧ x'.board = x.board) ∧
      ∀ err, r = .error err → err = .goesOn ∧ x' = x := by
  refine Exec.sat_get ?_
  cases hmoments : x.moments with
  | nil => exact Exec.sat_fail ⟨nofun, fun err h => ⟨(Except.error.inj h).symm, rfl⟩⟩
  | cons e moments =>
    refine ⟨_, _, rfl, fun e' h => ?_, nofun⟩
    obtain rfl := Except.ok.inj h
    exact ⟨rfl, rfl⟩

/-- **Until the code that runs takes its next step**, interrupts keep whatever is stable. -/
theorem sat_proceed {P : Board → Prop} (hP : Stable supervisor P) (hx : x.Live P) :
    Sat (proceed s supervisor) x fun r x' =>
      Passed supervisor x x' ∧ P x'.board ∧
        (∀ e, r = .ok e → x'.At P e ∧ x'.moments.length < x.moments.length) ∧
        ∀ err, r = .error err → Interrupted err := by
  refine Exec.sat_get ?_
  refine Exec.sat_iterate
    (fun _ x' => x'.Live P ∧ Passed supervisor x x') (fun x' => x'.moments.length) ?_
    ⟨hx, Counts.refl _ _, BitVec.le_refl _, rfl, le_rfl⟩ (Nat.lt_succ_self _)
  rintro - x₁ ⟨hlive, hpassed⟩
  refine sat_nextMoment.bind (fun e x₂ h => ?_) fun err x₂ h => ?_
  · obtain ⟨hmoments, hboard⟩ := h.1 e rfl
    obtain ⟨hle, hclocked⟩ := (hmoments ▸ hlive.clocked).cons
    have hlt : x₂.moments.length < x₁.moments.length := by
      rw [hmoments]
      exact Nat.lt_succ_self _
    have hpassed' : Passed supervisor x x₂ :=
      hpassed.trans ⟨hboard ▸ Counts.refl _ _, hboard ▸ BitVec.le_refl _, by rw [hboard], hlt.le⟩
    by_cases hproceeds : e.proceeds = true
    · rw [if_pos hproceeds]
      refine Exec.sat_pure ⟨nofun, fun e' h => ?_, nofun⟩
      obtain rfl : e = e' := Sum.inr.inj (Except.ok.inj h)
      refine ⟨hpassed', hboard ▸ hlive.board, fun e' h => ?_, nofun⟩
      obtain rfl := Except.ok.inj h
      exact ⟨⟨hboard ▸ hlive.board, hboard ▸ hlive.running, hboard ▸ hle, hclocked⟩,
        hlt.trans_le hpassed.moments⟩
    · rw [if_neg hproceeds]
      refine (sat_interruptible hP (hboard ▸ hlive.board) (hboard ▸ hlive.running)
        (hboard ▸ hle)).bind (fun _ x₃ h => ?_) fun err x₃ h => ?_
      · obtain ⟨hrest, hcounts, hconsole, hboard', hclock, hok, -⟩ := h
        refine Exec.sat_pure ⟨fun _ _ => ⟨⟨⟨hboard', hok rfl, ?_⟩, ?_⟩, ?_⟩, nofun, nofun⟩
        · rw [hclock, hrest]
          exact hclocked
        · exact hpassed'.trans ⟨hcounts, hclock.symm ▸ hboard ▸ hle, hconsole, hrest.symm ▸ le_rfl⟩
        · rw [hrest]
          exact hlt
      · obtain ⟨hrest, hcounts, hconsole, hboard', hclock, -, herr⟩ := h
        refine ⟨nofun, nofun, fun err' h => ?_⟩
        obtain rfl := Except.error.inj h
        refine ⟨hpassed'.trans ⟨hcounts, hclock.symm ▸ hboard ▸ hle, hconsole, hrest.symm ▸ le_rfl⟩,
          hboard', nofun, fun err h => ?_⟩
        obtain rfl := Except.error.inj h
        exact .inr (herr _ rfl)
  · refine ⟨nofun, nofun, fun err' h' => ?_⟩
    obtain ⟨rfl, rfl⟩ := h.2 err rfl
    obtain rfl := Except.error.inj h'
    refine ⟨hpassed, hlive.board, nofun, fun err h => ?_⟩
    obtain rfl := Except.error.inj h
    exact .inl rfl

/-! ## User code -/

/-- The board while user code runs: the timer keeps pace, and two interrupts came before. -/
structure InProgram (start : ℕ) (interval : Word) (b : Board) : Prop where
  paced : Paced start interval b
  confirmed : 2 + b.servedUser ≤ b.served

section User

variable {start : ℕ} {interval : Word}

theorem Board.delivers_pending {b : Board} {now : Word} (h : b.delivers now supervisor = true) :
    b.pending now = true := by
  simp only [Board.delivers, Bool.and_eq_true] at h
  exact h.1.2

theorem stable_paced : Stable supervisor (Paced start interval) where
  read h hclock := h.quiet (sameTimer_read hclock)
  serve h hclock hdelivers hserviceable :=
    h.serve supervisor hclock (Board.delivers_pending hdelivers) hserviceable
  park h := h.park

theorem stable_inProgram : Stable false (InProgram start interval) where
  read h hclock := ⟨h.paced.quiet (sameTimer_read hclock), h.confirmed⟩
  serve h hclock hdelivers hserviceable :=
    ⟨stable_paced.serve h.paced hclock hdelivers hserviceable, Nat.succ_le_succ h.confirmed⟩
  park h := ⟨h.paced.park, h.confirmed⟩

theorem InProgram.console {b : Board} (h : InProgram start interval b) (bytes : List UInt8) :
    InProgram start interval { b with console := bytes } :=
  ⟨h.paced.console bytes, h.confirmed⟩

theorem InProgram.enabled {b : Board} (h : InProgram start interval b) (e : Bool) :
    InProgram start interval { b with enabled := e } :=
  ⟨h.paced.enabled e, h.confirmed⟩

theorem Moment.user_next (e : Moment) : e.user.epc.toNat + 4 < 2 ^ 64 := by
  have hpc := e.user_pc
  have hlimit : imageLimit < 2 ^ 63 := by decide
  omega

/-- The frame of a system call. -/
def callFrame (e : Moment) (number argument : Word) : TrapFrame :=
  { e.user with
    cause := userEcall
    registers := Function.update (Function.update e.user.registers .a7 number) .a0 argument }

theorem callFrame_registers (e : Moment) (number argument : Word) :
    (callFrame e number argument).registers .a7 = number ∧
      (callFrame e number argument).registers .a0 = argument := by
  unfold callFrame
  dsimp only
  rw [Function.update_of_ne (by decide), Function.update_self, Function.update_self]
  exact ⟨rfl, rfl⟩

/-- **A system call that returns** answers as `handleSyscall` does. -/
theorem sat_syscall (hx : x.Live (InProgram start interval)) {number : Word} (argument : Word)
    (hnumber : number ≠ exitCall) :
    Sat (syscall s number argument) x fun r x' =>
      InProgram start interval x'.board ∧ Counts false x.board x'.board ∧
        x'.moments.length ≤ x.moments.length ∧
        (∀ result, r = .ok result → x'.Live (InProgram start interval) ∧
          x'.moments.length < x.moments.length ∧ ∃ p,
            handleSyscall p x'.board.trapState number argument = some result ∧
            x'.board.console = x.board.console ++ writtenBytes p number argument) ∧
        ∀ err, r = .error err → Interrupted err ∧ x'.board.console = x.board.console := by
  refine (sat_proceed stable_inProgram hx).bind (fun e x₁ h => ?_) fun err x₁ h => ?_
  · obtain ⟨hpassed, -, hat, -⟩ := h
    obtain ⟨hat, hlt⟩ := hat e rfl
    refine (sat_trapped e.platform (callFrame e number argument)).bind
      (fun f x₂ h => Exec.sat_pure ?_) fun err x₂ h => ?_
    · obtain ⟨r', b', heffect, rfl, hr⟩ := h
      obtain ⟨ha7, ha0⟩ := callFrame_registers e number argument
      rcases heffect.of_ecall e.user_origin rfl e.user_next with ⟨result, hcall, rfl, rfl⟩ | ⟨hexit, -⟩
      · obtain rfl := Except.ok.inj hr
        rw [ha7, ha0] at hcall
        have hboard : InProgram start interval (x₁.board.read e.platform) :=
          stable_inProgram.read hat.board hat.clock
        refine ⟨hboard.console _, ⟨hpassed.counts.served, hpassed.counts.users,
          hpassed.counts.kernel, hpassed.counts.user⟩, hpassed.moments, fun result' h => ?_, nofun⟩
        obtain rfl : _ = result' := Except.ok.inj h
        refine ⟨⟨hboard.console _, hat.running, hat.clocked⟩, hlt, e.platform, ?_, ?_⟩
        · show handleSyscall e.platform x₁.board.trapState number argument =
            some (Function.update (callFrame e number argument).registers .a0 result .a0)
          rw [Function.update_self]
          exact hcall
        · rw [ha7, ha0]
          show x₁.board.console ++ _ = _
          rw [hpassed.console]
      · exact absurd (ha7.symm.trans hexit) hnumber
    · obtain ⟨r', b', heffect, rfl, hr⟩ := h
      obtain ⟨ha7, -⟩ := callFrame_registers e number argument
      rcases heffect.of_ecall e.user_origin rfl e.user_next with ⟨result, -, rfl, -⟩ | ⟨hexit, -⟩
      · cases hr
      · exact absurd (ha7.symm.trans hexit) hnumber
  · obtain ⟨hpassed, hboard, -, herr⟩ := h
    refine ⟨hboard, hpassed.counts, hpassed.moments, nofun, fun err' h => ?_⟩
    obtain rfl := Except.error.inj h
    exact ⟨herr _ rfl, hpassed.console⟩

/-- **`exit` ends the process**, and the instruction behind it is not reached. -/
theorem sat_userExit (hx : x.Live (InProgram start interval)) (status : Word) :
    Sat (userExit s status) x fun r x' =>
      InProgram start interval x'.board ∧ Counts false x.board x'.board ∧
        x'.board.console = x.board.console ∧
        ∃ err, r = .error err ∧ (Interrupted err ∨ err = .ended (.exited status)) := by
  have hcall : Sat (syscall s exitCall status) x fun r x' =>
      InProgram start interval x'.board ∧ Counts false x.board x'.board ∧
        x'.board.console = x.board.console ∧
        ∃ err, r = .error err ∧ (Interrupted err ∨ err = .ended (.exited status)) := by
    refine (sat_proceed stable_inProgram hx).bind (fun e x₁ h => ?_) fun err x₁ h => ?_
    · obtain ⟨hpassed, -, hat, -⟩ := h
      obtain ⟨hat, -⟩ := hat e rfl
      obtain ⟨ha7, ha0⟩ := callFrame_registers e exitCall status
      refine (sat_trapped e.platform (callFrame e exitCall status)).bind
        (fun f x₂ h => Exec.sat_pure ?_) fun err x₂ h => ?_
      · obtain ⟨r', b', heffect, rfl, hr⟩ := h
        rcases heffect.of_ecall e.user_origin rfl e.user_next with ⟨result, hcall, -⟩ | ⟨-, rfl, -⟩
        · rw [ha7] at hcall
          cases hcall
        · cases hr
      · obtain ⟨r', b', heffect, rfl, hr⟩ := h
        rcases heffect.of_ecall e.user_origin rfl e.user_next with ⟨result, -, rfl, -⟩ | ⟨-, rfl, rfl⟩
        · cases hr
        · obtain rfl := Except.error.inj hr
          refine ⟨(stable_inProgram.read hat.board hat.clock).enabled _, ⟨hpassed.counts.served,
            hpassed.counts.users, hpassed.counts.kernel, hpassed.counts.user⟩, hpassed.console, _, rfl,
            .inr ?_⟩
          rw [ha0]
    · obtain ⟨hpassed, hboard, -, herr⟩ := h
      exact ⟨hboard, hpassed.counts, hpassed.console, err, rfl, .inl (herr err rfl)⟩
  refine hcall.bind (fun _ x' h => ?_) fun err x' h => ?_
  · obtain ⟨-, -, -, err, h, -⟩ := h
    cases h
  · obtain ⟨hboard, hcounts, hconsole, err', h, herr⟩ := h
    obtain rfl := Except.error.inj h
    exact ⟨hboard, hcounts, hconsole, err, rfl, herr⟩

/-- The byte is written and the call answers zero, or it is not and the call answers an error. -/
theorem handleSyscall_byte {p : Platform} {k : TrapState} {byte : UInt8} {result : Word}
    (h : handleSyscall p k consoleWriteByte (BitVec.ofNat 64 byte.toNat) = some result) :
    result = 0 ∧ writtenBytes p consoleWriteByte (BitVec.ofNat 64 byte.toNat) = [byte] ∨
      result ≠ 0 ∧ writtenBytes p consoleWriteByte (BitVec.ofNat 64 byte.toNat) = [] := by
  have hlt : byte.toNat < 256 := byte.toNat_lt
  have hargument : (BitVec.ofNat 64 byte.toNat).toNat = byte.toNat := by
    rw [BitVec.toNat_ofNat]
    omega
  unfold handleSyscall at h
  unfold writtenBytes
  rw [hargument, UInt8.ofNat_toNat] at h ⊢
  rw [if_pos rfl, if_pos hlt] at h
  by_cases haccepted : p.writeByte byte = 0
  · rw [sbiWriteByte_eq_ok.mpr haccepted] at h
    rw [if_pos ⟨rfl, hlt, haccepted⟩]
    exact .inl ⟨(Option.some.inj h).symm, rfl⟩
  · rw [if_neg fun h => haccepted h.2.2]
    refine .inr ⟨?_, rfl⟩
    cases hsent : p.sbiWriteByte byte with
    | ok u => exact absurd (sbiWriteByte_eq_ok.mp hsent) haccepted
    | error e =>
      rw [hsent] at h
      obtain rfl := Option.some.inj h
      decide

/-- **Writing** a string writes all of it, or a part of it before the run ends. -/
theorem sat_write (bytes : List UInt8) : ∀ {x : Session}, x.Live (InProgram start interval) →
    Sat (write s bytes) x fun r x' =>
      InProgram start interval x'.board ∧ Counts false x.board x'.board ∧
        (r = .ok () → x'.Live (InProgram start interval) ∧
          x'.board.console = x.board.console ++ bytes) ∧
        ∀ err, r = .error err → ∃ sent, x'.board.console = x.board.console ++ sent ∧ sent <+: bytes ∧
          (Interrupted err ∨ err = .ended (.exited 2) ∧ sent ≠ bytes) := by
  induction bytes with
  | nil =>
    intro x hx
    exact Exec.sat_pure ⟨hx.board, Counts.refl _ _, fun _ => ⟨hx, (List.append_nil _).symm⟩, nofun⟩
  | cons byte bytes ih =>
    intro x hx
    have hcons : write s (byte :: bytes) = (do
        let result ← syscall s consoleWriteByte (BitVec.ofNat 64 byte.toNat)
        if result ≠ 0 then
          let _ ← userExit s 2
          pure ()) >>= fun _ => write s bytes := rfl
    rw [hcons, Exec.bind_assoc]
    refine (sat_syscall hx _ (by decide)).bind (fun result x₁ h => ?_) fun err x₁ h => ?_
    · obtain ⟨hboard, hcounts, -, hok, -⟩ := h
      obtain ⟨hlive, -, p, hcall, hconsole⟩ := hok result rfl
      rcases handleSyscall_byte hcall with ⟨rfl, hwritten⟩ | ⟨hne, hwritten⟩
      · rw [if_neg (by simp)]
        refine (ih hlive).mono fun r x₂ h => ?_
        obtain ⟨hboard', hcounts', hok', herr⟩ := h
        rw [hconsole, hwritten] at hok' herr
        refine ⟨hboard', hcounts.trans hcounts', fun hr => ?_, fun err hr => ?_⟩
        · obtain ⟨hlive', hconsole'⟩ := hok' hr
          exact ⟨hlive', hconsole'.trans (List.append_assoc ..)⟩
        · obtain ⟨sent, hsent, hbegins, hend⟩ := herr err hr
          refine ⟨byte :: sent, hsent.trans (List.append_assoc ..), ?_, hend.imp_right fun h => ⟨h.1, ?_⟩⟩
          · exact List.cons_prefix_cons.mpr ⟨rfl, hbegins⟩
          · intro heq
            exact h.2 (List.cons.inj heq).2
      · rw [if_pos hne, Exec.bind_assoc]
        -- `exit` does not come back
        refine (sat_userExit hlive 2).bind (fun v => v.elim) fun err x₂ h => ?_
        obtain ⟨hboard', hcounts', hconsole', err', h, hend⟩ := h
        obtain rfl := Except.error.inj h
        rw [hwritten, List.append_nil] at hconsole
        refine ⟨hboard', hcounts.trans hcounts', nofun, fun err' hr => ?_⟩
        obtain rfl := Except.error.inj hr
        refine ⟨[], ?_, List.nil_prefix, hend.imp_right fun h => ⟨h, by simp⟩⟩
        rw [hconsole', hconsole, List.append_nil]
    · obtain ⟨hboard, hcounts, -, -, herr⟩ := h
      obtain ⟨hinterrupted, hconsole⟩ := herr err rfl
      refine ⟨hboard, hcounts, nofun, fun err' hr => ?_⟩
      obtain rfl := Except.error.inj hr
      exact ⟨[], by rw [hconsole, List.append_nil], List.nil_prefix, .inl hinterrupted⟩

theorem rotateRight_rotateLeft (v : Word) : (v.rotateLeft 1).rotateRight 1 = v := by
  apply BitVec.eq_of_getLsbD_eq
  intro i hi
  rw [BitVec.getLsbD_rotateRight, BitVec.getLsbD_rotateLeft, BitVec.getLsbD_rotateLeft]
  by_cases hlt : i < 63
  · have hsucc : 1 + i < 64 := by omega
    simp [hlt, hsucc]
  · obtain rfl : i = 63 := by omega
    simp

/-- A pass over the stack data leaves it as it was. -/
theorem rotate_eq (values : List Word) : rotate values = values := by
  unfold rotate
  simp only [rotateRight_rotateLeft, List.map_id']

/-- The ticks that user code reads are the interrupts that it was interrupted by. -/
theorem three_le_of_ticks {b : Board} {ticks first : Word} {n : ℕ} (h : Paced start interval b)
    (hticks : ticks = b.userTicks) (hfirst : first.toNat = n) (hle : n ≤ b.servedUser)
    (hdone : ¬ticks - first < 3) : 3 ≤ b.servedUser := by
  have htoNat : ticks.toNat = b.servedUser := by
    rw [hticks, h.userTicks]
  have hsub : (ticks - first).toNat = b.servedUser - n := by
    rw [BitVec.toNat_sub_of_le, htoNat, hfirst]
    rw [BitVec.le_def, htoNat, hfirst]
    exact hle
  rw [BitVec.lt_def, hsub] at hdone
  have hthree : (3 : Word).toNat = 3 := rfl
  omega

theorem handleSyscall_ticks {p : Platform} {k : TrapState} {result : Word}
    (h : handleSyscall p k timerTicksCall 0 = some result) : result = k.userTicks :=
  (Option.some.inj h).symm

theorem writtenBytes_ticks (p : Platform) : writtenBytes p timerTicksCall 0 = [] :=
  if_neg fun h => absurd h.1 (by decide)

/-- **Waiting for three interrupts** of user code keeps the stack data. -/
theorem sat_spin {first : Word} {n : ℕ} (hx : x.Live (InProgram start interval))
    (hfirst : first.toNat = n) (hle : n ≤ x.board.servedUser) :
    Sat (iterate (fun values => do
      let ticks ← syscall s timerTicksCall 0
      if ticks - first < 3 then pure (.inl (rotate^[10000] values)) else pure (.inr values))
      (x.moments.length + 1) (List.replicate 32 pattern)) x fun r x' =>
      InProgram start interval x'.board ∧ Counts false x.board x'.board ∧
        x'.board.console = x.board.console ∧
        (∀ values, r = .ok values → x'.Live (InProgram start interval) ∧
          values = List.replicate 32 pattern ∧ 3 ≤ x'.board.servedUser) ∧
        ∀ err, r = .error err → Interrupted err := by
  refine Exec.sat_iterate (fun values x' => x'.Live (InProgram start interval) ∧
      Counts false x.board x'.board ∧ x'.board.console = x.board.console ∧
      values = List.replicate 32 pattern) (fun x' => x'.moments.length) ?_
    ⟨hx, Counts.refl _ _, rfl, rfl⟩ (Nat.lt_succ_self _)
  rintro values x₁ ⟨hlive, hcounts, hconsole, rfl⟩
  refine (sat_syscall hlive 0 (by decide)).bind (fun ticks x₂ h => ?_) fun err x₂ h => ?_
  · obtain ⟨-, hcounts', -, hok, -⟩ := h
    obtain ⟨hlive', hlt, p, hcall, hconsole'⟩ := hok ticks rfl
    have hticks := handleSyscall_ticks hcall
    rw [writtenBytes_ticks, List.append_nil] at hconsole'
    by_cases hspin : ticks - first < 3
    · rw [if_pos hspin]
      refine Exec.sat_pure ⟨fun values h => ?_, nofun, nofun⟩
      obtain rfl : _ = values := Sum.inl.inj (Except.ok.inj h)
      exact ⟨⟨hlive', hcounts.trans hcounts', hconsole'.trans hconsole,
        Function.iterate_fixed (rotate_eq _) 10000⟩, hlt⟩
    · rw [if_neg hspin]
      refine Exec.sat_pure ⟨nofun, fun values h => ?_, nofun⟩
      obtain rfl : _ = values := Sum.inr.inj (Except.ok.inj h)
      have hcounts'' := hcounts.trans hcounts'
      refine ⟨hlive'.board, hcounts'', hconsole'.trans hconsole, fun values h => ?_, nofun⟩
      obtain rfl := Except.ok.inj h
      exact ⟨hlive', rfl, three_le_of_ticks hlive'.board.paced hticks hfirst
        (hle.trans hcounts''.users) hspin⟩
  · obtain ⟨hboard, hcounts', -, -, herr⟩ := h
    obtain ⟨hinterrupted, hconsole'⟩ := herr err rfl
    refine ⟨nofun, nofun, fun err' h => ?_⟩
    obtain rfl := Except.error.inj h
    refine ⟨hboard, hcounts.trans hcounts', hconsole'.trans hconsole, nofun, fun err h => ?_⟩
    obtain rfl := Except.error.inj h
    exact hinterrupted

/-- What the console and the end of a run tell about each other. -/
structure Report (err : RunEnd) (b : Board) : Prop where
  output : b.console <+: greeting ++ confirmation
  waited : greeting.length < b.console.length → 3 ≤ b.servedUser
  ending : Interrupted err ∨
    err = .ended (.exited 0) ∧ b.console = greeting ++ confirmation ∧ 3 ≤ b.servedUser ∨
    err = .ended (.exited 2) ∧ b.console ≠ greeting ++ confirmation

theorem length_confirmation_pos : 0 < confirmation.length := by
  decide +kernel

/-- A report before the confirmation is under way. -/
theorem report_of_prefix {err : RunEnd} {b : Board} (hbegins : b.console <+: greeting)
    (hend : Interrupted err ∨ err = .ended (.exited 2)) : Report err b where
  output := hbegins.trans (List.prefix_append _ _)
  waited hlt := absurd hbegins.length_le (Nat.not_le.mpr hlt)
  ending := hend.imp_right fun h => .inr ⟨h, fun heq => by
    have hle := hbegins.length_le
    rw [heq, List.length_append] at hle
    have hpos := length_confirmation_pos
    omega⟩

/-- **The user program.** -/
theorem sat_userMain (hx : x.Live (InProgram start interval)) (hconsole : x.board.console = []) :
    Sat (userMain s) x fun r x' => InProgram start interval x'.board ∧
      ∃ err, r = .error err ∧ Report err x'.board := by
  refine (sat_write greeting hx).bind (fun _ x₁ h => ?_) fun err x₁ h => ?_
  swap
  · obtain ⟨hboard, -, -, herr⟩ := h
    obtain ⟨sent, hsent, hbegins, hend⟩ := herr err rfl
    rw [hconsole, List.nil_append] at hsent
    exact ⟨hboard, err, rfl, report_of_prefix (hsent ▸ hbegins) (hend.imp_right And.left)⟩
  obtain ⟨-, -, hok, -⟩ := h
  obtain ⟨hlive, hgreeted⟩ := hok rfl
  rw [hconsole, List.nil_append] at hgreeted
  refine (sat_syscall hlive 0 (by decide)).bind (fun first x₂ h => ?_) fun err x₂ h => ?_
  swap
  · obtain ⟨hboard, -, -, -, herr⟩ := h
    obtain ⟨hinterrupted, hsame⟩ := herr err rfl
    exact ⟨hboard, err, rfl, report_of_prefix ((hsame.trans hgreeted).symm ▸ List.prefix_rfl)
      (.inl hinterrupted)⟩
  obtain ⟨-, -, -, hok, -⟩ := h
  obtain ⟨hlive, -, p, hcall, hsame⟩ := hok first rfl
  rw [writtenBytes_ticks, List.append_nil, hgreeted] at hsame
  have hfirst : first.toNat = x₂.board.servedUser := by
    rw [handleSyscall_ticks hcall]
    exact hlive.board.paced.userTicks
  refine Exec.sat_get ((sat_spin hlive hfirst le_rfl).bind (fun values x₃ h => ?_) fun err x₃ h => ?_)
  swap
  · obtain ⟨hboard, -, hsame', -, herr⟩ := h
    exact ⟨hboard, err, rfl, report_of_prefix ((hsame'.trans hsame).symm ▸ List.prefix_rfl)
      (.inl (herr err rfl))⟩
  obtain ⟨-, -, hsame', hok, -⟩ := h
  obtain ⟨hlive, rfl, hthree⟩ := hok values rfl
  rw [hsame] at hsame'
  have hkept : (List.replicate 32 pattern).any (· ≠ pattern) = false := by
    simp
  rw [if_neg (by rw [hkept]; simp)]
  refine (sat_write confirmation hlive).bind (fun _ x₄ h => ?_) fun err x₄ h => ?_
  swap
  · obtain ⟨hboard, hcounts, -, herr⟩ := h
    obtain ⟨sent, hsent, hbegins, hend⟩ := herr err rfl
    rw [hsame'] at hsent
    refine ⟨hboard, err, rfl, ?_, fun _ => hthree.trans hcounts.users, ?_⟩
    · rw [hsent]
      exact (List.prefix_append_right_inj _).mpr hbegins
    · refine hend.imp_right fun h => .inr ⟨h.1, ?_⟩
      rw [hsent]
      exact fun heq => h.2 (List.append_cancel_left heq)
  obtain ⟨-, hcounts, hok, -⟩ := h
  obtain ⟨hlive, hwritten⟩ := hok rfl
  rw [hsame'] at hwritten
  have hthree' := hthree.trans hcounts.users
  refine (sat_userExit hlive 0).mono fun r x₅ h => ?_
  obtain ⟨hboard, hcounts', hsame'', err, rfl, hend⟩ := h
  rw [hwritten] at hsame''
  refine ⟨hboard, err, rfl, ?_, fun _ => hthree'.trans hcounts'.users, ?_⟩
  · exact hsame''.symm ▸ List.prefix_rfl
  · exact hend.imp_right fun h => .inl ⟨h, hsame'', hthree'.trans hcounts'.users⟩

/-! ## The kernel waits -/

/-- The board while the kernel waits for its interrupts. -/
structure InKernel (start : ℕ) (interval : Word) (b : Board) : Prop where
  paced : Paced start interval b
  users : b.servedUser = 0

theorem stable_inKernel : Stable true (InKernel start interval) where
  read h hclock := ⟨h.paced.quiet (sameTimer_read hclock), h.users⟩
  serve h hclock hdelivers hserviceable :=
    ⟨stable_paced.serve h.paced hclock hdelivers hserviceable, h.users⟩
  park h := ⟨h.paced.park, h.users⟩

theorem stable_unarmed : Stable true Unarmed where
  read h _ := ⟨h.interval, h.ticks, h.userTicks, h.served, h.servedUser⟩
  serve h _ _ hserviceable := absurd h.interval hserviceable.interval
  park h := ⟨h.interval, h.ticks, h.userTicks, h.served, h.servedUser⟩

theorem Session.At.live {P : Board → Prop} {e : Moment} (h : x.At P e) : x.Live P := by
  obtain ⟨hle, hrest⟩ := List.pairwise_cons.mp h.clocked
  refine ⟨h.board, h.running, List.pairwise_cons.mpr ⟨fun t ht => ?_, hrest⟩⟩
  exact BitVec.le_trans h.clock (hle t ht)

/-- **Waiting for two interrupts** of the kernel. -/
theorem sat_waitTicks (hx : x.Live (InKernel start interval)) {initial : Word} (hinitial : initial = 0) :
    Sat (waitTicks s initial) x fun r x' =>
      InKernel start interval x'.board ∧ x'.board.console = x.board.console ∧
        (r = .ok () → x'.Live (InProgram start interval)) ∧
        ∀ err, r = .error err → Interrupted err := by
  subst hinitial
  refine Exec.sat_get ?_
  refine Exec.sat_iterate (fun _ x' => x'.Live (InKernel start interval) ∧
      x'.board.console = x.board.console) (fun x' => x'.moments.length) ?_ ⟨hx, rfl⟩
    (Nat.lt_succ_self _)
  rintro - x₁ ⟨hlive, hconsole⟩
  refine (sat_proceed stable_inKernel hlive).bind (fun e x₂ h => Exec.sat_get ?_) fun err x₂ h => ?_
  · obtain ⟨hpassed, hboard, hat, -⟩ := h
    obtain ⟨hat, hlt⟩ := hat e rfl
    by_cases hspin : x₂.board.ticks - 0 < 2
    · rw [if_pos hspin]
      exact Exec.sat_pure ⟨fun _ _ => ⟨⟨hat.live, hpassed.console.trans hconsole⟩, hlt⟩, nofun, nofun⟩
    · rw [if_neg hspin]
      refine Exec.sat_pure ⟨nofun, fun _ _ => ⟨hboard, hpassed.console.trans hconsole, fun _ => ?_,
        nofun⟩, nofun⟩
      have hserved : 2 + x₂.board.servedUser ≤ x₂.board.served := by
        have hsub : x₂.board.ticks - 0 = x₂.board.ticks := BitVec.sub_zero _
        rw [hsub, BitVec.lt_def, hboard.paced.ticks] at hspin
        have htwo : (2 : Word).toNat = 2 := rfl
        have husers := hboard.users
        omega
      exact ⟨⟨hboard.paced, hserved⟩, hat.running, hat.live.clocked⟩
  · obtain ⟨hpassed, hboard, -, herr⟩ := h
    refine ⟨nofun, nofun, fun err' h => ?_⟩
    obtain rfl := Except.error.inj h
    refine ⟨hboard, hpassed.console.trans hconsole, nofun, fun err h => ?_⟩
    obtain rfl := Except.error.inj h
    exact herr _ rfl

/-- A report of a run in which no user code ran. -/
theorem report_of_nil {err : RunEnd} {b : Board} (hconsole : b.console = []) (herr : Interrupted err) :
    Report err b :=
  report_of_prefix (hconsole ▸ List.nil_prefix) (.inl herr)

end User

/-- Arming the timer for ten milliseconds from a session, and what else can come of it. -/
theorem returns_arm (x : Session) (timebase : NonZeroU32) (p : Platform) :
    (∃ e, Returns (attempt (onBoard (initTimer timebase (.fromMillis 10 (by decide)) p)) :
        Exec Session RunEnd _) x (.error e) { x with board := x.board.read p }) ∧
      (∀ interval, ¬Armable timebase (.fromMillis 10 (by decide)) p interval x.board) ∨
    ∃ interval, Armable timebase (.fromMillis 10 (by decide)) p interval x.board ∧
      Returns (attempt (onBoard (initTimer timebase (.fromMillis 10 (by decide)) p)) :
        Exec Session RunEnd _) x (.ok ()) { x with board := x.board.arm p interval } := by
  rcases initTimer_effect timebase (.fromMillis 10 (by decide)) p x.board with
    ⟨⟨e, hfails⟩, hnot⟩ | ⟨interval, harmable, hreturns⟩
  · have hfails' : Fails (onBoard (initTimer timebase (.fromMillis 10 (by decide)) p)) x e
        { x with board := x.board.read p } := hfails.zoom
    exact .inl ⟨⟨e, hfails'.attempt⟩, hnot⟩
  · exact .inr ⟨interval, harmable, Returns.attempt (Exec.returns_zoom.mpr ⟨_, hreturns, rfl⟩)⟩

/-- The pace of a timer that was armed for ten milliseconds. -/
theorem Paced.pace {start : ℕ} {interval : Word} {timebase : NonZeroU32} {b : Board}
    (h : Paced start interval b)
    (hticks : intervalTicks timebase (.fromMillis 10 (by decide)) = .ok interval) {clock : ℕ}
    (hclock : clock ≤ start) : b.served * timebase.get ≤ 100 * (b.clock.toNat - clock) := by
  have hleast : timebase.get * 10000000 ≤ interval.toNat * 1000000000 :=
    (intervalTicks_eq_ok hticks).2.1
  have helapsed : start + b.served * interval.toNat ≤ b.clock.toNat := h.onPace.elapsed
  calc b.served * timebase.get ≤ b.served * (100 * interval.toNat) :=
        Nat.mul_le_mul_left _ (by omega)
    _ = 100 * (b.served * interval.toNat) := Nat.mul_left_comm ..
    _ ≤ 100 * (b.clock.toNat - clock) := Nat.mul_le_mul_left _ (by omega)

end Barebone.Kernel
