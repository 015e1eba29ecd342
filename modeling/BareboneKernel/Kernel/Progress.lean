import BareboneKernel.Kernel.Session

/-!
# What comes of a session

The outside may stop at any time, refuse every call or hold back the clock; what the program has
written tells how far it came. When the outside does none of this, both loops of the session end: the
hart takes a pending interrupt before the next step, firmware accepts what it is asked, and some number
of steps takes an interval.

* `promptly`: the moments of a hart that takes pending interrupts before every step;
* `Fair`: firmware accepts, and every `k` steps take an interval;
* `OnTime`: the last interrupt was serviced at step `i`, at most `k` steps ago;
* **`session_report`**: whatever the outside does, the program has written a prefix of the two messages,
  no message comes before its interrupts, and the exit status tells whether all was written;
* **`session_exits`**: with a fair outside the program exits with status zero, and how many steps that
  takes.
-/

set_option autoImplicit false

namespace Barebone.Kernel

open Riscv
open Exec (attempt iterate Returns Fails Sat)

/-! ## A fair outside -/

/-- The moments of a hart that takes pending interrupts before every step. -/
def promptly (steps : List Moment) : List Moment :=
  steps.flatMap fun e => [{ e with proceeds := false }, { e with proceeds := true }]

/-- Firmware accepts every call, the counter is not at its end, and `k` steps take an interval. -/
structure Fair (steps : List Moment) (interval : Word) (k : ℕ) : Prop where
  setTimer : ∀ e ∈ steps, ∀ deadline, e.platform.setTimer deadline = 0
  writeByte : ∀ e ∈ steps, ∀ byte, e.platform.writeByte byte = 0
  fits : ∀ e ∈ steps, e.platform.time.toNat + interval.toNat < 2 ^ 64
  late : ∀ i e e', steps[i]? = some e → steps[i + k]? = some e' →
    e.platform.time.toNat + interval.toNat ≤ e'.platform.time.toNat

/-- After `n` steps the last interrupt was serviced, or the timer armed, at step `i`. -/
structure OnTime (steps : List Moment) (interval : Word) (k i n : ℕ) (x : Session) : Prop where
  moments : x.moments = promptly (steps.drop n)
  configured : x.board.interval = interval
  counter : x.board.counter = .available
  source : x.board.source = true
  enabled : x.board.enabled = true
  lt : i < n
  near : n ≤ i + k
  deadline : ∃ e, steps[i]? = some e ∧ x.board.deadline = some (e.platform.time + interval)

section Steps

variable {s : Symbols} {steps : List Moment} {interval : Word} {k i n : ℕ} {x : Session}
  {supervisor : Bool}

theorem promptly_cons (e : Moment) (steps : List Moment) : promptly (e :: steps) =
    { e with proceeds := false } :: { e with proceeds := true } :: promptly steps := rfl

theorem Fair.mem (hfair : Fair steps interval k) (hnonzero : interval ≠ 0) {e : Moment}
    (he : e ∈ steps) {k' : TrapState} (hinterval : k'.interval = interval)
    (hcounter : k'.counter = true) : Serviceable e.platform k' where
  interval := hinterval.symm ▸ hnonzero
  counter := hcounter
  fits := hinterval.symm ▸ hfair.fits e he
  accepted := hfair.setTimer e he _

/-- The board when the hart has taken the interrupt that is pending, if there is one. -/
def Board.settle (b : Board) (p : Platform) (supervisor : Bool) : Board :=
  if b.pending p.time then (b.read p).serve supervisor else b.read p

theorem returns_interruptible {e : Moment} (hsource : x.board.source = true)
    (henabled : x.board.enabled = true) (hserviceable : Serviceable e.platform x.board.trapState) :
    Returns (interruptible s supervisor e) x ()
      { x with board := x.board.settle e.platform supervisor } := by
  have hdelivers : x.board.delivers e.platform.time supervisor = x.board.pending e.platform.time := by
    unfold Board.delivers
    rw [hsource, henabled, Bool.or_true, Bool.and_true, Bool.true_and]
  unfold interruptible
  refine Exec.returns_bind.mpr ⟨x, x, Exec.returns_get.mpr ⟨rfl, rfl⟩, ?_⟩
  rw [hdelivers]
  unfold Board.settle
  cases x.board.pending e.platform.time with
  | false => exact rfl
  | true =>
    obtain ⟨r, x', hrun, r', b', heffect, rfl, hr⟩ := sat_trapped (s := s) (x := x) e.platform
      { e.frame supervisor with cause := timerInterrupt }
    rcases heffect.of_interrupt rfl with ⟨-, rfl, rfl⟩ | ⟨hnot, -⟩
    · subst hr
      have hmode : ({ e.frame supervisor with cause := timerInterrupt } : TrapFrame).supervisor =
          supervisor := supervisor_frame e
      rw [hmode] at hrun
      exact Exec.returns_bind.mpr ⟨_, _, hrun, rfl⟩
    · exact absurd hserviceable hnot

theorem returns_nextMoment {e : Moment} {moments : List Moment} {b : Board} :
    Returns nextMoment ⟨b, e :: moments⟩ e ⟨b, moments⟩ := rfl

/-- **One step**, with the interrupt that is pending before it. -/
theorem returns_proceed {e : Moment} {b : Board} (moments : List Moment) (hsource : b.source = true)
    (henabled : b.enabled = true) (hserviceable : Serviceable e.platform b.trapState) :
    Returns (proceed s supervisor) ⟨b, promptly (e :: moments)⟩ { e with proceeds := true }
      ⟨b.settle e.platform supervisor, promptly moments⟩ := by
  unfold proceed
  refine Exec.returns_bind.mpr ⟨_, _, Exec.returns_get.mpr ⟨rfl, rfl⟩, ?_⟩
  rw [promptly_cons]
  refine Exec.returns_iterate_succ.mpr (.inl ⟨(), ⟨b.settle e.platform supervisor,
    { e with proceeds := true } :: promptly moments⟩, ?_, ?_⟩)
  · refine Exec.returns_bind.mpr ⟨_, _, returns_nextMoment, ?_⟩
    refine Exec.returns_bind.mpr ⟨(), _, ?_, Exec.returns_pure.mpr ⟨rfl, rfl⟩⟩
    exact returns_interruptible (x := ⟨b, { e with proceeds := true } :: promptly moments⟩)
      (e := { e with proceeds := false }) hsource henabled hserviceable
  · refine Exec.returns_iterate_succ.mpr (.inr ?_)
    exact Exec.returns_bind.mpr ⟨_, _, returns_nextMoment, Exec.returns_pure.mpr ⟨rfl, rfl⟩⟩

/-- **A step is on time**: an interrupt is serviced before it, or the last one is recent enough. -/
theorem OnTime.step (supervisor : Bool) (hfair : Fair steps interval k) (hnonzero : interval ≠ 0)
    (h : OnTime steps interval k i n x) (hn : n < steps.length) :
    ∃ e ∈ steps, ∃ (serviced : Bool) (x' : Session),
      Returns (proceed s supervisor) x { e with proceeds := true } x' ∧
        x'.board = (if serviced then (x.board.read e.platform).serve supervisor
          else x.board.read e.platform) ∧
        OnTime steps interval k (if serviced then n else i) (n + 1) x' := by
  obtain ⟨b, moments⟩ := x
  have hdrop : steps.drop n = steps.get ⟨n, hn⟩ :: steps.drop (n + 1) := List.drop_eq_getElem_cons hn
  have hget : steps[n]? = some (steps.get ⟨n, hn⟩) := List.getElem?_eq_getElem hn
  have hmem : steps.get ⟨n, hn⟩ ∈ steps := List.get_mem ..
  generalize steps.get ⟨n, hn⟩ = e at hdrop hget hmem
  have hserviceable : Serviceable e.platform b.trapState :=
    hfair.mem hnonzero hmem h.configured (decide_eq_true h.counter)
  obtain rfl : moments = promptly (e :: steps.drop (n + 1)) := hdrop ▸ h.moments
  obtain ⟨first, hfirst, hdeadline⟩ := h.deadline
  have hrun : Returns (proceed s supervisor) ⟨b, promptly (e :: steps.drop (n + 1))⟩
      { e with proceeds := true }
      ⟨b.settle e.platform supervisor, promptly (steps.drop (n + 1))⟩ :=
    returns_proceed _ h.source h.enabled hserviceable
  refine ⟨e, hmem, b.pending e.platform.time, _, hrun, rfl, ?_⟩
  unfold Board.settle
  cases hpending : b.pending e.platform.time with
  | true =>
    have hconfigured : b.interval = interval := h.configured
    refine ⟨rfl, h.configured, h.counter, h.source, h.enabled, Nat.lt_succ_self n, ?_, e, hget, ?_⟩
    · show n + 1 ≤ n + k
      have hlt := h.lt
      have hnear := h.near
      omega
    · show some (e.platform.time + b.interval) = _
      rw [hconfigured]
  | false =>
    refine ⟨rfl, h.configured, h.counter, h.source, h.enabled, h.lt.trans (Nat.lt_succ_self n), ?_,
      first, hfirst, hdeadline⟩
    -- after `k` steps the deadline would have been due
    refine Nat.lt_of_le_of_ne h.near fun heq => ?_
    have hlate := hfair.late i first e hfirst (heq ▸ hget)
    have hdue : b.pending e.platform.time = true := by
      unfold Board.pending
      rw [hdeadline]
      refine decide_eq_true (BitVec.le_def.mpr ?_)
      rwa [BitVec.toNat_add_of_lt (hfair.fits first (List.mem_of_getElem? hfirst))]
    rw [hpending] at hdue
    cases hdue

theorem length_promptly (steps : List Moment) : (promptly steps).length = 2 * steps.length := by
  induction steps with
  | nil => rfl
  | cons e steps ih =>
    rw [promptly_cons, List.length_cons, List.length_cons, List.length_cons, ih]
    omega

/-- **A loop that waits for interrupts** is left, and soon enough. -/
theorem OnTime.sat_iterate {α β : Type} {body : β → Exec Session RunEnd (β ⊕ α)}
    (value : Board → Word) (first : Word) (target : ℕ) {P : β → Session → Prop}
    {Q : α → Session → Prop} (hpos : 0 < target) (hlt : target < 2 ^ 64)
    (hround : ∀ i n b x, OnTime steps interval k i n x → n < steps.length → P b x →
      Sat (body b) x fun r x' => ∃ serviced : Bool,
        OnTime steps interval k (if serviced then n else i) (n + 1) x' ∧
        value x'.board = (if serviced then value x.board + 1 else value x.board) ∧
        (value x'.board - first < BitVec.ofNat 64 target → ∃ b', r = .ok (.inl b') ∧ P b' x') ∧
        (¬value x'.board - first < BitVec.ofNat 64 target → ∃ a, r = .ok (.inr a) ∧ Q a x'))
    {b : β} (h : OnTime steps interval k i n x) (hb : P b x) (hfirst : value x.board = first)
    (hsteps : i + target * k + 1 ≤ steps.length) :
    Sat (iterate body (x.moments.length + 1) b) x fun r x' => ∃ a, r = .ok a ∧ Q a x' ∧
      ∃ i' n', OnTime steps interval k i' n' x' ∧ n' ≤ i + target * k + 1 := by
  refine Exec.sat_iterate (fun b x' => P b x' ∧ ∃ i' n' j, OnTime steps interval k i' n' x' ∧
      value x'.board = first + BitVec.ofNat 64 j ∧ j < target ∧
      i' + (target - j) * k + 1 ≤ i + target * k + 1) (fun x' => x'.moments.length) ?_
    ⟨hb, i, n, 0, h, hfirst.trans (BitVec.add_zero _).symm, hpos, le_rfl⟩ (Nat.lt_succ_self _)
  rintro b x₁ ⟨hb, i', n', j, h, hvalue, hj, hbudget⟩
  have hsplit : (target - j) * k = (target - (j + 1)) * k + k := by
    have hsucc : target - j = target - (j + 1) + 1 := by omega
    rw [hsucc, Nat.succ_mul]
  have hn' : n' < steps.length := by
    have hnear := h.near
    omega
  have hless : ∀ {x₂ : Session} {i'' : ℕ}, OnTime steps interval k i'' (n' + 1) x₂ →
      x₂.moments.length < x₁.moments.length := by
    intro x₂ i'' h'
    rw [h'.moments, h.moments, length_promptly, length_promptly, List.length_drop, List.length_drop]
    omega
  have hcount : ∀ m : ℕ, m ≤ target → (first + BitVec.ofNat 64 m - first < BitVec.ofNat 64 target ↔
      m < target) := by
    intro m hm
    rw [BitVec.add_comm, BitVec.add_sub_cancel, BitVec.lt_def, BitVec.toNat_ofNat,
      BitVec.toNat_ofNat, Nat.mod_eq_of_lt hlt, Nat.mod_eq_of_lt (by omega)]
  refine (hround i' n' b x₁ h hn' hb).mono fun r x₂ hr => ?_
  obtain ⟨serviced, h', hvalue', hgoes, hleaves⟩ := hr
  cases serviced with
  | false =>
    rw [if_neg (by decide), hvalue] at hvalue'
    rw [hvalue'] at hgoes
    obtain ⟨b', rfl, hb'⟩ := hgoes ((hcount j hj.le).mpr hj)
    refine ⟨fun b'' heq => ?_, nofun, nofun⟩
    obtain rfl := Sum.inl.inj (Except.ok.inj heq)
    exact ⟨⟨hb', i', n' + 1, j, h', hvalue', hj, hbudget⟩, hless h'⟩
  | true =>
    rw [if_pos rfl, hvalue, BitVec.add_assoc] at hvalue'
    have hsucc : BitVec.ofNat 64 j + 1 = BitVec.ofNat 64 (j + 1) := (BitVec.ofNat_add j 1).symm
    rw [hsucc] at hvalue'
    rw [hvalue'] at hgoes hleaves
    have hnear := h.near
    by_cases hdone : j + 1 < target
    · obtain ⟨b', rfl, hb'⟩ := hgoes ((hcount _ hj).mpr hdone)
      refine ⟨fun b'' heq => ?_, nofun, nofun⟩
      obtain rfl := Sum.inl.inj (Except.ok.inj heq)
      refine ⟨⟨hb', n', n' + 1, j + 1, h', hvalue', hdone, ?_⟩, hless h'⟩
      omega
    · obtain ⟨a, rfl, ha⟩ := hleaves fun hlt => hdone ((hcount _ hj).mp hlt)
      refine ⟨nofun, fun a' heq => ?_, nofun⟩
      obtain rfl := Sum.inr.inj (Except.ok.inj heq)
      refine ⟨a, rfl, ha, n', n' + 1, h', ?_⟩
      omega

theorem OnTime.call (h : OnTime steps interval k i n x) (p : Platform) (bytes : List UInt8) :
    OnTime steps interval k i n { x with board := { x.board.read p with console := bytes } } :=
  ⟨h.moments, h.configured, h.counter, h.source, h.enabled, h.lt, h.near, h.deadline⟩

/-- **A system call on time** is answered. -/
theorem OnTime.sat_syscall (hfair : Fair steps interval k) (hnonzero : interval ≠ 0)
    (h : OnTime steps interval k i n x) (hn : n < steps.length) {number : Word} (argument : Word)
    (hnumber : number ≠ exitCall) :
    Sat (syscall s number argument) x fun r x' => ∃ e ∈ steps, ∃ (serviced : Bool) (result : Word),
      r = .ok result ∧ OnTime steps interval k (if serviced then n else i) (n + 1) x' ∧
        x'.board.userTicks = (if serviced then x.board.userTicks + 1 else x.board.userTicks) ∧
        handleSyscall e.platform x'.board.trapState number argument = some result ∧
        x'.board.console = x.board.console ++ writtenBytes e.platform number argument := by
  obtain ⟨e, he, serviced, x₁, hproceed, hboard, h'⟩ :=
    h.step (s := s) false hfair hnonzero hn
  refine hproceed.sat_bind ?_
  have hticks : x₁.board.userTicks =
      if serviced then x.board.userTicks + 1 else x.board.userTicks := by
    rw [hboard]
    cases serviced <;> rfl
  have hconsole : x₁.board.console = x.board.console := by
    rw [hboard]
    cases serviced <;> rfl
  obtain ⟨ha7, ha0⟩ := callFrame_registers e number argument
  refine (sat_trapped e.platform (callFrame e number argument)).bind
    (fun f x₂ h => Exec.sat_pure ?_) fun err x₂ h => ?_
  · obtain ⟨r', b', heffect, rfl, hr⟩ := h
    rcases heffect.of_ecall e.user_origin rfl e.user_next with ⟨result, hcall, rfl, rfl⟩ | ⟨hexit, -⟩
    · obtain rfl := Except.ok.inj hr
      rw [ha7, ha0] at hcall
      refine ⟨e, he, serviced, result, ?_, h'.call e.platform _, hticks, hcall, ?_⟩
      · show Except.ok (Function.update (callFrame e number argument).registers .a0 result .a0) = _
        rw [Function.update_self]
      · show x₁.board.console ++ writtenBytes e.platform _ _ = _
        rw [hconsole, ha7, ha0]
    · exact absurd (ha7.symm.trans hexit) hnumber
  · obtain ⟨r', b', heffect, rfl, hr⟩ := h
    rcases heffect.of_ecall e.user_origin rfl e.user_next with ⟨result, -, rfl, -⟩ | ⟨hexit, -⟩
    · cases hr
    · exact absurd (ha7.symm.trans hexit) hnumber

theorem OnTime.sat_userExit (hfair : Fair steps interval k) (hnonzero : interval ≠ 0)
    (h : OnTime steps interval k i n x) (hn : n < steps.length) (status : Word) :
    Sat (userExit s status) x fun r x' =>
      r = .error (.ended (.exited status)) ∧ x'.board.console = x.board.console := by
  obtain ⟨e, -, serviced, x₁, hproceed, hboard, -⟩ :=
    h.step (s := s) false hfair hnonzero hn
  have hconsole : x₁.board.console = x.board.console := by
    rw [hboard]
    cases serviced <;> rfl
  obtain ⟨ha7, ha0⟩ := callFrame_registers e exitCall status
  have hcall : Sat (syscall s exitCall status) x fun r x' =>
      r = .error (.ended (.exited status)) ∧ x'.board.console = x.board.console := by
    refine hproceed.sat_bind ((sat_trapped e.platform (callFrame e exitCall status)).bind
      (fun f x₂ h => Exec.sat_pure ?_) fun err x₂ h => ?_)
    · obtain ⟨r', b', heffect, rfl, hr⟩ := h
      rcases heffect.of_ecall e.user_origin rfl e.user_next with ⟨result, hcall, -⟩ | ⟨-, rfl, -⟩
      · rw [ha7] at hcall
        cases hcall
      · cases hr
    · obtain ⟨r', b', heffect, rfl, hr⟩ := h
      rcases heffect.of_ecall e.user_origin rfl e.user_next with ⟨result, -, rfl, -⟩ | ⟨-, rfl, rfl⟩
      · cases hr
      · obtain rfl := Except.error.inj hr
        rw [ha0]
        exact ⟨rfl, hconsole⟩
  refine hcall.bind (fun _ x' h => ?_) fun err x' h => ?_
  · exact absurd h.1 (by simp)
  · obtain rfl := Except.error.inj h.1
    exact ⟨rfl, h.2⟩

theorem OnTime.sat_write (hfair : Fair steps interval k) (hnonzero : interval ≠ 0)
    (bytes : List UInt8) : ∀ {i n : ℕ} {x : Session}, OnTime steps interval k i n x →
    n + bytes.length ≤ steps.length →
      Sat (write s bytes) x fun r x' => r = .ok () ∧ x'.board.console = x.board.console ++ bytes ∧
        ∃ i', OnTime steps interval k i' (n + bytes.length) x' := by
  induction bytes with
  | nil =>
    intro i n x h _
    exact Exec.sat_pure ⟨rfl, (List.append_nil _).symm, i, h⟩
  | cons byte bytes ih =>
    intro i n x h hn
    rw [List.length_cons] at hn
    have hcons : write s (byte :: bytes) = (do
        let result ← syscall s consoleWriteByte (BitVec.ofNat 64 byte.toNat)
        if result ≠ 0 then
          let _ ← userExit s 2
          pure ()) >>= fun _ => write s bytes := rfl
    rw [hcons, Exec.bind_assoc]
    refine (h.sat_syscall hfair hnonzero (by omega) _ (by decide)).bind (fun result x₁ h => ?_)
      fun err x₁ h => ?_
    · obtain ⟨e, he, serviced, result', heq, h', -, hcall, hconsole⟩ := h
      obtain rfl := Except.ok.inj heq
      have hwritten : result = 0 ∧
          writtenBytes e.platform consoleWriteByte (BitVec.ofNat 64 byte.toNat) = [byte] := by
        refine (handleSyscall_byte hcall).resolve_right fun hnot => ?_
        have hlt : byte.toNat < 256 := byte.toNat_lt
        have hargument : (BitVec.ofNat 64 byte.toNat).toNat = byte.toNat := by
          rw [BitVec.toNat_ofNat]
          omega
        have hsent : writtenBytes e.platform consoleWriteByte (BitVec.ofNat 64 byte.toNat) ≠ [] := by
          unfold writtenBytes
          rw [hargument, if_pos ⟨rfl, hlt, hfair.writeByte e he _⟩]
          simp
        exact hsent hnot.2
      rw [if_neg (by simp [hwritten.1])]
      refine (ih h' (by omega)).mono fun r x₂ h => ?_
      obtain ⟨hr, hconsole', i', h''⟩ := h
      refine ⟨hr, ?_, i', ?_⟩
      · rw [hconsole', hconsole, hwritten.2, List.append_assoc]
        rfl
      · rw [List.length_cons, Nat.add_comm bytes.length, ← Nat.add_assoc]
        exact h''
    · obtain ⟨e, he, serviced, result', heq, -⟩ := h
      cases heq

/-- **The user program on time** writes both messages and exits with status zero. -/
theorem OnTime.sat_userMain (hfair : Fair steps interval k) (hnonzero : interval ≠ 0)
    (h : OnTime steps interval k i n x) (hconsole : x.board.console = [])
    (hsteps : n + greeting.length + 3 * k + confirmation.length + 2 ≤ steps.length) :
    Sat (userMain s) x fun r x' =>
      r = .error (.ended (.exited 0)) ∧ x'.board.console = greeting ++ confirmation := by
  refine (OnTime.sat_write hfair hnonzero greeting h (by omega)).bind (fun _ x₁ h => ?_)
    fun err x₁ h => absurd h.1 (by simp)
  obtain ⟨-, hgreeted, i₁, h₁⟩ := h
  rw [hconsole, List.nil_append] at hgreeted
  refine (h₁.sat_syscall hfair hnonzero (by omega) 0 (by decide)).bind (fun first x₂ h => ?_)
    fun err x₂ h => ?_
  swap
  · obtain ⟨e, he, serviced, result, heq, -⟩ := h
    cases heq
  obtain ⟨e, -, serviced, result, heq, h₂, -, hcall, hsame⟩ := h
  obtain rfl := Except.ok.inj heq
  rw [writtenBytes_ticks, List.append_nil, hgreeted] at hsame
  have hfirst : x₂.board.userTicks = first := (handleSyscall_ticks hcall).symm
  have hlt := h₂.lt
  refine Exec.sat_get ((h₂.sat_iterate Board.userTicks first 3
    (P := fun values x' => values = List.replicate 32 pattern ∧ x'.board.console = greeting)
    (Q := fun values x' => values = List.replicate 32 pattern ∧ x'.board.console = greeting)
    (by decide) (by decide) ?_ ⟨rfl, hsame⟩ hfirst (by omega)).bind (fun values x₃ h => ?_)
    fun err x₃ h => ?_)
  · rintro i n values x h hn ⟨rfl, hkept⟩
    refine (h.sat_syscall hfair hnonzero hn 0 (by decide)).bind (fun ticks x' h => ?_)
      fun err x' h => ?_
    · obtain ⟨e, -, serviced, result, heq, h', hticks, hcall, hsame⟩ := h
      obtain rfl := Except.ok.inj heq
      obtain rfl := handleSyscall_ticks hcall
      rw [writtenBytes_ticks, List.append_nil, hkept] at hsame
      by_cases hspin : x'.board.userTicks - first < 3
      · have hspin' : x'.board.trapState.userTicks - first < 3 := hspin
        rw [if_pos hspin']
        refine Exec.sat_pure ⟨serviced, h', hticks, fun _ => ⟨_, rfl, ?_, hsame⟩,
          fun hnot => absurd hspin hnot⟩
        exact Function.iterate_fixed (rotate_eq _) 10000
      · have hspin' : ¬x'.board.trapState.userTicks - first < 3 := hspin
        rw [if_neg hspin']
        exact Exec.sat_pure ⟨serviced, h', hticks, fun hlt => absurd hlt hspin,
          fun _ => ⟨_, rfl, rfl, hsame⟩⟩
    · obtain ⟨e, he, serviced, result, heq, -⟩ := h
      cases heq
  · obtain ⟨values', heq, ⟨rfl, hsame⟩, i₃, n₃, h₃, hle⟩ := h
    obtain rfl := Except.ok.inj heq
    have hkept : (List.replicate 32 pattern).any (· ≠ pattern) = false := by
      simp
    rw [if_neg (by rw [hkept]; simp)]
    refine (OnTime.sat_write hfair hnonzero confirmation h₃ (by omega)).bind (fun _ x₄ h => ?_)
      fun err x₄ h => absurd h.1 (by simp)
    obtain ⟨-, hwritten, i₄, h₄⟩ := h
    rw [hsame] at hwritten
    refine (h₄.sat_userExit hfair hnonzero (by omega) 0).mono fun r x₅ h => ?_
    exact ⟨h.1, h.2.trans hwritten⟩
  · obtain ⟨values, heq, -⟩ := h
    cases heq

/-- The first step, before the timer is armed. -/
theorem returns_proceed_masked {e : Moment} {b : Board} {moments : List Moment}
    (hmasked : b.source = false) :
    Returns (proceed s supervisor) ⟨b, promptly (e :: moments)⟩ { e with proceeds := true }
      ⟨b.read e.platform, promptly moments⟩ := by
  have hdelivers : b.delivers e.platform.time supervisor = false := by
    unfold Board.delivers
    rw [hmasked, Bool.false_and, Bool.false_and]
  unfold proceed
  refine Exec.returns_bind.mpr ⟨_, _, Exec.returns_get.mpr ⟨rfl, rfl⟩, ?_⟩
  rw [promptly_cons]
  refine Exec.returns_iterate_succ.mpr (.inl ⟨(), ⟨b.read e.platform,
    { e with proceeds := true } :: promptly moments⟩, ?_, ?_⟩)
  · refine Exec.returns_bind.mpr ⟨_, _, returns_nextMoment, ?_⟩
    refine Exec.returns_bind.mpr ⟨(), _, ?_, Exec.returns_pure.mpr ⟨rfl, rfl⟩⟩
    refine Exec.returns_bind.mpr ⟨_, _, Exec.returns_get.mpr ⟨rfl, rfl⟩, ?_⟩
    rw [if_neg (by rw [hdelivers]; decide)]
    exact rfl
  · refine Exec.returns_iterate_succ.mpr (.inr ?_)
    exact Exec.returns_bind.mpr ⟨_, _, returns_nextMoment, Exec.returns_pure.mpr ⟨rfl, rfl⟩⟩

theorem Fair.pos (hfair : Fair steps interval k) (hnonzero : interval ≠ 0) {e : Moment}
    (he : steps[0]? = some e) : 0 < k := by
  refine Nat.pos_of_ne_zero ?_
  rintro rfl
  have hlate := hfair.late 0 e e he he
  have hpos : 0 < interval.toNat := BitVec.toNat_pos_of_ne_zero hnonzero
  omega

theorem OnTime.sat_waitTicks (hfair : Fair steps interval k) (hnonzero : interval ≠ 0)
    (h : OnTime steps interval k i n x) (hsteps : i + 2 * k + 1 ≤ steps.length) :
    Sat (waitTicks s x.board.ticks) x fun r x' => r = .ok () ∧
      x'.board.console = x.board.console ∧
      ∃ i' n', OnTime steps interval k i' n' x' ∧ n' ≤ i + 2 * k + 1 := by
  refine Exec.sat_get ((h.sat_iterate Board.ticks x.board.ticks 2
    (P := fun _ x' => x'.board.console = x.board.console)
    (Q := fun _ x' => x'.board.console = x.board.console) (by decide) (by decide) ?_ rfl rfl
    hsteps).mono fun r x' hr => ?_)
  · intro i n _ x₁ h hn hconsole
    obtain ⟨e, -, serviced, x₂, hproceed, hboard, h'⟩ :=
      h.step (s := s) true hfair hnonzero hn
    have hticks : x₂.board.ticks =
        if serviced then x₁.board.ticks + 1 else x₁.board.ticks := by
      rw [hboard]
      cases serviced <;> rfl
    have hsame : x₂.board.console = x.board.console := by
      rw [← hconsole, hboard]
      cases serviced <;> rfl
    refine hproceed.sat_bind (Exec.sat_get ?_)
    by_cases hspin : x₂.board.ticks - x.board.ticks < 2
    · rw [if_pos hspin]
      exact Exec.sat_pure ⟨serviced, h', hticks, fun _ => ⟨_, rfl, hsame⟩, fun hnot => absurd hspin hnot⟩
    · rw [if_neg hspin]
      exact Exec.sat_pure ⟨serviced, h', hticks, fun hlt => absurd hlt hspin, fun _ => ⟨_, rfl, hsame⟩⟩
  · obtain ⟨_, rfl, hsame, hbound⟩ := hr
    exact ⟨rfl, hsame, hbound⟩

/-- **A run of the kernel** that nothing keeps from its end. -/
theorem sat_runKernel_promptly (s : Symbols) {timebase : NonZeroU32} {b : Board}
    (hinterval : intervalTicks timebase (.fromMillis 10 (by decide)) = .ok interval)
    (hfair : Fair steps interval k) (hunarmed : Unarmed b) (hcounter : b.counter = .available)
    (hmasked : b.source = false) (hconsole : b.console = [])
    (hsteps : 5 * k + greeting.length + confirmation.length + 3 ≤ steps.length) :
    Sat (runKernel s timebase) ⟨b, promptly steps⟩ fun r x' =>
      r = .error (.ended (.exited 0)) ∧ x'.board.console = greeting ++ confirmation := by
  obtain ⟨hnonzero, -⟩ := intervalTicks_eq_ok hinterval
  cases steps with
  | nil => exact absurd hsteps (by simp)
  | cons e steps =>
    have he : e ∈ e :: steps := List.mem_cons_self
    have hpos : 0 < k := hfair.pos hnonzero (e := e) rfl
    refine (returns_proceed_masked hmasked).sat_bind ?_
    rcases returns_arm ⟨b.read e.platform, promptly steps⟩ timebase e.platform with
      ⟨-, hnot⟩ | ⟨interval', harmable, harm⟩
    · exact absurd ⟨hunarmed.interval, hinterval, hcounter, hfair.fits e he, hfair.setTimer e he _⟩
        (hnot interval)
    obtain rfl := Except.ok.inj (hinterval.symm.trans harmable.ticks)
    refine harm.sat_bind (Exec.sat_get ?_)
    have henable : Returns (onBoard enableInterrupts : Exec Session RunEnd Unit)
        ⟨(b.read e.platform).arm e.platform interval, promptly steps⟩ ()
        ⟨{ (b.read e.platform).arm e.platform interval with enabled := true }, promptly steps⟩ := rfl
    refine henable.sat_bind ?_
    have htime : OnTime (e :: steps) interval k 0 1
        ⟨{ (b.read e.platform).arm e.platform interval with enabled := true }, promptly steps⟩ :=
      ⟨rfl, rfl, hcounter, rfl, rfl, Nat.one_pos, by omega, e, rfl, rfl⟩
    refine (htime.sat_waitTicks (s := s) hfair hnonzero (by omega)).bind (fun _ x₁ h => ?_)
      fun err x₁ h => absurd h.1 (by simp)
    obtain ⟨-, hsame, i, n, htime', hbound⟩ := h
    exact htime'.sat_userMain hfair hnonzero (hsame.trans hconsole) (by omega)

end Steps

/-! ## A sample outside -/

/-- A step at some reading of the counter, when firmware accepts everything. -/
def sampleMoment (time : Word) : Moment where
  proceeds := true
  platform := { samplePlatform with time := time }
  user := (UserContext.new 0x10000 0x40000000).frame
  user_origin := rfl
  user_pc := (by decide : (0x10000 : Word).toNat < imageLimit)
  kernel := { (UserContext.new 0x10000 0x40000000).frame with status := supervisorOrigin }
  kernel_origin := rfl

/-- The board after the counter has been probed. -/
def sampleProbed : Board := { sampleBoard with counter := .available }

/-- Steps of one interval each. -/
def sampleSteps : List Moment := (List.range 57).map fun i => sampleMoment (BitVec.ofNat 64 (i * 100000))

theorem exists_of_mem_sampleSteps {e : Moment} {i : ℕ} (h : sampleSteps[i]? = some e) :
    i < 57 ∧ e = sampleMoment (BitVec.ofNat 64 (i * 100000)) := by
  obtain ⟨hlt, rfl⟩ := List.getElem?_eq_some_iff.mp h
  have hi : i < 57 := by
    simpa [sampleSteps] using hlt
  exact ⟨hi, by simp [sampleSteps]⟩

theorem toNat_sampleTime {i : ℕ} (hi : i < 57) :
    (BitVec.ofNat 64 (i * 100000)).toNat = i * 100000 := by
  rw [BitVec.toNat_ofNat]
  omega

theorem fair_sampleSteps : Fair sampleSteps 100000 1 where
  setTimer e he deadline := by
    obtain ⟨i, -, rfl⟩ := List.mem_map.mp he
    rfl
  writeByte e he byte := by
    obtain ⟨i, -, rfl⟩ := List.mem_map.mp he
    rfl
  fits e he := by
    obtain ⟨i, hi, rfl⟩ := List.mem_map.mp he
    have htime := toNat_sampleTime (List.mem_range.mp hi)
    have hinterval : (100000 : Word).toNat = 100000 := rfl
    have hlt := List.mem_range.mp hi
    show (BitVec.ofNat 64 (i * 100000)).toNat + _ < _
    omega
  late i e e' he he' := by
    obtain ⟨hi, rfl⟩ := exists_of_mem_sampleSteps he
    obtain ⟨hi', rfl⟩ := exists_of_mem_sampleSteps he'
    have hinterval : (100000 : Word).toNat = 100000 := rfl
    show (BitVec.ofNat 64 (i * 100000)).toNat + _ ≤ (BitVec.ofNat 64 ((i + 1) * 100000)).toNat
    rw [toNat_sampleTime hi, toNat_sampleTime hi', hinterval]
    omega

theorem length_sampleSteps :
    5 * 1 + greeting.length + confirmation.length + 3 ≤ sampleSteps.length := by
  decide +kernel

theorem intervalTicks_sample :
    intervalTicks sampleTimebase (.fromMillis 10 (by decide)) = .ok 100000 := by
  simp [intervalTicks, sampleTimebase, Duration.fromMillis, Duration.asNanos]

theorem unarmed_sampleProbed : Unarmed sampleProbed := ⟨rfl, rfl, rfl, rfl, rfl⟩

theorem clocked_sample : Clocked sampleProbed.clock (promptly sampleSteps) := by
  unfold Clocked
  decide +kernel

/-! ## What comes of a session -/

/-- **What an observer can see** of the user program. Start the kernel with the timer as it is at boot
and let anything happen that hardware, firmware and the counter can do, for as long as one likes. The
run is never stuck: it goes on, or the hart was parked, or the program has exited. The bytes that the
program has written, which records of the kernel's log may separate, are a beginning of the two
messages: the first comes only after two interrupts of the kernel, the second only after three more of
the program, and there have never been more interrupts than periods of ten milliseconds. The exit
status is zero after both messages, and two when not all was written. -/
theorem session_report (s : Symbols) (timebase : NonZeroU32) {x : Session} (hboard : Unarmed x.board)
    (hrunning : x.board.halted = false) (hconsole : x.board.console = [])
    (hclocked : Clocked x.board.clock x.moments) :
    Sat (runKernel s timebase) x fun r x' => ∃ err, r = .error err ∧ Report err x'.board ∧
      (x'.board.console ≠ [] → 2 + x'.board.servedUser ≤ x'.board.served) ∧
      x'.board.served * timebase.get ≤ 100 * (x'.board.clock.toNat - x.board.clock.toNat) := by
  have hunarmed : ∀ {err : RunEnd} {b : Board}, Unarmed b → b.console = [] → Interrupted err →
      Report err b ∧ (b.console ≠ [] → 2 + b.servedUser ≤ b.served) ∧
        b.served * timebase.get ≤ 100 * (b.clock.toNat - x.board.clock.toNat) := by
    intro err b hb hnil herr
    refine ⟨report_of_nil hnil herr, fun h => absurd hnil h, ?_⟩
    rw [hb.served, Nat.zero_mul]
    exact Nat.zero_le _
  refine (sat_proceed stable_unarmed ⟨hboard, hrunning, hclocked⟩).bind (fun e x₁ h => ?_)
    fun err x₁ h => ?_
  swap
  · obtain ⟨hpassed, hb, -, herr⟩ := h
    exact ⟨err, rfl, hunarmed hb (hpassed.console.trans hconsole) (herr err rfl)⟩
  obtain ⟨hpassed, hb, hat, -⟩ := h
  obtain ⟨hat, -⟩ := hat e rfl
  have hnil : x₁.board.console = [] := hpassed.console.trans hconsole
  rcases returns_arm x₁ timebase e.platform with ⟨⟨error, harm⟩, -⟩ | ⟨interval, harmable, harm⟩
  · refine harm.sat_bind ?_
    exact ⟨_, _, rfl, .ended .halted, rfl, hunarmed ⟨hb.interval, hb.ticks, hb.userTicks, hb.served,
      hb.servedUser⟩ hnil (.inr rfl)⟩
  refine harm.sat_bind (Exec.sat_get ?_)
  have hpaced := harmable.paced hb
  have hle : x.board.clock.toNat ≤ e.platform.time.toNat := BitVec.le_trans hpassed.clock hat.clock
  have henable : Returns (onBoard enableInterrupts : Exec Session RunEnd Unit)
      { x₁ with board := x₁.board.arm e.platform interval } ()
      { x₁ with board := { x₁.board.arm e.platform interval with enabled := true } } := rfl
  refine henable.sat_bind ?_
  have hlive : ({ x₁ with board := { x₁.board.arm e.platform interval with enabled := true } } :
      Session).Live (InKernel e.platform.time.toNat interval) :=
    ⟨⟨hpaced.enabled true, hb.servedUser⟩, hat.running, hat.clocked⟩
  refine (sat_waitTicks hlive hb.ticks).bind (fun _ x₂ h => ?_) fun err x₂ h => ?_
  · obtain ⟨-, hsame, hok, -⟩ := h
    refine (sat_userMain (hok rfl) (hsame.trans hnil)).mono fun r x₃ h => ?_
    obtain ⟨hboard, err, rfl, hreport⟩ := h
    exact ⟨err, rfl, hreport, fun _ => hboard.confirmed, hboard.paced.pace harmable.ticks hle⟩
  · obtain ⟨hboard, hsame, -, herr⟩ := h
    have hnil' := hsame.trans hnil
    exact ⟨err, rfl, report_of_nil hnil' (herr err rfl), fun h => absurd hnil' h,
      hboard.paced.pace harmable.ticks hle⟩

/-- With an interval between any two steps both messages come out, and each waits for its interrupts. -/
theorem session_report_sample : ∃ x', Fails (runKernel sampleSymbols sampleTimebase)
      ⟨sampleProbed, promptly sampleSteps⟩ (.ended (.exited 0)) x' ∧
    x'.board.console = greeting ++ confirmation ∧ 3 ≤ x'.board.servedUser ∧
    2 + x'.board.servedUser ≤ x'.board.served ∧
    x'.board.served * 10000000 ≤ 100 * x'.board.clock.toNat := by
  have hruns := sat_runKernel_promptly sampleSymbols intervalTicks_sample fair_sampleSteps
    unarmed_sampleProbed rfl rfl rfl length_sampleSteps
  obtain ⟨r, x', hrun, ⟨rfl, hwritten⟩, err, herr, hreport, hserved, hpace⟩ :=
    hruns.and (session_report sampleSymbols sampleTimebase (x := ⟨sampleProbed, promptly sampleSteps⟩)
      unarmed_sampleProbed rfl rfl clocked_sample)
  refine ⟨x', hrun, hwritten, hreport.waited ?_, hserved ?_, hpace⟩
  · rw [hwritten, List.length_append]
    exact Nat.lt_add_of_pos_right length_confirmation_pos
  · rw [hwritten]
    exact List.append_ne_nil_of_right_ne_nil _ (List.ne_nil_of_length_pos length_confirmation_pos)

/-- **The session ends well** when nothing keeps it from it. The interval of ten milliseconds exists at
every frequency of the counter. Let the timer be masked at first and the hart take its interrupts
promptly, at one moment before each step, let firmware accept every call and the counter be available
and not at its end, and let every `k` steps of the code take an interval. Then `5 * k + 3` steps and one
for each byte of the messages suffice: the program has written both of them, and nothing else, and
exited with status zero. -/
theorem session_exits (s : Symbols) (timebase : NonZeroU32) : ∃ interval,
    intervalTicks timebase (.fromMillis 10 (by decide)) = .ok interval ∧
      ∀ {steps : List Moment} {k : ℕ} {x : Session}, Fair steps interval k → Unarmed x.board →
        x.board.counter = .available → x.board.source = false → x.board.console = [] →
        x.moments = promptly steps →
        5 * k + greeting.length + confirmation.length + 3 ≤ steps.length →
        ∃ x', Fails (runKernel s timebase) x (.ended (.exited 0)) x' ∧
          x'.board.console = greeting ++ confirmation := by
  obtain ⟨interval, hinterval⟩ :=
    intervalTicks_fromMillis timebase 10 (by decide) (by decide) (by decide)
  refine ⟨interval, hinterval, ?_⟩
  rintro steps k ⟨b, moments⟩ hfair hunarmed hcounter hmasked hconsole rfl hsteps
  obtain ⟨r, x', hrun, rfl, hwritten⟩ :=
    sat_runKernel_promptly s hinterval hfair hunarmed hcounter hmasked hconsole hsteps
  exact ⟨x', hrun, hwritten⟩

/-- With an interval between any two steps the program exits after 57 of them. -/
theorem session_exits_sample : ∃ x', Fails (runKernel sampleSymbols sampleTimebase)
      ⟨sampleProbed, promptly sampleSteps⟩ (.ended (.exited 0)) x' ∧
    x'.board.console = greeting ++ confirmation := by
  obtain ⟨interval, hinterval, hexits⟩ := session_exits sampleSymbols sampleTimebase
  obtain rfl := Except.ok.inj (hinterval.symm.trans intervalTicks_sample)
  exact hexits (x := ⟨sampleProbed, promptly sampleSteps⟩) fair_sampleSteps unarmed_sampleProbed
    rfl rfl rfl rfl length_sampleSteps

end Barebone.Kernel
