import BareboneKernel.Lib.Riscv
import Mathlib.Data.List.Basic

/-!
# Code at its addresses

Code that runs before there is an operating system: it loads its own addresses, installs the address
translation it then runs under, and jumps out of itself. Each instruction is linked for one address
and loaded at another place, and a hart executes it when its program counter leads to that place.

* `Bus σ`: what a hart reaches in a memory `σ`, by fetching, loading and storing;
* `Program.step`: one instruction, with the check that the program counter leads to it;
* `Program.Steps`, `Program.Runs`: runs inside the program and out of it;
* **`steps_ops`**, **`steps_store`**, **`steps_taken`**: one rule for each kind of instruction, while
  all instructions can be fetched where they are linked.
-/

set_option autoImplicit false

namespace Assembly

open Riscv (Reg)

variable {σ L : Type}

/-- The number of words. -/
def wordSize : ℕ := 2 ^ 64

/-- A memory, as a hart reaches it through addresses. -/
structure Bus (σ : Type) where
  /-- Where the instruction at an address is stored. -/
  fetch : σ → ℕ → Option ℕ
  load : σ → ℕ → Option ℕ
  store : σ → ℕ → ℕ → Option σ
  /-- Write the register that controls address translation. -/
  satp : σ → ℕ → σ

/-- The registers of a hart and its memory. -/
structure Cpu (σ : Type) where
  regs : Reg → ℕ
  mem : σ

namespace Cpu

def get (c : Cpu σ) (r : Reg) : ℕ := if r = .zero then 0 else c.regs r

def set (c : Cpu σ) (r : Reg) (v : ℕ) : Cpu σ :=
  if r = .zero then c else { c with regs := Function.update c.regs r v }

theorem get_set (c : Cpu σ) {r : Reg} (v : ℕ) (hr : r ≠ .zero) (r' : Reg) :
    (c.set r v).get r' = if r' = r then v else c.get r' := by
  by_cases h : r' = r
  · subst h
    simp [get, set, hr]
  · simp [get, set, hr, h]

@[simp] theorem set_mem (c : Cpu σ) (r : Reg) (v : ℕ) : (c.set r v).mem = c.mem := by
  unfold set
  split <;> rfl

theorem get_mem (c : Cpu σ) (m : σ) (r : Reg) : ({ c with mem := m } : Cpu σ).get r = c.get r := rfl

end Cpu

/-- Instructions on registers only. -/
inductive Op where
  | li (rd : Reg) (value : ℕ)
  /-- The address of a symbol, relative to the program counter. -/
  | la (rd : Reg) (symbol : ℕ)
  | mv (rd rs : Reg)
  | add (rd rs rs' : Reg)
  | addi (rd rs : Reg) (value : ℕ)
  | srli (rd rs : Reg) (shift : ℕ)
  | slli (rd rs : Reg) (shift : ℕ)
  | or (rd rs rs' : Reg)
  | ori (rd rs : Reg) (mask : ℕ)
  | andi (rd rs : Reg) (mask : ℕ)

/-- Instructions of a program with labels `L`. -/
inductive Instr (L : Type) where
  | op (o : Op)
  | sd (rs : Reg) (offset : ℕ) (base : Reg)
  | ld (rd : Reg) (offset : ℕ) (base : Reg)
  | csrwSatp (rs : Reg)
  | sfence
  | bgeu (rs rs' : Reg) (target : L)
  | j (target : L)
  | jr (rs : Reg)
  /-- A jump to a symbol, which leaves a part of its address in `t1`. -/
  | tail (symbol part : ℕ)

/-- Instructions with labels, each linked for an address; what is linked for an address is loaded at
a place of memory. -/
structure Program (L : Type) where
  items : List (Option L × Instr L)
  address : ℕ → ℕ
  place : ℕ → ℕ

/-- A hart at instruction `index` of a program. -/
structure Point (σ : Type) where
  index : ℕ
  pc : ℕ
  cpu : Cpu σ

/-- What comes of one instruction. -/
inductive Outcome (σ : Type) where
  | next (point : Point σ)
  | leave (pc : ℕ) (cpu : Cpu σ)
  | fault

/-- An instruction on registers; `reach` gives the address of a symbol. -/
def Cpu.exec (reach : ℕ → ℕ) (c : Cpu σ) : Op → Cpu σ
  | .li rd value => c.set rd value
  | .la rd symbol => c.set rd (reach symbol)
  | .mv rd rs => c.set rd (c.get rs)
  | .add rd rs rs' => c.set rd ((c.get rs + c.get rs') % wordSize)
  | .addi rd rs value => c.set rd ((c.get rs + value) % wordSize)
  | .srli rd rs shift => c.set rd (c.get rs >>> shift)
  | .slli rd rs shift => c.set rd ((c.get rs <<< shift) % wordSize)
  | .or rd rs rs' => c.set rd (c.get rs ||| c.get rs')
  | .ori rd rs mask => c.set rd (c.get rs ||| mask)
  | .andi rd rs mask => c.set rd (c.get rs &&& mask)

/-- `exec` for code that runs where it is linked. -/
def Cpu.op (c : Cpu σ) (o : Op) : Cpu σ := c.exec (· % wordSize) o

/-- The register that an instruction writes. -/
def Op.rd : Op → Reg
  | .li rd _ | .la rd _ | .mv rd _ | .add rd _ _ | .addi rd _ _ | .srli rd _ _ | .slli rd _ _
  | .or rd _ _ | .ori rd _ _ | .andi rd _ _ => rd

/-- Registers outside the list are unchanged. -/
def Cpu.Keeps (clobbered : List Reg) (c c' : Cpu σ) : Prop := ∀ r, r ∉ clobbered → c'.get r = c.get r

section Keeps

variable {clobbered : List Reg} {c c' c'' : Cpu σ}

theorem Cpu.Keeps.trans (h : c.Keeps clobbered c') (h' : c'.Keeps clobbered c'') :
    c.Keeps clobbered c'' := fun r hr => (h' r hr).trans (h r hr)

theorem Cpu.keeps_set {r : Reg} (v : ℕ) (hr : r ∈ clobbered) : c.Keeps clobbered (c.set r v) := by
  intro r' hr'
  by_cases hzero : r = .zero
  · rw [Cpu.set, if_pos hzero]
  · have hne : r' ≠ r := by
      rintro rfl
      exact hr' hr
    rw [Cpu.get_set _ _ hzero, if_neg hne]

theorem Cpu.keeps_mem (m : σ) : c.Keeps clobbered { c with mem := m } := fun _ _ => rfl

theorem Cpu.keeps_ops (ops : List Op) (hops : ∀ o ∈ ops, o.rd ∈ clobbered) :
    c.Keeps clobbered (ops.foldl Cpu.op c) := by
  induction ops generalizing c with
  | nil => exact fun _ _ => rfl
  | cons o ops ih =>
    have hfirst : c.Keeps clobbered (c.op o) := by
      have ho := hops o (List.mem_cons_self ..)
      cases o <;> exact keeps_set _ ho
    exact hfirst.trans (ih fun o ho => hops o (List.mem_cons_of_mem _ ho))

end Keeps

namespace Program

variable [DecidableEq L] (bus : Bus σ) (p : Program L)

/-- The address of a symbol as instruction `k` computes it from its own. -/
def reach (k pc symbol : ℕ) : ℕ := (pc + symbol + (wordSize - p.address k % wordSize)) % wordSize

/-- The instruction behind a label. -/
def target (l : L) : ℕ := p.items.findIdx fun item => item.1 = some l

/-- Instruction `k` of the program. -/
def instr (k : ℕ) : Option (Instr L) := p.items[k]?.map Prod.snd

/-- Go on with instruction `k` of the program, relative to the one at hand. -/
def goto (x : Point σ) (k : ℕ) (c : Cpu σ) : Outcome σ :=
  .next ⟨k, p.reach x.index x.pc (p.address k), c⟩

/-- The effect of an instruction. -/
def after (x : Point σ) : Instr L → Outcome σ
  | .op o => p.goto x (x.index + 1) (x.cpu.exec (p.reach x.index x.pc) o)
  | .sd rs offset base =>
    match bus.store x.cpu.mem ((x.cpu.get base + offset) % wordSize) (x.cpu.get rs) with
    | none => .fault
    | some m => p.goto x (x.index + 1) { x.cpu with mem := m }
  | .ld rd offset base =>
    match bus.load x.cpu.mem ((x.cpu.get base + offset) % wordSize) with
    | none => .fault
    | some v => p.goto x (x.index + 1) (x.cpu.set rd v)
  | .csrwSatp rs => p.goto x (x.index + 1) { x.cpu with mem := bus.satp x.cpu.mem (x.cpu.get rs) }
  | .sfence => p.goto x (x.index + 1) x.cpu
  | .bgeu rs rs' l =>
    p.goto x (if x.cpu.get rs' ≤ x.cpu.get rs then p.target l else x.index + 1) x.cpu
  | .j l => p.goto x (p.target l) x.cpu
  | .jr rs => .leave (x.cpu.get rs / 2 * 2) x.cpu
  | .tail symbol part => .leave (p.reach x.index x.pc symbol) (x.cpu.set .t1 part)

/-- The program counter must lead to the instruction. -/
def step (x : Point σ) : Outcome σ :=
  if bus.fetch x.cpu.mem x.pc = some (p.place (p.address x.index)) then
    (p.instr x.index).elim .fault (p.after bus x)
  else .fault

/-- A run inside the program. -/
inductive Steps : Point σ → Point σ → Prop
  | refl (x : Point σ) : Steps x x
  | head {x y z : Point σ} (first : p.step bus x = .next y) (rest : Steps y z) : Steps x z

/-- A run out of the program. -/
def Runs (x : Point σ) (pc : ℕ) (c : Cpu σ) : Prop :=
  ∃ y, p.Steps bus x y ∧ p.step bus y = .leave pc c

/-- A hart at instruction `k`, where it is linked. -/
def point (k : ℕ) (c : Cpu σ) : Point σ := ⟨k, p.address k, c⟩

variable {bus p} {x y z : Point σ} {c c' : Cpu σ} {k pc : ℕ}

theorem Steps.trans (h : p.Steps bus x y) (h' : p.Steps bus y z) : p.Steps bus x z := by
  induction h with
  | refl x => exact h'
  | head first rest ih => exact .head first (ih h')

theorem Steps.runs (h : p.Steps bus x y) (h' : p.Runs bus y pc c) : p.Runs bus x pc c := by
  obtain ⟨z, hsteps, hleave⟩ := h'
  exact ⟨z, h.trans hsteps, hleave⟩

/-! ## Rules -/

/-- All instructions can be fetched where they are linked. -/
def Fetches (bus : Bus σ) (p : Program L) (m : σ) : Prop :=
  ∀ k < p.items.length, bus.fetch m (p.address k) = some (p.place (p.address k))

/-- The addresses of the instructions are words. -/
def Words (p : Program L) : Prop := ∀ k, p.address k < wordSize

section Rules

variable {i : Instr L} (hwords : p.Words) (hf : Fetches bus p c.mem)

omit [DecidableEq L] in
include hwords in
theorem reach_point : p.reach k (p.point k c).pc = (· % wordSize) := by
  funext x
  have haddress := hwords k
  have hsum : p.address k + x + (wordSize - p.address k) = x + wordSize := by omega
  rw [reach, show (p.point k c).pc = p.address k from rfl, Nat.mod_eq_of_lt haddress, hsum,
    Nat.add_mod_right]

omit [DecidableEq L] in
include hwords in
theorem goto_point (k' : ℕ) : p.goto (p.point k c) k' c' = .next (p.point k' c') := by
  have hreach := congrFun (reach_point (k := k) (c := c) hwords) (p.address k')
  unfold goto
  rw [show (p.point k c).index = k from rfl, hreach, Nat.mod_eq_of_lt (hwords k')]
  rfl

include hf in
theorem step_point (hi : p.instr k = some i) : p.step bus (p.point k c) = p.after bus (p.point k c) i := by
  have hlt : k < p.items.length := by
    by_contra hge
    rw [instr, List.getElem?_eq_none (Nat.not_lt.mp hge)] at hi
    cases hi
  have hfetch : bus.fetch (p.point k c).cpu.mem (p.point k c).pc =
      some (p.place (p.address (p.point k c).index)) := hf k hlt
  rw [step, if_pos hfetch, show (p.point k c).index = k from rfl, hi, Option.elim_some]

include hwords hf

/-- An instruction that stays in the program. -/
theorem steps_of_after {k' : ℕ} (hi : p.instr k = some i)
    (hafter : p.after bus (p.point k c) i = p.goto (p.point k c) k' c') :
    p.Steps bus (p.point k c) (p.point k' c') := by
  refine .head ?_ (.refl _)
  rw [step_point hf hi, hafter, goto_point hwords]

/-- **Instructions on registers**, in a row. -/
theorem steps_ops (ops : List Op)
    (hops : ∀ j (hj : j < ops.length), p.instr (k + j) = some (.op (ops.get ⟨j, hj⟩))) :
    p.Steps bus (p.point k c) (p.point (k + ops.length) (ops.foldl Cpu.op c)) ∧
      (ops.foldl Cpu.op c).mem = c.mem := by
  induction ops generalizing k c with
  | nil => exact ⟨.refl _, rfl⟩
  | cons o ops ih =>
    have hmem : (c.op o).mem = c.mem := by
      cases o <;> exact Cpu.set_mem ..
    have hfirst : p.Steps bus (p.point k c) (p.point (k + 1) (c.op o)) := by
      refine steps_of_after hwords hf (hops 0 (Nat.succ_pos _)) ?_
      dsimp only [after, List.get]
      rw [show (p.point k c).index = k from rfl, reach_point hwords]
      rfl
    obtain ⟨hsteps, hmem'⟩ := ih (k := k + 1) (hmem ▸ hf) fun j hj => by
      have hnext := hops (j + 1) (Nat.succ_lt_succ hj)
      rwa [← Nat.add_assoc, Nat.add_right_comm] at hnext
    rw [Nat.add_right_comm] at hsteps
    exact ⟨hfirst.trans hsteps, hmem'.trans hmem⟩

/-- A block of them, and what it leaves alone. -/
theorem steps_block (clobbered : List Reg) (ops : List Op)
    (hops : ∀ j (hj : j < ops.length), p.instr (k + j) = some (.op (ops.get ⟨j, hj⟩)))
    (hrd : ∀ o ∈ ops, o.rd ∈ clobbered) :
    ∃ c', p.Steps bus (p.point k c) (p.point (k + ops.length) c') ∧ c' = ops.foldl Cpu.op c ∧
      c'.mem = c.mem ∧ c.Keeps clobbered c' := by
  obtain ⟨hsteps, hmem⟩ := steps_ops hwords hf ops hops
  exact ⟨_, hsteps, rfl, hmem, Cpu.keeps_ops ops hrd⟩

/-- **A store.** -/
theorem steps_store (rs base : Reg) (offset : ℕ) {m : σ} (hi : p.instr k = some (.sd rs offset base))
    (hstore : bus.store c.mem ((c.get base + offset) % wordSize) (c.get rs) = some m) :
    p.Steps bus (p.point k c) (p.point (k + 1) { c with mem := m }) := by
  refine steps_of_after hwords hf hi ?_
  rw [after, show (p.point k c).cpu = c from rfl, hstore]
  rfl

/-- **A load.** -/
theorem steps_load (rd base : Reg) (offset : ℕ) {v : ℕ} (hi : p.instr k = some (.ld rd offset base))
    (hload : bus.load c.mem ((c.get base + offset) % wordSize) = some v) :
    p.Steps bus (p.point k c) (p.point (k + 1) (c.set rd v)) := by
  refine steps_of_after hwords hf hi ?_
  rw [after, show (p.point k c).cpu = c from rfl, hload]
  rfl

theorem steps_satp {rs : Reg} (hi : p.instr k = some (.csrwSatp rs)) :
    p.Steps bus (p.point k c) (p.point (k + 1) { c with mem := bus.satp c.mem (c.get rs) }) :=
  steps_of_after hwords hf hi rfl

theorem steps_sfence (hi : p.instr k = some .sfence) :
    p.Steps bus (p.point k c) (p.point (k + 1) c) := steps_of_after hwords hf hi rfl

theorem steps_jump {l : L} (hi : p.instr k = some (.j l)) :
    p.Steps bus (p.point k c) (p.point (p.target l) c) := steps_of_after hwords hf hi rfl

/-- **A branch** that is taken. -/
theorem steps_taken {rs rs' : Reg} {l : L} (hi : p.instr k = some (.bgeu rs rs' l))
    (hle : c.get rs' ≤ c.get rs) : p.Steps bus (p.point k c) (p.point (p.target l) c) :=
  steps_of_after hwords hf hi (congrArg (p.goto _ · _) (if_pos hle))

theorem steps_notTaken {rs rs' : Reg} {l : L} (hi : p.instr k = some (.bgeu rs rs' l))
    (hlt : c.get rs < c.get rs') : p.Steps bus (p.point k c) (p.point (k + 1) c) :=
  steps_of_after hwords hf hi (congrArg (p.goto _ · _) (if_neg (Nat.not_le.mpr hlt)))

omit hwords in
/-- **A jump out of the program.** -/
theorem runs_jr (rs : Reg) (hi : p.instr k = some (.jr rs)) :
    p.Runs bus (p.point k c) (c.get rs / 2 * 2) c :=
  ⟨_, .refl _, step_point hf hi⟩

theorem runs_tail (symbol part : ℕ) (hi : p.instr k = some (.tail symbol part)) :
    p.Runs bus (p.point k c) (symbol % wordSize) (c.set .t1 part) := by
  refine ⟨_, .refl _, (step_point hf hi).trans ?_⟩
  dsimp only [after]
  rw [show (p.point k c).index = k from rfl, reach_point hwords]
  rfl

/-- Code that clears the doublewords from register `r` up to register `r'`. -/
structure Clears (p : Program L) (k : ℕ) (r r' : Reg) (top done : L) : Prop where
  ne_zero : r ≠ .zero
  ne : r' ≠ r
  test : p.instr k = some (.bgeu r r' done)
  clear : p.instr (k + 1) = some (.sd .zero 0 r)
  advance : p.instr (k + 2) = some (.op (.addi r r 8))
  again : p.instr (k + 3) = some (.j top)
  target : p.target top = k

omit hf in
/-- **A loop that clears memory**, doubleword by doubleword; `m i` is the memory after `i` of them. -/
theorem steps_clears {r r' : Reg} {top done : L} (h : p.Clears k r r' top done) {n : ℕ} :
    ∀ {c : Cpu σ} {start : ℕ} {m : ℕ → σ}, m 0 = c.mem → c.get r = start →
      c.get r' = start + 8 * n → start + 8 * n < wordSize → (∀ i ≤ n, Fetches bus p (m i)) →
      (∀ i < n, bus.store (m i) (start + 8 * i) 0 = some (m (i + 1))) →
      p.Steps bus (p.point k c)
        (p.point (p.target done) { c.set r (start + 8 * n) with mem := m n }) := by
  induction n with
  | zero =>
    intro c start m hm hstart hstop hword hfetch hstore
    have hsame : ({ c.set r (start + 8 * 0) with mem := m 0 } : Cpu σ) = c := by
      rw [Nat.mul_zero, Nat.add_zero, ← hstart, hm]
      simp [Cpu.set, Cpu.get, h.ne_zero]
    rw [hsame]
    exact steps_taken hwords (hm ▸ hfetch 0 le_rfl) h.test (by omega)
  | succ n ih =>
    intro c start m hm hstart hstop hword hfetch hstore
    have hf₀ : Fetches bus p c.mem := hm ▸ hfetch 0 (Nat.zero_le _)
    have hf₁ : Fetches bus p (m 1) := hfetch 1 (by omega)
    have htest := steps_notTaken hwords hf₀ h.test (by omega)
    have hclear := steps_store (k := k + 1) hwords hf₀ .zero r 0 h.clear (m := m 1) (by
      have := hstore 0 (Nat.succ_pos n)
      rw [hstart, Nat.add_zero, Nat.mod_eq_of_lt (by omega), ← hm]
      exact this)
    obtain ⟨c₁, hc₁⟩ : ∃ c₁ : Cpu σ, c₁ = { c with mem := m 1 } := ⟨_, rfl⟩
    have hget : ∀ x, c₁.get x = c.get x := by
      intro x
      rw [hc₁]
      rfl
    have hvalue : (start + 8) % wordSize = start + 8 := Nat.mod_eq_of_lt (by omega)
    rw [← hc₁] at hclear
    have hadvance : p.Steps bus (p.point (k + 2) c₁) (p.point (k + 3) (c₁.set r (start + 8))) := by
      obtain ⟨hsteps, -⟩ := steps_ops (k := k + 2) (c := c₁) hwords (by rw [hc₁]; exact hf₁)
        [.addi r r 8] (by
        intro j hj
        obtain rfl : j = 0 := Nat.lt_one_iff.mp hj
        exact h.advance)
      have hop : c₁.op (.addi r r 8) = c₁.set r (start + 8) := by
        rw [Cpu.op, Cpu.exec, hget, hstart, hvalue]
      rw [← hop]
      exact hsteps
    have hagain : p.Steps bus (p.point (k + 3) (c₁.set r (start + 8)))
        (p.point k (c₁.set r (start + 8))) := by
      have hjump := steps_jump (k := k + 3) (c := c₁.set r (start + 8)) hwords
        (by rw [Cpu.set_mem, hc₁]; exact hf₁) h.again
      rwa [h.target] at hjump
    have hrest := @ih (c₁.set r (start + 8)) (start + 8) (fun i => m (i + 1))
      (by rw [Cpu.set_mem, hc₁]) (by rw [Cpu.get_set _ _ h.ne_zero, if_pos rfl])
      (by rw [Cpu.get_set _ _ h.ne_zero, if_neg h.ne, hget, hstop]; omega) (by omega)
      (fun i hi => hfetch (i + 1) (by omega)) fun i hi => by
        have := hstore (i + 1) (by omega)
        rwa [show start + 8 * (i + 1) = start + 8 + 8 * i by omega] at this
    have hsame : ({ (c₁.set r (start + 8)).set r (start + 8 + 8 * n) with mem := m (n + 1) } : Cpu σ) =
        { c.set r (start + 8 * (n + 1)) with mem := m (n + 1) } := by
      rw [show start + 8 + 8 * n = start + 8 * (n + 1) by omega, hc₁]
      simp [Cpu.set, h.ne_zero]
    rw [hsame] at hrest
    exact htest.trans (hclear.trans (hadvance.trans (hagain.trans hrest)))

end Rules

end Program

end Assembly
