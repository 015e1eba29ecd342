import Mathlib.Tactic.Common
import Mathlib.Logic.Function.Basic
import Mathlib.Tactic.IntervalCases

/-!
# Supervisor code on a RISC-V hart

A hart has thirty-two registers, the supervisor control registers of traps, a byte-addressed memory,
a privilege mode and a program counter. Privileged code is a list of instructions whose jumps name
labels of the list; it runs until it calls a function or executes `sret`.

* `load`, `store`: little-endian doublewords; `slot base k` is the `k`-th doubleword from `base`;
* `Hart.trap`, `Hart.sret`: what the hart itself does on a trap and on `sret`;
* `exec`, `run`: one instruction without control flow, and code with its jumps;
* `Runs code rest h stop`: from `rest` the code stops at `stop`, with one rule for each instruction;
* **`load_saves`**, **`get_loads`**: blocks that save and reload registers, in any order.
-/

set_option autoImplicit false

namespace Riscv

/-- A machine word. -/
abbrev Word := BitVec 64

/-! ## Memory -/

/-- Bytes by address. -/
abbrev Memory := Word → BitVec 8

/-- The little-endian doubleword at an address. -/
def load (m : Memory) (a : Word) : Word :=
  m (a + 7) ++ m (a + 6) ++ m (a + 5) ++ m (a + 4) ++ m (a + 3) ++ m (a + 2) ++ m (a + 1) ++ m a

/-- Write a little-endian doubleword. -/
def store (m : Memory) (a v : Word) : Memory := fun x =>
  if (x - a).toNat < 8 then v.extractLsb' (8 * (x - a).toNat) 8 else m x

theorem getLsbD_load (m : Memory) (a : Word) {q r : ℕ} (hq : q < 8) (hr : r < 8) :
    (load m a).getLsbD (8 * q + r) = (m (a + BitVec.ofNat 64 q)).getLsbD r := by
  unfold load
  simp only [BitVec.getLsbD_append]
  interval_cases q
  all_goals
    simp (disch := omega) only [if_pos, if_neg, Nat.sub_sub, Nat.reduceMul, Nat.reduceAdd,
      Nat.zero_add, Nat.add_sub_cancel_left, BitVec.add_zero, BitVec.ofNat_eq_ofNat]

/-- Doublewords are equal when their bytes have equal bits. -/
theorem eq_of_bytes {v w : Word}
    (h : ∀ q < 8, ∀ r < 8, v.getLsbD (8 * q + r) = w.getLsbD (8 * q + r)) : v = w := by
  apply BitVec.eq_of_getLsbD_eq
  intro i hi
  have hbit := h (i / 8) (by omega) (i % 8) (by omega)
  rwa [Nat.div_add_mod] at hbit

theorem load_store_same (m : Memory) (a v : Word) : load (store m a v) a = v := by
  apply eq_of_bytes
  intro q hq r hr
  have hsub : (a + BitVec.ofNat 64 q - a).toNat = q := by
    bv_omega
  rw [getLsbD_load _ _ hq hr, store, hsub, if_pos hq, BitVec.getLsbD_extractLsb']
  simp [hr]

theorem load_store_of_disjoint (m : Memory) {a b : Word} (v : Word) (h : 8 ≤ (b - a).toNat)
    (h' : 8 ≤ (a - b).toNat) : load (store m a v) b = load m b := by
  apply eq_of_bytes
  intro q hq r hr
  have hsub : ¬ (b + BitVec.ofNat 64 q - a).toNat < 8 := by
    bv_omega
  rw [getLsbD_load _ _ hq hr, getLsbD_load _ _ hq hr, store, if_neg hsub]

/-- The address of the `k`-th doubleword from `base`. -/
def slot (base : Word) (k : ℕ) : Word := base + BitVec.ofNat 64 (8 * k)

theorem load_store_slot (m : Memory) (base v : Word) {j k : ℕ} (hj : j < 2 ^ 60) (hk : k < 2 ^ 60) :
    load (store m (slot base j) v) (slot base k) = if k = j then v else load m (slot base k) := by
  by_cases h : k = j
  · subst h
    rw [if_pos rfl, load_store_same]
  · rw [if_neg h]
    apply load_store_of_disjoint <;> simp only [slot] <;> bv_omega

/-! ## The hart -/

/-- A register by its architectural number. -/
abbrev Reg := Fin 32

namespace Reg

abbrev zero : Reg := 0
abbrev ra : Reg := 1
abbrev sp : Reg := 2
abbrev gp : Reg := 3
abbrev tp : Reg := 4
abbrev t0 : Reg := 5
abbrev t1 : Reg := 6
abbrev t2 : Reg := 7
abbrev s0 : Reg := 8
abbrev s1 : Reg := 9
abbrev a0 : Reg := 10
abbrev a1 : Reg := 11
abbrev a2 : Reg := 12
abbrev a3 : Reg := 13
abbrev a4 : Reg := 14
abbrev a5 : Reg := 15
abbrev a6 : Reg := 16
abbrev a7 : Reg := 17
abbrev s2 : Reg := 18
abbrev s3 : Reg := 19
abbrev s4 : Reg := 20
abbrev s5 : Reg := 21
abbrev s6 : Reg := 22
abbrev s7 : Reg := 23
abbrev s8 : Reg := 24
abbrev s9 : Reg := 25
abbrev s10 : Reg := 26
abbrev s11 : Reg := 27
abbrev t3 : Reg := 28
abbrev t4 : Reg := 29
abbrev t5 : Reg := 30
abbrev t6 : Reg := 31

/-- The registers a function returns unchanged to its caller. -/
def preserved : List Reg := [sp, gp, tp, s0, s1, s2, s3, s4, s5, s6, s7, s8, s9, s10, s11]

end Reg

/-- The supervisor control registers of trap handling. -/
inductive Csr where
  | sstatus
  | sscratch
  | sepc
  | scause
  | stval
  deriving DecidableEq

inductive Mode where
  | user
  | supervisor
  deriving DecidableEq

/-- The state of a hart. -/
@[ext]
structure Hart where
  regs : Reg → Word
  csrs : Csr → Word
  mem : Memory
  mode : Mode
  pc : Word

namespace Hart

/-- The value of a register; `zero` reads as zero. -/
def get (h : Hart) (r : Reg) : Word := if r = .zero then 0 else h.regs r

/-- Write a register; a write to `zero` is ignored. -/
def set (h : Hart) (r : Reg) (v : Word) : Hart :=
  if r = .zero then h else { h with regs := Function.update h.regs r v }

/-- Write a control register. -/
def setCsr (h : Hart) (c : Csr) (v : Word) : Hart := { h with csrs := Function.update h.csrs c v }

/-- Write a doubleword of memory. -/
def write (h : Hart) (a v : Word) : Hart := { h with mem := store h.mem a v }

@[simp] theorem get_zero (h : Hart) : h.get .zero = 0 := rfl

theorem get_set_same (h : Hart) {r : Reg} (v : Word) (hr : r ≠ .zero) : (h.set r v).get r = v := by
  simp [get, set, hr]

theorem get_set_of_ne (h : Hart) {r r' : Reg} (v : Word) (hr : r' ≠ r) :
    (h.set r v).get r' = h.get r' := by
  by_cases h0 : r = .zero
  · simp [set, h0]
  · simp [get, set, h0, hr]

@[simp] theorem set_csrs (h : Hart) (r : Reg) (v : Word) : (h.set r v).csrs = h.csrs := by
  unfold set
  split <;> rfl

@[simp] theorem set_mem (h : Hart) (r : Reg) (v : Word) : (h.set r v).mem = h.mem := by
  unfold set
  split <;> rfl

@[simp] theorem set_mode (h : Hart) (r : Reg) (v : Word) : (h.set r v).mode = h.mode := by
  unfold set
  split <;> rfl

@[simp] theorem get_setCsr (h : Hart) (c : Csr) (v : Word) (r : Reg) :
    (h.setCsr c v).get r = h.get r := by
  simp only [get, setCsr]

@[simp] theorem setCsr_csrs (h : Hart) (c c' : Csr) (v : Word) :
    (h.setCsr c v).csrs c' = if c' = c then v else h.csrs c' := by
  simp [setCsr, Function.update_apply]

@[simp] theorem setCsr_mem (h : Hart) (c : Csr) (v : Word) : (h.setCsr c v).mem = h.mem := by
  simp only [setCsr]

@[simp] theorem setCsr_mode (h : Hart) (c : Csr) (v : Word) : (h.setCsr c v).mode = h.mode := by
  simp only [setCsr]

@[simp] theorem get_write (h : Hart) (a v : Word) (r : Reg) : (h.write a v).get r = h.get r := by
  simp only [get, write]

@[simp] theorem write_csrs (h : Hart) (a v : Word) : (h.write a v).csrs = h.csrs := by
  simp only [write]

@[simp] theorem write_mem (h : Hart) (a v : Word) : (h.write a v).mem = store h.mem a v := by
  simp only [write]

@[simp] theorem write_mode (h : Hart) (a v : Word) : (h.write a v).mode = h.mode := by
  simp only [write]

end Hart

/-! ## Status -/

/-- Set bit `i` of a word to `b`. -/
def setBit (w : Word) (i : ℕ) (b : Bool) : Word :=
  if b then w ||| BitVec.twoPow 64 i else w &&& ~~~ BitVec.twoPow 64 i

theorem getLsbD_setBit (w : Word) {i : ℕ} (b : Bool) (j : ℕ) (hi : i < 64) :
    (setBit w i b).getLsbD j = if j = i then b else w.getLsbD j := by
  by_cases hji : j = i
  · subst hji
    cases b <;> simp [setBit, hi]
  · by_cases hj : j < 64
    · cases b <;> simp [setBit, hji, hj]
    · simp [setBit, hji, BitVec.getLsbD_of_ge _ j (by omega : 64 ≤ j)]

/-- Supervisor interrupts are enabled. -/
def SIE : ℕ := 1

/-- Supervisor interrupts were enabled before the trap. -/
def SPIE : ℕ := 5

/-- The trap was taken in supervisor mode. -/
def SPP : ℕ := 8

/-- The status after a trap taken in `mode`. -/
def trapStatus (status : Word) (mode : Mode) : Word :=
  setBit (setBit (setBit status SPP (mode = .supervisor)) SPIE (status.getLsbD SIE)) SIE false

/-- The status after `sret`. -/
def sretStatus (status : Word) : Word :=
  setBit (setBit (setBit status SIE (status.getLsbD SPIE)) SPIE true) SPP false

namespace Hart

/-- The hart takes a trap to the supervisor code. -/
def trap (h : Hart) (cause value : Word) : Hart :=
  let h := (((h.setCsr .sepc h.pc).setCsr .scause cause).setCsr .stval value).setCsr .sstatus
    (trapStatus (h.csrs .sstatus) h.mode)
  { h with mode := .supervisor }

/-- The hart returns from a trap. -/
def sret (h : Hart) : Hart :=
  { h.setCsr .sstatus (sretStatus (h.csrs .sstatus)) with
    mode := if (h.csrs .sstatus).getLsbD SPP then .supervisor else .user
    pc := h.csrs .sepc }

@[simp] theorem get_sret (h : Hart) (r : Reg) : h.sret.get r = h.get r := by
  simp only [get, sret, setCsr]

theorem sret_csrs (h : Hart) (c : Csr) :
    h.sret.csrs c = if c = .sstatus then sretStatus (h.csrs .sstatus) else h.csrs c :=
  setCsr_csrs ..

end Hart

/-! ## Code -/

/-- Instructions of supervisor code with labels `L`; immediates are given sign-extended. -/
inductive Instr (L : Type) where
  | csrrw (rd : Reg) (csr : Csr) (rs : Reg)
  | csrr (rd : Reg) (csr : Csr)
  | csrw (csr : Csr) (rs : Reg)
  | csrc (csr : Csr) (rs : Reg)
  | csrci (csr : Csr) (mask : Word)
  | addi (rd rs : Reg) (value : Word)
  | andi (rd rs : Reg) (mask : Word)
  | li (rd : Reg) (value : Word)
  | la (rd : Reg) (address : Word)
  | mv (rd rs : Reg)
  | sd (rs : Reg) (offset : Word) (base : Reg)
  | ld (rd : Reg) (offset : Word) (base : Reg)
  | fenceI
  | bnez (rs : Reg) (target : L)
  | j (target : L)
  | label (name : L)
  /-- A call that leaves the return address `link`. -/
  | call (link : Word)
  | sret

variable {L : Type}

/-- One instruction without control flow. -/
def exec (h : Hart) : Instr L → Hart
  | .csrrw rd csr rs => (h.setCsr csr (h.get rs)).set rd (h.csrs csr)
  | .csrr rd csr => h.set rd (h.csrs csr)
  | .csrw csr rs => h.setCsr csr (h.get rs)
  | .csrc csr rs => h.setCsr csr (h.csrs csr &&& ~~~ h.get rs)
  | .csrci csr mask => h.setCsr csr (h.csrs csr &&& ~~~ mask)
  | .addi rd rs value => h.set rd (h.get rs + value)
  | .andi rd rs mask => h.set rd (h.get rs &&& mask)
  | .li rd value => h.set rd value
  | .la rd address => h.set rd address
  | .mv rd rs => h.set rd (h.get rs)
  | .sd rs offset base => h.write (h.get base + offset) (h.get rs)
  | .ld rd offset base => h.set rd (load h.mem (h.get base + offset))
  | _ => h

/-- An instruction after which the next one is executed. -/
def Instr.straight : Instr L → Bool
  | .bnez .. | .j .. | .call .. | .sret => false
  | _ => true

/-- Where privileged code stops. -/
inductive Stop (L : Type) where
  /-- A function is called; `rest` is the code at its return address. -/
  | call (rest : List (Instr L)) (hart : Hart)
  /-- The next instruction is `sret`. -/
  | sret (hart : Hart)

section Run

variable [DecidableEq L]

/-- The code behind a label. -/
def target : List (Instr L) → L → List (Instr L)
  | [], _ => []
  | .label name :: rest, l => if name = l then rest else target rest l
  | _ :: rest, l => target rest l

/-- Run `code` from `rest` for at most the given number of instructions. -/
def run (code : List (Instr L)) : ℕ → List (Instr L) → Hart → Option (Stop L)
  | 0, _, _ => none
  | _ + 1, [], _ => none
  | n + 1, i :: rest, h =>
    match i with
    | .bnez rs l => if h.get rs ≠ 0 then run code n (target code l) h else run code n rest h
    | .j l => run code n (target code l) h
    | .call link => some (.call rest (h.set .ra link))
    | .sret => some (.sret h)
    | i => run code n rest (exec h i)

/-- From `rest` the code reaches `stop`. -/
def Runs (code rest : List (Instr L)) (h : Hart) (stop : Stop L) : Prop :=
  ∃ n, run code n rest h = some stop

variable {code rest : List (Instr L)} {h : Hart} {stop : Stop L}

theorem run_of_straight {i : Instr L} (hi : i.straight = true) (n : ℕ) :
    run code (n + 1) (i :: rest) h = run code n rest (exec h i) := by
  cases i <;> first | rfl | simp [Instr.straight] at hi

theorem Runs.straight {is : List (Instr L)} (his : ∀ i ∈ is, i.straight = true)
    (hrest : Runs code rest (is.foldl exec h) stop) : Runs code (is ++ rest) h stop := by
  induction is generalizing h with
  | nil => exact hrest
  | cons i is ih =>
    obtain ⟨n, hn⟩ := ih (fun k hk => his k (List.mem_cons_of_mem i hk)) hrest
    refine ⟨n + 1, ?_⟩
    rw [List.cons_append, run_of_straight (his i (List.mem_cons_self ..))]
    exact hn

theorem Runs.taken {rs : Reg} {l : L} (hrs : h.get rs ≠ 0)
    (hrest : Runs code (target code l) h stop) : Runs code (.bnez rs l :: rest) h stop := by
  obtain ⟨n, hn⟩ := hrest
  exact ⟨n + 1, by rw [← hn]; exact if_pos hrs⟩

theorem Runs.notTaken {rs : Reg} {l : L} (hrs : h.get rs = 0) (hrest : Runs code rest h stop) :
    Runs code (.bnez rs l :: rest) h stop := by
  obtain ⟨n, hn⟩ := hrest
  exact ⟨n + 1, by rw [← hn]; exact if_neg (not_not_intro hrs)⟩

theorem Runs.jump {l : L} (hrest : Runs code (target code l) h stop) :
    Runs code (.j l :: rest) h stop := by
  obtain ⟨n, hn⟩ := hrest
  exact ⟨n + 1, hn⟩

theorem Runs.call {link : Word} :
    Runs code (.call link :: rest) h (.call rest (h.set .ra link)) := ⟨1, rfl⟩

theorem Runs.sret : Runs code (.sret :: rest) h (.sret h) := ⟨1, rfl⟩

theorem run_mono {n : ℕ} (hn : run code n rest h = some stop) (k : ℕ) :
    run code (n + k) rest h = some stop := by
  induction n generalizing rest h with
  | zero => simp [run] at hn
  | succ n ih =>
    rw [Nat.add_right_comm]
    cases rest with
    | nil => simp [run] at hn
    | cons i rest =>
      by_cases hi : i.straight = true
      · rw [run_of_straight hi] at hn ⊢
        exact ih hn
      · cases i with
        | bnez rs l =>
          by_cases hrs : h.get rs = 0
          · simp only [run, hrs, ne_eq, not_true_eq_false, if_false] at hn ⊢
            exact ih hn
          · simp only [run, ne_eq, hrs, not_false_eq_true, if_true] at hn ⊢
            exact ih hn
        | j l => exact ih hn
        | call link => exact hn
        | sret => exact hn
        | _ => exact absurd rfl hi

/-- Code stops in one way only. -/
theorem Runs.unique {stop' : Stop L} (hr : Runs code rest h stop) (hr' : Runs code rest h stop') :
    stop = stop' := by
  obtain ⟨n, hn⟩ := hr
  obtain ⟨m, hm⟩ := hr'
  have h₁ := run_mono hn m
  have h₂ := run_mono hm n
  rw [Nat.add_comm, h₁] at h₂
  exact Option.some.inj h₂

end Run

/-! ## Blocks of saves and loads -/

/-- Save the registers of a list, each in its slot above `base`. -/
def saves (base : Reg) (rs : List (Reg × ℕ)) : List (Instr L) :=
  rs.map fun p => .sd p.1 (BitVec.ofNat 64 (8 * p.2)) base

/-- Load the registers of a list, each from its slot above `base`. -/
def loads (base : Reg) (rs : List (Reg × ℕ)) : List (Instr L) :=
  rs.map fun p => .ld p.1 (BitVec.ofNat 64 (8 * p.2)) base

theorem straight_saves (base : Reg) (rs : List (Reg × ℕ)) :
    ∀ i ∈ (saves base rs : List (Instr L)), i.straight = true := by
  simp only [saves, List.mem_map]
  rintro i ⟨p, hp, rfl⟩
  rfl

theorem straight_loads (base : Reg) (rs : List (Reg × ℕ)) :
    ∀ i ∈ (loads base rs : List (Instr L)), i.straight = true := by
  simp only [loads, List.mem_map]
  rintro i ⟨p, hp, rfl⟩
  rfl

/-- A save touches nothing but memory. -/
theorem foldl_saves (base : Reg) (rs : List (Reg × ℕ)) (h : Hart) :
    (saves base rs : List (Instr L)).foldl exec h =
      { h with mem := rs.foldl (fun m p => store m (slot (h.get base) p.2) (h.get p.1)) h.mem } := by
  induction rs generalizing h with
  | nil => rfl
  | cons p rs ih => exact ih (exec h (.sd (L := L) p.1 (BitVec.ofNat 64 (8 * p.2)) base))

@[simp] theorem get_foldl_saves (base : Reg) (rs : List (Reg × ℕ)) (h : Hart) (r : Reg) :
    ((saves base rs : List (Instr L)).foldl exec h).get r = h.get r := by
  rw [foldl_saves]
  rfl

@[simp] theorem csrs_foldl_saves (base : Reg) (rs : List (Reg × ℕ)) (h : Hart) :
    ((saves base rs : List (Instr L)).foldl exec h).csrs = h.csrs := by
  rw [foldl_saves]

@[simp] theorem mode_foldl_saves (base : Reg) (rs : List (Reg × ℕ)) (h : Hart) :
    ((saves base rs : List (Instr L)).foldl exec h).mode = h.mode := by
  rw [foldl_saves]

theorem load_foldl_store (base : Word) (value : Reg → Word) {rs : List (Reg × ℕ)}
    (hrs : ∀ p ∈ rs, p.2 < 2 ^ 60) (m : Memory) {k : ℕ} (hk : k < 2 ^ 60) :
    load (rs.foldl (fun m p => store m (slot base p.2) (value p.1)) m) (slot base k) =
      ((rs.reverse.find? fun p => p.2 = k).map fun p => value p.1).getD (load m (slot base k)) := by
  induction rs generalizing m with
  | nil => rfl
  | cons p rs ih =>
    rw [List.foldl_cons, ih (fun q hq => hrs q (List.mem_cons_of_mem p hq)),
      load_store_slot _ _ _ (hrs p (List.mem_cons_self ..)) hk, List.reverse_cons, List.find?_append]
    cases rs.reverse.find? fun p => p.2 = k with
    | some q => rfl
    | none =>
      by_cases hpk : k = p.2
      · simp [hpk]
      · have hkp : ¬ p.2 = k := fun h => hpk h.symm
        simp [hpk, hkp]

/-- **What a block of saves leaves in a slot.** -/
theorem load_saves (base : Reg) {rs : List (Reg × ℕ)} (hrs : ∀ p ∈ rs, p.2 < 2 ^ 60) (h : Hart)
    {k : ℕ} (hk : k < 2 ^ 60) :
    load ((saves base rs : List (Instr L)).foldl exec h).mem (slot (h.get base) k) =
      ((rs.reverse.find? fun p => p.2 = k).map fun p => h.get p.1).getD
        (load h.mem (slot (h.get base) k)) := by
  rw [foldl_saves]
  exact load_foldl_store (h.get base) h.get hrs h.mem hk

/-- Loads touch nothing but the registers loaded. -/
theorem foldl_loads (base : Reg) (rs : List (Reg × ℕ)) (h : Hart) :
    ((loads base rs : List (Instr L)).foldl exec h).csrs = h.csrs ∧
      ((loads base rs : List (Instr L)).foldl exec h).mem = h.mem ∧
        ((loads base rs : List (Instr L)).foldl exec h).mode = h.mode := by
  induction rs generalizing h with
  | nil => exact ⟨rfl, rfl, rfl⟩
  | cons p rs ih =>
    obtain ⟨hcsrs, hmem, hmode⟩ := ih (exec h (.ld (L := L) p.1 (BitVec.ofNat 64 (8 * p.2)) base))
    refine ⟨hcsrs.trans ?_, hmem.trans ?_, hmode.trans ?_⟩
    · exact Hart.set_csrs ..
    · exact Hart.set_mem ..
    · exact Hart.set_mode ..

/-- **What a block of loads leaves in a register.** -/
theorem get_loads (base : Reg) {rs : List (Reg × ℕ)}
    (hrs : ∀ p ∈ rs, p.1 ≠ .zero ∧ p.1 ≠ base) (h : Hart) (r : Reg) :
    ((loads base rs : List (Instr L)).foldl exec h).get r =
      ((rs.reverse.find? fun p => p.1 = r).map fun p => load h.mem (slot (h.get base) p.2)).getD
        (h.get r) := by
  induction rs generalizing h with
  | nil => rfl
  | cons p rs ih =>
    obtain ⟨hzero, hbase⟩ := hrs p (List.mem_cons_self ..)
    have hih := ih (fun q hq => hrs q (List.mem_cons_of_mem p hq))
      (exec h (.ld (L := L) p.1 (BitVec.ofNat 64 (8 * p.2)) base))
    have hget : ∀ r', (exec h (.ld (L := L) p.1 (BitVec.ofNat 64 (8 * p.2)) base)).get r' =
        if r' = p.1 then load h.mem (slot (h.get base) p.2) else h.get r' := by
      intro r'
      by_cases hr' : r' = p.1
      · rw [if_pos hr', hr']
        exact Hart.get_set_same _ _ hzero
      · rw [if_neg hr']
        exact Hart.get_set_of_ne _ _ hr'
    rw [loads, List.map_cons, List.foldl_cons]
    refine hih.trans ?_
    rw [hget, hget, if_neg (fun h => hbase h.symm), List.reverse_cons, List.find?_append]
    cases rs.reverse.find? fun p => p.1 = r with
    | some q => simp [exec]
    | none =>
      by_cases hpr : r = p.1
      · simp [hpr]
      · have hrp : ¬ p.1 = r := fun h => hpr h.symm
        simp [hpr, hrp]

end Riscv
