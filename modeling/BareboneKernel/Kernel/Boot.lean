import BareboneKernel.Kernel.Linker
import BareboneKernel.Lib.Assembly

/-!
# From reset to `main`

`_start` runs at the physical load address without translation. It clears the boot page table, maps
the gigabyte of the kernel at its own address and in the upper half, installs the table and jumps to
the upper half, where `__high_half_start` sets up the stack, clears `.bss` and enters `main`.

* `startProgram`, `highProgram`: the code, at the addresses it is linked for;
* `BootImage`: where the assembler and the linker have put the code and the literal it loads;
* `Machine.tabled`, `Machine.booted`: the memory after either part;
* **`boot_enters_main`**: the code reaches `main`, with exactly two gigabytes mapped, the boot
  contract of the paging code met, and all other memory unchanged.
-/

set_option autoImplicit false

namespace Barebone.Kernel

open Word Endian Sv39
open Riscv (Reg)
open Assembly (Bus Cpu Program)

/-! ## Code -/

/-- Labels of `_start`. -/
inductive StartLabel where
  | clearBootPageTable
  | bootPageTableCleared
  deriving DecidableEq

/-- Labels of `__high_half_start`. -/
inductive HighLabel where
  | bssLoop
  | bssDone
  deriving DecidableEq

def pteByteShift : ℕ := 3

def vpn2Mask : ℕ := 0x1ff

def pteVrwxad : ℕ := 0xcf

/-- **The linked image with its code**: the addresses of the instructions and of the literal that
`_start` loads. -/
structure BootImage extends Linked where
  startAddress : ℕ → ℕ
  highHalfStartAddress : ℕ
  highAddress : ℕ → ℕ
  main : ℕ
  /-- What `tail main` leaves in `t1`. -/
  mainPart : ℕ
  start_first : startAddress 0 = kernelAddress
  start_mem : ∀ k, kernelAddress ≤ startAddress k ∧ startAddress k ≤ kernelAddress + bootBytes
  literal_aligned : highHalfStartAddress % 8 = 0
  literal_mem : kernelAddress ≤ highHalfStartAddress ∧
    highHalfStartAddress + 8 ≤ kernelAddress + bootBytes
  high_first : highAddress 0 = toLinkerInput.textStart
  high_mem : ∀ k, toLinkerInput.textStart ≤ highAddress k ∧ highAddress k ≤ toLinkerInput.textEnd
  main_mem : toLinkerInput.textStart ≤ main ∧ main ≤ toLinkerInput.textEnd

section Code

variable (b : BootImage)

/-- `_start` -/
def startProgram : Program StartLabel where
  items := [
    (none, .op (.la .t0 b.bootPageTable)),
    (none, .op (.mv .t1 .t0)),
    (none, .op (.li .t2 pageSize)),
    (none, .op (.add .t2 .t0 .t2)),
    (some .clearBootPageTable, .bgeu .t1 .t2 .bootPageTableCleared),
    (none, .sd .zero 0 .t1),
    (none, .op (.addi .t1 .t1 8)),
    (none, .j .clearBootPageTable),
    (some .bootPageTableCleared, .op (.la .t5 b.highHalfStartAddress)),
    (none, .ld .t6 0 .t5),
    (none, .op (.la .t3 (b.startAddress 0))),
    (none, .op (.srli .t3 .t3 gigapageShift)),
    (none, .op (.slli .t3 .t3 gigapageShift)),
    (none, .op (.srli .t4 .t3 2)),
    (none, .op (.ori .t4 .t4 pteVrwxad)),
    (none, .op (.srli .t5 .t3 gigapageShift)),
    (none, .op (.andi .t5 .t5 vpn2Mask)),
    (none, .op (.slli .t5 .t5 pteByteShift)),
    (none, .op (.add .t5 .t0 .t5)),
    (none, .sd .t4 0 .t5),
    (none, .op (.srli .t5 .t6 gigapageShift)),
    (none, .op (.andi .t5 .t5 vpn2Mask)),
    (none, .op (.slli .t5 .t5 pteByteShift)),
    (none, .op (.add .t5 .t0 .t5)),
    (none, .sd .t4 0 .t5),
    (none, .sfence),
    (none, .op (.srli .t1 .t0 pageShift)),
    (none, .op (.li .t2 satpModeSv39)),
    (none, .op (.slli .t2 .t2 satpModeShift)),
    (none, .op (.or .t1 .t1 .t2)),
    (none, .csrwSatp .t1),
    (none, .sfence),
    (none, .jr .t6)]
  address := b.startAddress
  -- the boot part is linked where it is loaded
  place := id

/-- `__high_half_start` -/
def highProgram : Program HighLabel where
  items := [
    (none, .op (.la .gp b.globalPointer)),
    (none, .op (.la .sp b.stackEnd)),
    (none, .op (.la .t0 b.bssStart)),
    (none, .op (.la .t1 b.bssEnd)),
    (some .bssLoop, .bgeu .t0 .t1 .bssDone),
    (none, .sd .zero 0 .t0),
    (none, .op (.addi .t0 .t0 8)),
    (none, .j .bssLoop),
    (some .bssDone, .tail b.main b.mainPart)]
  address := b.highAddress
  place address := b.kernelAddress + (address - b.kernelVirtualStart)

end Code

/-! ## The machine -/

/-- Supervisor code may be executed through the leaf. -/
def executable (leaf : Leaf) : Bool := leaf.execute && leaf.accessed && !leaf.user

namespace Machine

/-- The physical address behind an address; without a translation mode they are the same. -/
def reach (m : Machine) (granted : Leaf → Bool) (va : ℕ) : Option ℕ :=
  if m.satp / 2 ^ 60 = 0 then some va else physical m granted va

/-- `reach` for an aligned doubleword. -/
def reachWord (m : Machine) (granted : Leaf → Bool) (va : ℕ) : Option ℕ :=
  if va % 8 = 0 then m.reach granted va else none

end Machine

def machineBus : Bus Machine where
  fetch m va := m.reach executable va
  load m va := (m.reachWord readable va).map (readWord m.memory)
  store m va value := (m.reachWord writable va).map fun pa => m.store pa (toLE 8 value)
  satp m value := { m with satp := value }

/-! ## The memory after either part -/

/-- The gigabyte in which the kernel is loaded. -/
def Linked.gigabyte (l : Linked) : ℕ := l.kernelAddress / 2 ^ 30

/-- The leaf of that gigabyte. -/
def Linked.leafEntry (l : Linked) : ℕ := l.gigabyte * 2 ^ 18 * 2 ^ 10 + pteVrwxad

/-- The frame of the boot page table. -/
def Linked.rootFrame (l : Linked) : ℕ := l.bootPageTable / frameSize

/-- The root entry of the lower half. -/
def Linked.lowIndex (l : Linked) : Fin 512 := ⟨l.gigabyte % 512, Nat.mod_lt _ (by decide)⟩

/-- The machine once the boot page table is active. -/
def Machine.tabled (l : Linked) (m : Machine) : Machine :=
  { ((m.zero l.rootFrame).setEntry l.rootFrame l.lowIndex l.leafEntry).setEntry l.rootFrame 510
      l.leafEntry with satp := 8 * 2 ^ 60 + l.rootFrame }

/-- Where the zeroed data of the kernel is loaded. -/
def Linked.bssPlace (l : Linked) : ℕ := l.kernelAddress + (l.bssStart - l.kernelVirtualStart)

/-- The machine on entry to `main`. -/
def Machine.booted (l : Linked) (m : Machine) : Machine :=
  (m.tabled l).store l.bssPlace (List.replicate (l.bssEnd - l.bssStart) 0)

/-! ## The two gigabytes -/

section Arithmetic

variable (l : Linked)

theorem rootFrame_mul : l.rootFrame * frameSize = l.bootPageTable := by
  have hmod : l.bootPageTable % frameSize = 0 := roundUp_mod (k := pageSize)
  exact Nat.div_mul_cancel (Nat.dvd_of_mod_eq_zero hmod)

/-- The image lies in one gigabyte of physical memory. -/
theorem physical_bounds : l.gigabyte * 2 ^ 30 ≤ l.kernelAddress ∧
    l.kernelAddress = l.gigabyte * 2 ^ 30 + l.kernelOffset ∧
    l.kernelPhysicalEnd ≤ l.gigabyte * 2 ^ 30 + 2 ^ 30 := by
  have h₁ := l.address_offset
  have h₂ := l.physical
  rw [gigapageSize_eq] at h₁ h₂
  unfold Linked.gigabyte
  omega

theorem leafEntry_le (hlow : l.kernelAddress < 2 ^ 38) : l.leafEntry ≤ wordMax := by
  have hmax := wordMax_eq
  have hflags : pteVrwxad = 207 := by decide
  unfold Linked.leafEntry Linked.gigabyte
  omega

/-- The virtual addresses of the image lie as far apart as the physical ones. -/
theorem virtual_bounds : kernelHighBase ≤ l.kernelVirtualStart ∧
    l.kernelVirtualStart = kernelHighBase + l.kernelOffset ∧
    l.kernelVirtualStart + l.bootSize ≤ l.textStart ∧ l.textStart ≤ l.textEnd ∧
    l.textEnd ≤ l.bssStart ∧ l.bssStart ≤ l.bssEnd ∧ l.bssEnd ≤ l.stackEnd ∧
    l.stackEnd ≤ l.kernelVirtualEnd ∧ l.kernelVirtualEnd ≤ kernelHighBase + 2 ^ 30 := by
  obtain ⟨⟨h₀, h₁⟩, ⟨h₂, h₃⟩, ⟨h₄, h₅⟩, ⟨h₆, h₇⟩, ⟨h₈, h₉⟩, h₁₀⟩ := l.toLinkerInput.ordered
  have h := l.virtual
  rw [gigapageSize_eq] at h
  exact ⟨Nat.le_add_right _ _, rfl, h₀, h₁, by omega, h₇, by omega, h₁₀, h⟩

end Arithmetic

/-- **The boot address space**: the boot page table is active, and maps the gigabyte of the kernel
twice. -/
structure Mapped (l : Linked) (m : Machine) : Prop where
  satp : m.satp = 8 * 2 ^ 60 + l.rootFrame
  entries : ∀ i, m.entries l.rootFrame i =
    if i = 510 ∨ i = l.lowIndex then l.leafEntry else 0

section Mapped

variable {l : Linked} {m : Machine} (hlow : l.kernelAddress < 2 ^ 38)

/-- The leaf behind an address of the two gigabytes. -/
def bootLeaf (pa : ℕ) : Leaf := leafOf pteVrwxad (pa / frameSize)

theorem rootFrame_lt (hlow : l.kernelAddress < 2 ^ 38) : l.rootFrame < 2 ^ 26 := by
  obtain ⟨-, hend⟩ := mem_kernelRange_bootPageTable l
  obtain ⟨-, -, hgiga⟩ := physical_bounds l
  have hsize : pageSize = 4096 := by decide
  unfold LinkerInput.bootPageTableEnd at hend
  unfold Linked.gigabyte at hgiga
  unfold Linked.rootFrame frameSize
  omega

include hlow

theorem Mapped.mode (h : Mapped l m) : m.satp / 2 ^ 60 = 8 := by
  have := rootFrame_lt hlow
  rw [h.satp]
  omega

theorem Mapped.root (h : Mapped l m) : m.root = l.rootFrame := by
  have := rootFrame_lt hlow
  rw [Machine.root, h.satp]
  omega

theorem Mapped.translate_entry (h : Mapped l m) {va : ℕ} (hva : Canonical va)
    (hindex : (vpn va).vpn2 = 510 ∨ (vpn va).vpn2 = l.lowIndex) :
    m.translate va = some (l.gigabyte * 2 ^ 30 + va % 2 ^ 30,
      bootLeaf (l.gigabyte * 2 ^ 30 + va % 2 ^ 30)) := by
  have hn : l.gigabyte < 2 ^ 26 := by
    unfold Linked.gigabyte
    omega
  have hentry : m.entries m.root (vpn va).vpn2 = l.gigabyte * 2 ^ 18 * 2 ^ 10 + pteVrwxad := by
    rw [h.root hlow, h.entries, if_pos hindex, Linked.leafEntry]
  rw [Machine.translate, if_pos (h.mode hlow),
    translate_gigapage hva hn (by decide) (by decide) (by decide) hentry]
  rfl

/-- The gigabyte of the kernel at its own addresses. -/
theorem Mapped.translate_low (h : Mapped l m) {va : ℕ} (hva : va / 2 ^ 30 = l.gigabyte) :
    m.translate va = some (va, bootLeaf va) := by
  have hgiga : l.gigabyte < 2 ^ 8 := by
    unfold Linked.gigabyte
    omega
  have hcanonical : Canonical va := by
    unfold Canonical
    omega
  have hpa : l.gigabyte * 2 ^ 30 + va % 2 ^ 30 = va := by omega
  have hindex : (vpn va).vpn2 = l.lowIndex := Fin.ext (by
    show va / 2 ^ 30 % 512 = l.gigabyte % 512
    rw [hva])
  rw [h.translate_entry hlow hcanonical (.inr hindex), hpa]

/-- The gigabyte of the kernel in the upper half. -/
theorem Mapped.translate_high (h : Mapped l m) {va : ℕ} (hle : kernelHighBase ≤ va)
    (hlt : va < kernelHighBase + 2 ^ 30) :
    m.translate va = some (l.gigabyte * 2 ^ 30 + (va - kernelHighBase),
      bootLeaf (l.gigabyte * 2 ^ 30 + (va - kernelHighBase))) := by
  have hbase := kernelHighBase_eq
  have hcanonical : Canonical va := by
    unfold Canonical
    omega
  have hpa : va % 2 ^ 30 = va - kernelHighBase := by omega
  have hindex : (vpn va).vpn2 = 510 := Fin.ext (by
    show va / 2 ^ 30 % 512 = 510
    omega)
  rw [h.translate_entry hlow hcanonical (.inl hindex), hpa]

/-- Nothing else is mapped. -/
theorem Mapped.mem_of_translate (h : Mapped l m) {va : ℕ} {x : ℕ × Leaf}
    (hx : m.translate va = some x) :
    va / 2 ^ 30 = l.gigabyte ∨ kernelHighBase ≤ va ∧ va < kernelHighBase + 2 ^ 30 := by
  have hbase := kernelHighBase_eq
  have hgiga : l.gigabyte < 2 ^ 8 := by
    unfold Linked.gigabyte
    omega
  rw [Machine.translate, if_pos (h.mode hlow), h.root hlow] at hx
  obtain ⟨hcanonical, hwalk⟩ := walk_of_translate hx
  by_cases hindex : (vpn va).vpn2 = 510 ∨ (vpn va).vpn2 = l.lowIndex
  · have hvalue : va / 2 ^ 30 % 512 = 510 ∨ va / 2 ^ 30 % 512 = l.gigabyte % 512 :=
      hindex.imp (congrArg Fin.val) (congrArg Fin.val)
    unfold Canonical at hcanonical
    omega
  · rw [walk, h.entries, if_neg hindex] at hwalk
    cases hwalk

/-- The boot contract of the paging code. -/
theorem Mapped.identity (h : Mapped l m) {root : VirtAddr} (hroot : root.asUsize = l.bootPageTable) :
    BootstrapPaging.Identity ⟨root⟩ m := by
  obtain ⟨hle, hend⟩ := mem_kernelRange_bootPageTable l
  obtain ⟨hge, -, hgiga⟩ := physical_bounds l
  have hsize : pageSize = 4096 := by decide
  have hmul := rootFrame_mul l
  unfold LinkerInput.bootPageTableEnd at hend
  have htranslate : m.translate l.bootPageTable = some (l.bootPageTable, bootLeaf l.bootPageTable) :=
    h.translate_low hlow (by omega)
  rw [Machine.translate, if_pos (h.mode hlow)] at htranslate
  obtain ⟨hcanonical, hwalk⟩ := walk_of_translate htranslate
  refine ⟨h.mode hlow, ?_, by rw [hroot]; exact hcanonical, bootLeaf l.bootPageTable, ?_, ?_, rfl, rfl⟩
  · rw [hroot, h.root hlow, hmul]
  · rw [hroot]
    exact hwalk
  · rw [h.root hlow]
    rfl

theorem Mapped.reach (h : Mapped l m) (granted : Leaf → Bool) (va : ℕ) :
    m.reach granted va = physical m granted va := by
  have hmode := h.mode hlow
  rw [Machine.reach, if_neg (by omega)]

theorem Mapped.reach_low (h : Mapped l m) {granted : Leaf → Bool} {va : ℕ}
    (hva : va / 2 ^ 30 = l.gigabyte) (hgranted : granted (bootLeaf va) = true) :
    m.reach granted va = some va := by
  rw [h.reach hlow, physical, h.translate_low hlow hva]
  exact if_pos hgranted

/-- What is linked for an address of the image is reached there. -/
theorem Mapped.reach_high (h : Mapped l m) {granted : Leaf → Bool} {va : ℕ}
    (hle : l.kernelVirtualStart ≤ va) (hlt : va < l.kernelVirtualEnd)
    (hgranted : ∀ pa, granted (bootLeaf pa) = true) :
    m.reach granted va = some (l.kernelAddress + (va - l.kernelVirtualStart)) := by
  obtain ⟨h₁, h₂, -, -, -, -, -, -, h₃⟩ := virtual_bounds l
  obtain ⟨-, h₄, -⟩ := physical_bounds l
  have hpa : l.gigabyte * 2 ^ 30 + (va - kernelHighBase) =
      l.kernelAddress + (va - l.kernelVirtualStart) := by omega
  rw [h.reach hlow, physical, h.translate_high hlow (by omega) (by omega), hpa]
  exact if_pos (hgranted _)

end Mapped


/-! ## Memory after the stores -/

section Stores

variable {l : Linked} {m : Machine}

theorem toLE_zero : toLE 8 0 = List.replicate 8 0 := by decide

/-- One more doubleword of zeros. -/
theorem store_zeros (m : Machine) (address i : ℕ) :
    (m.store address (List.replicate (8 * i) 0)).store (address + 8 * i) (toLE 8 0) =
      m.store address (List.replicate (8 * (i + 1)) 0) := by
  have happend := storeBytes_append m.memory address (List.replicate (8 * i) 0) (toLE 8 0)
  rw [List.length_replicate, toLE_zero, List.replicate_append_replicate] at happend
  unfold Machine.store
  rw [toLE_zero, Nat.mul_succ, ← happend]

/-- **The boot page table holds two leaves.** -/
theorem mapped_tabled (hlow : l.kernelAddress < 2 ^ 38) : Mapped l (m.tabled l) := by
  have hle := leafEntry_le l hlow
  refine ⟨rfl, fun i => ?_⟩
  have hentries : (m.tabled l).entries = Sv39.setEntry (Sv39.setEntry (Sv39.clear m.entries
      l.rootFrame) l.rootFrame l.lowIndex l.leafEntry) l.rootFrame 510 l.leafEntry := by
    rw [← Machine.entries_zero, ← Machine.entries_setEntry _ _ _ hle,
      ← Machine.entries_setEntry _ _ _ hle]
    rfl
  rw [hentries]
  simp only [Sv39.setEntry, Sv39.clear, true_and, if_true]
  by_cases hhigh : i = 510
  · simp [hhigh]
  · simp [hhigh]

theorem sameFrame_tabled {t : ℕ} (ht : t ≠ l.rootFrame) :
    SameFrame m.memory (m.tabled l).memory t := by
  have hentry : ∀ (m : Machine) (i : Fin 512),
      SameFrame m.memory (m.setEntry l.rootFrame i l.leafEntry).memory t := by
    intro m i
    have hi := index_lt_frameSize i
    have hi' := i.isLt
    refine sameFrame_store (Nat.le_add_right _ _) ?_ ht
    rw [length_toLE]
    unfold frameSize
    omega
  have hzero : SameFrame m.memory (m.zero l.rootFrame).memory t :=
    sameFrame_store le_rfl (by rw [List.length_replicate, Nat.succ_mul]) ht
  exact (hzero.trans (hentry _ l.lowIndex)).trans (hentry _ 510)

/-- The zeroed data lies behind the boot page table. -/
theorem bssPlace_bounds (l : Linked) : l.bootPageTableEnd ≤ l.bssPlace ∧
    l.bssPlace + (l.bssEnd - l.bssStart) ≤ l.kernelPhysicalEnd := by
  obtain ⟨-, -, h₁, h₂, h₃, h₄, h₅, h₆, -⟩ := virtual_bounds l
  obtain ⟨hb, hb'⟩ := l.toLinkerInput.boot_ordered
  unfold Linked.bssPlace LinkerInput.kernelPhysicalEnd LinkerInput.bootPageTableEnd
  unfold LinkerInput.bootSize at h₁
  omega

theorem sameFrame_bss (m : Machine) (zeros : ℕ) :
    SameFrame m.memory (m.store l.bssPlace (List.replicate zeros 0)).memory l.rootFrame := by
  obtain ⟨hend, -⟩ := bssPlace_bounds l
  have hmul := rootFrame_mul l
  have hsize : pageSize = 4096 := by decide
  intro x hx
  refine storeBytes_of_lt ?_
  unfold LinkerInput.bootPageTableEnd at hend
  unfold frameSize at *
  omega

/-- Stores to `.bss` leave the address space as it is. -/
theorem Mapped.store_bss (h : Mapped l m) (zeros : ℕ) :
    Mapped l (m.store l.bssPlace (List.replicate zeros 0)) := by
  refine ⟨(Machine.store_satp m _ _).trans h.satp, fun i => ?_⟩
  rw [(sameFrame_bss m zeros).entries]
  exact h.entries i

end Stores


/-! ## Where the code is -/

section Fetches

variable {b : BootImage} {m : Machine}

theorem start_words (b : BootImage) : (startProgram b).Words := by
  intro k
  obtain ⟨-, hle⟩ := b.start_mem k
  obtain ⟨hb, hb'⟩ := b.toLinkerInput.boot_ordered
  obtain ⟨-, hend⟩ := mem_kernelRange_bootPageTable b.toLinked
  have hword := b.word
  have hmax := wordMax_eq
  unfold LinkerInput.bootPageTableEnd at hend
  have hlt : b.startAddress k < 2 ^ 64 := by omega
  exact hlt

theorem high_words (b : BootImage) : (highProgram b).Words := by
  intro k
  obtain ⟨-, hle⟩ := b.high_mem k
  obtain ⟨-, -, -, -, h₁, h₂, h₃, h₄, h₅⟩ := virtual_bounds b.toLinked
  have hbase := kernelHighBase_eq
  have hlt : b.highAddress k < 2 ^ 64 := by omega
  exact hlt

/-- Without translation the code is fetched where it is loaded. -/
theorem fetches_bare (hbare : m.satp / 2 ^ 60 = 0) :
    Program.Fetches machineBus (startProgram b) m := by
  intro k hk
  exact if_pos hbare

/-- `_start` survives the activation of the boot page table. -/
theorem fetches_low (hlow : b.kernelAddress < 2 ^ 38) (h : Mapped b.toLinked m) :
    Program.Fetches machineBus (startProgram b) m := by
  intro k hk
  obtain ⟨hge, hle⟩ := b.start_mem k
  obtain ⟨hb, hb'⟩ := b.toLinkerInput.boot_ordered
  obtain ⟨-, hend⟩ := mem_kernelRange_bootPageTable b.toLinked
  obtain ⟨hgiga, -, hgiga'⟩ := physical_bounds b.toLinked
  have hsize : pageSize = 4096 := by decide
  unfold LinkerInput.bootPageTableEnd at hend
  have hgigabyte : b.startAddress k / 2 ^ 30 = b.gigabyte := by omega
  exact h.reach_low hlow hgigabyte rfl

/-- The upper half leads to where the linker has placed the code. -/
theorem fetches_high (hlow : b.kernelAddress < 2 ^ 38) (h : Mapped b.toLinked m) :
    Program.Fetches machineBus (highProgram b) m := by
  intro k hk
  obtain ⟨hge, hle⟩ := b.high_mem k
  obtain ⟨-, -, h₁, h₂, h₃, h₄, h₅, h₆, -⟩ := virtual_bounds b.toLinked
  have hstack : b.stackStart < b.stackEnd := Nat.lt_add_of_pos_right (by decide)
  obtain ⟨-, -, -, -, ⟨h₇, -⟩, -⟩ := b.toLinkerInput.ordered
  have hle' : b.kernelVirtualStart ≤ b.highAddress k := by omega
  have hlt : b.highAddress k < b.kernelVirtualEnd := by omega
  exact h.reach_high hlow hle' hlt fun _ => rfl

end Fetches

/-! ## `_start` -/

section Accesses

variable {m : Machine} {va : ℕ} (hbare : m.satp / 2 ^ 60 = 0) (hva : va % 8 = 0)

include hbare hva

theorem store_bare (value : ℕ) : machineBus.store m va value = some (m.store va (toLE 8 value)) := by
  dsimp only [machineBus]
  rw [Machine.reachWord, if_pos hva, Machine.reach, if_pos hbare, Option.map_some]

theorem load_bare : machineBus.load m va = some (readWord m.memory va) := by
  dsimp only [machineBus]
  rw [Machine.reachWord, if_pos hva, Machine.reach, if_pos hbare, Option.map_some]

end Accesses

section Shifts

theorem gigapage_bits {x : ℕ} (hx : x < Assembly.wordSize) :
    ((x >>> gigapageShift) <<< gigapageShift) % Assembly.wordSize =
      x / gigapageSize * gigapageSize := by
  rw [Nat.shiftRight_eq_div_pow, Nat.shiftLeft_eq]
  exact Nat.mod_eq_of_lt ((Nat.div_mul_le_self x (2 ^ 30)).trans_lt hx)

theorem leaf_bits (l : Linked) : (l.gigabyte * gigapageSize) >>> 2 ||| pteVrwxad = l.leafEntry := by
  have hshift : (l.gigabyte * gigapageSize) >>> 2 = 2 ^ 28 * l.gigabyte := by
    rw [Nat.shiftRight_eq_div_pow, gigapageSize_eq]
    omega
  rw [hshift, ← Nat.two_pow_add_eq_or_of_lt (by decide)]
  unfold Linked.leafEntry
  omega

/-- The offset of a root entry in its table. -/
theorem index_bits (x : ℕ) : (((x >>> gigapageShift) &&& vpn2Mask) <<< pteByteShift) %
    Assembly.wordSize = 8 * (x / gigapageSize % 512) := by
  have hmask : vpn2Mask = 2 ^ 9 - 1 := by decide
  have hlt : x / 2 ^ gigapageShift % 2 ^ 9 < 2 ^ 9 := Nat.mod_lt _ (by decide)
  have hshift : 2 ^ pteByteShift = 8 := rfl
  rw [Nat.shiftRight_eq_div_pow, hmask, Nat.and_two_pow_sub_one_eq_mod, Nat.shiftLeft_eq, Nat.mul_comm,
    hshift]
  refine Nat.mod_eq_of_lt ?_
  have hword : Assembly.wordSize = 2 ^ 64 := rfl
  omega

end Shifts

/-- The registers that the boot code uses. -/
def bootClobbered : List Reg := [.gp, .sp, .t0, .t1, .t2, .t3, .t4, .t5, .t6]

section Start

variable {b : BootImage} {c : Cpu Machine}

theorem bootPageTable_bounds (b : BootImage) :
    b.bootPageTable % pageSize = 0 ∧ b.bootPageTable + pageSize < 2 ^ 64 := by
  obtain ⟨-, hend⟩ := mem_kernelRange_bootPageTable b.toLinked
  have hword := b.word
  have hmax := wordMax_eq
  unfold LinkerInput.bootPageTableEnd at hend
  exact ⟨roundUp_mod, by omega⟩

theorem start_clears_code (b : BootImage) : (startProgram b).Clears 4 .t1 .t2
    .clearBootPageTable .bootPageTableCleared := by
  constructor <;> first | rfl | decide

/-- The boot page table is cleared. -/
theorem start_clears (hbare : c.mem.satp / 2 ^ 60 = 0) :
    ∃ c', (startProgram b).Steps machineBus ((startProgram b).point 0 c)
        ((startProgram b).point 8 c') ∧
      c'.mem = c.mem.zero b.rootFrame ∧ c'.get .t0 = b.bootPageTable ∧
      c.Keeps bootClobbered c' := by
  have hroot := rootFrame_mul b.toLinked
  obtain ⟨halign, hlt⟩ := bootPageTable_bounds b
  have hsize : pageSize = 8 * 512 := by decide
  have hword : Assembly.wordSize = 2 ^ 64 := rfl
  obtain ⟨c₁, hfirst, hc₁, hmem, hkeep⟩ := Program.steps_block (k := 0) (c := c) (start_words b)
    (fetches_bare hbare) bootClobbered
    [.la .t0 b.bootPageTable, .mv .t1 .t0, .li .t2 pageSize, .add .t2 .t0 .t2]
    (by intro j hj; simp only [List.length_cons, List.length_nil] at hj; interval_cases j <;> rfl)
    (by simp +decide [Assembly.Op.rd])
  have hmod : b.bootPageTable % Assembly.wordSize = b.bootPageTable := Nat.mod_eq_of_lt (by omega)
  have hmod' : (b.bootPageTable + pageSize) % Assembly.wordSize = b.bootPageTable + pageSize :=
    Nat.mod_eq_of_lt hlt
  have ht0 : c₁.get .t0 = b.bootPageTable := by
    simp +decide [hc₁, Cpu.op, Cpu.exec, Cpu.get_set, hmod]
  have ht1 : c₁.get .t1 = b.bootPageTable := by
    simp +decide [hc₁, Cpu.op, Cpu.exec, Cpu.get_set, hmod]
  have ht2 : c₁.get .t2 = b.bootPageTable + 8 * 512 := by
    simp +decide [hc₁, Cpu.op, Cpu.exec, Cpu.get_set, hmod, hmod', ← hsize]
  have hloop := Program.steps_clears (start_words b) (start_clears_code b) (n := 512)
    (m := fun i => c.mem.store b.bootPageTable (List.replicate (8 * i) 0))
    ((c.mem.store_nil _).trans hmem.symm) ht1 ht2 (by omega) (fun i hi => fetches_bare hbare)
    fun i hi => by
      rw [hsize] at halign
      have hi8 : (b.bootPageTable + 8 * i) % 8 = 0 := by omega
      exact (store_bare (m := c.mem.store b.bootPageTable (List.replicate (8 * i) 0)) hbare hi8
        0).trans (congrArg some (store_zeros c.mem b.bootPageTable i))
  refine ⟨_, hfirst.trans hloop, ?_, ?_, ?_⟩
  · dsimp only
    rw [Machine.zero, hroot]
    rfl
  · refine (Cpu.get_set (r := .t1) c₁ (b.bootPageTable + 8 * 512) (by decide) .t0).trans ?_
    rw [if_neg (by decide), ht0]
  · exact hkeep.trans ((Cpu.keeps_set _ (by decide)).trans (Cpu.keeps_mem _))

/-- The leaf of the kernel's gigabyte is stored for its own addresses. -/
theorem start_low (hbare : c.mem.satp / 2 ^ 60 = 0)
    (hliteral : readWord c.mem.memory b.highHalfStartAddress = b.highAddress 0)
    (ht0 : c.get .t0 = b.bootPageTable) :
    ∃ c', (startProgram b).Steps machineBus ((startProgram b).point 8 c)
        ((startProgram b).point 20 c') ∧
      c'.mem = c.mem.setEntry b.rootFrame b.lowIndex b.leafEntry ∧
      c'.get .t0 = b.bootPageTable ∧ c'.get .t4 = b.leafEntry ∧ c'.get .t6 = b.highAddress 0 ∧
      c.Keeps bootClobbered c' := by
  have hroot := rootFrame_mul b.toLinked
  obtain ⟨halign, hlt⟩ := bootPageTable_bounds b
  obtain ⟨hlit, hlit'⟩ := b.literal_mem
  obtain ⟨hboot, -⟩ := b.toLinkerInput.boot_ordered
  have hword : Assembly.wordSize = 2 ^ 64 := rfl
  have hpage : pageSize = 4096 := by decide
  rw [hpage] at halign hlt
  obtain ⟨c₁, hs₁, hc₁, hm₁, hk₁⟩ := Program.steps_block (k := 8) (c := c) (start_words b)
    (fetches_bare hbare) bootClobbered [.la .t5 b.highHalfStartAddress]
    (by intro j hj; simp only [List.length_cons, List.length_nil] at hj; interval_cases j; rfl)
    (by simp +decide [Assembly.Op.rd])
  have ht5 : c₁.get .t5 = b.highHalfStartAddress := by
    have hmod : b.highHalfStartAddress % Assembly.wordSize = b.highHalfStartAddress :=
      Nat.mod_eq_of_lt (by omega)
    simp +decide [hc₁, Cpu.op, Cpu.exec, Cpu.get_set, hmod]
  have hs₂ := Program.steps_load (k := 9) (start_words b)
    (fetches_bare (m := c₁.mem) (by rw [hm₁]; exact hbare)) .t6 .t5 0 rfl (by
      rw [ht5, Nat.add_zero, Nat.mod_eq_of_lt (by omega), hm₁]
      exact (load_bare hbare b.literal_aligned).trans (congrArg some hliteral))
  obtain ⟨c₂, hc₂⟩ : ∃ c₂, c₂ = c₁.set .t6 (b.highAddress 0) := ⟨_, rfl⟩
  rw [← hc₂] at hs₂
  have hm₂ : c₂.mem = c.mem := by rw [hc₂, Cpu.set_mem, hm₁]
  have hk₂ : c.Keeps bootClobbered c₂ := by
    rw [hc₂]
    exact hk₁.trans (Cpu.keeps_set _ (by decide))
  obtain ⟨c₃, hs₃, hc₃, hm₃, hk₃⟩ := Program.steps_block (k := 10) (c := c₂) (start_words b)
    (fetches_bare (m := c₂.mem) (by rw [hm₂]; exact hbare)) bootClobbered
    [.la .t3 (b.startAddress 0), .srli .t3 .t3 gigapageShift, .slli .t3 .t3 gigapageShift,
      .srli .t4 .t3 2, .ori .t4 .t4 pteVrwxad, .srli .t5 .t3 gigapageShift,
      .andi .t5 .t5 vpn2Mask, .slli .t5 .t5 pteByteShift, .add .t5 .t0 .t5]
    (by intro j hj; simp only [List.length_cons, List.length_nil] at hj; interval_cases j <;> rfl)
    (by simp +decide [Assembly.Op.rd])
  have hstart : b.startAddress 0 < Assembly.wordSize := start_words b 0
  have hgigabyte : b.startAddress 0 / gigapageSize = b.gigabyte := by
    rw [b.start_first]
    rfl
  have hindex : (b.gigabyte * gigapageSize) / gigapageSize % 512 = b.lowIndex := by
    rw [Nat.mul_div_cancel _ (by decide)]
    rfl
  have hi := b.lowIndex.isLt
  have hentry : (b.bootPageTable + 8 * (b.lowIndex : ℕ)) % Assembly.wordSize =
      b.bootPageTable + 8 * b.lowIndex := Nat.mod_eq_of_lt (by omega)
  have h₂t0 : c₂.get .t0 = b.bootPageTable := by
    simp +decide [hc₂, hc₁, Cpu.op, Cpu.exec, Cpu.get_set, ht0]
  have h₃t0 : c₃.get .t0 = b.bootPageTable := by
    simp +decide [hc₃, Cpu.op, Cpu.exec, Cpu.get_set, h₂t0]
  have h₃t6 : c₃.get .t6 = b.highAddress 0 := by
    simp +decide [hc₃, hc₂, Cpu.op, Cpu.exec, Cpu.get_set]
  have h₃t4 : c₃.get .t4 = b.leafEntry := by
    simp +decide [hc₃, Cpu.op, Cpu.exec, Cpu.get_set, Nat.mod_eq_of_lt hstart, gigapage_bits hstart,
      hgigabyte, leaf_bits]
  have h₃t5 : c₃.get .t5 = b.bootPageTable + 8 * b.lowIndex := by
    simp +decide only [hc₃, Cpu.op, Cpu.exec, Cpu.get_set, Nat.mod_eq_of_lt hstart,
      gigapage_bits hstart, hgigabyte, index_bits, h₂t0, hindex, hentry, List.foldl, if_true, if_false]
  have hs₄ := Program.steps_store (k := 19)
    (m := c.mem.setEntry b.rootFrame b.lowIndex b.leafEntry) (start_words b)
    (fetches_bare (m := c₃.mem) (by rw [hm₃, hm₂]; exact hbare)) .t4 .t5 0 rfl (by
      rw [h₃t5, Nat.add_zero, hentry, h₃t4, hm₃, hm₂, Machine.setEntry, hroot]
      exact store_bare hbare (by omega) _)
  refine ⟨_, hs₁.trans (hs₂.trans (hs₃.trans hs₄)), rfl, h₃t0, h₃t4, h₃t6, ?_⟩
  exact hk₂.trans (hk₃.trans (Cpu.keeps_mem _))

theorem highAddress_bounds (b : BootImage) : b.highAddress 0 % pageSize = 0 ∧
    b.highAddress 0 < Assembly.wordSize ∧ b.highAddress 0 / gigapageSize % 512 = 510 := by
  have hlt := high_words b 0
  obtain ⟨h₁, h₂, h₃, h₄, h₅, h₆, h₇, h₈, h₉⟩ := virtual_bounds b.toLinked
  have hstack : b.stackStart < b.stackEnd := Nat.lt_add_of_pos_right (by decide)
  obtain ⟨-, -, -, -, ⟨h₁₀, -⟩, -⟩ := b.toLinkerInput.ordered
  have hbase := kernelHighBase_eq
  refine ⟨by rw [b.high_first]; exact roundUp_mod, hlt, ?_⟩
  rw [b.high_first, gigapageSize_eq]
  omega

/-- The leaf is stored for the upper half. -/
theorem start_high (hbare : c.mem.satp / 2 ^ 60 = 0) (ht0 : c.get .t0 = b.bootPageTable)
    (ht4 : c.get .t4 = b.leafEntry) (ht6 : c.get .t6 = b.highAddress 0) :
    ∃ c', (startProgram b).Steps machineBus ((startProgram b).point 20 c)
        ((startProgram b).point 25 c') ∧
      c'.mem = c.mem.setEntry b.rootFrame 510 b.leafEntry ∧
      c'.get .t0 = b.bootPageTable ∧ c'.get .t6 = b.highAddress 0 ∧ c.Keeps bootClobbered c' := by
  have hroot := rootFrame_mul b.toLinked
  obtain ⟨halign, hlt⟩ := bootPageTable_bounds b
  obtain ⟨-, -, hindex⟩ := highAddress_bounds b
  have hword : Assembly.wordSize = 2 ^ 64 := rfl
  have hpage : pageSize = 4096 := by decide
  rw [hpage] at halign hlt
  obtain ⟨c₁, hs₁, hc₁, hm₁, hk₁⟩ := Program.steps_block (k := 20) (c := c) (start_words b)
    (fetches_bare hbare) bootClobbered
    [.srli .t5 .t6 gigapageShift, .andi .t5 .t5 vpn2Mask, .slli .t5 .t5 pteByteShift,
      .add .t5 .t0 .t5]
    (by intro j hj; simp only [List.length_cons, List.length_nil] at hj; interval_cases j <;> rfl)
    (by decide)
  have hentry : (b.bootPageTable + 8 * 510) % Assembly.wordSize = b.bootPageTable + 8 * 510 :=
    Nat.mod_eq_of_lt (by omega)
  have h₁t0 : c₁.get .t0 = b.bootPageTable := by
    simp +decide [hc₁, Cpu.op, Cpu.exec, Cpu.get_set, ht0]
  have h₁t4 : c₁.get .t4 = b.leafEntry := by
    simp +decide [hc₁, Cpu.op, Cpu.exec, Cpu.get_set, ht4]
  have h₁t6 : c₁.get .t6 = b.highAddress 0 := by
    simp +decide [hc₁, Cpu.op, Cpu.exec, Cpu.get_set, ht6]
  have h₁t5 : c₁.get .t5 = b.bootPageTable + 8 * 510 := by
    simp +decide only [hc₁, Cpu.op, Cpu.exec, Cpu.get_set, index_bits, ht0, ht6, hindex, hentry,
      List.foldl, if_true, if_false]
  have hs₂ := Program.steps_store (k := 24)
    (m := c.mem.setEntry b.rootFrame 510 b.leafEntry) (start_words b)
    (fetches_bare (m := c₁.mem) (by rw [hm₁]; exact hbare)) .t4 .t5 0 rfl (by
      rw [h₁t5, Nat.add_zero, hentry, h₁t4, hm₁, Machine.setEntry, hroot]
      exact store_bare hbare (by omega) _)
  exact ⟨_, hs₁.trans hs₂, rfl, h₁t0, h₁t6, hk₁.trans (Cpu.keeps_mem _)⟩

theorem satp_bits (hlow : b.kernelAddress < 2 ^ 38) :
    b.bootPageTable >>> pageShift ||| (satpModeSv39 <<< satpModeShift) % Assembly.wordSize =
      8 * 2 ^ 60 + b.rootFrame := by
  have hlt := rootFrame_lt hlow
  have hshift : b.bootPageTable >>> pageShift = b.rootFrame := Nat.shiftRight_eq_div_pow _ _
  have hmode : (satpModeSv39 <<< satpModeShift) % Assembly.wordSize = 2 ^ 63 * 1 := by decide
  rw [hshift, hmode, Nat.or_comm, ← Nat.two_pow_add_eq_or_of_lt (by omega)]
  omega

/-- The boot page table is installed, and the code goes on in the upper half. -/
theorem start_installs (hlow : b.kernelAddress < 2 ^ 38) (hbare : c.mem.satp / 2 ^ 60 = 0)
    (hmapped : Mapped b.toLinked { c.mem with satp := 8 * 2 ^ 60 + b.rootFrame })
    (ht0 : c.get .t0 = b.bootPageTable) (ht6 : c.get .t6 = b.highAddress 0) :
    ∃ c', (startProgram b).Runs machineBus ((startProgram b).point 25 c) (b.highAddress 0) c' ∧
      c'.mem = { c.mem with satp := 8 * 2 ^ 60 + b.rootFrame } ∧ c.Keeps bootClobbered c' := by
  obtain ⟨halign, -, -⟩ := highAddress_bounds b
  have hpage : pageSize = 4096 := by decide
  rw [hpage] at halign
  have hs₁ := Program.steps_sfence (k := 25) (start_words b) (fetches_bare hbare) rfl
  obtain ⟨c₁, hs₂, hc₁, hm₁, hk₁⟩ := Program.steps_block (k := 26) (c := c) (start_words b)
    (fetches_bare hbare) bootClobbered
    [.srli .t1 .t0 pageShift, .li .t2 satpModeSv39, .slli .t2 .t2 satpModeShift, .or .t1 .t1 .t2]
    (by intro j hj; simp only [List.length_cons, List.length_nil] at hj; interval_cases j <;> rfl)
    (by decide)
  have h₁t6 : c₁.get .t6 = b.highAddress 0 := by
    simp +decide [hc₁, Cpu.op, Cpu.exec, Cpu.get_set, ht6]
  have h₁t1 : c₁.get .t1 = 8 * 2 ^ 60 + b.rootFrame := by
    rw [← satp_bits hlow]
    simp +decide only [hc₁, Cpu.op, Cpu.exec, Cpu.get_set, ht0, List.foldl, if_true, if_false]
  have hs₃ := Program.steps_satp (k := 30) (c := c₁) (start_words b)
    (fetches_bare (by rw [hm₁]; exact hbare)) rfl
  obtain ⟨c₂, hc₂⟩ : ∃ c₂, c₂ = { c₁ with mem := machineBus.satp c₁.mem (c₁.get .t1) } := ⟨_, rfl⟩
  rw [← hc₂] at hs₃
  have hm₂ : c₂.mem = { c.mem with satp := 8 * 2 ^ 60 + b.rootFrame } := by
    rw [hc₂, h₁t1, hm₁]
    rfl
  have hf := fetches_low hlow (hm₂ ▸ hmapped)
  have hs₄ := Program.steps_sfence (k := 31) (start_words b) hf rfl
  have hleave := Program.runs_jr (k := 32) hf .t6 rfl
  have h₂t6 : c₂.get .t6 / 2 * 2 = b.highAddress 0 := by
    rw [hc₂, Cpu.get_mem, h₁t6]
    omega
  rw [h₂t6] at hleave
  refine ⟨c₂, (hs₁.trans (hs₂.trans (hs₃.trans hs₄))).runs hleave, hm₂, ?_⟩
  rw [hc₂]
  exact hk₁.trans (Cpu.keeps_mem _)

end Start

/-- **`_start`**: from the load address without translation to the upper half. -/
theorem start_runs {b : BootImage} {c : Cpu Machine} (hlow : b.kernelAddress < 2 ^ 38)
    (hbare : c.mem.satp / 2 ^ 60 = 0)
    (hliteral : readWord c.mem.memory b.highHalfStartAddress = b.highAddress 0) :
    ∃ c', (startProgram b).Runs machineBus ((startProgram b).point 0 c) (b.highAddress 0) c' ∧
      c'.mem = c.mem.tabled b.toLinked ∧ c.Keeps bootClobbered c' := by
  have hroot := rootFrame_mul b.toLinked
  obtain ⟨-, hlit⟩ := b.literal_mem
  obtain ⟨hboot, -⟩ := b.toLinkerInput.boot_ordered
  obtain ⟨c₁, hs₁, hm₁, h₁t0, hk₁⟩ := start_clears (b := b) hbare
  have hliteral' : readWord c₁.mem.memory b.highHalfStartAddress = b.highAddress 0 := by
    rw [← hliteral, hm₁]
    refine congrArg fromLE (loadBytes_congr fun k hk => storeBytes_of_lt ?_)
    omega
  obtain ⟨c₂, hs₂, hm₂, h₂t0, h₂t4, h₂t6, hk₂⟩ :=
    start_low (b := b) (c := c₁) (by rw [hm₁]; exact hbare) hliteral' h₁t0
  obtain ⟨c₃, hs₃, hm₃, h₃t0, h₃t6, hk₃⟩ :=
    start_high (b := b) (c := c₂) (by rw [hm₂, hm₁]; exact hbare) h₂t0 h₂t4 h₂t6
  have htabled : ({ c₃.mem with satp := 8 * 2 ^ 60 + b.rootFrame } : Machine) =
      c.mem.tabled b.toLinked := by
    rw [hm₃, hm₂, hm₁]
    rfl
  obtain ⟨c₄, hs₄, hm₄, hk₄⟩ := start_installs (b := b) (c := c₃) hlow
    (by rw [hm₃, hm₂, hm₁]; exact hbare) (htabled ▸ mapped_tabled hlow) h₃t0 h₃t6
  exact ⟨c₄, (hs₁.trans (hs₂.trans hs₃)).runs hs₄, hm₄.trans htabled,
    hk₁.trans (hk₂.trans (hk₃.trans hk₄))⟩

/-! ## `__high_half_start` -/

theorem globalPointer_lt (l : Linked) : l.globalPointer < 2 ^ 64 := by
  obtain ⟨-, -, ⟨-, h₁⟩, ⟨h₂, h₃⟩, ⟨h₄, -⟩, h₅⟩ := l.toLinkerInput.ordered
  have hmax := kernelVirtualEnd_le_wordMax l
  have hword := wordMax_eq
  have hstack : bootStackSize = 16384 := by decide
  have hdata : l.globalPointer ≤ l.dataEnd + 2048 :=
    Nat.add_le_add_right (Nat.le_add_right _ _) 2048
  unfold LinkerInput.stackEnd at h₅
  omega

theorem high_clears_code (b : BootImage) : (highProgram b).Clears 4 .t0 .t1 .bssLoop .bssDone := by
  constructor <;> first | rfl | decide

/-- **`__high_half_start`**: from the upper half to `main`. -/
theorem high_runs {b : BootImage} {c : Cpu Machine} (hlow : b.kernelAddress < 2 ^ 38)
    (hmapped : Mapped b.toLinked c.mem) :
    ∃ c', (highProgram b).Runs machineBus ((highProgram b).point 0 c) b.main c' ∧
      c'.mem = c.mem.store b.bssPlace (List.replicate (b.bssEnd - b.bssStart) 0) ∧
      c'.get .sp = b.stackEnd ∧ c'.get .gp = b.globalPointer ∧ c.Keeps bootClobbered c' := by
  obtain ⟨h₁, h₂, h₃, h₄, h₅, h₆, h₇, h₈, h₉⟩ := virtual_bounds b.toLinked
  obtain ⟨-, ⟨-, -⟩, ⟨-, hdata⟩, -, ⟨hbss, -⟩, -⟩ := b.toLinkerInput.ordered
  have hbase := kernelHighBase_eq
  have hword : Assembly.wordSize = 2 ^ 64 := rfl
  have hstack : b.stackStart < b.stackEnd := Nat.lt_add_of_pos_right (by decide)
  have hgp := globalPointer_lt b.toLinked
  have halign : b.bssStart % 8 = 0 := roundUp_mod
  have halign' : b.bssEnd % 8 = 0 := roundUp_mod
  obtain ⟨n, hn⟩ : ∃ n, b.bssEnd = b.bssStart + 8 * n := ⟨(b.bssEnd - b.bssStart) / 8, by omega⟩
  obtain ⟨c₁, hs₁, hc₁, hm₁, hk₁⟩ := Program.steps_block (k := 0) (c := c) (high_words b)
    (fetches_high hlow hmapped) bootClobbered
    [.la .gp b.globalPointer, .la .sp b.stackEnd, .la .t0 b.bssStart, .la .t1 b.bssEnd]
    (by intro j hj; simp only [List.length_cons, List.length_nil] at hj; interval_cases j <;> rfl)
    (by simp +decide [Assembly.Op.rd])
  have hmod {x : ℕ} (hx : x < 2 ^ 64) : x % Assembly.wordSize = x := Nat.mod_eq_of_lt hx
  have h₁gp : c₁.get .gp = b.globalPointer := by
    simp +decide [hc₁, Cpu.op, Cpu.exec, Cpu.get_set, hmod hgp]
  have h₁sp : c₁.get .sp = b.stackEnd := by
    have hlt : b.stackEnd < 2 ^ 64 := by omega
    simp +decide [hc₁, Cpu.op, Cpu.exec, Cpu.get_set, hmod hlt]
  have h₁t0 : c₁.get .t0 = b.bssStart := by
    have hlt : b.bssStart < 2 ^ 64 := by omega
    simp +decide [hc₁, Cpu.op, Cpu.exec, Cpu.get_set, hmod hlt]
  have h₁t1 : c₁.get .t1 = b.bssStart + 8 * n := by
    have hlt : b.bssEnd < 2 ^ 64 := by omega
    rw [← hn]
    simp +decide [hc₁, Cpu.op, Cpu.exec, Cpu.get_set, hmod hlt]
  have hloop := Program.steps_clears (high_words b) (high_clears_code b) (n := n)
    (m := fun i => c.mem.store b.bssPlace (List.replicate (8 * i) 0))
    ((c.mem.store_nil _).trans hm₁.symm) h₁t0 h₁t1 (by omega)
    (fun i hi => fetches_high hlow (hmapped.store_bss _)) fun i hi => by
      have hi8 : (b.bssStart + 8 * i) % 8 = 0 := by omega
      have hreach : (c.mem.store b.bssPlace (List.replicate (8 * i) 0)).reach writable
          (b.bssStart + 8 * i) = some (b.kernelAddress + (b.bssStart + 8 * i - b.kernelVirtualStart)) :=
        (hmapped.store_bss (8 * i)).reach_high hlow (by omega) (by omega) fun _ => rfl
      have hplace : b.kernelAddress + (b.bssStart + 8 * i - b.kernelVirtualStart) =
          b.bssPlace + 8 * i := by
        unfold Linked.bssPlace
        omega
      dsimp only [machineBus]
      rw [Machine.reachWord, if_pos hi8, hreach, hplace, Option.map_some, store_zeros]
  obtain ⟨c₂, hc₂⟩ : ∃ c₂ : Cpu Machine, c₂ = { c₁.set .t0 (b.bssStart + 8 * n) with
    mem := c.mem.store b.bssPlace (List.replicate (8 * n) 0) } := ⟨_, rfl⟩
  have hm₂ : c₂.mem = c.mem.store b.bssPlace (List.replicate (b.bssEnd - b.bssStart) 0) := by
    rw [hc₂, hn, Nat.add_sub_cancel_left]
  have hget : ∀ r, c₂.get r = (c₁.set .t0 (b.bssStart + 8 * n)).get r := by
    intro r
    rw [hc₂, Cpu.get_mem]
  have hleave := Program.runs_tail (k := 8) (c := c₂) (high_words b)
    (fetches_high hlow (hm₂ ▸ hmapped.store_bss _)) b.main b.mainPart rfl
  rw [hmod (by have := b.main_mem; omega)] at hleave
  refine ⟨_, (hs₁.trans ?_).runs hleave, (Cpu.set_mem ..).trans hm₂, ?_, ?_, ?_⟩
  · rw [hc₂]
    exact hloop
  · simp +decide [Cpu.get_set, hget, h₁sp]
  · simp +decide [Cpu.get_set, hget, h₁gp]
  · refine hk₁.trans (.trans (fun r hr => ?_) (Cpu.keeps_set _ (by decide)))
    rw [hget]
    exact Cpu.keeps_set (b.bssStart + 8 * n) (by decide) r hr

/-- **The boot code reaches `main`**: it maps the gigabyte of the kernel at its own addresses and in
the upper half and nothing else, clears `.bss`, and leaves all other memory, the hart id and the
address of the device tree as they were. -/
theorem boot_enters_main (b : BootImage) (c : Cpu Machine) (hlow : b.kernelAddress < 2 ^ 38)
    (hbare : c.mem.satp / 2 ^ 60 = 0)
    (hliteral : readWord c.mem.memory b.highHalfStartAddress = b.highAddress 0) :
    ∃ c₁ c₂,
      (startProgram b).Runs machineBus ((startProgram b).point 0 c) (b.highAddress 0) c₁ ∧
      (highProgram b).Runs machineBus ((highProgram b).point 0 c₁) b.main c₂ ∧
      c₂.mem = c.mem.booted b.toLinked ∧
      c₂.get .sp = b.stackEnd ∧ c₂.get .gp = b.globalPointer ∧
      (∀ r, r ∉ bootClobbered → c₂.get r = c.get r) ∧
      (∀ root : VirtAddr, root.asUsize = b.bootPageTable →
        BootstrapPaging.Identity ⟨root⟩ c₂.mem) ∧
      (∀ va, c₂.mem.translate va =
        if va / 2 ^ 30 = b.gigabyte then some (va, bootLeaf va)
        else if kernelHighBase ≤ va ∧ va < kernelHighBase + 2 ^ 30 then
          some (b.gigabyte * 2 ^ 30 + (va - kernelHighBase),
            bootLeaf (b.gigabyte * 2 ^ 30 + (va - kernelHighBase)))
        else none) ∧
      (∀ x, b.bssPlace ≤ x → x < b.bssPlace + (b.bssEnd - b.bssStart) → c₂.mem.memory x = 0) ∧
      (∀ x, x / frameSize ≠ b.rootFrame →
        ¬(b.bssPlace ≤ x ∧ x < b.bssPlace + (b.bssEnd - b.bssStart)) →
        c₂.mem.memory x = c.mem.memory x) := by
  obtain ⟨c₁, hstart, hm₁, hk₁⟩ := start_runs hlow hbare hliteral
  obtain ⟨c₂, hhigh, hm₂, hsp, hgp, hk₂⟩ := high_runs (b := b) (c := c₁) hlow
    (hm₁ ▸ mapped_tabled hlow)
  have hm : c₂.mem = c.mem.booted b.toLinked := by
    rw [hm₂, hm₁]
    rfl
  have hmapped : Mapped b.toLinked c₂.mem := by
    rw [hm₂, hm₁]
    exact (mapped_tabled hlow).store_bss _
  refine ⟨c₁, c₂, hstart, hhigh, hm, hsp, hgp, hk₁.trans hk₂,
    fun root hroot => hmapped.identity hlow hroot, fun va => ?_, fun x hle hlt => ?_,
    fun x hframe hout => ?_⟩
  · by_cases hva : va / 2 ^ 30 = b.gigabyte
    · rw [if_pos hva, hmapped.translate_low hlow hva]
    · rw [if_neg hva]
      by_cases hva' : kernelHighBase ≤ va ∧ va < kernelHighBase + 2 ^ 30
      · rw [if_pos hva', hmapped.translate_high hlow hva'.1 hva'.2]
      · rw [if_neg hva']
        cases hx : c₂.mem.translate va with
        | none => rfl
        | some x => exact absurd (hmapped.mem_of_translate hlow hx) (not_or.mpr ⟨hva, hva'⟩)
  · obtain ⟨k, rfl⟩ := Nat.exists_eq_add_of_le hle
    have hk : k < (List.replicate (b.bssEnd - b.bssStart) (0 : UInt8)).length := by
      rw [List.length_replicate]
      exact Nat.lt_of_add_lt_add_left hlt
    rw [hm₂]
    exact (storeBytes_add hk).trans (by simp)
  · have hstored : c₂.mem.memory x = (c.mem.tabled b.toLinked).memory x := by
      rw [hm₂, hm₁]
      by_cases hle : x < b.bssPlace
      · exact storeBytes_of_lt hle
      · refine storeBytes_of_le ?_
        rw [List.length_replicate]
        exact Nat.le_of_not_lt fun hlt => hout ⟨Nat.le_of_not_lt hle, hlt⟩
    rw [hstored]
    exact sameFrame_tabled hframe x rfl

/-- A small image in a region of 16 MiB, two MiB behind the start of the memory. -/
def sampleLinked : Linked where
  kernelOffset := 0x200000
  kernelAddress := 0x80200000
  kernelRegionSize := 0x1000000
  bootBytes := 168
  textBytes := 0x8000
  rodataBytes := 0x2000
  ehFrameBytes := 0
  dataBytes := 0x100
  bssBytes := 0x400
  word := by decide
  offset_aligned := by decide
  offset_lt := by decide
  address_offset := by decide
  region := by decide
  physical := by decide
  virtual := by decide

def sampleBootImage : BootImage where
  toLinked := sampleLinked
  -- an address takes two instructions to load
  startAddress k := 0x80200000 + 4 * min (k + min k 1 + min (k - 8) 1 + min (k - 10) 1) 36
  highHalfStartAddress := 0x802000a0
  highAddress k := 0xffffffff80202000 + 4 * min (k + min k 4) 14
  main := 0xffffffff80202100
  mainPart := 0xffffffff80202000
  start_first := by decide
  start_mem k := by
    have hstart : sampleLinked.kernelAddress = 0x80200000 := rfl
    have hbytes : sampleLinked.bootBytes = 168 := rfl
    omega
  literal_aligned := by decide
  literal_mem := by decide
  high_first := by decide
  high_mem k := by
    have hstart : sampleLinked.textStart = 0xffffffff80202000 := by decide
    have hend : sampleLinked.textEnd = 0xffffffff8020a000 := by decide
    omega
  main_mem := by decide

/-- A hart as the firmware starts it. -/
def sampleBootHart : Cpu Machine where
  regs r := if r = .a1 then 0x87000000 else 0
  mem := ⟨writeWord (fun _ => 0xff) 0x802000a0 0xffffffff80202000, 0⟩

theorem boot_enters_main_sample : ∃ c₁ c₂,
    (startProgram sampleBootImage).Runs machineBus ((startProgram sampleBootImage).point 0 sampleBootHart)
      0xffffffff80202000 c₁ ∧
    (highProgram sampleBootImage).Runs machineBus ((highProgram sampleBootImage).point 0 c₁)
      0xffffffff80202100 c₂ ∧
    c₂.get .a1 = 0x87000000 := by
  obtain ⟨c₁, c₂, hstart, hhigh, -, -, -, hkeep, -⟩ :=
    boot_enters_main sampleBootImage sampleBootHart (by decide) (by decide)
      (readWord_writeWord (by decide))
  exact ⟨c₁, c₂, hstart, hhigh, hkeep .a1 (by decide)⟩

end Barebone.Kernel
