import BareboneKernel.Kernel.Isolation

/-!
# The linked kernel image

`linker.ld.in` places the boot code, the boot page table and the sections, and asserts that the
result fits one gigabyte of physical and one of virtual memory. The kernel reads its own bounds back
through the symbols.

* `Linked`: the values the script is given, with its assertions;
* `kernelSections`, `kernelSize`, `kernelRange`: what the kernel computes from the symbols;
* **`inside_kernelSections`**: the sections lie in the gigapage of the kernel;
* **`mem_kernelRange_of_section`**: their frames belong to the range that is reserved for it.
-/

set_option autoImplicit false

namespace Barebone.Kernel

open Word

/-! ## Layout -/

/-- Byte capacity of the boot stack. -/
def bootStackSize : ℕ := 16 * 1024

/-- The values substituted into the linker script, and the sizes of what is placed. -/
structure LinkerInput where
  kernelOffset : ℕ
  kernelAddress : ℕ
  kernelRegionSize : ℕ
  bootBytes : ℕ
  textBytes : ℕ
  rodataBytes : ℕ
  ehFrameBytes : ℕ
  dataBytes : ℕ
  bssBytes : ℕ
  deriving DecidableEq

namespace LinkerInput

variable (l : LinkerInput)

def kernelVirtualStart : ℕ := kernelHighBase + l.kernelOffset

def bootPageTable : ℕ := roundUp pageSize (l.kernelAddress + l.bootBytes)

def bootPageTableEnd : ℕ := l.bootPageTable + pageSize

def bootPhysicalEnd : ℕ := roundUp pageSize l.bootPageTableEnd

def bootSize : ℕ := l.bootPhysicalEnd - l.kernelAddress

def textStart : ℕ := roundUp pageSize (l.kernelVirtualStart + l.bootSize)

def textEnd : ℕ := l.textStart + l.textBytes

def rodataStart : ℕ := roundUp pageSize l.textEnd

def kernelPhysicalStartValue : ℕ := roundUp 8 l.rodataStart

def rodataEnd : ℕ := roundUp 8 (l.kernelPhysicalStartValue + 8 + l.rodataBytes) + l.ehFrameBytes

def dataStart : ℕ := roundUp pageSize l.rodataEnd

def globalPointer : ℕ := roundUp 8 l.dataStart + 0x800

def dataEnd : ℕ := roundUp 8 l.dataStart + l.dataBytes

def bssStart : ℕ := roundUp 8 (roundUp pageSize l.dataEnd)

def bssEnd : ℕ := roundUp 8 (l.bssStart + l.bssBytes)

def stackStart : ℕ := roundUp 16 (roundUp pageSize l.bssEnd)

def stackEnd : ℕ := l.stackStart + bootStackSize

def kernelVirtualEnd : ℕ := roundUp pageSize l.stackEnd

def kernelPhysicalEnd : ℕ := l.kernelAddress + (l.kernelVirtualEnd - l.kernelVirtualStart)

end LinkerInput

/-- **A kernel image that has been linked**: the assertions of the script hold. -/
structure Linked extends LinkerInput where
  /-- Symbols are words. -/
  word : toLinkerInput.kernelPhysicalEnd ≤ wordMax
  offset_aligned : kernelOffset % pageSize = 0
  offset_lt : kernelOffset < gigapageSize
  address_offset : kernelAddress % gigapageSize = kernelOffset
  region : toLinkerInput.kernelPhysicalEnd ≤ kernelAddress + kernelRegionSize
  physical : toLinkerInput.kernelPhysicalEnd ≤ kernelAddress - kernelOffset + gigapageSize
  virtual : toLinkerInput.kernelVirtualEnd ≤ kernelHighBase + gigapageSize

theorem kernelHighBase_eq : kernelHighBase = 2 ^ 64 - 2 ^ 31 := by decide

theorem gigapageSize_eq : gigapageSize = 2 ^ 30 := rfl

/-! ## Symbols -/

/-- The address of a symbol, a word. -/
def symbolAddress {space : Space} (value : ℕ) : Addr space :=
  ⟨value % (wordMax + 1), Nat.le_of_lt_succ (Nat.mod_lt _ (Nat.succ_pos _))⟩

/-- The range between two symbols; equal symbols have none. -/
def symbolRange (start stop : ℕ) : Option VirtRange :=
  AddrRange.new (symbolAddress start) (symbolAddress stop)

def kernelSections (l : LinkerInput) : KernelSections where
  virtualStart := symbolAddress l.kernelVirtualStart
  text := symbolRange l.textStart l.textEnd
  rodata := symbolRange l.rodataStart l.rodataEnd
  data := symbolRange l.dataStart l.dataEnd
  bss := symbolRange l.bssStart l.bssEnd
  stack := symbolRange l.stackStart l.stackEnd

def kernelSize (l : LinkerInput) : Option ℕ :=
  checkedSub (symbolAddress l.kernelVirtualEnd : VirtAddr).asUsize
    (symbolAddress l.kernelVirtualStart : VirtAddr).asUsize

def kernelPhysicalStart (l : LinkerInput) : PhysAddr := symbolAddress l.kernelAddress

/-- `kernel_range`, which panics when the linker script is broken. -/
def kernelRange {σ ε : Type} (l : LinkerInput) (physicalStart : PhysAddr) :
    Exec σ ε (Option PhysRange) := do
  let size ← Exec.expectSome "linker must produce a non-empty kernel virtual range" (kernelSize l)
  pure (AddrRange.fromStartSize physicalStart size)

/-! ## Order of the symbols -/

section Order

theorem roundUp_eq_self {k n : ℕ} (hk : 0 < k) (h : n % k = 0) : roundUp k n = n := by
  have hle := le_roundUp (n := n) hk
  have hlt := roundUp_lt (n := n) hk
  have hmod := roundUp_mod (k := k) (n := n)
  obtain ⟨a, ha⟩ := Nat.dvd_of_mod_eq_zero h
  obtain ⟨b, hb⟩ := Nat.dvd_of_mod_eq_zero hmod
  rw [hb, ha] at hle hlt ⊢
  have hab : a ≤ b := Nat.le_of_mul_le_mul_left hle hk
  rw [← Nat.mul_succ] at hlt
  have hba : b < a + 1 := Nat.lt_of_mul_lt_mul_left hlt
  rw [Nat.le_antisymm hab (Nat.le_of_lt_succ hba)]

/-- Every page boundary is a multiple of smaller alignments. -/
theorem roundUp_roundUp_page {k x : ℕ} (hk : 0 < k) (hdvd : k ∣ pageSize) :
    roundUp k (roundUp pageSize x) = roundUp pageSize x := by
  refine roundUp_eq_self hk (Nat.mod_eq_zero_of_dvd (hdvd.trans ?_))
  exact Nat.dvd_of_mod_eq_zero roundUp_mod

theorem pageSize_pos : 0 < pageSize := by decide

variable (l : LinkerInput)

namespace LinkerInput

theorem bssStart_eq : l.bssStart = roundUp pageSize l.dataEnd :=
  roundUp_roundUp_page (by decide) (by decide)

theorem stackStart_eq : l.stackStart = roundUp pageSize l.bssEnd :=
  roundUp_roundUp_page (by decide) (by decide)

/-- The parts of the image, from the lowest to the highest. -/
theorem ordered : (l.kernelVirtualStart + l.bootSize ≤ l.textStart ∧ l.textStart ≤ l.textEnd) ∧
    (l.textEnd ≤ l.rodataStart ∧ l.rodataStart ≤ l.rodataEnd) ∧
    (l.rodataEnd ≤ l.dataStart ∧ l.dataStart ≤ l.dataEnd) ∧
    (l.dataEnd ≤ l.bssStart ∧ l.bssStart ≤ l.bssEnd) ∧
    (l.bssEnd ≤ l.stackStart ∧ l.stackStart ≤ l.stackEnd) ∧ l.stackEnd ≤ l.kernelVirtualEnd := by
  have h8 : (0 : ℕ) < 8 := by decide
  refine ⟨⟨le_roundUp pageSize_pos, Nat.le_add_right _ _⟩, ⟨le_roundUp pageSize_pos, ?_⟩,
    ⟨le_roundUp pageSize_pos, ?_⟩, ⟨?_, ?_⟩, ⟨?_, Nat.le_add_right _ _⟩, le_roundUp pageSize_pos⟩
  · have h₁ : l.rodataStart ≤ l.kernelPhysicalStartValue := le_roundUp h8
    have h₂ : l.kernelPhysicalStartValue + 8 + l.rodataBytes ≤
        roundUp 8 (l.kernelPhysicalStartValue + 8 + l.rodataBytes) := le_roundUp h8
    unfold rodataEnd
    omega
  · have h₁ : l.dataStart ≤ roundUp 8 l.dataStart := le_roundUp h8
    unfold dataEnd
    omega
  · rw [bssStart_eq]
    exact le_roundUp pageSize_pos
  · have h₁ : l.bssStart + l.bssBytes ≤ l.bssEnd := le_roundUp h8
    omega
  · rw [stackStart_eq]
    exact le_roundUp pageSize_pos

theorem boot_ordered : l.kernelAddress + l.bootBytes ≤ l.bootPageTable ∧
    l.bootPageTable + pageSize = l.bootPhysicalEnd := by
  have hmod : l.bootPageTable % pageSize = 0 := roundUp_mod
  have hend : l.bootPageTableEnd % pageSize = 0 := by
    unfold bootPageTableEnd
    rw [Nat.add_mod_right, hmod]
  exact ⟨le_roundUp pageSize_pos, (roundUp_eq_self pageSize_pos hend).symm⟩

end LinkerInput

/-- Where a section lies. -/
structure LinkerInput.Places (start stop : ℕ) : Prop where
  aligned : start % pageSize = 0
  low : l.textStart ≤ start
  lt : start < stop
  high : stop ≤ l.kernelVirtualEnd

variable (l : Linked)

theorem kernelVirtualEnd_le_wordMax : l.kernelVirtualEnd ≤ wordMax := by
  have h := l.virtual
  have hbase := kernelHighBase_eq
  have hgiga := gigapageSize_eq
  have hmax := wordMax_eq
  omega

theorem asUsize_symbolAddress {space : Space} {x : ℕ} (h : x ≤ wordMax) :
    (symbolAddress x : Addr space).asUsize = x := Nat.mod_eq_of_lt (Nat.lt_succ_of_le h)

theorem symbolRange_eq_some {start stop : ℕ} {range : VirtRange} (hstart : start ≤ wordMax)
    (hstop : stop ≤ wordMax) (h : symbolRange start stop = some range) :
    range.start.asUsize = start ∧ range.stop.asUsize = stop ∧ start < stop := by
  unfold symbolRange AddrRange.new at h
  split at h
  · rename_i hlt
    obtain rfl := Option.some.inj h
    rw [asUsize_symbolAddress hstart, asUsize_symbolAddress hstop] at hlt
    exact ⟨asUsize_symbolAddress hstart, asUsize_symbolAddress hstop, hlt⟩
  · cases h

/-- The sections start at page boundaries between the boot part and the end of the image. -/
theorem places_of_mem {range : VirtRange} {permissions : PagePermissions}
    (h : (some range, permissions) ∈ (kernelSections l.toLinkerInput).permissions) :
    l.toLinkerInput.Places range.start.asUsize range.stop.asUsize := by
  obtain ⟨⟨-, h₁⟩, ⟨h₂, h₃⟩, ⟨h₄, h₅⟩, ⟨h₆, h₇⟩, ⟨h₈, h₉⟩, h₁₀⟩ := l.toLinkerInput.ordered
  have hmax := kernelVirtualEnd_le_wordMax l
  have hgo : ∀ {start stop : ℕ}, symbolRange start stop = some range → start % pageSize = 0 →
      l.textStart ≤ start → start ≤ stop → stop ≤ l.kernelVirtualEnd →
      l.toLinkerInput.Places range.start.asUsize range.stop.asUsize := by
    intro start stop hrange halign hlow hle hhigh
    obtain ⟨hstart, hstop, hlt⟩ := symbolRange_eq_some (by omega) (by omega) hrange
    rw [hstart, hstop]
    exact ⟨halign, hlow, hlt, hhigh⟩
  simp only [KernelSections.permissions, kernelSections, List.mem_cons, Prod.mk.injEq,
    List.not_mem_nil, or_false] at h
  rcases h with ⟨h, -⟩ | ⟨h, -⟩ | ⟨h, -⟩ | ⟨h, -⟩ | ⟨h, -⟩
  · exact hgo h.symm roundUp_mod le_rfl h₁ (by omega)
  · exact hgo h.symm roundUp_mod (by omega) h₃ (by omega)
  · exact hgo h.symm roundUp_mod (by omega) h₅ (by omega)
  · exact hgo h.symm (by rw [l.toLinkerInput.bssStart_eq]; exact roundUp_mod) (by omega) h₇
      (by omega)
  · exact hgo h.symm (by rw [l.toLinkerInput.stackStart_eq]; exact roundUp_mod) (by omega) h₉ h₁₀

/-- Sections that are not written end before the zeroed data. -/
theorem stop_le_bssStart {range : VirtRange} {permissions : PagePermissions}
    (h : (some range, permissions) ∈ (kernelSections l.toLinkerInput).permissions)
    (hread : permissions ≠ .readWrite) : range.stop.asUsize ≤ l.bssStart := by
  obtain ⟨⟨-, h₁⟩, ⟨h₂, h₃⟩, ⟨h₄, h₅⟩, ⟨h₆, h₇⟩, ⟨h₈, h₉⟩, h₁₀⟩ := l.toLinkerInput.ordered
  have hmax := kernelVirtualEnd_le_wordMax l
  have hgo : ∀ {start stop : ℕ}, symbolRange start stop = some range → start ≤ stop →
      stop ≤ l.bssStart → range.stop.asUsize ≤ l.bssStart := by
    intro start stop hrange hle hhigh
    obtain ⟨-, hstop, -⟩ := symbolRange_eq_some (by omega) (by omega) hrange
    rwa [hstop]
  simp only [KernelSections.permissions, kernelSections, List.mem_cons, Prod.mk.injEq,
    List.not_mem_nil, or_false] at h
  rcases h with ⟨h, -⟩ | ⟨h, -⟩ | ⟨-, h⟩ | ⟨-, h⟩ | ⟨-, h⟩
  · exact hgo h.symm h₁ (by omega)
  · exact hgo h.symm h₃ (by omega)
  · exact absurd h hread
  · exact absurd h hread
  · exact absurd h hread

end Order

/-! ## What the assertions give -/

section Assertions

variable (l : Linked)

/-- **The sections lie in the gigapage of the kernel.** -/
theorem inside_kernelSections : (kernelSections l.toLinkerInput).Inside := by
  intro range permissions hmem va hva
  obtain ⟨halign, hlow, hlt, hhigh⟩ := places_of_mem l hmem
  obtain ⟨⟨hboot, -⟩, -⟩ := l.toLinkerInput.ordered
  obtain ⟨hfirst, hlast⟩ := hva
  have hend : l.kernelVirtualEnd % pageSize = 0 := roundUp_mod
  have hvirtual := l.virtual
  have hsize : pageSize = 4096 := by decide
  unfold LinkerInput.kernelVirtualStart at hboot
  rw [hsize] at halign hend
  unfold pageAt rangePages frameSize at hlast
  omega

theorem upperHalf_kernelSections {dtbVirtual : VirtAddr}
    (h : sv39HighHalfBase ≤ dtbVirtual.asUsize) :
    UpperHalf (kernelSections l.toLinkerInput) dtbVirtual := by
  refine ⟨fun range permissions hmem => ?_, h⟩
  have hbase : range.start.asUsize ∈ coverage range :=
    ⟨Nat.le_refl _, Nat.lt_add_of_pos_right (Nat.mul_pos (rangePages_pos range) (by decide))⟩
  have hlow : sv39HighHalfBase ≤ kernelHighBase := by decide
  exact hlow.trans (inside_kernelSections l range permissions hmem _ hbase).1

theorem kernelSize_eq : kernelSize l.toLinkerInput =
    some (l.kernelVirtualEnd - l.kernelVirtualStart) := by
  obtain ⟨⟨h₀, h₁⟩, ⟨h₂, h₃⟩, ⟨h₄, h₅⟩, ⟨h₆, h₇⟩, ⟨h₈, h₉⟩, h₁₀⟩ := l.toLinkerInput.ordered
  have hmax := kernelVirtualEnd_le_wordMax l
  rw [kernelSize, asUsize_symbolAddress hmax, asUsize_symbolAddress (by omega), checkedSub,
    if_pos (by omega)]

theorem asUsize_kernelPhysicalStart :
    (kernelPhysicalStart l.toLinkerInput).asUsize = l.kernelAddress := by
  have h := l.word
  unfold LinkerInput.kernelPhysicalEnd at h
  exact asUsize_symbolAddress (by omega)

theorem asUsize_virtualStart :
    (kernelSections l.toLinkerInput).virtualStart.asUsize = l.kernelVirtualStart := by
  obtain ⟨⟨h₀, h₁⟩, ⟨h₂, h₃⟩, ⟨h₄, h₅⟩, ⟨h₆, h₇⟩, ⟨h₈, h₉⟩, h₁₀⟩ := l.toLinkerInput.ordered
  have hmax := kernelVirtualEnd_le_wordMax l
  exact asUsize_symbolAddress (by omega)

/-- The range that the kernel finds for itself. -/
theorem returns_kernelRange {σ ε : Type} (s : σ) :
    ∃ range : PhysRange, range.start.asUsize = l.kernelAddress ∧
      range.stop.asUsize = l.kernelPhysicalEnd ∧
      Exec.Returns (kernelRange l.toLinkerInput (kernelPhysicalStart l.toLinkerInput) :
        Exec σ ε _) s (some range) s := by
  obtain ⟨⟨h₀, h₁⟩, ⟨h₂, h₃⟩, ⟨h₄, h₅⟩, ⟨h₆, h₇⟩, ⟨h₈, h₉⟩, h₁₀⟩ := l.toLinkerInput.ordered
  have hstack : l.stackStart < l.stackEnd := Nat.lt_add_of_pos_right (by decide)
  have hstart := asUsize_kernelPhysicalStart l
  have hword := l.word
  have hpos : 0 < l.kernelVirtualEnd - l.kernelVirtualStart := by omega
  have hstop : l.kernelAddress < l.kernelPhysicalEnd := Nat.lt_add_of_pos_right hpos
  refine ⟨⟨kernelPhysicalStart l.toLinkerInput, ⟨_, hword⟩, by rw [hstart]; exact hstop⟩, hstart,
    rfl, ?_⟩
  refine Exec.returns_bind.mpr ⟨_, s, Exec.returns_expectSome.mpr ⟨kernelSize_eq l, rfl⟩, ?_⟩
  refine Exec.returns_pure.mpr ⟨?_, rfl⟩
  exact (AddrRange.fromStartSize_eq_some.mpr ⟨hpos, rfl, (congrArg (· + _) hstart).symm⟩).symm

/-- **The frames of the sections belong to the kernel's range.** -/
theorem mem_kernelRange_of_section {n : ℕ} (hn : n ∈ sectionFrames
    (kernelPhysicalStart l.toLinkerInput) (kernelSections l.toLinkerInput)) :
    l.kernelAddress ≤ n * frameSize ∧ (n + 1) * frameSize ≤ l.kernelPhysicalEnd := by
  obtain ⟨range, permissions, frame, hmem, hframe, hle, hlt⟩ := hn
  obtain ⟨halign, hlow, hlt', hhigh⟩ := places_of_mem l hmem
  obtain ⟨⟨hboot, -⟩, -⟩ := l.toLinkerInput.ordered
  obtain ⟨hge, hstart⟩ := physicalStart_eq_some hframe
  have hmax := kernelVirtualEnd_le_wordMax l
  rw [asUsize_kernelPhysicalStart] at hstart
  rw [asUsize_virtualStart] at hge hstart
  have hend : l.kernelVirtualEnd % pageSize = 0 := roundUp_mod
  have hsize : pageSize = 4096 := by decide
  have hoffset : l.kernelVirtualStart % 4096 = 0 := by
    have h := l.offset_aligned
    have hbase := kernelHighBase_eq
    rw [hsize] at h
    unfold LinkerInput.kernelVirtualStart
    omega
  rw [hsize] at halign hend
  unfold LinkerInput.kernelPhysicalEnd
  unfold rangePages frameSize at *
  omega

/-- The boot page table belongs to the kernel's range. -/
theorem mem_kernelRange_bootPageTable : l.kernelAddress ≤ l.bootPageTable ∧
    l.bootPageTableEnd ≤ l.kernelPhysicalEnd := by
  obtain ⟨⟨h₀, h₁⟩, ⟨h₂, h₃⟩, ⟨h₄, h₅⟩, ⟨h₆, h₇⟩, ⟨h₈, h₉⟩, h₁₀⟩ := l.toLinkerInput.ordered
  obtain ⟨hb, hb'⟩ := l.toLinkerInput.boot_ordered
  unfold LinkerInput.kernelPhysicalEnd LinkerInput.bootPageTableEnd
  unfold LinkerInput.bootSize at h₀
  omega

/-- A section ends before the next one starts. -/
theorem sections_ordered : (kernelSections l.toLinkerInput).permissions.Pairwise fun item item' =>
    ∀ range range', item.1 = some range → item'.1 = some range' →
      range.stop.asUsize ≤ range'.start.asUsize := by
  obtain ⟨⟨h₀, h₁⟩, ⟨h₂, h₃⟩, ⟨h₄, h₅⟩, ⟨h₆, h₇⟩, ⟨h₈, h₉⟩, h₁₀⟩ := l.toLinkerInput.ordered
  have hmax := kernelVirtualEnd_le_wordMax l
  have hgo : ∀ {start stop start' stop' : ℕ}, start ≤ stop → stop ≤ start' → start' ≤ stop' →
      stop' ≤ l.kernelVirtualEnd → ∀ range range', symbolRange start stop = some range →
        symbolRange start' stop' = some range' → range.stop.asUsize ≤ range'.start.asUsize := by
    intro start stop start' stop' hle hnext hle' hend range range' hrange hrange'
    obtain ⟨-, hstop, -⟩ := symbolRange_eq_some (by omega) (by omega) hrange
    obtain ⟨hstart, -, -⟩ := symbolRange_eq_some (by omega) (by omega) hrange'
    rwa [hstop, hstart]
  simp only [KernelSections.permissions, kernelSections, List.pairwise_cons, List.mem_cons,
    List.not_mem_nil, or_false, forall_eq_or_imp, forall_eq, List.Pairwise.nil, false_imp_iff,
    implies_true, and_true]
  refine ⟨⟨?_, ?_, ?_, ?_⟩, ⟨?_, ?_, ?_⟩, ⟨?_, ?_⟩, ?_⟩
  all_goals exact hgo (by omega) (by omega) (by omega) (by omega)

/-- **The sections can be mapped**, for an image that is loaded low enough. -/
theorem sectionsMappable_kernelSections (hlow : l.kernelAddress < 2 ^ 38) :
    SectionsMappable (kernelSections l.toLinkerInput) (kernelPhysicalStart l.toLinkerInput)
      (kernelSections l.toLinkerInput).permissions := by
  rintro ⟨section?, permissions⟩ hmem range rfl
  obtain ⟨halign, hfirst, hlt, hhigh⟩ := places_of_mem l hmem
  obtain ⟨⟨hboot, -⟩, -⟩ := l.toLinkerInput.ordered
  have hstart := asUsize_kernelPhysicalStart l
  have hvirtual := asUsize_virtualStart l
  have hend := l.virtual
  have hbase := kernelHighBase_eq
  have hgiga := gigapageSize_eq
  have hsize : pageSize = 4096 := by decide
  have hmax := wordMax_eq
  have haligned : l.kernelAddress % 4096 = 0 ∧ l.kernelVirtualStart % 4096 = 0 := by
    have h₁ := l.offset_aligned
    have h₂ := l.address_offset
    rw [hsize] at h₁
    rw [hgiga] at h₂
    unfold LinkerInput.kernelVirtualStart
    omega
  rw [hsize] at halign
  have hvirtual₀ : kernelHighBase ≤ l.kernelVirtualStart := Nat.le_add_right _ _
  let address : PhysAddr :=
    ⟨l.kernelAddress + (range.start.asUsize - l.kernelVirtualStart), by omega⟩
  have haddress : address.asUsize % frameSize = 0 ∧ address.asUsize + frameSize ≤ wordMax := by
    show (l.kernelAddress + (range.start.asUsize - l.kernelVirtualStart)) % frameSize = 0 ∧
      l.kernelAddress + (range.start.asUsize - l.kernelVirtualStart) + frameSize ≤ wordMax
    unfold frameSize
    omega
  have hadd : (kernelPhysicalStart l.toLinkerInput).checkedAdd (range.start.asUsize -
      (kernelSections l.toLinkerInput).virtualStart.asUsize) = some address :=
    Addr.checkedAdd_eq_some.mpr (by rw [hstart, hvirtual])
  have hle : (kernelSections l.toLinkerInput).virtualStart.asUsize ≤ range.start.asUsize := by
    omega
  refine ⟨⟨address, haddress.1, haddress.2⟩, ?_, halign, fun va hva hva' => .inr ?_, ?_⟩
  · rw [KernelSections.physicalStart, if_pos hle, hadd]
    exact dif_pos haddress
  · omega
  · show (l.kernelAddress + (range.start.asUsize - l.kernelVirtualStart)) / frameSize +
      rangePages range ≤ 2 ^ 44
    unfold rangePages frameSize
    omega

/-- **No two parts of the kernel's address space share a page**: sections, device tree and window. -/
theorem apart_kernelSections (hlow : l.kernelAddress < 2 ^ 38) {dtbMapping : VirtRange}
    {dtbFrame : PhysFrame} (hm : Mappable dtbMapping dtbFrame)
    (hstop : dtbMapping.stop.asUsize ≤ bootFdtWindowBase + 5 * 2 ^ 30) :
    ((kernelSections l.toLinkerInput).permissions.filterMap ((kernelSections l.toLinkerInput).segment
      (kernelPhysicalStart l.toLinkerInput)) ++ [rangeSegment dtbMapping dtbFrame .readOnly] ++
        [windowSegment]).Pairwise Segment.Apart := by
  have hmappable := sectionsMappable_kernelSections l hlow
  have hwindow : windowSegment.Regular := by
    unfold Segment.Regular
    decide
  have hdtb : pageAt dtbMapping.start.asUsize (rangePages dtbMapping) ≤ windowSegment.start :=
    hm.end_le (by decide) (hstop.trans (by decide))
  have hsection : ∀ g ∈ (kernelSections l.toLinkerInput).permissions.filterMap
      ((kernelSections l.toLinkerInput).segment (kernelPhysicalStart l.toLinkerInput)),
      g.Regular ∧ kernelHighBase ≤ g.start := by
    intro g hg
    obtain ⟨⟨section?, permissions⟩, hmem, hitem⟩ := List.mem_filterMap.mp hg
    obtain ⟨range, frame, rfl, hframe, rfl⟩ := segment_eq_some.mp hitem
    obtain ⟨frame', hframe', hm'⟩ := hmappable _ hmem range rfl
    obtain rfl := Option.some.inj (hframe.symm.trans hframe')
    have hin : range.start.asUsize ∈ coverage range :=
      ⟨Nat.le_refl _, Nat.lt_add_of_pos_right (Nat.mul_pos (rangePages_pos range) (by decide))⟩
    exact ⟨hm'.regular permissions, (inside_kernelSections l range permissions hmem _ hin).1⟩
  have hend : pageAt windowSegment.start windowSegment.count ≤ kernelHighBase := by decide
  have hfirst : windowSegment.start ≤ kernelHighBase := by decide
  refine List.pairwise_append.mpr ⟨List.pairwise_append.mpr ⟨?_, List.pairwise_singleton _ _, ?_⟩,
    List.pairwise_singleton _ _, ?_⟩
  · refine List.pairwise_filterMap.mpr ((sections_ordered l).imp_of_mem ?_)
    intro item item' hmem hmem' hordered g hg g' hg'
    obtain ⟨range, frame, hrange, hframe, rfl⟩ := segment_eq_some.mp hg
    obtain ⟨range', frame', hrange', hframe', rfl⟩ := segment_eq_some.mp hg'
    obtain ⟨_, hf, hm₁⟩ := hmappable _ hmem range hrange
    obtain rfl := Option.some.inj (hframe.symm.trans hf)
    obtain ⟨_, hf', hm₂⟩ := hmappable _ hmem' range' hrange'
    obtain rfl := Option.some.inj (hframe'.symm.trans hf')
    exact (hm₁.regular _).apart (hm₂.regular _)
      (hm₁.end_le hm₂.aligned (hordered range range' hrange hrange'))
  · intro g hg g' hg'
    obtain rfl := List.mem_singleton.mp hg'
    obtain ⟨hregular, hbase⟩ := hsection g hg
    exact ((hm.regular _).apart hregular (hdtb.trans (hfirst.trans hbase))).symm
  · intro g hg g' hg'
    obtain rfl := List.mem_singleton.mp hg'
    rcases List.mem_append.mp hg with hg | hg
    · obtain ⟨hregular, hbase⟩ := hsection g hg
      exact (hwindow.apart hregular (hend.trans hbase)).symm
    · obtain rfl := List.mem_singleton.mp hg
      exact (hm.regular _).apart hwindow hdtb

end Assertions

end Barebone.Kernel
