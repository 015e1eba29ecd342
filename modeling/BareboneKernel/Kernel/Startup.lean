import BareboneKernel.Fdt.RoundTrip
import BareboneKernel.Kernel.Boot
import BareboneKernel.Kernel.Cells
import BareboneKernel.Kernel.Frames

/-!
# From `main` to the kernel's address space

`main` claims the boot tables, maps and parses the devicetree, claims the boot allocator and enters
the kernel's own address space; any failure halts the hart.

* `main`: these steps, on the machine that the boot code leaves;
* `sat_intoKernel_memory`: entering the address space writes to frames of the allocator only;
* `Found`, `Running`: what a successful start has found, and what holds from then on;
* `Bootable.succeeds_main`: with a well-formed devicetree and enough free frames, `main` succeeds;
* **`main_starts`**: what `main` starts keeps to the memory that the devicetree leaves free.
-/

set_option autoImplicit false

namespace Barebone.Kernel

open Exec Word Endian Sv39 Devicetree

/-! ## The code -/

/-- Why the hart is halted before the kernel runs. -/
inductive Halt where
  | claimPaging (error : PagingError)
  | mapFdt (error : PagingError)
  | parseFdt (error : Devicetree.Error)
  | timebase
  | kernelRange
  | dtbRange
  | claimFrames (error : BootFrameAllocatorError)
  | enterPaging (error : PagingError)

/-- The machine with the flags in `.bss` that `main` sets. -/
structure Startup where
  machine : Machine
  pagingClaimed : Bool
  framesClaimed : Bool

/-- What `main` passes on. -/
structure Handover where
  fdt : Fdt
  timebase : ℕ
  kernel : PhysRange
  dtb : PhysRange
  dtbVirtual : VirtAddr
  paging : KernelPaging
  frames : BootFrameAllocator

namespace Startup

variable {ε α : Type}

def onMachine (c : Exec Machine ε α) : Exec Startup ε α :=
  zoom machine (fun m s => { s with machine := m }) c

def onPaging (c : Exec (Machine × Bool) ε α) : Exec Startup ε α :=
  zoom (fun s => (s.machine, s.pagingClaimed))
    (fun t s => { s with machine := t.1, pagingClaimed := t.2 }) c

def onFrames (c : Exec Bool ε α) : Exec Startup ε α :=
  zoom framesClaimed (fun b s => { s with framesClaimed := b }) c

/-- Run a program that borrows an allocator, and return the allocator too. -/
def borrow {F : Type} (frames : F) (c : Exec (Machine × F) ε α) : Exec Startup ε (α × F) := fun s =>
  (c (s.machine, frames)).map fun p => (p.1.map (·, p.2.2), { s with machine := p.2.1 })

end Startup

/-- The bytes that can be read from an address on, at most `n` of them. -/
def readableBytes (m : Machine) : ℕ → ℕ → List UInt8
  | _, 0 => []
  | va, n + 1 =>
    match physical m readable va with
    | some pa => m.memory pa :: readableBytes m (va + 1) n
    | none => []

/-- A devicetree gives its size as 32-bit number. -/
def maxFdtSize : ℕ := 2 ^ 32 - 1

/-- Reads a non-zero, 32-bit CPU timebase frequency from the device tree. -/
def timerFrequency {σ ε : Type} (fdt : Fdt) : Exec σ ε (Option ℕ) := do
  let root ← fdt.root
  match ← root.child (ascii "cpus") with
  | none => pure none
  | some cpus =>
    match ← cpus.property (ascii "timebase-frequency") with
    | none => pure none
    | some property => pure ((decodeU32 property.value).filter (· ≠ 0))

/-- The steps of `main` up to the kernel's own address space. -/
def main (l : LinkerInput) (dtb : PhysAddr) : Exec Startup Halt Handover := do
  let bootstrap ← mapError .claimPaging (Startup.onPaging BootstrapPaging.claim)
  let dtbVirtual ← mapError .mapFdt (Startup.onMachine (bootstrap.mapFdt dtb))
  let s ← get
  -- parsing reads the memory only
  let fdt ← mapError .parseFdt (onLocal ()
    (Fdt.fromPtr dtbVirtual.asUsize (readableBytes s.machine dtbVirtual.asUsize maxFdtSize)))
  match ← timerFrequency fdt with
  | none => fail .timebase
  | some timebase =>
    match ← kernelRange l (kernelPhysicalStart l) with
    | none => fail .kernelRange
    | some kernel =>
      match AddrRange.fromStartSize dtb fdt.totalSize with
      | none => fail .dtbRange
      | some dtbRange => do
        let frames ← mapError .claimFrames
          (Startup.onFrames (BootFrameAllocator.claim fdt kernel dtbRange))
        let (paging, frames) ← mapError .enterPaging (Startup.borrow frames
          (bootstrap.intoKernel (kernelPhysicalStart l) (kernelSections l) dtbVirtual dtbRange))
        pure ⟨fdt, timebase, kernel, dtbRange, dtbVirtual, paging, frames⟩

/-! ## What is written on the way -/

section Untouched

variable {F : Type} [FrameAllocator F] {w : Window} {S : Supply F} {bootstrap : BootstrapPaging}
  {kernelPhysicalStart : PhysAddr} {sections : KernelSections} {segments : List Segment}
  {dtbVirtual : VirtAddr} {dtbPhysical : PhysRange} {s₀ s : Machine × F}

theorem sat_mapRange_progress {access : FrameAccess} (hs : w.Serves access) {table : Sv39PageTable}
    (h : Laid w S table.root.frame.number segments s₀ s) (range : VirtRange) (frame : PhysFrame)
    (permissions : PagePermissions) :
    Sat (table.mapRange access range frame permissions) s fun r s' => r = .ok () →
      Progress S table.root.frame.number s s' := by
  refine (sat_mapRange hs h.ready fun _ i _ => h.ready.avoids h.inactive _).mono fun r s' hr hok => ?_
  rcases hr with ⟨-, -, hr⟩ | ⟨-, e, he, -⟩ | ⟨-, e, he, -⟩
  · exact hr.progress
  · cases he.symm.trans hok
  · cases he.symm.trans hok

theorem sat_mapSections_progress (hs : w.Serves bootstrap.access) {table : Sv39PageTable}
    (items : List (Option VirtRange × PagePermissions))
    (h : Laid w S table.root.frame.number segments s₀ s) :
    Sat (items.forM (bootstrap.mapSection table kernelPhysicalStart sections)) s fun r s' =>
      r = .ok () → Progress S table.root.frame.number s s' := by
  induction items generalizing s segments with
  | nil => exact sat_pure fun _ => Progress.refl s
  | cons item items ih =>
    have hitem : Sat (bootstrap.mapSection table kernelPhysicalStart sections item) s fun r s' =>
        r = .ok () → Progress S table.root.frame.number s s' := by
      obtain ⟨section?, permissions⟩ := item
      cases section? with
      | none => exact sat_pure fun _ => Progress.refl s
      | some range =>
        rw [BootstrapPaging.mapSection]
        cases sections.physicalStart kernelPhysicalStart range with
        | none => exact sat_fail (by simp)
        | some frame => exact sat_mapRange_progress hs h range frame permissions
    rw [List.forM]
    refine (hitem.and (sat_mapSection hs h item)).bind (fun _ s₁ h₁ => ?_) fun e s₁ _ => by simp
    obtain ⟨-, hlaid⟩ := h₁.2 rfl
    exact (ih hlaid).mono fun r s' hr hok => (h₁.1 rfl).trans (hr hok)

theorem sat_prepareFixmap_progress (hs : w.Serves bootstrap.access) {table : Sv39PageTable}
    (h : Laid w S table.root.frame.number segments s₀ s) :
    Sat (table.prepareFixmap bootstrap) s fun r s' => ∀ level0, r = .ok level0 →
      Progress S table.root.frame.number s s' := by
  obtain ⟨hi₂, hi₁, -⟩ := vpn_indices fixmapTableBase
  have hindex : fixmapFrameIndex = ((1 : Fin 512) : ℕ) := by decide
  unfold Sv39PageTable.prepareFixmap
  rw [hi₂, hi₁, hindex]
  have havoid := h.ready.avoids h.inactive (vpn fixmapTableBase)
  refine (sat_nextTable hs h.ready (p := .root) rfl rfl havoid.level2).bind (fun level1 s₁ h₁ => ?_)
    fun e s₁ _ => by simp
  have havoid₁ := havoid.progress h.ready h₁.ready.wellFormed h₁.progress
  have ht₁ := h₁.ok level1 rfl
  refine (sat_nextTable hs h₁.ready ht₁ rfl (havoid₁.level1 _ ht₁)).bind (fun level0 s₂ h₂ => ?_)
    fun e s₂ _ => by simp
  have hprogress := h₁.progress.trans h₂.progress
  have hinactive₂ : s₂.1.root ≠ table.root.frame.number := by
    rw [hprogress.root_eq]
    exact h.inactive
  have ht₀ := h₂.ok level0 rfl
  have hrep : level0.Representable := lt_of_mem_tables h₂.ready.root_lt (mem_tables ht₀)
  refine (returns_onMachine (hs.returns_read h₂.ready.isOpen hrep
    (h₂.ready.offSlot hinactive₂ (mem_tables ht₀)))).sat_bind ?_
  split
  · exact sat_fail (by simp)
  · refine (sat_mapPage hs h₂.ready (fun _ _ => h₂.ready.avoids hinactive₂ _) level0 .readWrite
      .supervisor).bind (fun _ s₃ h₃ => sat_pure fun _ _ => hprogress.trans h₃.progress)
      fun e s₃ _ => by simp

/-- **Entering the kernel's address space** writes to frames of the pool only. -/
theorem sat_intoKernel_memory (hboot : bootstrap.Identity s.1) (hvalid : S.Valid s.2)
    (hfresh : ∀ t ∈ S.pool s.2, t ∉ tables s.1.entries s.1.root) :
    Sat (bootstrap.intoKernel kernelPhysicalStart sections dtbVirtual dtbPhysical) s fun r s' =>
      ∀ paging, r = .ok paging → ∀ n ∉ S.pool s.2, SameFrame s.1.memory s'.1.memory n := by
  unfold BootstrapPaging.intoKernel
  cases hdtb : dtbPageMapping dtbVirtual dtbPhysical with
  | error e => exact (fails_ofExcept e s).bind.sat (by simp)
  | ok pair =>
    obtain ⟨dtbMapping, dtbFrame⟩ := pair
    refine (returns_ofExcept.mpr ⟨rfl, rfl⟩).sat_bind ?_
    by_cases hslot : s.1.entries s.1.root 511 = 0
    swap
    · exact (sat_new_of_busy hboot hslot hvalid).bind (fun table s₁ h => absurd rfl (h table))
        fun e s₁ _ => by simp
    have hs := bootstrap.serves s.1.root
    have hopen := hboot.isOpen hslot
    have hnew : Sat (Sv39PageTable.new bootstrap.access) s fun r s' => ∀ table, r = .ok table →
        ∀ n ∉ S.pool s.2, SameFrame s.1.memory s'.1.memory n := by
      refine (sat_allocatePageTable hs hopen hvalid hfresh).bind (fun frame s₁ ht => ?_)
        fun e s₁ _ => by simp
      obtain ⟨-, hin, -, hmachine, -⟩ := ht.ok frame rfl
      refine sat_pure fun _ _ n hn => ?_
      have hne : n ≠ frame.frame.number := by
        rintro rfl
        exact hn hin
      rw [hmachine]
      refine sameFrame_store le_rfl ?_ hne
      rw [List.length_replicate, Nat.succ_mul]
    refine (hnew.and (sat_new hs hopen hvalid hfresh)).bind (fun table s₁ h₁ => ?_)
      fun e s₁ _ => by simp
    obtain ⟨hmemory, hlaid₁⟩ := h₁
    refine ((sat_mapSections_progress hs sections.permissions (hlaid₁ table rfl)).and
      (sat_mapSections hs sections.permissions (hlaid₁ table rfl))).bind (fun _ s₂ h₂ => ?_)
      fun e s₂ _ => by simp
    obtain ⟨-, hlaid₂⟩ := h₂.2 rfl
    refine ((sat_mapRange_progress hs hlaid₂ dtbMapping dtbFrame .readOnly).and
      (sat_mapRange_laid hs hlaid₂ dtbMapping dtbFrame .readOnly)).bind (fun _ s₃ h₃ => ?_)
      fun e s₃ _ => by simp
    obtain ⟨-, hlaid₃⟩ := h₃.2 rfl
    refine ((sat_prepareFixmap_progress hs hlaid₃).and (sat_prepareFixmap hs hlaid₃)).bind
      (fun fixmapTable s₄ h₄ => ?_) fun e s₄ _ => by simp
    obtain ⟨hlaid₄, -⟩ := h₄.2 fixmapTable rfl
    have hprogress := ((h₂.1 rfl).trans (h₃.1 rfl)).trans (h₄.1 fixmapTable rfl)
    have hactivate : Returns (activateRoot table.root.frame : Exec Machine PagingError Unit) s₄.1
        () (s₄.1.activate table.root.frame) := returns_modify.mpr rfl
    refine (returns_onMachine hactivate).sat_bind (sat_pure fun _ _ n hn => ?_)
    have htable : n ∉ tables s₄.1.entries table.root.frame.number := fun hmem =>
      hn (hlaid₄.tables n hmem).1
    exact (hmemory table rfl n hn).trans (hprogress.frames n htable)

end Untouched

/-! ## The devicetree in memory -/

section Readable

variable {m m' : Machine}

/-- The window shows the memory. -/
theorem readableBytes_eq {va pa n : ℕ}
    (h : ∀ k < n, physical m readable (va + k) = some (pa + k)) :
    readableBytes m va n = loadBytes m.memory pa n := by
  induction n generalizing va pa with
  | zero => rfl
  | succ n ih =>
    have hfirst : physical m readable va = some pa := h 0 (Nat.succ_pos n)
    have hrest : readableBytes m (va + 1) n = loadBytes m.memory (pa + 1) n := by
      apply ih
      intro k hk
      rw [Nat.add_right_comm va, Nat.add_right_comm pa]
      exact h (k + 1) (Nat.succ_lt_succ hk)
    rw [readableBytes, hfirst]
    dsimp only
    rw [hrest, loadBytes, loadBytes, List.range_succ_eq_map, List.map_cons, List.map_map]
    congr 1
    apply List.map_congr_left
    intro k _
    rw [Function.comp_apply, Nat.add_assoc, Nat.add_comm 1 k]

/-- The bytes of a frame are those of its entries. -/
theorem sameFrame_of_entries {t : ℕ} (h : m'.entries t = m.entries t) :
    SameFrame m.memory m'.memory t := by
  intro x hx
  have hi : x % frameSize / 8 < 512 := by
    unfold frameSize
    omega
  have hk : x % 8 < 8 := Nat.mod_lt _ (by decide)
  have hword : readWord m'.memory (t * frameSize + 8 * (x % frameSize / 8)) =
      readWord m.memory (t * frameSize + 8 * (x % frameSize / 8)) := congrFun h ⟨_, hi⟩
  have hbytes := congrArg (toLE 8) hword
  rw [toLE_readWord, toLE_readWord] at hbytes
  have haddress : t * frameSize + 8 * (x % frameSize / 8) + x % 8 = x := by
    unfold frameSize at *
    omega
  have hget := congrArg (·[x % 8]?) hbytes
  simp only [loadBytes, List.getElem?_map, List.getElem?_range hk, Option.map_some,
    Option.some.injEq, haddress] at hget
  exact hget

theorem child_of_leaf {e : Entries} {t : ℕ} {i : Fin 512} {n flags : ℕ}
    (h : e t i = n * 2 ^ 10 + flags) (hflags : flags < 2 ^ 10) (hleaf : flags &&& 0xe ≠ 0) :
    child e t i = none := by
  have hand : e t i &&& 0xe ≠ 0 := by
    rw [h, encode_and hflags (by decide)]
    exact hleaf
  unfold child kind
  rw [if_neg hand]
  split_ifs <;> rfl

/-- Machines that differ in the window of the devicetree only. -/
theorem FdtInstalled.sameFrame {base n t : ℕ} (h : FdtInstalled m base n m') (ht : t ≠ m.root) :
    SameFrame m.memory m'.memory t := by
  apply sameFrame_of_entries
  funext i
  rw [h.2, fdtEntries, if_neg fun hin => ht hin.1]

theorem FdtInstalled.root {base n : ℕ} (h : FdtInstalled m base n m') : m'.root = m.root := by
  rw [Machine.root, Machine.root, h.1]

/-- The boot contract is kept. -/
theorem FdtInstalled.identity {paging : BootstrapPaging} {base : ℕ} (hboot : paging.Identity m)
    (hfits : FdtFits m.entries m.root base 5) (h : FdtInstalled m base 5 m') :
    paging.Identity m' := by
  have hgrows : Sv39.Extends m.entries m'.entries m.root := by
    intro t _ i hi
    rw [h.2, fdtEntries, if_neg]
    rintro ⟨rfl, hlow, hhigh⟩
    exact hi (hfits.zero hlow hhigh)
  obtain ⟨leaf, hwalk, hframe, hread, hwrite⟩ := hboot.mapped
  refine ⟨h.1 ▸ hboot.mode, h.root ▸ hboot.root, hboot.canonical, leaf, ?_, h.root ▸ hframe, hread,
    hwrite⟩
  rw [h.root]
  exact hgrows.walk hwalk

/-- **What is read through the window**: the memory from the address of the devicetree on. -/
theorem FdtInstalled.readableBytes {dtb : ℕ} (hmode : m.satp / 2 ^ 60 = 8)
    (hfits : FdtFits m.entries m.root (dtb / 2 ^ 30) 5) (h : FdtInstalled m (dtb / 2 ^ 30) 5 m') :
    readableBytes m' (bootFdtWindowBase + dtb % 2 ^ 30) maxFdtSize =
      loadBytes m'.memory dtb maxFdtSize := by
  apply readableBytes_eq
  intro k hk
  have htranslate : m'.translate (bootFdtWindowBase + dtb % 2 ^ 30 + k) = some (dtb + k,
      leafFor ((dtb + k) / frameSize) .readOnly .supervisor) := by
    rw [Machine.translate, h.1, if_pos hmode, h.root, h.2]
    exact translate_fdt hfits hk
  rw [physical, htranslate]
  rfl

end Readable

/-- The frequency in the tree of a devicetree. -/
def timebase (strings : Strings) (t : Tree) : Option ℕ := do
  let cpus ← t.children.find? (·.name == ascii "cpus")
  let property ← cpus.property strings (ascii "timebase-frequency")
  (decodeU32 property.value).filter (· ≠ 0)

/-- **The frequency is read off the tree**, without failing. -/
theorem decides_timerFrequency {σ ε : Type} {fdt : Fdt} {t : Tree} {es : List MemoryReservation}
    (hv : fdt.Validated t es) :
    Decides (timerFrequency fdt : Exec σ ε _) (· = timebase fdt.strings t) := by
  obtain ⟨root, hroot, hview⟩ := returns_root (σ := σ) (ε := ε) fdt.strings hv.name hv.denotes
  unfold timerFrequency timebase
  refine decides_bind_of_returns hroot ?_
  rcases hview.decides_child (σ := σ) (ε := ε) (ascii "cpus") with
    ⟨hd, hnone⟩ | ⟨cpus, c, hd, hsome, hcpus, hmem⟩
  · rw [hnone]
    exact decides_bind_of_returns (fun s => hd.returns_iff.mpr ⟨rfl, rfl⟩) (decides_pure none)
  · rw [hsome]
    refine decides_bind_of_returns (fun s => hd.returns_iff.mpr ⟨rfl, rfl⟩) ?_
    have hproperty := hcpus.decides_property (σ := σ) (ε := ε) (hv.valid.children c hmem)
      (ascii "timebase-frequency")
    refine decides_bind_of_returns (fun s => hproperty.returns_iff.mpr ⟨rfl, rfl⟩) ?_
    show Decides _ (· = (c.property fdt.strings (ascii "timebase-frequency")).bind _)
    cases c.property fdt.strings (ascii "timebase-frequency") with
    | none => exact decides_pure none
    | some property => exact decides_pure _

theorem sat_claim {fdt : Fdt} {t : Tree} {es : List MemoryReservation} (hv : fdt.Validated t es)
    (kernel dtb : PhysRange) (claimed : Bool) :
    Sat (BootFrameAllocator.claim fdt kernel dtb) claimed fun r claimed' => ∀ allocator,
      r = .ok allocator → Returns (BootFrameAllocator.claim fdt kernel dtb) claimed allocator
        claimed' := by
  have hsafe : Safe (BootFrameAllocator.claim fdt kernel dtb) claimed := by
    obtain ⟨it, hit, -⟩ := hv.yields_memoryRanges (σ := Bool) (ε := BootFrameAllocatorError)
    refine safe_bind ((decides_validateMemoryRanges hv).safe claimed) fun _ s₁ _ => ?_
    refine safe_bind safe_get fun flag s₂ _ => ?_
    split
    · exact safe_fail
    · refine safe_bind ⟨_, rfl⟩ fun _ s₃ _ => safe_bind (hit s₃).safe fun _ s₄ _ => safe_pure
  obtain ⟨⟨r, claimed'⟩, hrun⟩ := hsafe
  refine ⟨r, claimed', hrun, fun allocator hr => ?_⟩
  rw [hr] at hrun
  exact hrun

/-! ## From the start on -/

section Widen

variable {F : Type} [FrameAllocator F] {paging : KernelPaging} {S : Supply F}
  {reserved reserved' : Set ℕ} {s s' : Machine × F} {owned : List AllocatedFrame}

/-- More frames may be reserved as long as no page is for user mode. -/
theorem Isolated.widen (h : Isolated paging S reserved s owned) (hsub : reserved ⊆ reserved')
    (hpool : ∀ n ∈ reserved', n ∉ S.pool s.2)
    (htables : ∀ n ∈ reserved', n ∉ tables s.1.entries paging.root.frame.number)
    (htokens : ∀ n ∈ tokenFrames owned, n ∉ reserved')
    (huser : ∀ v leaf, walk s.1.entries paging.root.frame.number v = some leaf →
      leaf.user = false) : Isolated paging S reserved' s owned where
  sound := h.sound
  reserved_pool := hpool
  reserved_tables := htables
  tokens := ⟨h.tokens.apart, h.tokens.pool, htokens⟩
  tokens_tables := h.tokens_tables
  pages := {
    h.pages with
    user := fun v leaf hv hleaf => by
      rw [huser v leaf hv] at hleaf
      cases hleaf
    shared := fun v v' leaf leaf' hv hv' heq =>
      (h.pages.shared v v' leaf leaf' hv hv' heq).imp_right fun hmem => hsub hmem }

variable {kernelPhysicalStart : PhysAddr} {sections : KernelSections} {dtbVirtual : VirtAddr}
  {dtbPhysical : PhysRange} {dtbFrame : PhysFrame}
  (h : Built S kernelPhysicalStart sections dtbVirtual dtbPhysical s dtbFrame paging s')
include h

/-- A frame that was not free and that no writable page lies on is quiet from the start. -/
theorem Built.quiet {n : ℕ} (hn : n ∉ S.pool s.2)
    (hpages : ∀ v leaf, Sv39.walk s'.1.entries paging.root.frame.number v = some leaf →
      leaf.frame = n → leaf.write = false) : Quiet S paging.root.frame.number s' [] n where
  pool hin := hn (h.pool hin)
  tables hin := hn (h.tables n hin).1
  tokens := by
    rintro ⟨frame, hmem, -⟩
    cases hmem
  pages := hpages

theorem Built.mem_sectionFrames {range : VirtRange} {permissions : PagePermissions}
    (hmem : (some range, permissions) ∈ sections.permissions) {va : ℕ} (hva : va ∈ coverage range) :
    (kernelPhysicalStart.asUsize + (va - sections.virtualStart.asUsize)) / frameSize ∈
      sectionFrames kernelPhysicalStart sections := by
  obtain ⟨frame, hframe, -⟩ := h.sectionsMappable _ hmem range rfl
  obtain ⟨hle, hstart⟩ := physicalStart_eq_some hframe
  obtain ⟨hfirst, hlast⟩ := hva
  unfold pageAt at hlast
  refine ⟨range, permissions, frame, hmem, hframe, ?_, ?_⟩
  · unfold frameSize at *
    omega
  · unfold frameSize at *
    omega

/-- The frames of sections that are only read or executed. -/
theorem Built.quiet_section (hhigh : UpperHalf sections dtbVirtual)
    (hreserved : ∀ n ∈ reservedFrames kernelPhysicalStart sections dtbPhysical, n ∉ S.pool s.2)
    {range : VirtRange} {permissions : PagePermissions}
    (hmem : (some range, permissions) ∈ sections.permissions) (hread : permissions ≠ .readWrite)
    {va : ℕ} (hva : va ∈ coverage range) : Quiet S paging.root.frame.number s' []
      ((kernelPhysicalStart.asUsize + (va - sections.virtualStart.asUsize)) / frameSize) := by
  have htranslate := h.translate_section hmem hva
  obtain ⟨hcanonical, hwalk⟩ := walk_of_translate htranslate
  have hsection := h.mem_sectionFrames hmem hva
  obtain ⟨frame, hframe, -⟩ := h.sectionsMappable _ hmem range rfl
  obtain ⟨hle, -⟩ := physicalStart_eq_some hframe
  have hfirst := hva.1
  generalize hn : (kernelPhysicalStart.asUsize + (va - sections.virtualStart.asUsize)) /
    frameSize = n at hwalk hsection ⊢
  have hfixmap : paging.fixmapTable.number ∉ sectionFrames kernelPhysicalStart sections :=
    fun hin => hreserved _ (.inl hin) (h.tables _ h.fixmapTable_mem).1
  refine h.quiet (hreserved n (.inl hsection)) fun v leaf hv heq => ?_
  obtain ⟨-, -, address, hcanonical', halign, rfl, -, hpage⟩ := h.page hhigh hv
  cases hpage with
  | ofSection _ hle' hlinear =>
    -- pages on one frame of the sections have one address
    have hvpn : vpn va = vpn address := by
      apply (vpn_eq_iff hcanonical hcanonical').mpr
      rw [heq] at hlinear
      unfold frameSize at *
      omega
    rw [hvpn, hv] at hwalk
    rw [Option.some.inj hwalk]
    exact decide_eq_false hread
  | ofDtb _ hwrite => exact hwrite
  | ofFixmap hfix => exact absurd (hfix ▸ heq ▸ hsection) hfixmap

end Widen

/-- Where a byte of the image is loaded. -/
def LinkerInput.loaded (l : LinkerInput) (va : ℕ) : ℕ :=
  l.kernelAddress + (va - l.kernelVirtualStart)

/-- **What `main` has found**: the devicetree in memory, and the ranges that are reserved. -/
structure Found (l : Linked) (dtb : PhysAddr) (m : Machine) (handover : Handover) : Prop where
  fdt : ∃ m', FdtInstalled m (dtb.asUsize / 2 ^ 30) 5 m' ∧
    Returns (Fdt.fromPtr handover.dtbVirtual.asUsize (loadBytes m'.memory dtb.asUsize maxFdtSize) :
      Exec Unit _ _) () handover.fdt ()
  timebase : ∃ t es, handover.fdt.Validated t es ∧
    timebase handover.fdt.strings t = some handover.timebase
  kernel : handover.kernel.start.asUsize = l.kernelAddress ∧
    handover.kernel.stop.asUsize = l.kernelPhysicalEnd
  dtbVirtual : handover.dtbVirtual.asUsize = bootFdtWindowBase + dtb.asUsize % 2 ^ 30
  dtb : handover.dtb.start = dtb ∧
    handover.dtb.stop.asUsize = dtb.asUsize + handover.fdt.totalSize

/-- The frames that the devicetree leaves to the kernel. -/
def Handover.Free (handover : Handover) (n : ℕ) : Prop :=
  FreeFrame handover.fdt handover.kernel handover.dtb n

/-- **A running system**, for an image that was loaded into the memory of `m`. -/
structure Running (l : Linked) (m : Machine) (handover : Handover) (vm : Vm BootFrameAllocator) :
    Prop where
  isolation : Isolation (kernelPhysicalStart l.toLinkerInput) (kernelSections l.toLinkerInput)
    handover.dtb vm.paging vm.machine
  tables : ∀ n ∈ tables vm.machine.entries vm.machine.root, handover.Free n
  tokens : ∀ n ∈ tokenFrames vm.owned, handover.Free n
  user : ∀ va pa leaf, vm.machine.translate va = some (pa, leaf) → leaf.user = true →
    handover.Free leaf.frame
  pages : ∀ va pa leaf, vm.machine.translate va = some (pa, leaf) →
    (∃ range permissions, (some range, permissions) ∈ (kernelSections l.toLinkerInput).permissions ∧
      va ∈ coverage range) ∨
    (handover.dtbVirtual.asUsize / frameSize ≤ va / frameSize ∧ va / frameSize ≤
      (handover.dtbVirtual.asUsize + handover.fdt.totalSize - 1) / frameSize) ∨
    handover.Free leaf.frame
  sections : ∀ range permissions,
    (some range, permissions) ∈ (kernelSections l.toLinkerInput).permissions →
      ∀ va ∈ coverage range, vm.machine.translate va = some (l.loaded va,
        leafFor (l.loaded va / frameSize) permissions .supervisor)
  dtb : ∀ k < handover.fdt.totalSize,
    vm.machine.translate (handover.dtbVirtual.asUsize + k) = some (handover.dtb.start.asUsize + k,
      leafFor ((handover.dtb.start.asUsize + k) / frameSize) .readOnly .supervisor)
  constant : ∀ range permissions,
    (some range, permissions) ∈ (kernelSections l.toLinkerInput).permissions →
      permissions ≠ .readWrite → ∀ va, range.start.asUsize ≤ va → va < range.stop.asUsize →
        vm.machine.memory (l.loaded va) = m.memory (l.loaded va)
  outside : ∀ n, ¬handover.Free n → Disjoint (frameExtent n) handover.kernel.span →
    SameFrame m.memory vm.machine.memory n

section Start

variable {l : Linked} {m m₁ : Machine} {handover : Handover}

/-- A frame in a range. -/
theorem not_disjoint_frameExtent {n x : ℕ} {range : PhysRange} (hx : x / frameSize = n)
    (hlow : range.start.asUsize ≤ x) (hhigh : x < range.stop.asUsize) :
    ¬Disjoint (frameExtent n) range.span := by
  intro hdisjoint
  have hin : x ∈ frameExtent n := by
    unfold frameExtent frameSize at *
    rw [Set.mem_Ico]
    omega
  exact Set.disjoint_left.mp hdisjoint hin ⟨hlow, hhigh⟩

section Reserved

variable {fdt : Fdt} {kernel dtb : PhysRange} (hstart : kernel.start.asUsize = l.kernelAddress)
  (hstop : kernel.stop.asUsize = l.kernelPhysicalEnd)
include hstart hstop

/-- Frames of the kernel and of the devicetree are not free. -/
theorem not_freeFrame_of_reserved {n : ℕ} (hn : n ∈ reservedFrames
    (kernelPhysicalStart l.toLinkerInput) (kernelSections l.toLinkerInput) dtb) :
    ¬FreeFrame fdt kernel dtb n := by
  intro hfree
  rcases hn with hsection | ⟨hlow, hhigh⟩
  · obtain ⟨hlow, hhigh⟩ := mem_kernelRange_of_section l hsection
    refine not_disjoint_frameExtent (x := n * frameSize) ?_ ?_ ?_ hfree.kernel
    · exact Nat.mul_div_cancel n (by decide)
    · rwa [hstart]
    · rw [hstop]
      unfold frameSize at *
      omega
  · have hlt := dtb.lt
    refine not_disjoint_frameExtent (x := max (n * frameSize) dtb.start.asUsize) ?_ ?_ ?_ hfree.dtb
    · unfold frameSize at *
      omega
    · exact le_max_right _ _
    · exact max_lt hhigh hlt

theorem not_freeFrame_rootFrame : ¬FreeFrame fdt kernel dtb l.rootFrame := by
  intro hfree
  obtain ⟨hlow, hhigh⟩ := mem_kernelRange_bootPageTable l
  refine not_disjoint_frameExtent (x := l.bootPageTable) rfl ?_ ?_ hfree.kernel
  · rwa [hstart]
  · have hpos := pageSize_pos
    rw [hstop]
    unfold LinkerInput.bootPageTableEnd at hhigh
    omega

end Reserved

/-- The boot tables are one table. -/
theorem Mapped.tables_installed (hlow : l.kernelAddress < 2 ^ 38) (h : Mapped l m) {base : ℕ}
    (hm : FdtInstalled m base 5 m₁) : tables m₁.entries m₁.root ⊆ {l.rootFrame} := by
  have hflags : pteVrwxad < 2 ^ 10 := by decide
  have hflags' : bootFdtPteFlags < 2 ^ 10 := by decide
  rw [hm.root, h.root hlow]
  apply tables_of_childless
  intro i
  have hentry : m₁.entries l.rootFrame i = fdtEntries m.entries m.root base 5 l.rootFrame i :=
    congrFun (congrFun hm.2 _) i
  rw [fdtEntries, h.root hlow, h.entries] at hentry
  split_ifs at hentry with h₁ h₂
  · exact child_of_leaf hentry hflags' (by decide)
  · exact child_of_leaf hentry hflags (by decide)
  · exact child_of_zero hentry

/-- Free frames are not among the boot tables. -/
theorem Mapped.fresh (hlow : l.kernelAddress < 2 ^ 38) (h : Mapped l m) {base : ℕ}
    (hm : FdtInstalled m base 5 m₁) {fdt : Fdt} {kernel dtb : PhysRange}
    (hstart : kernel.start.asUsize = l.kernelAddress)
    (hstop : kernel.stop.asUsize = l.kernelPhysicalEnd) {n : ℕ} (hn : FreeFrame fdt kernel dtb n) :
    n ∉ tables m₁.entries m₁.root := by
  intro hmem
  obtain rfl := h.tables_installed hlow hm hmem
  exact not_freeFrame_rootFrame hstart hstop hn

/-- The devicetree window leaves the last entry of the boot table empty. -/
theorem Mapped.last_installed (hlow : l.kernelAddress < 2 ^ 38) (h : Mapped l m) {base : ℕ}
    (hm : FdtInstalled m base 5 m₁) : m₁.entries m₁.root 511 = 0 := by
  have hhigh : ¬((511 : Fin 512) : ℕ) < 256 + 5 := by decide
  have hgiga : l.gigabyte % 512 ≠ 511 := by
    unfold Linked.gigabyte
    omega
  rw [hm.root, h.root hlow, hm.2, fdtEntries, if_neg fun hin => hhigh hin.2.2, h.entries, if_neg]
  rintro (heq | heq)
  · exact absurd heq (by decide)
  · exact hgiga (congrArg Fin.val heq).symm

/-- What starting the kernel leaves as it was loaded. -/
theorem booted_memory {x : ℕ} (hroot : x / frameSize ≠ l.rootFrame)
    (hbss : x < l.bssPlace ∨ l.bssPlace + (l.bssEnd - l.bssStart) ≤ x) :
    (m.booted l).memory x = m.memory x := by
  refine Eq.trans ?_ (sameFrame_tabled hroot x rfl)
  show storeBytes _ _ _ x = _
  rcases hbss with hlt | hle
  · exact storeBytes_of_lt hlt
  · refine storeBytes_of_le ?_
    rwa [List.length_replicate]

/-- **From the boot tables to those of the kernel**: what a successful start has done. -/
structure Begun (l : Linked) (dtb : PhysAddr) (m : Machine) (handover : Handover) (m' : Machine) :
    Prop where
  found : Found l dtb m handover
  built : ∃ m₁ frames dtbFrame, FdtInstalled m (dtb.asUsize / 2 ^ 30) 5 m₁ ∧
    (∀ n, n ∈ (yieldSupply BootFrameAllocator).pool frames ↔ handover.Free n) ∧
    Built (yieldSupply BootFrameAllocator) (kernelPhysicalStart l.toLinkerInput)
      (kernelSections l.toLinkerInput) handover.dtbVirtual handover.dtb (m₁, frames) dtbFrame
      handover.paging (m', handover.frames) ∧
    ∀ n, ¬handover.Free n → SameFrame m₁.memory m'.memory n

theorem returns_claimPaging (hlow : l.kernelAddress < 2 ^ 38) (h : Mapped l m) :
    ∃ bootstrap : BootstrapPaging, bootstrap.Identity m ∧
      Returns (mapError Halt.claimPaging (Startup.onPaging BootstrapPaging.claim))
        ⟨m, false, false⟩ bootstrap ⟨m, true, false⟩ := by
  have hmode : (m.satp >>> satpModeShift) &&& satpModeMask = satpModeSv39 := by
    have hshift : m.satp >>> satpModeShift = 8 :=
      (Nat.shiftRight_eq_div_pow _ _).trans (h.mode hlow)
    rw [hshift]
    decide
  have hroot : (ppnAddress m.satp).asUsize = l.bootPageTable := by
    have hm := h.root hlow
    rw [ppnAddress_eq, ← rootFrame_mul, ← hm]
    rfl
  have hactive : Returns activeRootTable m (ppnAddress m.satp) m := by
    unfold activeRootTable
    refine returns_bind.mpr ⟨m, m, returns_get.mpr ⟨rfl, rfl⟩, ?_⟩
    simp only [hmode, ne_eq, not_true_eq_false, if_false]
    exact returns_pure.mpr ⟨rfl, rfl⟩
  have hclaim : Returns BootstrapPaging.claim (m, false)
      ⟨⟨(ppnAddress m.satp).asUsize, (ppnAddress m.satp).isWord⟩⟩ (m, true) :=
    returns_bind.mpr ⟨_, _, returns_onMachine hactive, rfl⟩
  exact ⟨_, h.identity hlow hroot, returns_mapError.mpr (returns_zoom.mpr ⟨_, hclaim, rfl⟩)⟩

theorem declaredSize_le {memory : ℕ → UInt8} (address : ℕ) :
    declaredSize (loadBytes memory address maxFdtSize) ≤
      (loadBytes memory address maxFdtSize).length := by
  have hlt := fromBE_lt (((loadBytes memory address maxFdtSize).drop 4).take 4)
  have hlen : (((loadBytes memory address maxFdtSize).drop 4).take 4).length ≤ 4 :=
    List.length_take_le _ _
  have hpow : 256 ^ (((loadBytes memory address maxFdtSize).drop 4).take 4).length ≤ 256 ^ 4 :=
    Nat.pow_le_pow_right (by decide) hlen
  have hmax : maxFdtSize + 1 = 256 ^ 4 := by decide
  rw [length_loadBytes, declaredSize]
  omega

theorem Startup.sat_borrow {F ε α : Type} {frames : F} {c : Exec (Machine × F) ε α} {s : Startup}
    {P : α → Machine × F → Prop}
    (h : Sat c (s.machine, frames) fun r t => ∀ a, r = .ok a → P a t) :
    Sat (Startup.borrow frames c) s fun r s' => ∀ x, r = .ok x → P x.1 (s'.machine, x.2) := by
  obtain ⟨r, t, hrun, hp⟩ := h
  refine ⟨r.map (·, t.2), { s with machine := t.1 }, by rw [Startup.borrow, hrun]; rfl, ?_⟩
  intro x hx
  cases r with
  | error e => cases hx
  | ok a =>
    obtain rfl : (a, t.2) = x := Except.ok.inj hx
    exact hp a rfl

/-- `main` is not aborted, and what it returns is a kernel in its own address space. -/
theorem sat_main (hlow : l.kernelAddress < 2 ^ 38) (h : Mapped l m) (dtb : PhysAddr) :
    Sat (main l.toLinkerInput dtb) ⟨m, false, false⟩ fun r s' => ∀ handover, r = .ok handover →
      Begun l dtb m handover s'.machine := by
  obtain ⟨bootstrap, hboot, hpaging⟩ := returns_claimPaging hlow h
  unfold main
  refine hpaging.sat_bind ?_
  have hmap : Sat (Startup.onMachine (bootstrap.mapFdt dtb)) ⟨m, true, false⟩ fun r s' =>
      ∀ va, r = .ok va → ∃ m₁, s' = ⟨m₁, true, false⟩ ∧
        va.asUsize = bootFdtWindowBase + dtb.asUsize % 2 ^ 30 ∧
        FdtFits m.entries m.root (dtb.asUsize / 2 ^ 30) 5 ∧
        FdtInstalled m (dtb.asUsize / 2 ^ 30) 5 m₁ := by
    refine (Sat.zoom (sat_mapFdt hboot dtb)).mono ?_
    rintro r s' ⟨m₁, ⟨-, hok⟩, rfl⟩ va hva
    exact ⟨m₁, rfl, hok va hva⟩
  refine hmap.mapError_ok.bind (fun va s₁ h₁ => ?_) fun e s₁ _ => by simp
  obtain ⟨m₁, rfl, hva, hfits, hinstalled⟩ := h₁ va rfl
  refine sat_get ?_
  have hbytes : readableBytes m₁ va.asUsize maxFdtSize = loadBytes m₁.memory dtb.asUsize maxFdtSize := by
    rw [hva]
    exact hinstalled.readableBytes (h.mode hlow) hfits
  have hsafe : Safe (Fdt.fromPtr va.asUsize (loadBytes m₁.memory dtb.asUsize maxFdtSize)) () :=
    safe_fromPtr (by rw [length_loadBytes]; decide) (declaredSize_le _) ()
  dsimp only
  rw [hbytes]
  refine ((hsafe.sat_onLocal _).mapError_ok).bind (fun fdt s₂ h₂ => ?_) fun e s₂ _ => by simp
  obtain ⟨rfl, u, hfdt⟩ := h₂ fdt rfl
  obtain ⟨t, es, hv⟩ := validated_of_fromPtr hfdt
  refine (decides_timerFrequency hv).returns_iff.mpr ⟨rfl, rfl⟩ |>.sat_bind ?_
  cases htimebase : timebase fdt.strings t with
  | none => exact sat_fail (by simp)
  | some frequency =>
    obtain ⟨kernel, hstart, hstop, hkernel⟩ := returns_kernelRange l (σ := Startup) (ε := Halt)
      ⟨m₁, true, false⟩
    refine hkernel.sat_bind ?_
    dsimp only
    cases hrange : AddrRange.fromStartSize dtb fdt.totalSize with
    | none => exact sat_fail (by simp)
    | some dtbRange =>
      obtain ⟨-, hdtbStart, hdtbStop⟩ := AddrRange.fromStartSize_eq_some.mp hrange
      have hframes : Sat (Startup.onFrames (BootFrameAllocator.claim fdt kernel dtbRange))
          ⟨m₁, true, false⟩ fun r s' => ∀ frames, r = .ok frames → s'.machine = m₁ ∧
            ∃ claimed, Returns (BootFrameAllocator.claim fdt kernel dtbRange) false frames
              claimed := by
        refine (Sat.zoom (sat_claim hv kernel dtbRange false)).mono ?_
        rintro r s' ⟨claimed, hok, rfl⟩ frames hframes
        exact ⟨rfl, claimed, hok frames hframes⟩
      dsimp only
      refine hframes.mapError_ok.bind (fun frames s₃ h₃ => ?_) fun e s₃ _ => by simp
      obtain ⟨hmachine, claimed, hclaimed⟩ := h₃ frames rfl
      obtain ⟨hvalid, hpool⟩ := claimed_frames hv hclaimed
      have hidentity : bootstrap.Identity s₃.machine :=
        hmachine ▸ hinstalled.identity hboot hfits
      have hfresh : ∀ n ∈ (yieldSupply BootFrameAllocator).pool frames,
          n ∉ tables s₃.machine.entries s₃.machine.root := fun n hn =>
        hmachine ▸ h.fresh hlow hinstalled hstart hstop ((hpool n).mp hn)
      have henter : Sat (bootstrap.intoKernel (kernelPhysicalStart l.toLinkerInput)
          (kernelSections l.toLinkerInput) va dtbRange) (s₃.machine, frames) fun r t =>
            ∀ paging, r = .ok paging → (∃ dtbFrame, Built (yieldSupply BootFrameAllocator)
              (kernelPhysicalStart l.toLinkerInput) (kernelSections l.toLinkerInput) va dtbRange
              (s₃.machine, frames) dtbFrame paging t) ∧ ∀ n, ¬FreeFrame fdt kernel dtbRange n →
                SameFrame s₃.machine.memory t.1.memory n := by
        refine ((sat_intoKernel hidentity hvalid hfresh).and
          (sat_intoKernel_memory hidentity hvalid hfresh)).mono fun r t ht paging hr => ?_
        exact ⟨ht.1 paging hr, fun n hn => ht.2 paging hr n fun hin => hn ((hpool n).mp hin)⟩
      refine (Startup.sat_borrow henter).mapError_ok.bind (fun x s₄ h₄ => sat_pure ?_)
        fun e s₄ _ => by simp
      rintro handover heq
      obtain rfl := Except.ok.inj heq
      obtain ⟨⟨dtbFrame, hbuilt⟩, hsame⟩ := h₄ x rfl
      rw [hmachine] at hbuilt hsame
      exact ⟨⟨⟨m₁, hinstalled, hfdt⟩, ⟨t, es, hv, htimebase⟩, ⟨hstart, hstop⟩, hva,
        ⟨hdtbStart, hdtbStop⟩⟩, m₁, frames, dtbFrame, hinstalled, hpool, hbuilt, hsame⟩

/-! ## A start that succeeds -/

theorem Startup.succeeds_borrow {F ε α : Type} {frames : F} {c : Exec (Machine × F) ε α} {s : Startup}
    {P : α → Machine × F → Prop} (h : Succeeds c (s.machine, frames) P) :
    Succeeds (Startup.borrow frames c) s fun x s' => P x.1 (s'.machine, x.2) := by
  obtain ⟨a, t, hrun, hp⟩ := h
  exact ⟨(a, t.2), { s with machine := t.1 }, by rw [Returns, Startup.borrow, hrun]; rfl, hp⟩

/-- The number of frames that suffices for `main`. -/
def mainFrames (l : LinkerInput) (size : ℕ) : ℕ :=
  5 + 2 * (size / frameSize + 2) + 2 * segmentPages ((kernelSections l).permissions.filterMap
    ((kernelSections l).segment (kernelPhysicalStart l)))

/-- A frame in the memory of the devicetree that nothing else needs. -/
structure Spare (l : LinkerInput) (c : Content) (dtb n : ℕ) : Prop where
  memory : ∃ r ∈ c.tree.memoryRanges c.strings, frameExtent n ⊆ extent r.address r.size
  kernel : Disjoint (frameExtent n) (Set.Ico l.kernelAddress l.kernelPhysicalEnd)
  dtb : Disjoint (frameExtent n) (extent dtb c.encodeBlob.length)
  block : ∀ e ∈ c.entries, Disjoint (frameExtent n) (extent e.address e.size)
  static : ∀ r ∈ c.tree.reservedRanges c.strings, Disjoint (frameExtent n) (extent r.address r.size)

/-- **A devicetree to start with**, at the address `dtb`: it is well formed, gives a frequency, and
leaves frames for `main` and `n` more. -/
structure Bootable (l : Linked) (m : Machine) (dtb : PhysAddr) (c : Content) (n : ℕ) : Prop where
  valid : c.Valid
  aligned : dtb.asUsize % 8 = 0
  low : dtb.asUsize + c.encodeBlob.length ≤ 2 ^ 55
  blob : loadBytes m.memory dtb.asUsize c.encodeBlob.length = c.encodeBlob
  root : Disjoint (extent dtb.asUsize c.encodeBlob.length) (frameExtent l.rootFrame)
  timebase : ∃ frequency, timebase c.strings c.tree = some frequency
  ranges : (c.tree.memoryRanges c.strings).Pairwise Apart
  representable : ∀ r ∈ c.tree.memoryRanges c.strings, r.address + r.size ≤ 2 ^ 56
  spare : ∃ first, ∀ k, first ≤ k → k < first + (n + mainFrames l.toLinkerInput
    c.encodeBlob.length) → Spare l.toLinkerInput c dtb.asUsize k

section Bootable

variable {dtb : PhysAddr} {c : Content} {n : ℕ}

/-- The window of the devicetree is free. -/
theorem Mapped.fdtFits (hlow : l.kernelAddress < 2 ^ 38) (h : Mapped l m)
    (hdtb : dtb.asUsize ≤ 2 ^ 55) : FdtFits m.entries m.root (dtb.asUsize / 2 ^ 30) 5 := by
  intro i _
  have hgiga : l.gigabyte < 2 ^ 8 := by
    unfold Linked.gigabyte
    omega
  refine ⟨?_, by omega⟩
  rw [h.root hlow, h.entries, if_neg]
  rintro (heq | heq)
  · have hval : 256 + (i : ℕ) = 510 := congrArg Fin.val heq
    omega
  · have hval : 256 + (i : ℕ) = l.gigabyte % 512 := congrArg Fin.val heq
    omega

/-- The blob is read through the window. -/
theorem Bootable.readable (hb : Bootable l m dtb c n) (hinstalled : FdtInstalled m
    (dtb.asUsize / 2 ^ 30) 5 m₁) (hroot : m.root = l.rootFrame) :
    ∃ rest, loadBytes m₁.memory dtb.asUsize maxFdtSize = c.encodeBlob ++ rest := by
  have hlt := hb.valid.size
  obtain ⟨k, hk⟩ := Nat.exists_eq_add_of_le (Nat.le_of_lt_succ hlt : _ ≤ maxFdtSize)
  have hsame : loadBytes m₁.memory dtb.asUsize c.encodeBlob.length = c.encodeBlob := by
    refine Eq.trans (loadBytes_congr fun i hi => ?_) hb.blob
    refine hinstalled.sameFrame (fun heq => ?_) _ rfl
    rw [hroot] at heq
    have hin : dtb.asUsize + i ∈ frameExtent l.rootFrame := by
      unfold frameExtent frameSize at *
      rw [Set.mem_Ico]
      omega
    exact Set.disjoint_left.mp hb.root ⟨Nat.le_add_right _ _, Nat.add_lt_add_left hi _⟩ hin
  exact ⟨_, by rw [hk, loadBytes_add, hsame]⟩

/-- The blob is in a range of physical memory. -/
theorem Bootable.exists_range (hb : Bootable l m dtb c n) : ∃ range : PhysRange,
    AddrRange.fromStartSize dtb c.encodeBlob.length = some range ∧ range.start = dtb ∧
      range.stop.asUsize = dtb.asUsize + c.encodeBlob.length := by
  have hlow := hb.low
  have hmax := wordMax_eq
  have hpos : 0 < c.encodeBlob.length := by
    rw [Content.length_encodeBlob]
    exact Nat.add_pos_left (Nat.add_pos_left (Nat.add_pos_left (by decide) _) _) _
  exact ⟨⟨dtb, ⟨dtb.asUsize + c.encodeBlob.length, by omega⟩, Nat.lt_add_of_pos_right hpos⟩,
    AddrRange.fromStartSize_eq_some.mpr ⟨by omega, rfl, rfl⟩, rfl, rfl⟩

/-- Spare frames are free. -/
theorem Spare.free {fdt : Fdt} {kernel range : PhysRange} {k : ℕ}
    (h : Spare l.toLinkerInput c dtb.asUsize k) (hv : fdt.Validated c.tree c.entries)
    (hstrings : fdt.strings = c.strings) (hstart : kernel.start.asUsize = l.kernelAddress)
    (hstop : kernel.stop.asUsize = l.kernelPhysicalEnd) (hrange : range.start = dtb)
    (hend : range.stop.asUsize = dtb.asUsize + c.encodeBlob.length) : FreeFrame fdt kernel range k := by
  rw [freeFrame_iff hv, disjoint_reservedMemory_iff, hstrings, AddrRange.span, AddrRange.span, hstart,
    hstop, hrange, hend]
  exact ⟨h.memory, h.kernel, h.dtb, h.block, h.static⟩

/-- Enough of them are left. -/
theorem Bootable.stocked {fdt : Fdt} {kernel range : PhysRange} {allocator : BootFrameAllocator}
    {claimed claimed' : Bool} (hb : Bootable l m dtb c n) (hv : fdt.Validated c.tree c.entries)
    (hstrings : fdt.strings = c.strings) (hstart : kernel.start.asUsize = l.kernelAddress)
    (hstop : kernel.stop.asUsize = l.kernelPhysicalEnd) (hrange : range.start = dtb)
    (hend : range.stop.asUsize = dtb.asUsize + c.encodeBlob.length)
    (hclaim : Returns (BootFrameAllocator.claim fdt kernel range) claimed allocator claimed') :
    Stocked (n + mainFrames l.toLinkerInput c.encodeBlob.length) allocator := by
  obtain ⟨hvalid, hpool⟩ := claimed_frames hv hclaim
  obtain ⟨first, hspare⟩ := hb.spare
  have hall : ∀ k, first ≤ k → k < first + (n + mainFrames l.toLinkerInput c.encodeBlob.length) →
      k ∈ (yieldSupply BootFrameAllocator).pool allocator := fun k hle hlt =>
    (hpool k).mpr ((hspare k hle hlt).free hv hstrings hstart hstop hrange hend)
  refine stocked_of_pool hvalid hall fun k hk => ?_
  obtain ⟨⟨r, hr, hsub⟩, -⟩ := (freeFrame_iff hv).mp ((hpool k).mp hk)
  rw [hstrings] at hr
  have hle := hb.representable r hr
  obtain ⟨-, hfits⟩ := frameExtent_subset_iff.mp hsub
  unfold frameSize at hfits
  omega

/-- **A start that succeeds**: `main` enters the address space of the kernel. -/
theorem Bootable.succeeds_main (hlow : l.kernelAddress < 2 ^ 38) (h : Mapped l m)
    (hb : Bootable l m dtb c n) :
    Succeeds (main l.toLinkerInput dtb) ⟨m, false, false⟩ fun handover _ =>
      Stocked n handover.frames := by
  have hsmall := hb.low
  have hbase := bootFdtWindowBase_eq
  have hmax := wordMax_eq
  have hfits : FdtFits m.entries m.root (dtb.asUsize / 2 ^ 30) 5 := h.fdtFits hlow (by omega)
  obtain ⟨bootstrap, hboot, hpaging⟩ := returns_claimPaging hlow h
  unfold main
  refine hpaging.succeeds_bind ?_
  obtain ⟨r, m₁, hmap, herror, hok⟩ := sat_mapFdt hboot dtb
  cases r with
  | error e => exact absurd hfits (herror e rfl).2
  | ok va =>
    obtain ⟨hva, -, hinstalled⟩ := hok va rfl
    have hwindow : Returns (mapError Halt.mapFdt (Startup.onMachine (bootstrap.mapFdt dtb)))
        ⟨m, true, false⟩ va ⟨m₁, true, false⟩ :=
      returns_mapError.mpr (returns_zoom.mpr ⟨m₁, hmap, rfl⟩)
    refine hwindow.succeeds_bind (succeeds_get ?_)
    obtain ⟨rest, hrest⟩ := hb.readable hinstalled (h.root hlow)
    have hbytes : readableBytes m₁ va.asUsize maxFdtSize = c.encodeBlob ++ rest := by
      rw [hva, hinstalled.readableBytes (h.mode hlow) hfits, hrest]
    have haligned : va.asUsize ≠ 0 ∧ va.asUsize % 8 = 0 := by
      have := hb.aligned
      omega
    have hsize := hb.valid.size
    obtain ⟨fdt, hfdt, htotal, hstrings, -, hv⟩ :=
      hb.valid.returns_fromPtr haligned (by omega) rest
    have hparse : Returns (mapError Halt.parseFdt (onLocal () (Fdt.fromPtr va.asUsize
        (c.encodeBlob ++ rest)))) (⟨m₁, true, false⟩ : Startup) fdt ⟨m₁, true, false⟩ :=
      returns_mapError.mpr (returns_onLocal.mpr ⟨rfl, (), hfdt⟩)
    dsimp only
    rw [hbytes]
    refine hparse.succeeds_bind ?_
    obtain ⟨frequency, hfrequency⟩ := hb.timebase
    rw [← hstrings] at hfrequency
    refine ((decides_timerFrequency hv).returns_iff.mpr ⟨rfl, rfl⟩).succeeds_bind ?_
    rw [hfrequency]
    obtain ⟨kernel, hstart, hstop, hkernel⟩ := returns_kernelRange l (σ := Startup) (ε := Halt)
      ⟨m₁, true, false⟩
    refine hkernel.succeeds_bind ?_
    obtain ⟨dtbRange, hrange, rfl, hdtbStop⟩ := hb.exists_range
    rw [← htotal] at hrange
    dsimp only
    rw [hrange]
    obtain ⟨allocator, hallocator⟩ := exists_claim hv (by rw [hstrings]; exact hb.ranges) kernel
      dtbRange
    have hframes : Returns (mapError Halt.claimFrames (Startup.onFrames
        (BootFrameAllocator.claim fdt kernel dtbRange))) ⟨m₁, true, false⟩ allocator
        ⟨m₁, true, true⟩ := returns_mapError.mpr (returns_zoom.mpr ⟨_, hallocator, rfl⟩)
    dsimp only
    refine hframes.succeeds_bind ?_
    have hstock := hb.stocked hv hstrings hstart hstop rfl hdtbStop hallocator
    obtain ⟨hvalid, hpool⟩ := claimed_frames hv hallocator
    have hfresh : ∀ k ∈ (yieldSupply BootFrameAllocator).pool allocator,
        k ∉ tables m₁.entries m₁.root := fun k hk =>
      h.fresh hlow hinstalled hstart hstop ((hpool k).mp hk)
    obtain ⟨dtbMapping, dtbFrame, hdtb, hm, -, hlast, hpages⟩ :=
      exists_dtbPageMapping hva (hdtbStop ▸ hb.low) (by omega)
    rw [hdtbStop, Nat.add_sub_cancel_left] at hpages
    let segments := (kernelSections l.toLinkerInput).permissions.filterMap
      ((kernelSections l.toLinkerInput).segment (kernelPhysicalStart l.toLinkerInput))
    have henough : n + 4 + 2 * rangePages dtbMapping + 2 * segmentPages segments + 1 ≤
        n + mainFrames l.toLinkerInput c.encodeBlob.length := by
      show _ ≤ n + (5 + 2 * (c.encodeBlob.length / frameSize + 2) + 2 * segmentPages segments)
      omega
    have hinto : Succeeds (bootstrap.intoKernel (kernelPhysicalStart l.toLinkerInput)
        (kernelSections l.toLinkerInput) va dtbRange) (m₁, allocator) fun _ s' => Stocked n s'.2 :=
      succeeds_intoKernel (hinstalled.identity hboot hfits) (h.last_installed hlow hinstalled)
        hvalid hfresh hdtb (sectionsMappable_kernelSections l hlow) hm
        (apart_kernelSections l hlow hm hlast) (hstock.mono henough)
    exact (Startup.succeeds_borrow hinto).mapError.bind fun x s' hx => succeeds_pure hx

end Bootable

section Running

variable {dtb : PhysAddr} {m' : Machine} {vm : Vm BootFrameAllocator}

/-- Sections lie behind the boot page table and, when they are not written, before the zeroed data. -/
theorem loaded_bounds {range : VirtRange} {permissions : PagePermissions}
    (hmem : (some range, permissions) ∈ (kernelSections l.toLinkerInput).permissions)
    (hread : permissions ≠ .readWrite) {va : ℕ} (hlow : range.start.asUsize ≤ va)
    (hhigh : va < range.stop.asUsize) :
    l.loaded va / frameSize ≠ l.rootFrame ∧ l.loaded va < l.bssPlace := by
  have hplaces := places_of_mem l hmem
  have hstop := stop_le_bssStart l hmem hread
  have hfirst := hplaces.low
  obtain ⟨-, -, hboot, -⟩ := virtual_bounds l
  obtain ⟨hb, hb'⟩ := l.toLinkerInput.boot_ordered
  have hmul := rootFrame_mul l
  have hsize : pageSize = 4096 := by decide
  unfold LinkerInput.loaded Linked.bssPlace
  unfold LinkerInput.bootSize at hboot
  unfold frameSize at *
  omega

theorem Found.upperHalf (h : Found l dtb m handover) :
    UpperHalf (kernelSections l.toLinkerInput) handover.dtbVirtual := by
  apply upperHalf_kernelSections
  have hbase : sv39HighHalfBase ≤ bootFdtWindowBase := by decide
  rw [h.dtbVirtual]
  omega

theorem Found.not_free (h : Found l dtb m handover) {n : ℕ} (hn : n ∈ reservedFrames
    (kernelPhysicalStart l.toLinkerInput) (kernelSections l.toLinkerInput) handover.dtb) :
    ¬handover.Free n :=
  not_freeFrame_of_reserved h.kernel.1 h.kernel.2 hn

/-- The kernel's address space is isolated from the start. -/
theorem Begun.isolated (h : Begun l dtb m handover m') : Vm.Isolated (yieldSupply BootFrameAllocator)
    (reservedFrames (kernelPhysicalStart l.toLinkerInput) (kernelSections l.toLinkerInput)
      handover.dtb) ⟨handover.paging, m', handover.frames, []⟩ := by
  obtain ⟨hfound, m₁, frames, dtbFrame, -, hpool, hbuilt, -⟩ := h
  exact hbuilt.isolated hfound.upperHalf
    (fun n hn hin => hfound.not_free hn ((hpool n).mp hin)) (.nil ..)

/-- And so it is when every frame that is not free is reserved. -/
theorem Begun.widened (h : Begun l dtb m handover m') : Vm.Isolated (yieldSupply BootFrameAllocator)
    {n | ¬handover.Free n} ⟨handover.paging, m', handover.frames, []⟩ := by
  obtain ⟨m₁, frames, dtbFrame, -, hpool, hbuilt, -⟩ := h.built
  apply Isolated.widen h.isolated fun n => h.found.not_free
  · exact fun n hn hin => hn ((hpool n).mp (hbuilt.pool hin))
  · exact fun n hn hin => hn ((hpool n).mp (hbuilt.tables n hin).1)
  · exact fun n hn => absurd hn (not_mem_tokenFrames_nil n)
  · exact fun v leaf hv => (hbuilt.page h.found.upperHalf hv).1

/-- What a page is for: a section, the devicetree, or else it lies on a free frame. -/
theorem Begun.page (h : Begun l dtb m handover m')
    (hrun : Run SystemStep ⟨handover.paging, m', handover.frames, []⟩ vm) {va pa : ℕ} {leaf : Leaf}
    (hva : vm.machine.translate va = some (pa, leaf)) :
    (∃ range permissions, (some range, permissions) ∈ (kernelSections l.toLinkerInput).permissions ∧
      va ∈ coverage range) ∨
    (handover.dtbVirtual.asUsize / frameSize ≤ va / frameSize ∧ va / frameSize ≤
      (handover.dtbVirtual.asUsize + handover.fdt.totalSize - 1) / frameSize) ∨
    handover.Free leaf.frame := by
  obtain ⟨hvm, -⟩ := h.widened.run hrun
  have hgains := h.widened.gains_run hrun
  obtain ⟨hfound, m₁, frames, dtbFrame, -, hpool, hbuilt, -⟩ := h
  obtain ⟨hcanonical, hwalk⟩ := hvm.walk_eq hva
  rw [hgains.root] at hwalk
  rcases hgains.pages _ _ hwalk with hold | hnew
  · have hstart := translate_of_walk hcanonical hold
    obtain ⟨-, hsection | hdtb | hfixmap⟩ := hbuilt.mem_of_translate hstart
    · exact .inl hsection
    · rw [hbuilt.mem_dtb, hfound.dtb.2, ← hfound.dtb.1, Nat.add_sub_cancel_left] at hdtb
      exact .inr (.inl hdtb)
    · -- the page that controls the window lies on a table
      have hvpn : vpn va = vpn fixmapTableBase := (vpn_eq_iff hcanonical (by decide)).mpr hfixmap
      have hcontrol := hbuilt.sound.fixmap.control
      rw [hbuilt.sound.fixmap.root, ← hvpn] at hcontrol
      obtain rfl := Option.some.inj (hold.symm.trans hcontrol)
      exact .inr (.inr ((hpool _).mp (hbuilt.tables _ hbuilt.fixmapTable_mem).1))
  · exact .inr (.inr (not_not.mp hnew))

section Kept

variable (hlow : l.kernelAddress < 2 ^ 38) (h : Begun l dtb (m.booted l) handover m')
  (hrun : Run SystemStep ⟨handover.paging, m', handover.frames, []⟩ vm)
include hlow h hrun

/-- A frame that is not free and that nobody writes is as it was booted. -/
theorem Begun.kept {n : ℕ} (hn : ¬handover.Free n) (hne : n ≠ l.rootFrame)
    (hquiet : Quiet (yieldSupply BootFrameAllocator) handover.paging.root.frame.number
      (m', handover.frames) [] n) : SameFrame (m.booted l).memory vm.machine.memory n := by
  obtain ⟨-, hconfined⟩ := h.isolated.run hrun
  obtain ⟨m₁, frames, dtbFrame, hinstalled, -, -, hsame⟩ := h.built
  have hroot : (m.booted l).root = l.rootFrame := ((mapped_tabled hlow).store_bss _).root hlow
  refine ((hinstalled.sameFrame ?_).trans (hsame n hn)).trans (hconfined.space.memory n hquiet)
  rwa [hroot]

/-- The sections that are not written are those that were loaded. -/
theorem Begun.constant {range : VirtRange} {permissions : PagePermissions}
    (hmem : (some range, permissions) ∈ (kernelSections l.toLinkerInput).permissions)
    (hread : permissions ≠ .readWrite) {va : ℕ} (hfirst : range.start.asUsize ≤ va)
    (hlast : va < range.stop.asUsize) :
    vm.machine.memory (l.loaded va) = m.memory (l.loaded va) := by
  obtain ⟨m₁, frames, dtbFrame, -, hpool, hbuilt, -⟩ := h.built
  have hreserved : ∀ n ∈ reservedFrames (kernelPhysicalStart l.toLinkerInput)
      (kernelSections l.toLinkerInput) handover.dtb,
        n ∉ (yieldSupply BootFrameAllocator).pool frames := fun n hn hin =>
    h.found.not_free hn ((hpool n).mp hin)
  obtain ⟨hne, hbss⟩ := loaded_bounds hmem hread hfirst hlast
  have hva : va ∈ coverage range := by
    refine ⟨hfirst, hlast.trans_le ?_⟩
    unfold pageAt rangePages frameSize
    omega
  have hsection := hbuilt.mem_sectionFrames hmem hva
  have hquiet := hbuilt.quiet_section h.found.upperHalf hreserved hmem hread hva
  rw [asUsize_kernelPhysicalStart l, asUsize_virtualStart l] at hsection hquiet
  have hkept := h.kept hlow hrun (h.found.not_free (.inl hsection)) hne hquiet
  exact (hkept _ rfl).trans (booted_memory hne (.inl hbss))

/-- No other memory outside the image changes. -/
theorem Begun.outside {n : ℕ} (hn : ¬handover.Free n)
    (hdisjoint : Disjoint (frameExtent n) handover.kernel.span) :
    SameFrame m.memory vm.machine.memory n := by
  obtain ⟨m₁, frames, dtbFrame, -, hpool, hbuilt, -⟩ := h.built
  obtain ⟨hstart, hstop⟩ := h.found.kernel
  have hoff : ∀ x, x / frameSize = n → x < l.kernelAddress ∨ l.kernelPhysicalEnd ≤ x := by
    intro x hx
    by_contra hin
    have hfirst : handover.kernel.start.asUsize ≤ x := by omega
    exact not_disjoint_frameExtent hx hfirst (by omega) hdisjoint
  obtain ⟨hboot, hboot'⟩ := mem_kernelRange_bootPageTable l
  have hsize : pageSize = 4096 := by decide
  unfold LinkerInput.bootPageTableEnd at hboot'
  have hne : n ≠ l.rootFrame := by
    rintro rfl
    have := hoff l.bootPageTable rfl
    omega
  have hquiet : Quiet (yieldSupply BootFrameAllocator) handover.paging.root.frame.number
      (m', handover.frames) [] n := by
    refine hbuilt.quiet (fun hin => hn ((hpool n).mp hin)) fun v leaf hv hframe => ?_
    obtain ⟨-, -, address, -, -, rfl, -, hpage⟩ := hbuilt.page h.found.upperHalf hv
    cases hpage with
    | ofSection hmem =>
      obtain ⟨hlow', hhigh'⟩ := mem_kernelRange_of_section l hmem
      have := hoff (leaf.frame * frameSize) (by rw [hframe]; exact Nat.mul_div_cancel n (by decide))
      unfold frameSize at *
      omega
    | ofDtb _ hwrite => exact hwrite
    | ofFixmap hfix =>
      have hfree := (hpool _).mp (hbuilt.tables _ hbuilt.fixmapTable_mem).1
      rw [← hfix, hframe] at hfree
      exact absurd hfree hn
  intro x hx
  refine (h.kept hlow hrun hn hne hquiet x hx).trans (booted_memory (hx ▸ hne) ?_)
  obtain ⟨hbss, hbss'⟩ := bssPlace_bounds l
  unfold LinkerInput.bootPageTableEnd at hbss
  have := hoff x hx
  omega

/-- **A system that was started keeps running like that.** -/
theorem Begun.running : Running l m handover vm := by
  have hisolated := h.isolated
  obtain ⟨hvm, hconfined⟩ := hisolated.run hrun
  obtain ⟨hvm', -⟩ := h.widened.run hrun
  obtain ⟨m₁, frames, dtbFrame, -, -, hbuilt, -⟩ := h.built
  refine
    { isolation := hvm.isolation
      tables := fun n hn => ?_
      tokens := fun n hn => ?_
      user := fun va pa leaf hva huser => ?_
      pages := fun va pa leaf => h.page hrun
      sections := fun range permissions hmem va hva => ?_
      dtb := fun k hk => ?_
      constant := fun range permissions hmem hread va => h.constant hlow hrun hmem hread
      outside := fun n => h.outside hlow hrun }
  · by_contra hfree
    have htable : vm.machine.root = vm.paging.root.frame.number := hvm.sound.fixmap.root
    rw [htable] at hn
    exact hvm'.reserved_tables n hfree hn
  · by_contra hfree
    exact hvm'.tokens.reserved n hn hfree
  · by_contra hfree
    exact hvm'.pages.user _ _ (hvm'.walk_eq hva).2 huser hfree
  · refine hconfined.translate hisolated hvm ?_
    have htranslate := hbuilt.translate_section hmem hva
    rwa [← hbuilt.translate_eq, asUsize_kernelPhysicalStart l, asUsize_virtualStart l] at htranslate
  · refine hconfined.translate hisolated hvm ?_
    have hsize := h.found.dtb.2
    rw [← h.found.dtb.1] at hsize
    have htranslate := hbuilt.translate_dtb (k := k) (by omega)
    rwa [← hbuilt.translate_eq] at htranslate

end Kept

end Running

end Start

/-- **Starting the kernel.** On the machine that the boot code leaves, and whatever the firmware has
put at the address of the devicetree, `main` ends with a handover or one of its failures; the depth
of its stack is not counted. Once it succeeds, the kernel has found the devicetree in memory, and
whatever calls and stores follow, the system runs on memory that this devicetree leaves free:
tables, tokens and every page beside the image and the devicetree lie on free frames, code and
constants are those that were loaded, and no other memory outside the image changes. -/
theorem main_starts (l : Linked) (m : Machine) (dtb : PhysAddr) (hlow : l.kernelAddress < 2 ^ 38) :
    Sat (main l.toLinkerInput dtb) ⟨m.booted l, false, false⟩ fun r s' =>
      ∀ handover, r = .ok handover → Found l dtb (m.booted l) handover ∧
        ∀ vm, Run SystemStep ⟨handover.paging, s'.machine, handover.frames, []⟩ vm →
          Running l m handover vm := by
  refine (sat_main hlow ((mapped_tabled hlow).store_bss _) dtb).mono fun r s' hr handover heq => ?_
  have hbegun := hr handover heq
  exact ⟨hbegun.found, fun vm hrun => hbegun.running hlow hrun⟩

/-- A devicetree with a timebase frequency and 128 MiB of memory, the first of them reserved. -/
def sampleBootContent : Content where
  bootCpuidPhys := 0
  entries := [⟨0x80000000, 0x100000⟩]
  tree := .node [] [] [.node (ascii "cpus") [⟨16, toBE 4 10000000⟩] [],
    .node (ascii "memory@80000000") [⟨0, ascii "memory" ++ [0]⟩,
      ⟨12, toBE 8 0x80000000 ++ toBE 4 0x8000000⟩] []]
  strings := ⟨ascii "device_type" ++ [0] ++ ascii "reg" ++ [0] ++ ascii "timebase-frequency" ++ [0]⟩

theorem valid_sampleBootContent : sampleBootContent.Valid := by
  refine Content.valid_of_returns ?_ ?_ ?_ ⟨?_, ?_⟩ (by decide) (by decide +kernel)
  · simp only [sampleBootContent, Tree.lexemes, forestLexemes, PropertyEntry.lexeme, List.map_cons,
      List.map_nil, List.nil_append, List.cons_append, List.append_nil, List.forall_mem_cons,
      List.not_mem_nil, false_imp_iff, implies_true, and_true, Lexeme.WF, true_and]
    decide +kernel
  · unfold Returns
    decide +kernel
  · unfold Returns
    decide +kernel
  · simp [sampleBootContent]
  · exact List.pairwise_singleton _ _

theorem length_sampleBootContent : sampleBootContent.encodeBlob.length = 223 := by decide +kernel

theorem memoryRanges_sampleBootContent :
    sampleBootContent.tree.memoryRanges sampleBootContent.strings = [⟨0x80000000, 0x8000000⟩] := by
  decide +kernel

/-- The memory of the sample hart, with the devicetree in it. -/
def sampleStartMachine : Machine := sampleBootHart.mem.store 0x87000000 sampleBootContent.encodeBlob

/-- The second MiB of the memory is not used. -/
theorem spare_sample {k : ℕ} (hle : 0x80100 ≤ k) (hlt : k < 0x80200) :
    Spare sampleLinked.toLinkerInput sampleBootContent 0x87000000 k := by
  have hstatic : sampleBootContent.tree.reservedRanges sampleBootContent.strings = [] := by
    decide +kernel
  have hstart : sampleLinked.kernelAddress = 0x80200000 := rfl
  refine ⟨⟨⟨0x80000000, 0x8000000⟩, ?_, ?_⟩, ?_, ?_, fun e he => ?_, ?_⟩
  · rw [memoryRanges_sampleBootContent]
    exact List.mem_singleton_self _
  · rw [frameExtent_subset_iff]
    dsimp only
    unfold frameSize
    omega
  · rw [frameExtent, Set.Ico_disjoint_Ico]
    unfold frameSize
    omega
  · rw [frameExtent, extent, Set.Ico_disjoint_Ico]
    unfold frameSize
    omega
  · obtain rfl : e = ⟨0x80000000, 0x100000⟩ := List.mem_singleton.mp he
    rw [frameExtent, extent, Set.Ico_disjoint_Ico]
    dsimp only
    unfold frameSize
    omega
  · simp [hstatic]

theorem bootable_sample : Bootable sampleLinked (sampleStartMachine.booted sampleLinked)
    ⟨0x87000000, by decide⟩ sampleBootContent 30 where
  valid := valid_sampleBootContent
  aligned := by decide
  low := by
    rw [length_sampleBootContent]
    decide
  blob := by
    have hroot : sampleLinked.rootFrame = 0x80201 := by decide
    have hbss : sampleLinked.bssPlace + (sampleLinked.bssEnd - sampleLinked.bssStart) ≤
        0x87000000 := by decide
    refine Eq.trans (loadBytes_congr fun k hk => booted_memory ?_ (.inr ?_)) loadBytes_storeBytes
    · rw [hroot]
      rw [length_sampleBootContent] at hk
      dsimp only
      unfold frameSize
      omega
    · exact hbss.trans (Nat.le_add_right _ _)
  root := by
    have hroot : sampleLinked.rootFrame = 0x80201 := by decide
    rw [hroot, extent, frameExtent, Set.Ico_disjoint_Ico]
    dsimp only
    unfold frameSize
    omega
  timebase := ⟨10000000, by decide +kernel⟩
  ranges := by
    rw [memoryRanges_sampleBootContent]
    exact List.pairwise_singleton _ _
  representable := by
    rw [memoryRanges_sampleBootContent]
    decide
  spare := by
    have hframes : mainFrames sampleLinked.toLinkerInput sampleBootContent.encodeBlob.length = 43 := by
      decide +kernel
    refine ⟨0x80100, fun k hle hlt => spare_sample hle ?_⟩
    omega

/-- The sample image finds its devicetree, and runs. -/
theorem main_starts_sample : Succeeds (main sampleLinked.toLinkerInput ⟨0x87000000, by decide⟩)
    ⟨sampleStartMachine.booted sampleLinked, false, false⟩ fun handover s' =>
      Found sampleLinked ⟨0x87000000, by decide⟩ (sampleStartMachine.booted sampleLinked) handover ∧
        ∀ vm, Run SystemStep ⟨handover.paging, s'.machine, handover.frames, []⟩ vm →
          Running sampleLinked sampleStartMachine handover vm :=
  ((bootable_sample.succeeds_main (by decide) ((mapped_tabled (by decide)).store_bss _)).and
    (main_starts sampleLinked sampleStartMachine ⟨0x87000000, by decide⟩ (by decide))).mono
      fun handover _ h => h.2 handover rfl

end Barebone.Kernel
