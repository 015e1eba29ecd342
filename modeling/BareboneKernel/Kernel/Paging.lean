import BareboneKernel.Kernel.Machine
import BareboneKernel.Kernel.Heap

/-!
# Paging

The Sv39 paging code of the kernel. Tables are reached one frame at a time through a `FrameAccess`:
while the boot tables are active a frame is mapped by one entry of their root, later by the entry of
one page of the kernel's own address space. Frames for new tables come from a `FrameAllocator`.

* `mapPage`, `nextTable`: one page, with the tables above it;
* `BootstrapPaging`: the boot tables, `intoKernel` leaves them for the kernel's own ones;
* `KernelPaging`: those, with user pages, kernel pages and the pages of the heap.

Log output is left out. The machine has no translation cache and the kernel is its only program, so
fences are left out too.
-/

set_option autoImplicit false

namespace Barebone.Kernel

open Exec Word Sv39

variable {F ε : Type}

/-! ## Constants -/

def sv39SignBit : ℕ := 38

def sv39HighHalfBase : ℕ := (wordMax <<< sv39SignBit) % (wordMax + 1)

theorem sv39HighHalfBase_eq : sv39HighHalfBase = 2 ^ 64 - 2 ^ 38 := by decide

def sv39LowHalfEnd : ℕ := 1 <<< sv39SignBit

theorem sv39LowHalfEnd_eq : sv39LowHalfEnd = 2 ^ 38 := by decide

def pageShift : ℕ := 12

def pageSize : ℕ := 1 <<< pageShift

def pageMask : ℕ := pageSize - 1

def megapageShift : ℕ := 21

def pageTableEntries : ℕ := 512

def gigapageShift : ℕ := 30

def gigapageSize : ℕ := 1 <<< gigapageShift

def gigapageMask : ℕ := gigapageSize - 1

def vpnMask : ℕ := 0x1ff

def sv39HighHalfVpn2 : ℕ := (sv39HighHalfBase >>> gigapageShift) &&& vpnMask

def ptePpnShift : ℕ := 10

def pteValid : ℕ := 1 <<< 0

def pteRead : ℕ := 1 <<< 1

def pteWrite : ℕ := 1 <<< 2

def pteExecute : ℕ := 1 <<< 3

def pteUser : ℕ := 1 <<< 4

def pteAccessed : ℕ := 1 <<< 6

def pteDirty : ℕ := 1 <<< 7

def pteLeafMask : ℕ := pteRead ||| pteWrite ||| pteExecute

def bootFdtPteFlags : ℕ := pteValid ||| pteRead ||| pteAccessed

def bootFdtWindowBase : ℕ := sv39HighHalfBase

theorem bootFdtWindowBase_eq : bootFdtWindowBase = 2 ^ 64 - 2 ^ 38 := sv39HighHalfBase_eq

def bootFdtWindowVpn2 : ℕ := sv39HighHalfVpn2

def bootFdtWindowGigapages : ℕ := 5

def bootFrameWindowVpn2 : ℕ := vpnMask

def bootFrameWindowBase : ℕ :=
  sv39HighHalfBase + (bootFrameWindowVpn2 - sv39HighHalfVpn2) * gigapageSize

theorem bootFrameWindowBase_eq : bootFrameWindowBase = 2 ^ 64 - 2 ^ 30 := by decide

def frameWindowPteFlags : ℕ := pteValid ||| pteRead ||| pteWrite ||| pteAccessed ||| pteDirty

def satpModeShift : ℕ := 60

def satpModeMask : ℕ := 0xf

def satpModeSv39 : ℕ := 8

def physicalPageNumberBits : ℕ := 44

def satpPpnMask : ℕ := (1 <<< physicalPageNumberBits) - 1

def physicalAddressBits : ℕ := physicalPageNumberBits + pageShift

def maxPhysicalAddress : ℕ := (1 <<< physicalAddressBits) - 1

theorem maxPhysicalAddress_eq : maxPhysicalAddress = 2 ^ 56 - 1 := by decide

/-- The page through which the last-level table of the frame window is reached. -/
def fixmapTableBase : ℕ := bootFrameWindowBase - gigapageSize - (1 <<< megapageShift)

/-- The page of the frame window. -/
def fixmapFrameBase : ℕ := fixmapTableBase + pageSize

theorem fixmapFrameBase_le : fixmapFrameBase ≤ wordMax := by decide

def fixmapFrameIndex : ℕ := (fixmapFrameBase >>> pageShift) &&& vpnMask

def heapStart : ℕ := 0xffffffe000000000

def heapEnd : ℕ := heapStart + gigapageSize

def heapRange : VirtRange := ⟨⟨heapStart, by decide⟩, ⟨heapEnd, by decide⟩, by decide⟩

/-! ## Errors and entries -/

/-- Who may use a page. -/
inductive PagePrivilege where
  | supervisor
  | user
  deriving DecidableEq

inductive PagingError where
  | virtualAddressNotUser (address : ℕ)
  | rootEntryInUse (index entry : ℕ)
  | unexpectedAddressTranslationMode (mode : ℕ)
  | physicalAddressNotRepresentable (address : PhysAddr)
  | physicalRangeNotRepresentable (start : PhysAddr) (size : ℕ)
  | invalidKernelSection (range : VirtRange)
  | invalidDtbMapping (virtualAddress : VirtAddr) (physicalRange : PhysRange)
  | outOfPhysicalFrames
  | virtualAddressNotPageAligned (address : ℕ)
  | virtualAddressNotCanonical (address : ℕ)
  | invalidIntermediateEntry (index entry : ℕ)
  | pageAlreadyMapped (address entry : ℕ)
  | pageTableIndexOutOfRange (index : ℕ)
  | virtualAddressNotKernel (address : ℕ)
  | reservedVirtualPage (address : ℕ)
  | bootstrapPagingAlreadyClaimed
  | kernelHeapAlreadyClaimed
  deriving DecidableEq

def permissionBits : PagePermissions → ℕ
  | .readOnly => pteRead
  | .readWrite => pteRead ||| pteWrite
  | .readExecute => pteRead ||| pteExecute

def pageTableEntry (physicalAddress : PhysAddr) (flags : ℕ) : Except PagingError ℕ :=
  if physicalAddress.asUsize > maxPhysicalAddress then
    .error (.physicalAddressNotRepresentable physicalAddress)
  else .ok ((physicalAddress.asUsize >>> pageShift) <<< ptePpnShift ||| flags)

theorem ppn_shiftLeft_le (word : ℕ) : (word &&& satpPpnMask) <<< pageShift ≤ wordMax := by
  have h : word &&& satpPpnMask ≤ satpPpnMask := Nat.and_le_right
  have hmask : satpPpnMask = 2 ^ 44 - 1 := by decide
  have hmax := wordMax_eq
  rw [show pageShift = 12 from rfl, Nat.shiftLeft_eq]
  omega

/-- The physical address of the page number in the low bits of a word. -/
def ppnAddress (word : ℕ) : PhysAddr :=
  ⟨(word &&& satpPpnMask) <<< pageShift, ppn_shiftLeft_le word⟩

/-- The table an entry points to. -/
def intermediateFrame (index entry : ℕ) : Except PagingError PhysFrame :=
  if entry &&& pteValid = 0 ∨ entry &&& pteLeafMask ≠ 0 then
    .error (.invalidIntermediateEntry index entry)
  else
    match PhysFrame.fromStart (ppnAddress (entry >>> ptePpnShift)) with
    | none => .error (.invalidIntermediateEntry index entry)
    | some frame => .ok frame

/-- Entry `index` of the table that is mapped at `address`. -/
def readMappedPageTableEntry (address : VirtAddr) (index : ℕ) : Exec Machine PagingError ℕ :=
  if index ≥ pageTableEntries then fail (.pageTableIndexOutOfRange index)
  else readVolatile (address.asUsize + 8 * index)

def writeMappedPageTableEntry (address : VirtAddr) (index value : ℕ) :
    Exec Machine PagingError Unit :=
  if index ≥ pageTableEntries then fail (.pageTableIndexOutOfRange index)
  else writeVolatile (address.asUsize + 8 * index) value

/-! ## Access to frames -/

/-- Temporary access to one frame at a time: `withFrame` maps the frame, runs an operation on the
address where it is mapped, and removes the mapping. -/
structure FrameAccess where
  withFrame : {R : Type} → PhysFrame → (VirtAddr → Exec Machine Empty R) →
    Exec Machine PagingError R

/-- A source of frames. -/
class FrameAllocator (F : Type) where
  allocate : Exec F Empty (Option AllocatedFrame)

/-- Run a program that has no errors. -/
def infallible {σ α : Type} (c : Exec σ Empty α) : Exec σ ε α := mapError Empty.elim c

def onMachine {α : Type} (c : Exec Machine ε α) : Exec (Machine × F) ε α :=
  zoom Prod.fst (fun m s => (m, s.2)) c

/-- The next frame of the allocator. -/
def allocateFrame [FrameAllocator F] : Exec (Machine × F) PagingError AllocatedFrame := do
  let frame ← zoom Prod.snd (fun f s => (s.1, f)) (infallible FrameAllocator.allocate)
  match frame with
  | none => fail .outOfPhysicalFrames
  | some frame => pure frame

namespace FrameAccess

def zeroFrame (access : FrameAccess) (frame : AllocatedFrame) : Exec Machine PagingError Unit :=
  access.withFrame frame.frame fun address =>
    writeBytes address.asUsize (List.replicate pageSize 0)

def readPageTableEntry (access : FrameAccess) (frame : PhysFrame) (index : ℕ) :
    Exec Machine PagingError ℕ := do
  let result ← access.withFrame frame fun address =>
    attempt (readMappedPageTableEntry address index)
  ofExcept result

def writePageTableEntry (access : FrameAccess) (frame : PhysFrame) (index entry : ℕ) :
    Exec Machine PagingError Unit := do
  let result ← access.withFrame frame fun address =>
    attempt (writeMappedPageTableEntry address index entry)
  ofExcept result

variable [FrameAllocator F]

def allocatePageTable (access : FrameAccess) :
    Exec (Machine × F) PagingError AllocatedFrame := do
  let frame ← allocateFrame
  onMachine (access.zeroFrame frame)
  pure frame

def nextTable (access : FrameAccess) (parent : PhysFrame) (index : ℕ) :
    Exec (Machine × F) PagingError PhysFrame := do
  let entry ← onMachine (access.readPageTableEntry parent index)
  if entry ≠ 0 then ofExcept (intermediateFrame index entry)
  else
    let child ← access.allocatePageTable
    let entry ← ofExcept (pageTableEntry child.startAddress pteValid)
    onMachine (access.writePageTableEntry parent index entry)
    pure child.frame

end FrameAccess

/-! ## Pages and ranges -/

section Map

variable [FrameAllocator F]

/-- The flags of a leaf. -/
def leafFlags (permissions : PagePermissions) (privilege : PagePrivilege) : ℕ :=
  let bits := permissionBits permissions
  let flags := pteValid ||| pteAccessed ||| bits
  let flags := match privilege with
    | .user => flags ||| pteUser
    | .supervisor => flags
  if bits &&& pteWrite ≠ 0 then flags ||| pteDirty else flags

def mapPage (root : PhysFrame) (access : FrameAccess) (virtualAddress : VirtAddr)
    (physicalFrame : PhysFrame) (permissions : PagePermissions) (privilege : PagePrivilege) :
    Exec (Machine × F) PagingError Unit :=
  let address := virtualAddress.asUsize
  if address &&& pageMask ≠ 0 then fail (.virtualAddressNotPageAligned address)
  else if sv39LowHalfEnd ≤ address ∧ address < sv39HighHalfBase then
    fail (.virtualAddressNotCanonical address)
  else do
    let entry ← ofExcept
      (pageTableEntry physicalFrame.startAddress (leafFlags permissions privilege))
    let level1 ← access.nextTable root ((address >>> gigapageShift) &&& vpnMask)
    let level0 ← access.nextTable level1 ((address >>> megapageShift) &&& vpnMask)
    let existing ← onMachine
      (access.readPageTableEntry level0 ((address >>> pageShift) &&& vpnMask))
    if existing ≠ 0 then fail (.pageAlreadyMapped address existing)
    else
      onMachine (access.writePageTableEntry level0 ((address >>> pageShift) &&& vpnMask) entry)

/-- An address space under construction. -/
structure Sv39PageTable where
  root : AllocatedFrame

namespace Sv39PageTable

def new (access : FrameAccess) : Exec (Machine × F) PagingError Sv39PageTable := do
  let root ← access.allocatePageTable
  pure ⟨root⟩

/-- The address `bytes` behind another one, in arithmetic that must not overflow. -/
def offsetAddress {σ : Type} {space : Space} (address : Addr space) (bytes : ℕ) :
    Exec σ ε (Addr space) :=
  expectSome "attempt to add with overflow" (address.checkedAdd bytes)

/-- Page `pageIndex` of a range. -/
def mapRangePage (table : Sv39PageTable) (access : FrameAccess) (virtualRange : VirtRange)
    (physicalStart : PhysFrame) (permissions : PagePermissions) (pageIndex : ℕ) :
    Exec (Machine × F) PagingError Unit := do
  let virtualAddress ← offsetAddress virtualRange.start (pageIndex * pageSize)
  let physicalAddress ← offsetAddress physicalStart.startAddress (pageIndex * pageSize)
  match PhysFrame.fromStart physicalAddress with
  | none => fail (.physicalRangeNotRepresentable physicalStart.startAddress
      (virtualRange.stop.asUsize - virtualRange.start.asUsize))
  | some frame =>
    mapPage table.root.frame access virtualAddress frame permissions .supervisor

def mapRange (table : Sv39PageTable) (access : FrameAccess) (virtualRange : VirtRange)
    (physicalStart : PhysFrame) (permissions : PagePermissions) :
    Exec (Machine × F) PagingError Unit :=
  let start := virtualRange.start.asUsize
  let stop := virtualRange.stop.asUsize
  if start &&& pageMask ≠ 0 then fail (.virtualAddressNotPageAligned start)
  else if sv39LowHalfEnd ≤ start ∧ start < sv39HighHalfBase then
    fail (.virtualAddressNotCanonical start)
  else if start < sv39LowHalfEnd ∧ stop > sv39LowHalfEnd then
    fail (.virtualAddressNotCanonical sv39LowHalfEnd)
  else
    let size := stop - start
    let pageCount := (size + pageSize - 1) / pageSize
    let lastOffset := (pageCount - 1) * pageSize
    let physicalBase := physicalStart.startAddress
    match (physicalBase.checkedAdd lastOffset).filter (·.asUsize ≤ maxPhysicalAddress) with
    | none => fail (.physicalRangeNotRepresentable physicalBase size)
    | some _ =>
      forRange pageCount
        (mapRangePage table access virtualRange physicalStart permissions)

end Sv39PageTable

end Map

/-! ## The boot tables -/

structure BootstrapPaging where
  rootVirtual : VirtAddr

def activeRootTable : Exec Machine PagingError PhysAddr := do
  let m ← get
  let mode := (m.satp >>> satpModeShift) &&& satpModeMask
  if mode ≠ satpModeSv39 then fail (.unexpectedAddressTranslationMode mode)
  else pure (ppnAddress m.satp)

namespace BootstrapPaging

/-- The state holds whether the boot tables have been claimed. -/
def claim : Exec (Machine × Bool) PagingError BootstrapPaging := do
  let root ← onMachine activeRootTable
  let s ← get
  if s.2 then fail .bootstrapPagingAlreadyClaimed
  else
    modify fun s => (s.1, true)
    pure ⟨⟨root.asUsize, root.isWord⟩⟩

/-- The checks on one leaf of the device tree window. -/
def checkFdtLeaf (paging : BootstrapPaging) (physicalBase : PhysAddr) (windowIndex : ℕ) :
    Exec Machine PagingError Unit := do
  let rootIndex := bootFdtWindowVpn2 + windowIndex
  let existing ← readMappedPageTableEntry paging.rootVirtual rootIndex
  if existing ≠ 0 then fail (.rootEntryInUse rootIndex existing)
  else
    let physicalAddress ←
      Sv39PageTable.offsetAddress physicalBase (windowIndex * gigapageSize)
    if physicalAddress.asUsize > maxPhysicalAddress then
      fail (.physicalAddressNotRepresentable physicalAddress)
    else pure ()

def installFdtLeaf (paging : BootstrapPaging) (physicalBase : PhysAddr) (windowIndex : ℕ) :
    Exec Machine PagingError Unit := do
  let rootIndex := bootFdtWindowVpn2 + windowIndex
  let physicalAddress ←
    Sv39PageTable.offsetAddress physicalBase (windowIndex * gigapageSize)
  let entry ← ofExcept (pageTableEntry physicalAddress bootFdtPteFlags)
  writeMappedPageTableEntry paging.rootVirtual rootIndex entry

def mapFdt (paging : BootstrapPaging) (dtb : PhysAddr) : Exec Machine PagingError VirtAddr :=
  if dtb.asUsize > maxPhysicalAddress then fail (.physicalAddressNotRepresentable dtb)
  else do
    let physicalBase := dtb.clear gigapageMask
    forRange bootFdtWindowGigapages (paging.checkFdtLeaf physicalBase)
    forRange bootFdtWindowGigapages (paging.installFdtLeaf physicalBase)
    Sv39PageTable.offsetAddress ⟨bootFdtWindowBase, by decide⟩ (dtb.asUsize &&& gigapageMask)

def withFrame (paging : BootstrapPaging) {R : Type} (frame : PhysFrame)
    (operation : VirtAddr → Exec Machine Empty R) : Exec Machine PagingError R := do
  let existing ← readMappedPageTableEntry paging.rootVirtual bootFrameWindowVpn2
  if existing ≠ 0 then fail (.rootEntryInUse bootFrameWindowVpn2 existing)
  else
    let frameAddress := frame.startAddress
    if frameAddress.asUsize > maxPhysicalAddress then
      fail (.physicalAddressNotRepresentable frameAddress)
    else
      let physicalBase := frameAddress.clear gigapageMask
      let entry ← ofExcept (pageTableEntry physicalBase frameWindowPteFlags)
      writeMappedPageTableEntry paging.rootVirtual bootFrameWindowVpn2 entry
      let virtualAddress ← Sv39PageTable.offsetAddress ⟨bootFrameWindowBase, by decide⟩
        (frameAddress.asUsize &&& gigapageMask)
      let result ← infallible (operation virtualAddress)
      writeMappedPageTableEntry paging.rootVirtual bootFrameWindowVpn2 0
      pure result

def access (paging : BootstrapPaging) : FrameAccess := ⟨paging.withFrame⟩

end BootstrapPaging

/-! ## The kernel's address space -/

/-- The ranges of the kernel image; an empty section has none. -/
structure KernelSections where
  virtualStart : VirtAddr
  text : Option VirtRange
  rodata : Option VirtRange
  data : Option VirtRange
  bss : Option VirtRange
  stack : Option VirtRange

/-- The sections with their permissions, in the order in which they are mapped. -/
def KernelSections.permissions (sections : KernelSections) :
    List (Option VirtRange × PagePermissions) :=
  [(sections.text, .readExecute), (sections.rodata, .readOnly), (sections.data, .readWrite),
    (sections.bss, .readWrite), (sections.stack, .readWrite)]

/-- The first frame of a section. -/
def KernelSections.physicalStart (sections : KernelSections) (kernelPhysicalStart : PhysAddr)
    (range : VirtRange) : Option PhysFrame :=
  if sections.virtualStart.asUsize ≤ range.start.asUsize then
    (kernelPhysicalStart.checkedAdd
      (range.start.asUsize - sections.virtualStart.asUsize)).bind PhysFrame.fromStart
  else none

structure KernelPaging where
  root : AllocatedFrame
  fixmapTable : PhysFrame
  dtbMapping : VirtRange
  frameSlot : ℕ
  heapClaimed : Bool

/-- The pages and the first frame that cover the device tree. -/
def dtbPageMapping (virtualAddress : VirtAddr) (physicalRange : PhysRange) :
    Except PagingError (VirtRange × PhysFrame) :=
  let invalid := PagingError.invalidDtbMapping virtualAddress physicalRange
  let physicalStart := physicalRange.start
  if virtualAddress.asUsize &&& pageMask ≠ physicalStart.asUsize &&& pageMask then .error invalid
  else
    let size := physicalRange.stop.asUsize - physicalStart.asUsize
    match (virtualAddress.checkedAdd size).bind (·.checkedAdd pageMask) with
    | none => .error invalid
    | some virtualEnd =>
      match AddrRange.new (virtualAddress.clear pageMask) (virtualEnd.clear pageMask) with
      | none => .error invalid
      | some virtualRange =>
        match PhysFrame.fromStart (physicalStart.clear pageMask) with
        | none => .error invalid
        | some physicalFrame => .ok (virtualRange, physicalFrame)

section IntoKernel

variable [FrameAllocator F]

/-- Maps the last-level table of the frame window and leaves the window empty. -/
def Sv39PageTable.prepareFixmap (table : Sv39PageTable) (bootstrap : BootstrapPaging) :
    Exec (Machine × F) PagingError PhysFrame := do
  let level1 ← bootstrap.access.nextTable table.root.frame
    ((fixmapTableBase >>> gigapageShift) &&& vpnMask)
  let level0 ← bootstrap.access.nextTable level1 ((fixmapTableBase >>> megapageShift) &&& vpnMask)
  let existing ← onMachine (bootstrap.access.readPageTableEntry level0 fixmapFrameIndex)
  if existing ≠ 0 then fail (.pageAlreadyMapped fixmapFrameBase existing)
  else
    mapPage table.root.frame bootstrap.access ⟨fixmapTableBase, by decide⟩ level0 .readWrite
      .supervisor
    pure level0

def activateRoot (root : PhysFrame) : Exec Machine ε Unit := modify fun m =>
  { m with satp := (satpModeSv39 <<< satpModeShift) ||| (root.startAddress.asUsize >>> pageShift) }

namespace BootstrapPaging

def mapSection (bootstrap : BootstrapPaging) (table : Sv39PageTable)
    (kernelPhysicalStart : PhysAddr) (sections : KernelSections) :
    Option VirtRange × PagePermissions → Exec (Machine × F) PagingError Unit
  | (none, _) => pure ()
  | (some range, permissions) =>
    match sections.physicalStart kernelPhysicalStart range with
    | none => fail (.invalidKernelSection range)
    | some physicalStart => table.mapRange bootstrap.access range physicalStart permissions

def intoKernel (bootstrap : BootstrapPaging) (kernelPhysicalStart : PhysAddr)
    (sections : KernelSections) (dtbVirtual : VirtAddr) (dtbPhysical : PhysRange) :
    Exec (Machine × F) PagingError KernelPaging := do
  let (dtbMapping, dtbFrame) ← ofExcept (dtbPageMapping dtbVirtual dtbPhysical)
  let table ← Sv39PageTable.new bootstrap.access
  sections.permissions.forM (bootstrap.mapSection table kernelPhysicalStart sections)
  table.mapRange bootstrap.access dtbMapping dtbFrame .readOnly
  let fixmapTable ← table.prepareFixmap bootstrap
  onMachine (activateRoot table.root.frame)
  pure ⟨table.root, fixmapTable, dtbMapping,
    (fixmapTableBase + 8 * fixmapFrameIndex) % (wordMax + 1), false⟩

end BootstrapPaging

end IntoKernel

namespace KernelPaging

def withFrame (paging : KernelPaging) {R : Type} (frame : PhysFrame)
    (operation : VirtAddr → Exec Machine Empty R) : Exec Machine PagingError R := do
  let entry ← ofExcept (pageTableEntry frame.startAddress frameWindowPteFlags)
  let existing ← readVolatile paging.frameSlot
  if existing ≠ 0 then fail (.pageAlreadyMapped fixmapFrameBase existing)
  else
    writeVolatile paging.frameSlot entry
    let result ← infallible (operation ⟨fixmapFrameBase, fixmapFrameBase_le⟩)
    writeVolatile paging.frameSlot 0
    pure result

def access (paging : KernelPaging) : FrameAccess := ⟨paging.withFrame⟩

def zeroFrame (paging : KernelPaging) (frame : AllocatedFrame) : Exec Machine PagingError Unit :=
  paging.access.zeroFrame frame

variable [FrameAllocator F]

def mapUserPage (paging : KernelPaging) (virtualAddress : VirtAddr) (frame : AllocatedFrame)
    (permissions : PagePermissions) : Exec (Machine × F) PagingError Unit :=
  let address := virtualAddress.asUsize
  if ¬(pageSize ≤ address ∧ address < sv39LowHalfEnd) then fail (.virtualAddressNotUser address)
  else Kernel.mapPage paging.root.frame paging.access virtualAddress frame.frame permissions .user

def installPage (paging : KernelPaging) (virtualAddress : VirtAddr) (frame : AllocatedFrame)
    (permissions : PagePermissions) : Exec (Machine × F) PagingError Unit :=
  let address := virtualAddress.asUsize
  if address < sv39HighHalfBase then fail (.virtualAddressNotKernel address)
  else if address = fixmapFrameBase then fail (.reservedVirtualPage address)
  else
    Kernel.mapPage paging.root.frame paging.access virtualAddress frame.frame permissions
      .supervisor

def mapPage (paging : KernelPaging) (virtualAddress : VirtAddr) (frame : AllocatedFrame)
    (permissions : PagePermissions) : Exec (Machine × F) PagingError Unit :=
  let address := virtualAddress.asUsize
  if paging.heapClaimed ∧ heapStart ≤ address ∧ address < heapEnd then
    fail (.reservedVirtualPage address)
  else paging.installPage virtualAddress frame permissions

/-- Backs one page of the claimed heap with a zeroed frame. -/
def heapBacking (paging : KernelPaging) : HeapBacking (Machine × F) PagingError := fun address =>
  let value := address.asUsize
  if ¬paging.heapClaimed ∨ ¬(heapStart ≤ value ∧ value < heapEnd) then
    fail (.reservedVirtualPage value)
  else if value &&& pageMask ≠ 0 then fail (.virtualAddressNotPageAligned value)
  else do
    let frame ← allocateFrame
    onMachine (paging.zeroFrame frame)
    paging.installPage address frame .readWrite

/-- Run a program of the machine and the allocator beside the paging capability. -/
def beside {α : Type} (c : Exec (Machine × F) ε α) : Exec (KernelPaging × Machine × F) ε α :=
  zoom Prod.snd (fun s t => (t.1, s)) c

def claimHeap : Exec (KernelPaging × Machine × F) (HeapError PagingError) KernelHeap := do
  let paging := (← get).1
  if paging.heapClaimed then fail (.backing .kernelHeapAlreadyClaimed)
  else
    let index := (heapStart >>> gigapageShift) &&& vpnMask
    let entry ← mapError .backing
      (beside (onMachine (paging.access.readPageTableEntry paging.root.frame index)))
    if entry ≠ 0 then fail (.backing (.rootEntryInUse index entry))
    else
      let paging := { paging with heapClaimed := true }
      modify fun s => (paging, s.2)
      beside (KernelHeap.new heapRange paging.heapBacking)

end KernelPaging

end Barebone.Kernel
