import BareboneKernel.Kernel.Allocator
import BareboneKernel.Kernel.Cells
import BareboneKernel.Kernel.HeapPages
import BareboneKernel.Kernel.Startup
import BareboneKernel.Kernel.Trap

/-!
# The first process

After `main` has entered the kernel's address space it claims the heap and installs the global memory
state. `load_init` then allocates a kernel stack on the heap and loads the embedded image, all through
the gate of the global allocator.

* `initKernelAllocator`, `Process.loadInit`, `startProcess`: the code;
* `gate_onState`: an operation behind the gate runs as it does alone;
* `Backs`: a heap and its pages, in a state that steps of the system have reached;
* `Started`: a process that is ready to run, and what holds of it from then on;
* `StartFailure`: the image is not valid, or there are too few frames for it;
* **`process_starts`**: starting fails for these reasons only, and a process that comes of it is ready.
-/

set_option autoImplicit false

namespace Barebone.Kernel

open Exec Word Sv39 Cells
open Riscv (SIE setBit)

variable {F ε α : Type}

/-! ## The code -/

/-- The globals of a running kernel: the memory state, and whether the process slot is claimed. -/
structure Globals (F : Type) where
  system : System F
  claimed : Bool

namespace Globals

/-- Call a function of the global allocator. -/
def call (c : Observed F α) : Exec (Globals F) ε α := fun g =>
  (c g.system).2.map fun x => (.ok x.1, { g with system := x.2 })

/-- Kernel code that works on the memory. -/
def onMachine (c : Exec Machine ε α) : Exec (Globals F) ε α :=
  zoom (·.system.machine) (fun m g => { g with system := { g.system with machine := m } }) c

/-- `CLAIMED.swap(true)` -/
def swapClaimed : Exec (Globals F) ε Bool := fun g => .ok (.ok g.claimed, { g with claimed := true })

/-- Run a program on capabilities that are owned locally, and return them too. -/
def lend (paging : KernelPaging) (frames : F) (c : Exec (KernelPaging × Machine × F) ε α) :
    Exec (Globals F) ε (α × KernelPaging × F) := fun g =>
  (c (paging, g.system.machine, frames)).map fun x =>
    (x.1.map (·, x.2.1, x.2.2.2), { g with system := { g.system with machine := x.2.2.1 } })

end Globals

/-- Why the hart is halted before the first process. -/
inductive AllocatorHalt where
  | claimHeap (error : HeapError PagingError)
  | initAllocator (error : AllocatorInitError)

/-- Failures of `load_init`: those of the image, and the others. -/
inductive LoadInitError where
  | image (error : LoadError)
  | alreadyClaimed
  | kernelStackAllocation
  | memory (error : MemoryAccessError)
  deriving DecidableEq

/-- Number of 16-byte aligned elements backing the supervisor stack. -/
def kernelStackElements : ℕ := stackSize / 16

def kernelStackLayout : Layout := ⟨kernelStackElements * 16, 16, by decide, 4, by decide, by decide⟩

/-- A loaded user context with its kernel stack. -/
structure Process where
  context : UserContext
  kernelStack : NonNull

/-- The exclusive end of the kernel stack, which `run` passes to `enter_user`. -/
def Process.kernelStackTop (process : Process) : ℕ := process.kernelStack.address + stackSize

variable [FrameAllocator F]

/-- Claims a heap and installs Rust allocation state. -/
def initKernelAllocator (paging : KernelPaging) (frames : F) :
    Exec (Globals F) AllocatorHalt Unit := do
  let (heap, paging, frames) ← mapError .claimHeap (Globals.lend paging frames
    KernelPaging.claimHeap)
  match ← Globals.call (initializeMemory heap paging frames) with
  | .error e => fail (.initAllocator e)
  | .ok () => pure ()

/-- Work with the paging capability that an operation of `with_paging` is given. -/
def usingPaging (c : KernelPaging → Exec (Machine × F) ε α) : Exec (KernelPaging × Machine × F) ε α :=
  fun s => (c s.1 s.2).map fun x => (x.1, s.1, x.2)

/-- Loads the embedded executable and zeroed user stack exactly once. -/
def Process.loadInit (initImage : List UInt8) : Exec (Globals F) LoadInitError Process := do
  let image ← ofExcept ((Image.parse initImage imageLimit).mapError .image)
  if ← Globals.swapClaimed then fail .alreadyClaimed
  else
    match ← Globals.call (alloc kernelStackLayout) with
    | none => fail .kernelStackAllocation
    | some kernelStack => do
      Globals.onMachine (writeBytes kernelStack.address (List.replicate (kernelStackElements * 16) 0))
      match ← Globals.call (withPaging (onPaging (usingPaging (Kernel.loadInit image)))) with
      | .error e => fail (.memory e)
      | .ok (.error e) => fail (.image e)
      | .ok (.ok ()) => pure ⟨.new image.entry.asUsize userStackTop, kernelStack⟩

/-- What follows `main`, up to the process that is entered. -/
def startProcess (paging : KernelPaging) (frames : F) (initImage : List UInt8) :
    Exec (Globals F) (AllocatorHalt ⊕ LoadInitError) Process := do
  mapError .inl (initKernelAllocator paging frames)
  mapError .inr (Process.loadInit initImage)

/-! ## Behind the gate -/

section Gate

variable {s : System F}

/-- Interrupts are as they were, and the gate is free. -/
def System.restored (s t : System F) : System F :=
  { t with
    sstatus := setBit t.sstatus SIE s.interruptible
    allocator := { t.allocator with busy := false } }

omit [FrameAllocator F] in
/-- **An operation that finds the gate free** runs with interrupts disabled and the gate taken. -/
theorem gate_withState (hfree : s.held = false) (operation : Observed F α) :
    (withState operation s).2 = (operation s.taken).2.map fun x => (some x.1, s.restored x.2) := by
  have hdisable : (disableInterrupts s).2 = .ok (⟨s.interruptible⟩, s.masked) :=
    Traced.snd_atomic _ _
  have hexchange : (compareExchange false true s.masked).2 = .ok (.ok false, s.taken) :=
    (Traced.snd_atomic _ _).trans (if_pos hfree)
  have hrunning : ∀ t, (running operation t).2 = (operation t).2 := by
    intro t
    rw [running, Traced.snd_bind]
    rfl
  rw [withState, Traced.snd_bind, hdisable, Except.bind, Traced.snd_bind, hexchange, Except.bind]
  dsimp only
  rw [Traced.snd_bind, hrunning]
  rcases (operation s.taken).2 with b | ⟨a, t⟩
  · rfl
  · rfl

omit [FrameAllocator F] in
theorem snd_onState (f : Option (MemoryState F) × Machine →
    Except Abort (α × Option (MemoryState F) × Machine)) : (onState f s).2 =
      (f (s.allocator.state, s.machine)).map fun x =>
        (x.1, { s with allocator := { s.allocator with state := x.2.1 }, machine := x.2.2 }) :=
  Traced.snd_atomic _ _

omit [FrameAllocator F] in
/-- Work on the memory state leaves the rest as it was. -/
theorem gate_onState (hfree : s.held = false) (f : Option (MemoryState F) × Machine →
    Except Abort (α × Option (MemoryState F) × Machine)) :
    (withState (onState f) s).2 = (f (s.allocator.state, s.machine)).map fun x =>
      (some x.1, { s with allocator := ⟨false, x.2.1⟩, machine := x.2.2 }) := by
  have hsstatus : setBit (setBit s.sstatus SIE false) SIE s.interruptible = s.sstatus :=
    setBit_setBit s.sstatus false
  rw [gate_withState hfree, snd_onState]
  show ((f (s.allocator.state, s.machine)).map _).map _ = _
  rcases f (s.allocator.state, s.machine) with b | ⟨a, state, m⟩
  · rfl
  · show Except.ok (some a, (⟨setBit (setBit s.sstatus SIE false) SIE s.interruptible,
      ⟨false, state⟩, m⟩ : System F)) = _
    rw [hsstatus]
    rfl

variable {g : Globals F} {state : MemoryState F}

/-- The globals with other memory. -/
def Globals.within (g : Globals F) (state : MemoryState F) (m : Machine) : Globals F :=
  { g with system := { g.system with allocator := ⟨false, some state⟩, machine := m } }

omit [FrameAllocator F] in
theorem returns_call {c : Observed F α} {s' : System F} {a : α} (h : (c g.system).2 = .ok (a, s')) :
    Returns (Globals.call c : Exec (Globals F) ε α) g a { g with system := s' } := by
  rw [Returns, Globals.call, h]
  rfl

omit [FrameAllocator F] in
theorem returns_initializeMemory (state : MemoryState F)
    (h : g.system.allocator = ⟨false, none⟩) :
    Returns (Globals.call (initializeMemory state.heap state.paging state.frames) :
      Exec (Globals F) ε _) g (.ok ()) (g.within state g.system.machine) := by
  have hfree : g.system.held = false := congrArg KernelAllocator.busy h
  apply returns_call
  rw [initializeMemory, Traced.snd_reported, Traced.snd_bind, gate_onState hfree, h]
  rfl

theorem returns_alloc (h : g.system.allocator = ⟨false, some state⟩) {layout : Layout}
    {r : Except (HeapError PagingError) NonNull} {heap : KernelHeap} {m : Machine} {frames : F}
    (hrun : KernelHeap.allocate state.paging.heapBacking layout
      (state.heap, g.system.machine, state.frames) = .ok (r, heap, m, frames)) :
    Returns (Globals.call (alloc layout) : Exec (Globals F) ε _) g r.toOption
      (g.within { state with heap := heap, frames := frames } m) := by
  have hfree : g.system.held = false := congrArg KernelAllocator.busy h
  apply returns_call
  rw [alloc, Traced.snd_reported, Traced.snd_bind, gate_onState hfree, h, allocFrom, hrun]
  rfl

omit [FrameAllocator F] in
theorem returns_withPaging (h : g.system.allocator = ⟨false, some state⟩) {ε' : Type}
    {c : KernelPaging → Exec (Machine × F) ε α} {r : Except ε α} {m : Machine} {frames : F}
    (hrun : c state.paging (g.system.machine, state.frames) = .ok (r, m, frames)) :
    Returns (Globals.call (withPaging (onPaging (usingPaging c))) : Exec (Globals F) ε' _) g (.ok r)
      (g.within { state with frames := frames } m) := by
  have hfree : g.system.held = false := congrArg KernelAllocator.busy h
  have hsstatus : setBit (setBit g.system.sstatus SIE false) SIE g.system.interruptible =
      g.system.sstatus := setBit_setBit g.system.sstatus false
  have hlook : (onState (fun s => .ok (s.1, s)) g.system.taken :
      _ × Except Abort (Option (MemoryState F) × System F)).2 = .ok (some state, g.system.taken) := by
    have hstate : g.system.taken.allocator = ⟨true, some state⟩ :=
      congrArg (fun a : KernelAllocator F => { a with busy := true }) h
    rw [snd_onState, hstate]
    show Except.ok (some state, { g.system.taken with allocator := ⟨true, some state⟩ }) = _
    rw [← hstate]
  have hwork : (onPaging (usingPaging c) g.system.taken).2 = .ok (r,
      { g.system.taken with allocator := ⟨true, some { state with frames := frames }⟩, machine := m }) := by
    have hstate : g.system.taken.allocator.state = some state := congrArg KernelAllocator.state h
    have hmachine : g.system.taken.machine = g.system.machine := rfl
    rw [onPaging, snd_onState, hstate, hmachine, workOn, usingPaging, hrun]
    rfl
  apply returns_call
  rw [withPaging, Traced.snd_reported, Traced.snd_bind, gate_withState hfree, Traced.snd_bind, hlook,
    Except.bind]
  dsimp only
  rw [Traced.snd_bind, hwork]
  show Except.ok (Except.ok r, (⟨setBit (setBit g.system.sstatus SIE false) SIE g.system.interruptible,
    ⟨false, some { state with frames := frames }⟩, m⟩ : System F)) = _
  rw [hsstatus]

end Gate

/-! ## The heap on the way -/

section Kept

variable {β E : Type} {mapPage : HeapBacking β E} {I : KernelHeap → β → Prop} {heap : KernelHeap}
  {b : β}

/-- Requests leave the cursor alone. -/
theorem Kept.cursor (hI : Kept mapPage I) (cursor : VirtAddr) :
    Kept mapPage fun heap b => I heap b ∧ heap.cursor = cursor where
  paged h := hI.paged h.1
  page {heap b page} h hle hpage := by
    refine (hI.page h.1 hle hpage).mono fun r b' hr => ?_
    cases r with
    | ok u => exact ⟨hr, h.2⟩
    | error e => exact ⟨hr, h.2⟩

/-- A block that is handed out fits, and is backed. -/
theorem Kept.sat_allocate_placed (hI : Kept mapPage I)
    (hcursor : ∀ {heap : KernelHeap} {b : β} (cursor : VirtAddr), I heap b →
      I { heap with cursor := cursor } b)
    (h : I heap b) (layout : Layout) :
    Sat (KernelHeap.allocate mapPage layout) (heap, b) fun r s => I s.1 s.2 ∧ ∀ p, r = .ok p →
      p.address ∈ Fits heap layout ∧ s.1.mappedStart.asUsize ≤ p.address := by
  unfold KernelHeap.allocate
  split
  · exact sat_fail ⟨h, by simp⟩
  refine sat_get ?_
  dsimp only
  cases hplace : heap.placement layout with
  | none => exact sat_fail ⟨h, by simp⟩
  | some address =>
    obtain ⟨hfits, -⟩ := placement_eq_some hplace
    obtain ⟨hmod, hle⟩ := placed_page hplace (hI.paged h).start_mod
    dsimp only
    by_cases hne : address.asUsize ≠ 0
    · have hnew : NonNull.new address.asUsize = some ⟨address.asUsize, hne⟩ := dif_pos hne
      rw [hnew]
      refine (hI.sat_backTo h hmod hle).bind (fun _ s hs => ?_) fun e s hs =>
        ⟨hs.invariant, by simp⟩
      refine sat_modify (sat_pure ⟨hcursor address hs.invariant, fun p hp => ?_⟩)
      cases hp
      have hreach := hs.ok rfl
      rw [clear_page] at hreach
      exact ⟨hfits, hreach.trans (Nat.div_mul_le_self _ _)⟩
    · have hnew : NonNull.new address.asUsize = none := dif_neg hne
      rw [hnew]
      exact sat_fail ⟨h, by simp⟩

end Kept

/-- **A heap and its pages**, in an address space that steps of the system have reached: the lower
half is empty. -/
structure Backs (S : Supply F) (start : Vm F) (paging : KernelPaging) (heap : KernelHeap)
    (s : Machine × F) : Prop where
  mapped : ∃ requests, HeapMapped paging S heap s requests
  run : Run SystemStep start ⟨paging, s.1, s.2, []⟩
  low : ∀ va < sv39LowHalfEnd, s.1.translate va = none

section Backs

variable {S : Supply F} {start : Vm F} {paging : KernelPaging} {heap : KernelHeap} {s s' : Machine × F}

/-- A page of the heap does not lie in the lower half. -/
theorem translate_low {page : VirtAddr} {leaf : Leaf} (hsound : paging.Sound S s)
    (hsound' : paging.Sound S s') (hpage : HeapPage page.asUsize)
    (hwalk : walk s'.1.entries paging.root.frame.number =
      Function.update (walk s.1.entries paging.root.frame.number) (vpn page.asUsize) (some leaf))
    {va : ℕ} (hva : va < sv39LowHalfEnd) : s'.1.translate va = s.1.translate va := by
  rw [hsound.translate_eq, hsound'.translate_eq]
  unfold Sv39.translate
  by_cases hcanonical : Canonical va
  · have hne : vpn va ≠ vpn page.asUsize := by
      intro heq
      have hdiv := (vpn_eq_iff hcanonical hpage.canonical).mp heq
      have hlow := hpage.2.1
      have hend := sv39LowHalfEnd_eq
      rw [heapStart_eq] at hlow
      omega
    rw [if_pos hcanonical, if_pos hcanonical, hwalk, Function.update_of_ne hne]
  · rw [if_neg hcanonical, if_neg hcanonical]

/-- Requests keep it. -/
theorem kept_backs (hclaimed : paging.heapClaimed = true) :
    Kept paging.heapBacking (Backs S start paging) where
  paged h := by
    obtain ⟨requests, hmapped⟩ := h.mapped
    exact hmapped.paged
  page {heap s page} h hle hpage := by
    obtain ⟨requests, hmapped⟩ := h.mapped
    obtain ⟨r, s', hrun, hr⟩ := hmapped.sat_request hclaimed hle hpage
    have hheap := hmapped.page hle hpage
    obtain ⟨r', s'', hrun', hback⟩ := hmapped.sat_page hclaimed hle hpage
    obtain ⟨rfl, rfl⟩ := Prod.mk.inj (Except.ok.inj (hrun.symm.trans hrun'))
    have hnext : Run SystemStep start ⟨paging, s'.1, s'.2, []⟩ := by
      exact h.run.next (.call (.heapBacking page) trivial) (onSpace_eq hrun)
    refine ⟨r, s', hrun, ?_⟩
    cases r with
    | ok u =>
      obtain ⟨n, -, -, -, hwalk⟩ := hback.ok rfl
      exact ⟨⟨_, hr⟩, hnext, fun va hva =>
        (translate_low hmapped.sound hback.sound hheap hwalk hva).trans (h.low va hva)⟩
    | error e =>
      refine ⟨⟨_, hr⟩, hnext, fun va hva => ?_⟩
      have hlow := h.low va hva
      rw [hmapped.sound.translate_eq] at hlow
      rw [hback.sound.translate_eq, ← hlow]
      unfold Sv39.translate
      rw [(hback.error e rfl).2]

omit [FrameAllocator F] in
theorem onPaging_eq {c : Exec (KernelPaging × Machine × F) ε α} {v : Vm F} {r : Except ε α}
    {t : KernelPaging × Machine × F} (h : c (v.paging, v.space) = .ok (r, t)) :
    Vm.onPaging c v = .ok (r.mapError fun _ => (), ⟨t.1, t.2.1, t.2.2, v.owned⟩) := by
  rw [Vm.onPaging, mapError, zoom, h]
  rfl

/-- A heap is claimed only where nothing is mapped. -/
theorem unmapped_of_claim {s' : KernelPaging × Machine × F} (hsound : paging.Sound S s)
    (hclean : Clean s.1.entries paging.root.frame.number)
    (hclaim : Returns KernelPaging.claimHeap (paging, s) heap s') {va : ℕ} (hge : heapStart ≤ va)
    (hlt : va < heapEnd) : s.1.translate va = none := by
  rw [Returns, KernelPaging.claimHeap_eq hsound] at hclaim
  split at hclaim
  · cases hclaim
  split at hclaim
  · cases hclaim
  rename_i hempty
  have hstart := heapMapped_start hsound hclean (not_not.mp hempty)
  obtain ⟨hpage, hcanonical, hvpn⟩ := exists_heapPage hge hlt
  have hnone := hstart.unmapped _ hpage hpage.2.2
  rw [hsound.translate_eq, Sv39.translate, if_pos hcanonical, hvpn, hnone]
  rfl

/-- What a claimed heap starts from, and with. Its first page has taken three frames at most. -/
structure Claims (S : Supply F) (paging : KernelPaging) (s : Machine × F) (heap : KernelHeap)
    (s' : KernelPaging × Machine × F) : Prop where
  claimed : s'.1 = { paging with heapClaimed := true }
  backs : Backs S ⟨paging, s.1, s.2, []⟩ s'.1 heap s'.2
  cursor : heap.cursor = heapRange.stop
  empty : ∀ va, heapStart ≤ va → va < heapEnd → s.1.translate va = none
  stock : ∀ n, Stocked (n + 3) s.2 → Stocked n s'.2.2

/-- **Claiming the heap** is a step of the system, and leaves the lower half empty. Over an empty
entry of the root it fails only for lack of frames. -/
theorem sat_claimHeap_claims (hsound : paging.Sound S s)
    (hclean : Clean s.1.entries paging.root.frame.number)
    (hlow : ∀ va < sv39LowHalfEnd, s.1.translate va = none)
    (hunclaimed : paging.heapClaimed = false)
    (hslot : s.1.entries paging.root.frame.number (vpn heapStart).vpn2 = 0) :
    Sat KernelPaging.claimHeap (paging, s) fun r s' => (∀ e, r = .error e → ∃ e', e = .backing e' ∧
        FrameShortage e' ∧ ¬Stocked 3 s.2) ∧
      ∀ heap, r = .ok heap → Claims S paging s heap s' := by
  let claimed : KernelPaging := { paging with heapClaimed := true }
  have hbacked : Kept claimed.heapBacking (Backs S ⟨claimed, s.1, s.2, []⟩ claimed) := kept_backs rfl
  have hkept := hbacked.cursor heapRange.stop
  obtain ⟨r, s', hrun, -, hok, herror⟩ := KernelPaging.sat_claimHeap hsound hkept (Q := fun _ => True)
    (fun hempty => ⟨⟨⟨[], heapMapped_start hsound.claim hclean hempty⟩, .start, hlow⟩, rfl⟩) trivial
    fun _ _ _ => trivial
  have hstocked : ∀ n, Stocked (n + 3) s.2 → ∃ heap, r = .ok heap ∧ Stocked n s'.2.2 := by
    intro n hstock
    obtain ⟨heap, hr, -, -, hrest⟩ := (KernelPaging.succeeds_claimHeap hsound hclean hunclaimed hslot
      hstock).eq_ok hrun
    exact ⟨heap, hr, hrest⟩
  refine ⟨r, s', hrun, fun e he => ?_, ?_⟩
  · obtain ⟨e', heap, t, page, t', hbacking, ⟨hbacks, -⟩, hle, hpage, hfails⟩ :=
      herror e he hunclaimed hslot
    obtain ⟨requests, hmapped⟩ := hbacks.mapped
    refine ⟨e', hbacking, hmapped.shortage rfl hle hpage hfails, fun hstock => ?_⟩
    obtain ⟨heap', hr, -⟩ := hstocked 0 hstock
    cases he.symm.trans hr
  rintro heap rfl
  obtain ⟨hclaimed, -, hbacks, hcursor⟩ := hok heap rfl
  refine ⟨hclaimed, ⟨hclaimed ▸ hbacks.mapped, ?_, hbacks.low⟩, hcursor, ?_, fun n hstock => ?_⟩
  · refine Run.start.next (r := .ok ()) (.call .claimHeap trivial) ?_
    show ((Vm.onPaging KernelPaging.claimHeap >>= fun _ => pure ()) : Exec (Vm F) Unit Unit) _ = _
    rw [bind_apply, onPaging_eq hrun]
    rfl
  · exact fun va hge hlt => unmapped_of_claim hsound hclean hrun hge hlt
  · obtain ⟨-, -, hrest⟩ := hstocked n hstock
    exact hrest

/-- An address of a block lies on a page of supervisor mode. -/
structure Block.Mapped (block : Block) (m : Machine) : Prop where
  low : heapStart ≤ block.address
  high : block.address + block.size ≤ heapEnd
  pages : ∀ va, block.address ≤ va → va < block.address + block.size → ∃ pa n,
    m.translate va = some (pa, leafFor n .readWrite .supervisor)

/-- **Allocating** on the heap: steps of the system, and a block that is mapped. -/
theorem Backs.sat_allocate (h : Backs S start paging heap s) (hclaimed : paging.heapClaimed = true)
    (hcursor : heap.cursor.asUsize = heapEnd) (layout : Layout) :
    Sat (KernelHeap.allocate paging.heapBacking layout) (heap, s) fun r s' =>
      Backs S start paging s'.1 s'.2 ∧ ∀ p, r = .ok p → layout.align ∣ p.address ∧
        Block.Mapped ⟨p.address, layout.size⟩ s'.2.1 := by
  have hmove : ∀ {heap : KernelHeap} {s : Machine × F} (cursor : VirtAddr),
      Backs S start paging heap s → Backs S start paging { heap with cursor := cursor } s := by
    intro heap s cursor h
    obtain ⟨requests, hmapped⟩ := h.mapped
    exact ⟨⟨requests, { hmapped with range := hmapped.range }⟩, h.run, h.low⟩
  refine ((kept_backs hclaimed).sat_allocate_placed hmove h layout).mono ?_
  rintro r ⟨heap', s'⟩ ⟨hbacks, hplaced⟩
  refine ⟨hbacks, fun p hp => ?_⟩
  obtain ⟨⟨halign, hlow, hhigh⟩, hreach⟩ := hplaced p hp
  obtain ⟨requests₀, hmapped₀⟩ := h.mapped
  obtain ⟨requests, hmapped⟩ := hbacks.mapped
  rw [hmapped₀.range] at hlow
  rw [hcursor] at hhigh
  refine ⟨halign, hlow, hhigh, fun va hge hlt => ?_⟩
  obtain ⟨hpage, hcanonical, hvpn⟩ := exists_heapPage (hlow.trans hge) (hlt.trans_le hhigh)
  obtain ⟨n, hn, -⟩ := hmapped.mapped _ hpage ((hmapped.mapped_le_iff va).mpr (hreach.trans hge))
  rw [← hvpn] at hn
  exact ⟨_, n, (hmapped.sound.translate_eq va).trans (translate_of_walk hcanonical hn)⟩

/-- **The kernel stack is handed out** at the end of the heap, with three frames for each of its four
pages. -/
theorem Claims.succeeds_kernelStack {t : KernelPaging × Machine × F} (h : Claims S paging s heap t)
    {n : ℕ} (hstock : Stocked (n + 15) s.2) :
    Succeeds (KernelHeap.allocate t.1.heapBacking kernelStackLayout) (heap, t.2) fun _ s' =>
      Stocked n s'.2.2 := by
  obtain ⟨requests, hmapped⟩ := h.backs.mapped
  have hclaimed : t.1.heapClaimed = true := by rw [h.claimed]
  have hplace : heap.placement kernelStackLayout = some ⟨heapEnd - stackSize, by decide⟩ := by
    rw [KernelHeap.placement, hmapped.range, h.cursor]
    decide
  have hbottom : ((⟨heapEnd - stackSize, by decide⟩ : VirtAddr).clear (frameSize - 1)).asUsize =
      heapEnd - 4 * frameSize := by decide
  have hle := hmapped.mapped_le
  have hframes : Stocked (n + 12) t.2.2 := h.stock _ hstock
  refine (hmapped.succeeds_allocate hclaimed (by decide) hplace (n := n) (hframes.mono ?_)).mono
    fun _ _ hs => hs.2
  rw [hbottom]
  unfold frameSize at *
  omega

end Backs

/-! ## Stores of the kernel -/

/-- The stores of a string. -/
def stores : ℕ → List UInt8 → List (ℕ × UInt8)
  | _, [] => []
  | va, byte :: bytes => (va, byte) :: stores (va + 1) bytes

theorem replay_stores_of_lt {va va' : ℕ} (bytes : List UInt8) (old : UInt8) (h : va' < va) :
    replay (stores va bytes) va' old = old := by
  induction bytes generalizing va with
  | nil => rfl
  | cons byte bytes ih =>
    show replay (stores (va + 1) bytes) va' (if va = va' then byte else old) = old
    rw [if_neg (by omega)]
    exact ih (by omega)

theorem replay_stores {va k : ℕ} {bytes : List UInt8} (old : UInt8) (h : k < bytes.length) :
    replay (stores va bytes) (va + k) old = bytes.get ⟨k, h⟩ := by
  induction bytes generalizing va k old with
  | nil => exact absurd h (Nat.not_lt_zero k)
  | cons byte bytes ih =>
    show replay (stores (va + 1) bytes) (va + k) (if va = va + k then byte else old) = _
    cases k with
    | zero =>
      rw [if_pos (Nat.add_zero va).symm]
      exact replay_stores_of_lt bytes byte (Nat.lt_succ_self va)
    | succ k =>
      have hk : k < bytes.length := Nat.lt_of_succ_lt_succ h
      have hva : va + (k + 1) = va + 1 + k := by omega
      rw [if_neg (by omega), hva]
      exact ih old hk

section Stores

variable {S : Supply F} {reserved : Set ℕ}

/-- **A string that the kernel writes** to mapped addresses is stored byte by byte, and no table
changes. -/
theorem Vm.Isolated.returns_writeBytes {bytes : List UInt8} : ∀ {v : Vm F} {va : ℕ},
    v.Isolated S reserved → (∀ k < bytes.length, ∃ pa leaf,
      v.machine.translate (va + k) = some (pa, leaf) ∧ writable leaf = true ∧
        (va + k) / frameSize ≠ fixmapTableBase / frameSize) →
    ∃ m, Returns (writeBytes va bytes : Exec Machine ε Unit) v.machine () m ∧
      Logged VmStep v (stores va bytes) { v with machine := m } ∧
        ∀ t ∈ tables v.machine.entries v.paging.root.frame.number,
          m.entries t = v.machine.entries t := by
  induction bytes with
  | nil =>
    exact fun {v va} _ _ => ⟨v.machine, returns_pure.mpr ⟨rfl, rfl⟩, .start, fun _ _ => rfl⟩
  | cons byte bytes ih =>
    intro v va h hmapped
    obtain ⟨pa, leaf, hva, hwritable, hcontrol⟩ := hmapped 0 (Nat.succ_pos _)
    have hphysical : physical v.machine writable va = some pa :=
      physical_eq_some.mpr ⟨leaf, hva, hwritable⟩
    have hcode : MayStore writable va := .inr ⟨rfl, hcontrol⟩
    let v₁ : Vm F := { v with machine := v.machine.store pa [byte] }
    have hstore : Returns (Vm.store writable va byte) v () v₁ := by
      rw [Returns, store_eq, hphysical]
    have hbyte : Returns (writeByte va byte : Exec Machine ε Unit) v.machine () v₁.machine := by
      rw [Returns, writeByte, hphysical]
    obtain ⟨r, v₂, hrun, h₁, hconfined⟩ := h.sat_store hcode byte
    obtain ⟨-, rfl⟩ := Prod.mk.inj (Except.ok.inj (Eq.trans (Eq.symm hstore) hrun))
    obtain ⟨-, -, -, -, hentries⟩ := h.stored hcode hstore
    have hnext : ∀ k < bytes.length, ∃ pa leaf, v₁.machine.translate (va + 1 + k) = some (pa, leaf) ∧
        writable leaf = true ∧ (va + 1 + k) / frameSize ≠ fixmapTableBase / frameSize := by
      intro k hk
      obtain ⟨pa', leaf', hva', hrest⟩ := hmapped (k + 1) (Nat.succ_lt_succ hk)
      rw [Nat.add_comm k 1, ← Nat.add_assoc] at hva' hrest
      exact ⟨pa', leaf', hconfined.translate h h₁ hva', hrest⟩
    obtain ⟨m, hreturns, hlogged, hentries'⟩ := ih h₁ hnext
    refine ⟨m, returns_bind.mpr ⟨(), _, hbyte, hreturns⟩,
      (Logged.start.next (.stored hcode hstore)).trans hlogged, fun t ht => ?_⟩
    rw [hentries' t (by unfold tables at ht ⊢; rwa [tableAt_congr hentries]), hentries t ht]

end Stores

/-! ## Loading the image -/

section Load

variable {S : Supply F} {reserved : Set ℕ} {start v : Vm F} {paging : KernelPaging}
  {image : Image} {process : Process} {log : List (ℕ × UInt8)}

/-- Mapping the pages of an image is a run of the system that stores nothing. -/
theorem sat_mapPages_logged {pages : List Page} : ∀ {s : Machine × F},
    Vm.Isolated S reserved ⟨paging, s.1, s.2, []⟩ →
    Logged VmStep start log ⟨paging, s.1, s.2, []⟩ →
    Sat (pages.forM fun page => Image.mapPage paging page.address page.bytes page.permissions) s
      fun _ s' => Logged VmStep start log ⟨paging, s'.1, s'.2, []⟩ := by
  induction pages with
  | nil => exact fun _ hlogged => sat_pure hlogged
  | cons page pages ih =>
    intro s h hlogged
    obtain ⟨r, s', hstep, hgrown⟩ :=
      h.sound.sat_imageMapPage_grown page.address page.bytes page.permissions
    have hnext : Logged VmStep start log ⟨paging, s'.1, s'.2, []⟩ := by
      have hrun : Call.run (.imageMapPage page.address page.bytes page.permissions)
          ⟨paging, s.1, s.2, []⟩ = .ok (r.mapError fun _ => (), ⟨paging, s'.1, s'.2, []⟩) :=
        onSpace_eq hstep
      have hcall := hlogged.next (.call (by trivial) hrun)
      rwa [Option.toList_none, List.append_nil] at hcall
    cases r with
    | ok u => exact Returns.sat_bind hstep (ih (h.grown_pool hgrown) hnext)
    | error e => exact (Fails.bind hstep).sat hnext

omit [FrameAllocator F] in
theorem userRead_eq_some {m : Machine} {va : ℕ} {byte : UInt8} : userRead m va = some byte ↔
    ∃ pa leaf, m.translate va = some (pa, leaf) ∧ (leaf.read && leaf.accessed && leaf.user) = true ∧
      m.memory pa = byte := by
  unfold userRead
  cases htranslate : m.translate va with
  | none => simp
  | some x =>
    obtain ⟨pa, leaf⟩ := x
    by_cases hread : (leaf.read && leaf.accessed && leaf.user) = true
    · dsimp only
      rw [if_pos hread, Option.some_inj]
      refine ⟨fun hbyte => ⟨pa, leaf, rfl, hread, hbyte⟩, ?_⟩
      rintro ⟨_, _, heq, -, hbyte⟩
      cases heq
      exact hbyte
    · dsimp only
      rw [if_neg hread]
      refine ⟨by simp, ?_⟩
      rintro ⟨_, _, heq, hread', -⟩
      cases heq
      exact absurd hread' hread

/-- **What stays of a process** when the stores of `log` have been made. -/
structure Keeps (image : Image) (process : Process) (log : List (ℕ × UInt8)) (m : Machine) :
    Prop where
  payload : ∀ i (h : i < image.bytes.length),
    userRead m (image.base.asUsize + i) = some (image.bytes.get ⟨i, h⟩)
  userStack : ∀ va, userStackBottom ≤ va → va < userStackTop →
    userRead m va = some (replay log va 0)
  kernelStack : ∀ va, process.kernelStack.address ≤ va → va < process.kernelStackTop →
    ∃ pa leaf, m.translate va = some (pa, leaf) ∧ m.memory pa = replay log va 0

/-- **A process that is ready to run** in the state `v` of the system. -/
structure Started (image : Image) (process : Process) (v : Vm F) : Prop where
  context : process.context = .new image.entry.asUsize userStackTop
  memory : ∃ m, UserMemory image m v.machine
  aligned : process.kernelStackTop % 16 = 0
  stack : Block.Mapped ⟨process.kernelStack.address, stackSize⟩ v.machine
  later : ∀ log v', Logged VmStep v log v' → Keeps image process log v'.machine

/-- What a process consists of stays. -/
theorem Vm.Isolated.keeps (h : start.Isolated S reserved) (hrun : Run SystemStep start v)
    (hlow : ∀ va < sv39LowHalfEnd, start.machine.translate va = none)
    (hheap : ∀ va, heapStart ≤ va → va < heapEnd → start.machine.translate va = none)
    {m : Machine} (hmemory : UserMemory image m v.machine)
    (hstack : Block.Mapped ⟨process.kernelStack.address, stackSize⟩ v.machine)
    (hzero : ∀ va pa leaf, process.kernelStack.address ≤ va → va < process.kernelStackTop →
      v.machine.translate va = some (pa, leaf) → v.machine.memory pa = 0)
    {v' : Vm F} (hlogged : Logged VmStep v log v') : Keeps image process log v'.machine where
  payload i hi := by
    obtain ⟨hv, -⟩ := h.run hrun
    obtain ⟨hv', hconfined⟩ := hv.run (run_of_logged hlogged)
    have hend : image.base.asUsize + i < image.mappedEnd := by
      unfold Image.mappedEnd frameSize
      omega
    obtain ⟨pa, leaf, hva, hread, hbyte⟩ := userRead_eq_some.mp (hmemory.payload i hi)
    obtain ⟨pa', leaf', hva', -, -, hexecute, -⟩ :=
      hmemory.imagePages _ (Nat.le_add_right _ i) hend
    obtain ⟨rfl, rfl⟩ := Prod.mk.inj (Option.some.inj (hva.symm.trans hva'))
    refine userRead_eq_some.mpr ⟨pa, leaf, hconfined.translate hv hv' hva, hread, ?_⟩
    rw [hv.memory hconfined hva (hv.unwritten hva hexecute), hbyte]
  userStack va hge hlt := by
    have htop : userStackTop ≤ sv39LowHalfEnd := by decide
    obtain ⟨pa, leaf, hva, hread, hbyte⟩ := userRead_eq_some.mp (hmemory.stack va hge hlt)
    obtain ⟨hva', hbyte'⟩ := h.remembers hrun hlogged (hlow va (hlt.trans_le htop)) hva
    exact userRead_eq_some.mpr ⟨pa, leaf, hva', hread, by rw [hbyte', hbyte]⟩
  kernelStack va hge hlt := by
    obtain ⟨pa, n, hva⟩ := hstack.pages va hge hlt
    obtain ⟨hva', hbyte'⟩ := h.remembers hrun hlogged
      (hheap va (hstack.low.trans hge) (Nat.lt_of_lt_of_le hlt hstack.high)) hva
    exact ⟨pa, _, hva', by rw [hbyte', hzero va pa _ hge hlt hva]⟩

end Load

/-! ## Starting -/

/-- **Why starting may fail** with these frames: the image is not valid, or the frames do not suffice.
A page takes three at most, for itself and two tables. The gate is always free, and the heap, the slot
and the allocator are unused. -/
inductive StartFailure (initImage : List UInt8) (frames : F) : AllocatorHalt ⊕ LoadInitError → Prop
  | claimHeap {e : PagingError} (shortage : FrameShortage e) (few : ¬Stocked 3 frames) :
    StartFailure initImage frames (.inl (.claimHeap (.backing e)))
  | invalid {e : LoadError} (parse : Image.parse initImage imageLimit = .error e) :
    StartFailure initImage frames (.inr (.image e))
  | kernelStack {image : Image} (parse : Image.parse initImage imageLimit = .ok image)
    (few : ¬Stocked 15 frames) : StartFailure initImage frames (.inr .kernelStackAllocation)
  | pages {image : Image} {e : PagingError} (parse : Image.parse initImage imageLimit = .ok image)
    (shortage : FrameShortage e) (few : ¬Stocked (3 * image.pages.length + 15) frames) :
    StartFailure initImage frames (.inr (.image (.paging e)))

section Start

variable {S : Supply F} {reserved : Set ℕ} {paging : KernelPaging} {s : Machine × F}
  {g : Globals F} {heap : KernelHeap} {initImage : List UInt8}

omit [FrameAllocator F] in
theorem sat_lend {frames : F} {c : Exec (KernelPaging × Machine × F) ε α}
    {P : Except ε α → KernelPaging × Machine × F → Prop}
    (h : Sat c (paging, g.system.machine, frames) P) : Sat (Globals.lend paging frames c) g
      fun r g' => ∃ r' t, P r' t ∧ r = r'.map (·, t.1, t.2.2) ∧
        g' = { g with system := { g.system with machine := t.2.1 } } := by
  obtain ⟨r', t, hrun, hp⟩ := h
  exact ⟨_, _, by rw [Globals.lend, hrun]; rfl, r', t, hp, rfl, rfl⟩

/-- The allocator is installed, on a heap that has been claimed. -/
theorem sat_initKernelAllocator (initImage : List UInt8) (hsound : paging.Sound S s)
    (hclean : Clean s.1.entries paging.root.frame.number)
    (hlow : ∀ va < sv39LowHalfEnd, s.1.translate va = none)
    (hunclaimed : paging.heapClaimed = false)
    (hslot : s.1.entries paging.root.frame.number (vpn heapStart).vpn2 = 0)
    (hmachine : g.system.machine = s.1) (hfresh : g.system.allocator = ⟨false, none⟩) :
    Sat (initKernelAllocator paging s.2) g fun r g' =>
      (∀ e, r = .error e → StartFailure initImage s.2 (.inl e)) ∧ (r = .ok () → ∃ heap t,
        Claims S paging s heap t ∧ g' = g.within ⟨heap, t.1, t.2.2⟩ t.2.1) := by
  unfold initKernelAllocator
  have hclaim : Sat (Globals.lend paging s.2 KernelPaging.claimHeap) g fun r g' =>
      ∃ (r' : Except (HeapError PagingError) KernelHeap) (t : KernelPaging × Machine × F),
        ((∀ e, r' = .error e → ∃ e', e = .backing e' ∧ FrameShortage e' ∧ ¬Stocked 3 s.2) ∧
          ∀ heap, r' = .ok heap → Claims S paging s heap t) ∧
        r = r'.map (·, t.1, t.2.2) ∧
        g' = { g with system := { g.system with machine := t.2.1 } } := by
    apply sat_lend
    rw [hmachine]
    exact sat_claimHeap_claims hsound hclean hlow hunclaimed hslot
  obtain ⟨r, g', hrun, r', t, ⟨hfew, hclaims⟩, rfl, rfl⟩ := hclaim
  cases r' with
  | error e =>
    have hfails : Fails (mapError AllocatorHalt.claimHeap (Globals.lend paging s.2
        KernelPaging.claimHeap)) g (.claimHeap e) _ := fails_mapError.mpr ⟨e, hrun, rfl⟩
    refine hfails.bind.sat ⟨fun e' he => ?_, by simp⟩
    obtain rfl := Except.error.inj he
    obtain ⟨e'', rfl, hshortage, hstock⟩ := hfew e rfl
    exact .claimHeap hshortage hstock
  | ok heap =>
    have hreturns : Returns (mapError AllocatorHalt.claimHeap (Globals.lend paging s.2
        KernelPaging.claimHeap)) g (heap, t.1, t.2.2) _ := returns_mapError.mpr hrun
    refine hreturns.sat_bind ?_
    let g₁ : Globals F := { g with system := { g.system with machine := t.2.1 } }
    have hinstall : Returns (Globals.call (initializeMemory heap t.1 t.2.2) :
        Exec (Globals F) AllocatorHalt _) g₁ (.ok ()) _ :=
      returns_initializeMemory (g := g₁) ⟨heap, t.1, t.2.2⟩ hfresh
    exact hinstall.sat_bind (sat_pure ⟨by simp, fun _ => ⟨heap, t, hclaims heap rfl, rfl⟩⟩)

section Fill

variable {v v' : Vm F} {block : Block} {m : Machine}

omit [FrameAllocator F] in
/-- The kernel may store in a block, and does not reach the page that controls its window. -/
theorem Block.Mapped.store (h : block.Mapped m) {k : ℕ} (hk : k < block.size) :
    ∃ pa leaf, m.translate (block.address + k) = some (pa, leaf) ∧ writable leaf = true ∧
      (block.address + k) / frameSize ≠ fixmapTableBase / frameSize := by
  have hlt := Nat.add_lt_add_left hk block.address
  have hcontrol : heapEnd ≤ fixmapTableBase := by decide
  have hbase : fixmapTableBase % frameSize = 0 := by decide
  obtain ⟨pa, n, hva⟩ := h.pages _ (Nat.le_add_right _ k) hlt
  refine ⟨pa, _, hva, rfl, ?_⟩
  have hbelow := hlt.trans_le h.high
  unfold frameSize at *
  omega

/-- A block stays where it is. -/
theorem Block.Mapped.later (h : block.Mapped v.machine) (hv : v.Isolated S reserved)
    (hv' : v'.Isolated S reserved) (hconfined : v.Confined S v') : block.Mapped v'.machine := by
  refine ⟨h.low, h.high, fun va hge hlt => ?_⟩
  obtain ⟨pa, n, hva⟩ := h.pages va hge hlt
  exact ⟨pa, n, hconfined.translate hv hv' hva⟩

/-- Stores that reach no table leave the translation as it is. -/
theorem Vm.Isolated.translate_congr (hv : v.Isolated S reserved)
    (hv' : Vm.Isolated S reserved { v with machine := m })
    (hentries : ∀ t ∈ tables v.machine.entries v.paging.root.frame.number,
      m.entries t = v.machine.entries t) (va : ℕ) : m.translate va = v.machine.translate va := by
  have hbefore : v.machine.translate va =
      Sv39.translate v.machine.entries v.paging.root.frame.number va := hv.sound.translate_eq va
  have hafter : m.translate va = Sv39.translate m.entries v.paging.root.frame.number va :=
    hv'.sound.translate_eq va
  rw [hbefore, hafter, Sv39.translate, Sv39.translate, walk_eq_of_tables hentries]

end Fill

/-- **The kernel stack is cleared and the image is loaded.** -/
theorem Backs.sat_fill {start : Vm F} {image : Image} {stack : NonNull} (h : start.Isolated S reserved)
    (hlow : ∀ va < sv39LowHalfEnd, start.machine.translate va = none)
    (hheap : ∀ va, heapStart ≤ va → va < heapEnd → start.machine.translate va = none)
    (hbacks : Backs S start paging heap s) (halign : 16 ∣ stack.address)
    (hstack : Block.Mapped ⟨stack.address, stackSize⟩ s.1)
    (hparse : Image.parse initImage imageLimit = .ok image) :
    ∃ m, Returns (writeBytes stack.address (List.replicate (kernelStackElements * 16) 0) :
        Exec Machine ε Unit) s.1 () m ∧
      Sat (loadInit image paging) (m, s.2) fun r s' =>
        (∀ e, r = .error e → ∃ e', e = .paging e' ∧ FrameShortage e' ∧
          ¬Stocked (3 * image.pages.length) s.2) ∧
        (r = .ok () → Run SystemStep start ⟨paging, s'.1, s'.2, []⟩ ∧
          Started image ⟨.new image.entry.asUsize userStackTop, stack⟩
            ⟨paging, s'.1, s'.2, []⟩) := by
  have hlen : (List.replicate (kernelStackElements * 16) (0 : UInt8)).length = stackSize := by
    rw [List.length_replicate]
    decide
  obtain ⟨himage, haccepted⟩ := Image.parsed_of_parse hparse
  obtain ⟨requests, hmapped⟩ := hbacks.mapped
  obtain ⟨hv₁, -⟩ := h.run hbacks.run
  have hwritable : ∀ k < (List.replicate (kernelStackElements * 16) (0 : UInt8)).length, _ :=
    fun k hk => hstack.store (hlen ▸ hk)
  obtain ⟨m, hwrite, hlogged, hentries⟩ := hv₁.returns_writeBytes (ε := ε) hwritable
  refine ⟨m, hwrite, ?_⟩
  obtain ⟨hv₂, -⟩ := hv₁.run (run_of_logged hlogged)
  have hclean := hmapped.clean.congr hentries
  have hlow₂ : ∀ va < sv39LowHalfEnd, m.translate va = none := fun va hva =>
    (hv₁.translate_congr hv₂ hentries va).trans (hbacks.low va hva)
  have hpages : Sat (loadInit image paging) (m, s.2) fun _ s' =>
      Logged VmStep ⟨paging, s.1, s.2, []⟩
        (stores stack.address (List.replicate (kernelStackElements * 16) 0))
        ⟨paging, s'.1, s'.2, []⟩ := by
    rw [loadInit_eq paging haccepted.fits]
    exact sat_mapPages_logged hv₂ hlogged
  obtain ⟨r, s', hrun', ⟨hok, herror⟩, hlogged'⟩ :=
    (sat_loadPages hparse hv₂.sound hclean hlow₂).and hpages
  refine ⟨r, s', hrun', fun e he => ?_, fun hr => ?_⟩
  · obtain ⟨e', rfl, hshortage⟩ := herror e he
    refine ⟨e', rfl, hshortage, fun hstock => ?_⟩
    obtain ⟨u, hu, -⟩ := (succeeds_loadInit (n := 0) hparse hv₂.sound hclean hlow₂
      (hstock.mono (Nat.zero_add _).le)).eq_ok hrun'
    cases he.symm.trans hu
  have hmemory := hok hr
  have hrun := hbacks.run.trans (run_of_logged hlogged')
  obtain ⟨hv₃, hconfined⟩ := hv₁.run (run_of_logged hlogged')
  have hstack₃ : Block.Mapped ⟨stack.address, stackSize⟩ s'.1 := hstack.later hv₁ hv₃ hconfined
  refine ⟨hrun, rfl, ⟨m, hmemory⟩, ?_, hstack₃, fun log v' hlater =>
    h.keeps hrun hlow hheap hmemory hstack₃ (fun va pa leaf hge hlt hva => ?_) hlater⟩
  · show (stack.address + stackSize) % 16 = 0
    have hmod : stackSize % 16 = 0 := by decide
    omega
  · -- the bytes of the stack are those that were written
    obtain ⟨pa', n, hva₁⟩ := hstack.pages va hge hlt
    have hnone := hheap va (hstack.low.trans hge) (Nat.lt_of_lt_of_le hlt hstack.high)
    obtain ⟨hva₃, hbyte⟩ := h.remembers hbacks.run hlogged' hnone hva₁
    obtain ⟨rfl, -⟩ := Prod.mk.inj (Option.some.inj (hva.symm.trans hva₃))
    obtain ⟨k, rfl⟩ := Nat.exists_eq_add_of_le hge
    have hk : k < (List.replicate (kernelStackElements * 16) (0 : UInt8)).length := by
      rw [hlen]
      exact Nat.lt_of_add_lt_add_left hlt
    refine hbyte.trans ((replay_stores _ hk).trans ?_)
    exact List.getElem_replicate hk

/-- What a successful start leaves behind. -/
structure Loaded (start : Vm F) (initImage : List UInt8) (process : Process) (g g' : Globals F) :
    Prop where
  claimed : g'.claimed = true
  sstatus : g'.system.sstatus = g.system.sstatus
  process : ∃ image state, Image.parse initImage imageLimit = .ok image ∧
    g'.system.allocator = ⟨false, some state⟩ ∧
    Run SystemStep start ⟨state.paging, g'.system.machine, state.frames, []⟩ ∧
    Started image process ⟨state.paging, g'.system.machine, state.frames, []⟩

/-- **Loading** behind an allocator that has just been installed. -/
theorem sat_loadInit {t : KernelPaging × Machine × F}
    (h : Vm.Isolated S reserved ⟨paging, s.1, s.2, []⟩)
    (hlow : ∀ va < sv39LowHalfEnd, s.1.translate va = none) (hclaims : Claims S paging s heap t)
    (hunclaimed : g.claimed = false) :
    Sat (Process.loadInit initImage) (g.within ⟨heap, t.1, t.2.2⟩ t.2.1) fun r g' =>
      (∀ e, r = .error e → StartFailure initImage s.2 (.inr e)) ∧ ∀ process, r = .ok process →
        Loaded ⟨paging, s.1, s.2, []⟩ initImage process g g' := by
  unfold Process.loadInit
  cases hparse : Image.parse initImage imageLimit with
  | error e =>
    have hfails : Fails (ofExcept ((Except.error e : Except LoadError Image).mapError .image))
        (g.within ⟨heap, t.1, t.2.2⟩ t.2.1) (LoadInitError.image e) _ := rfl
    refine hfails.bind.sat ⟨fun e' he => ?_, by simp⟩
    obtain rfl := Except.error.inj he
    exact .invalid hparse
  | ok image =>
    refine Returns.sat_bind (a := image) rfl ?_
    let g₁ : Globals F := { g.within ⟨heap, t.1, t.2.2⟩ t.2.1 with claimed := true }
    have hswap : Returns (Globals.swapClaimed : Exec (Globals F) LoadInitError Bool)
        (g.within ⟨heap, t.1, t.2.2⟩ t.2.1) false g₁ :=
      congrArg (fun b => Except.ok (Except.ok b, g₁)) hunclaimed
    refine hswap.sat_bind ?_
    rw [if_neg (by simp)]
    have hclaimed : t.1.heapClaimed = true := by rw [hclaims.claimed]
    obtain ⟨r, ⟨heap', s'⟩, hrun, hbacks, hplaced⟩ :=
      hclaims.backs.sat_allocate hclaimed (congrArg Addr.asUsize hclaims.cursor) kernelStackLayout
    have hstocked : ∀ n, Stocked (n + 15) s.2 → ∃ p, r = .ok p ∧ Stocked n s'.2 := fun n hstock =>
      (hclaims.succeeds_kernelStack hstock).eq_ok hrun
    refine (returns_alloc (g := g₁) rfl hrun).sat_bind ?_
    cases r with
    | error e =>
      refine sat_fail ⟨fun e' he => ?_, by simp⟩
      obtain rfl := Except.error.inj he
      refine .kernelStack hparse fun hstock => ?_
      obtain ⟨p, hp, -⟩ := hstocked 0 hstock
      cases hp
    | ok stack =>
      obtain ⟨halign, hblock⟩ := hplaced stack rfl
      obtain ⟨m, hwrite, hload⟩ := hbacks.sat_fill (ε := LoadInitError) h hlow hclaims.empty halign
        hblock hparse
      let g₂ := g₁.within ⟨heap', t.1, s'.2⟩ m
      have hclear : Returns (Globals.onMachine (writeBytes stack.address
          (List.replicate (kernelStackElements * 16) 0)) : Exec (Globals F) LoadInitError Unit)
          (g₁.within ⟨heap', t.1, s'.2⟩ s'.1) () g₂ := returns_zoom.mpr ⟨m, hwrite, rfl⟩
      refine hclear.sat_bind ?_
      obtain ⟨r, s'', hrun', herror, hok⟩ := hload
      refine (returns_withPaging (g := g₂) rfl hrun').sat_bind ?_
      cases r with
      | error e =>
        refine sat_fail ⟨fun e' he => ?_, by simp⟩
        obtain rfl := Except.error.inj he
        obtain ⟨e', rfl, hshortage, hfew⟩ := herror e rfl
        refine .pages hparse hshortage fun hstock => ?_
        obtain ⟨-, -, hrest⟩ := hstocked _ hstock
        exact hfew hrest
      | ok u =>
        refine sat_pure ⟨by simp, fun process hprocess => ?_⟩
        obtain rfl := Except.ok.inj hprocess
        obtain ⟨hreached, hstarted⟩ := hok rfl
        exact ⟨rfl, rfl, image, ⟨heap', t.1, s''.2⟩, hparse, rfl, hreached, hstarted⟩

/-- Loading a second time fails and changes nothing. -/
theorem fails_loadInit_again (hclaimed : g.claimed = true) (initImage : List UInt8) :
    ∃ e, Fails (Process.loadInit initImage) g e g := by
  unfold Process.loadInit
  cases hparse : Image.parse initImage imageLimit with
  | error e =>
    have hfails : Fails (ofExcept ((Except.error e : Except LoadError Image).mapError .image)) g
        (LoadInitError.image e) g := rfl
    exact ⟨_, hfails.bind⟩
  | ok image =>
    have hswap : Returns (Globals.swapClaimed : Exec (Globals F) LoadInitError Bool) g true g := by
      rw [Returns, Globals.swapClaimed, hclaimed]
      exact congrArg (fun b => Except.ok (Except.ok true, { g with claimed := b })) hclaimed.symm
    refine ⟨.alreadyClaimed, Returns.fails_bind (a := image) rfl (hswap.fails_bind ?_)⟩
    rw [if_pos rfl]
    exact fails_fail _ _

/-- **Starting** in an address space whose lower half is empty. -/
theorem sat_startProcess (h : Vm.Isolated S reserved ⟨paging, s.1, s.2, []⟩)
    (hclean : Clean s.1.entries paging.root.frame.number)
    (hlow : ∀ va < sv39LowHalfEnd, s.1.translate va = none)
    (hheap : paging.heapClaimed = false)
    (hslot : s.1.entries paging.root.frame.number (vpn heapStart).vpn2 = 0)
    (hmachine : g.system.machine = s.1) (hfresh : g.system.allocator = ⟨false, none⟩)
    (hunclaimed : g.claimed = false) :
    Sat (startProcess paging s.2 initImage) g fun r g' =>
      (∀ e, r = .error e → StartFailure initImage s.2 e) ∧ ∀ process, r = .ok process →
        Loaded ⟨paging, s.1, s.2, []⟩ initImage process g g' := by
  unfold startProcess
  refine (Sat.mapError (sat_initKernelAllocator initImage h.sound hclean hlow hheap hslot hmachine
    hfresh)).bind (fun u g₁ h₁ => ?_) fun e g₁ h₁ => ?_
  · obtain ⟨r, ⟨-, hok⟩, hr⟩ := h₁
    cases r with
    | error e => cases hr
    | ok u =>
      obtain ⟨heap, t, hclaims, rfl⟩ := hok rfl
      refine (Sat.mapError (sat_loadInit h hlow hclaims hunclaimed)).mono ?_
      rintro r g₂ ⟨r', ⟨herror, hloaded⟩, rfl⟩
      cases r' with
      | error e =>
        refine ⟨fun e' he => ?_, fun process hp => ?_⟩
        · cases he
          exact herror e rfl
        · cases hp
      | ok process =>
        refine ⟨fun e he => ?_, fun process' hp => ?_⟩
        · cases he
        · cases hp
          exact hloaded process rfl
  · obtain ⟨r, ⟨herror, -⟩, hr⟩ := h₁
    cases r with
    | error e' =>
      refine ⟨fun e₁ he => ?_, fun process hp => ?_⟩
      · cases hr
        cases he
        exact herror e' rfl
      · cases hr
        cases hp
    | ok u => cases hr

end Start

/-! ## After `main` -/

section AfterMain

variable {l : Linked} {m m' : Machine} {dtb : PhysAddr} {handover : Handover}

/-- The lower half of the kernel's address space is empty. -/
theorem Begun.low (h : Begun l dtb m handover m') {va : ℕ} (hva : va < sv39LowHalfEnd) :
    m'.translate va = none := by
  obtain ⟨m₁, frames, dtbFrame, -, -, hbuilt, -⟩ := h.built
  exact hbuilt.low h.found.upperHalf hva

theorem Begun.unclaimed (h : Begun l dtb m handover m') : handover.paging.heapClaimed = false := by
  obtain ⟨m₁, frames, dtbFrame, -, -, hbuilt, -⟩ := h.built
  exact hbuilt.unclaimed

/-- The entry of the heap is empty. -/
theorem Begun.heap_empty (h : Begun l dtb m handover m') :
    m'.entries handover.paging.root.frame.number (vpn heapStart).vpn2 = 0 := by
  obtain ⟨m₁, frames, dtbFrame, -, -, hbuilt, -⟩ := h.built
  obtain ⟨m₂, -, hfdt⟩ := h.found.fdt
  have hsize := Devicetree.totalSize_lt_of_returns hfdt
  have hgiga : gigapageSize = 2 ^ 30 := rfl
  refine hbuilt.heap_empty (inside_kernelSections l) ?_ ?_ ?_
  · rw [h.found.dtbVirtual]
    exact Nat.le_add_right _ _
  · rw [h.found.dtbVirtual, hgiga]
    omega
  · rw [h.found.dtb.1, h.found.dtb.2]
    omega

theorem Begun.clean (h : Begun l dtb m handover m') :
    Clean m'.entries handover.paging.root.frame.number := by
  obtain ⟨m₁, frames, dtbFrame, -, -, hbuilt, -⟩ := h.built
  exact hbuilt.clean

end AfterMain

/-- **Starting the first process.** What `main` hands over is used to claim the heap, install the
allocator and load the embedded image, whatever its bytes are. This ends with a process or an error;
an error says that the image is not valid, or that a frame was missing and `main` had left fewer than
three for each page of the heap and the image. A process that comes of it has its image and two zeroed
stacks in memory, and keeps them: whatever calls and stores follow, the payload stays, and a byte of a
stack is the one stored last. The system keeps to the memory that `main` found free, and no second
process is loaded. -/
theorem process_starts (l : Linked) (m : Machine) (dtb : PhysAddr) (hlow : l.kernelAddress < 2 ^ 38)
    (sstatus : ℕ) (initImage : List UInt8) :
    Sat (main l.toLinkerInput dtb) ⟨m.booted l, false, false⟩ fun r s => ∀ handover,
      r = .ok handover → Sat (startProcess handover.paging handover.frames initImage)
        ⟨⟨sstatus, ⟨false, none⟩, s.machine⟩, false⟩ fun r g =>
          (∀ e, r = .error e → StartFailure initImage handover.frames e) ∧ ∀ process, r = .ok process →
            g.system.sstatus = sstatus ∧
            (∃ image state, Image.parse initImage imageLimit = .ok image ∧
              g.system.allocator = ⟨false, some state⟩ ∧
              Started image process ⟨state.paging, g.system.machine, state.frames, []⟩ ∧
              ∀ vm, Run SystemStep ⟨state.paging, g.system.machine, state.frames, []⟩ vm →
                Running l m handover vm) ∧
            ∀ bytes, ∃ e, Fails (Process.loadInit bytes) g e g := by
  refine (sat_main hlow ((mapped_tabled hlow).store_bss _) dtb).mono fun r s hr handover heq => ?_
  have hbegun := hr handover heq
  refine (sat_startProcess (s := (s.machine, handover.frames)) hbegun.isolated hbegun.clean
    (fun va hva => hbegun.low hva) hbegun.unclaimed hbegun.heap_empty rfl rfl rfl).mono
    fun r g hg => ⟨hg.1, fun process hp => ?_⟩
  obtain ⟨hclaimed, hsstatus, image, state, hparse, hstate, hrun, hstarted⟩ := hg.2 process hp
  refine ⟨hsstatus, ⟨image, state, hparse, hstate, hstarted, fun vm hvm => ?_⟩, fun bytes => ?_⟩
  · exact hbegun.running hlow (hrun.trans hvm)
  · exact fails_loadInit_again hclaimed bytes

/-- Enough frames and a valid image leave no reason to fail. -/
theorem StartFailure.few {F : Type} [FrameAllocator F] {initImage : List UInt8} {frames : F}
    {e : AllocatorHalt ⊕ LoadInitError} (h : StartFailure initImage frames e) {image : Image}
    (hparse : Image.parse initImage imageLimit = .ok image) :
    ¬Stocked (3 * image.pages.length + 15) frames := by
  intro hstock
  cases h with
  | claimHeap _ few => exact few (hstock.mono (by omega))
  | invalid parse => cases parse.symm.trans hparse
  | kernelStack _ few => exact few (hstock.mono (by omega))
  | pages parse _ few =>
    cases parse.symm.trans hparse
    exact few hstock

/-- The sample kernel starts the sample executable. -/
theorem process_starts_sample :
    Succeeds (main sampleLinked.toLinkerInput ⟨0x87000000, by decide⟩)
      ⟨sampleStartMachine.booted sampleLinked, false, false⟩ fun handover s =>
        Succeeds (startProcess handover.paging handover.frames sampleImage)
          ⟨⟨0, ⟨false, none⟩, s.machine⟩, false⟩ fun process _ =>
            process.context = .new 0x10002 userStackTop := by
  have hstarts := process_starts sampleLinked sampleStartMachine ⟨0x87000000, by decide⟩ (by decide)
    0 sampleImage
  have hmain := bootable_sample.succeeds_main (by decide) ((mapped_tabled (by decide)).store_bss _)
  refine (hmain.and hstarts).mono fun handover s h => ?_
  obtain ⟨hstock, hprocess⟩ := h
  refine ((hprocess handover rfl).succeeds fun e g hg => ?_).mono fun process g hg => ?_
  · exact (hg.1 e rfl).few parse_sampleImage hstock
  · obtain ⟨-, ⟨image, state, hparse, -, hstarted, -⟩, -⟩ := hg.2 process rfl
    obtain rfl := Except.ok.inj (parse_sampleImage.symm.trans hparse)
    exact hstarted.context

end Barebone.Kernel
