import BareboneKernel.Kernel.Paging

/-!
# Frame windows

A frame is reached through a page whose entry, the *slot* of the window, is written for the purpose
and cleared again. The slot is written through a page of its own, which maps the table of the slot.

* `Window.Open w m`: the window is usable in `m` and in whatever `m` grows into;
* `Window.Serves w access`: `access` opens and closes the window around an operation;
* **`Serves.returns_read`**, **`Serves.returns_write`**, **`Serves.returns_fill`**: such an access
  reads and writes frames, and no slot remains written.
-/

set_option autoImplicit false

namespace Barebone.Kernel

open Exec Word Endian Sv39

variable {ε : Type}

/-! ## Frame numbers -/

def PhysFrame.number (frame : PhysFrame) : ℕ := frame.start.asUsize / frameSize

/-- The frame has a number that fits an entry. -/
def PhysFrame.Representable (frame : PhysFrame) : Prop := frame.number < 2 ^ 44

instance (frame : PhysFrame) : Decidable frame.Representable :=
  inferInstanceAs (Decidable (_ < _))

namespace PhysFrame

theorem start_eq (frame : PhysFrame) : frame.start.asUsize = frame.number * frameSize := by
  have := frame.aligned
  unfold number frameSize at *
  omega

theorem representable_iff (frame : PhysFrame) :
    frame.Representable ↔ frame.startAddress.asUsize ≤ maxPhysicalAddress := by
  have hmax := maxPhysicalAddress_eq
  rw [hmax, startAddress, start_eq, Representable]
  unfold frameSize
  omega

end PhysFrame

section Entries

variable {frame : PhysFrame} {flags : ℕ}

theorem pageTableEntry_of_le {address : PhysAddr} (h : address.asUsize ≤ maxPhysicalAddress)
    (hflags : flags < 2 ^ 10) :
    pageTableEntry address flags = .ok (address.asUsize / frameSize * 2 ^ 10 + flags) := by
  have hnumber : address.asUsize >>> pageShift = address.asUsize / frameSize :=
    Nat.shiftRight_eq_div_pow _ _
  rw [pageTableEntry, if_neg (Nat.not_lt.mpr h), hnumber, show ptePpnShift = 10 from rfl,
    ← Nat.shiftLeft_add_eq_or_of_lt hflags, Nat.shiftLeft_eq]

theorem pageTableEntry_eq_ok (h : frame.Representable) (hflags : flags < 2 ^ 10) :
    pageTableEntry frame.startAddress flags = .ok (frame.number * 2 ^ 10 + flags) :=
  pageTableEntry_of_le (frame.representable_iff.mp h) hflags

theorem pageTableEntry_eq_error (h : ¬frame.Representable) :
    pageTableEntry frame.startAddress flags =
      .error (.physicalAddressNotRepresentable frame.start) := by
  rw [PhysFrame.representable_iff] at h
  exact if_pos (Nat.lt_of_not_le h)

theorem encode_le_wordMax (h : frame.Representable) (hflags : flags < 2 ^ 10) :
    frame.number * 2 ^ 10 + flags ≤ wordMax := by
  have hmax := wordMax_eq
  unfold PhysFrame.Representable at h
  omega

end Entries

/-! ## Growing machines -/

/-- No entry of the active tables that is in use differs. -/
def Grows (m m' : Machine) : Prop := m'.satp = m.satp ∧ Sv39.Extends m.entries m'.entries m.root

theorem Grows.refl (m : Machine) : Grows m m := ⟨rfl, Sv39.Extends.refl _ _⟩

theorem Grows.root {m m' : Machine} (h : Grows m m') : m'.root = m.root := by
  rw [Machine.root, h.1, Machine.root]

theorem Grows.trans {m m' m'' : Machine} (h : Grows m m') (h' : Grows m' m'') : Grows m m'' := by
  refine ⟨h'.1.trans h.1, h.2.trans ?_⟩
  rw [← h.root]
  exact h'.2

theorem grows_setEntry {m : Machine} {t value : ℕ} {i : Fin 512} (hempty : m.entries t i = 0)
    (hvalue : value ≤ wordMax) : Grows m (m.setEntry t i value) := by
  refine ⟨rfl, ?_⟩
  rw [Machine.entries_setEntry _ _ _ hvalue]
  exact extends_setEntry hempty

theorem entries_store {m : Machine} {t t' : ℕ} {bytes : List UInt8}
    (hlen : bytes.length ≤ frameSize) (hne : t' ≠ t) :
    (m.store (t * frameSize) bytes).entries t' = m.entries t' := by
  have hsame : SameFrame m.memory (m.store (t * frameSize) bytes).memory t' :=
    sameFrame_store le_rfl (by rw [Nat.succ_mul]; omega) hne
  exact hsame.entries

theorem grows_store {m : Machine} {t : ℕ} {bytes : List UInt8} (hlen : bytes.length ≤ frameSize)
    (ht : t ∉ tables m.entries m.root) : Grows m (m.store (t * frameSize) bytes) := by
  refine ⟨rfl, fun t' ht' i _ => ?_⟩
  have hne : t' ≠ t := fun h => ht (h ▸ ht')
  rw [entries_store hlen hne]

/-! ## Windows -/

section Mapped

variable {m : Machine} {address : VirtAddr} {t : ℕ}

theorem Accessible.returns_readMapped (h : Accessible m address.asUsize t) (i : Fin 512) :
    Returns (readMappedPageTableEntry address i) m (m.entries t i) m := by
  have hi : ¬(i : ℕ) ≥ pageTableEntries := Nat.not_le.mpr i.isLt
  rw [readMappedPageTableEntry, if_neg hi]
  exact h.returns_readVolatile i

theorem Accessible.returns_writeMapped (h : Accessible m address.asUsize t) (i : Fin 512)
    (value : ℕ) :
    Returns (writeMappedPageTableEntry address i value) m () (m.setEntry t i value) := by
  have hi : ¬(i : ℕ) ≥ pageTableEntries := Nat.not_le.mpr i.isLt
  rw [writeMappedPageTableEntry, if_neg hi]
  exact h.returns_writeVolatile i value

end Mapped

/-- A way to map one frame at a time. -/
structure Window where
  /-- Table and index of the entry that maps the frame. -/
  slot : ℕ × Fin 512
  /-- The page at which the table of the slot is mapped. -/
  table : ℕ
  /-- Where a frame is mapped. -/
  page : PhysFrame → VirtAddr
  /-- The entry for a frame. -/
  entry : PhysFrame → ℕ

namespace Window

/-- **The window is usable**: it is empty, and in every machine that `m` grows into the table of the
slot is mapped and the slot maps frames. -/
structure Open (w : Window) (m : Machine) : Prop where
  slot_mem : w.slot.1 ∈ tables m.entries m.root
  empty : m.entries w.slot.1 w.slot.2 = 0
  table : ∀ m', Grows m m' → Accessible m' w.table w.slot.1
  page : ∀ m' frame, frame.Representable → Grows m m' →
    m'.entries w.slot.1 w.slot.2 = w.entry frame →
    Accessible m' (w.page frame).asUsize frame.number
  entry_le : ∀ frame : PhysFrame, frame.Representable → w.entry frame ≤ wordMax

variable {w : Window} {m m' : Machine}

theorem Open.grows (h : w.Open m) (hg : Grows m m') (hempty : m'.entries w.slot.1 w.slot.2 = 0) :
    w.Open m' where
  slot_mem := by
    rw [hg.root]
    exact hg.2.tables_subset h.slot_mem
  empty := hempty
  table m'' h'' := h.table m'' (hg.trans h'')
  page m'' frame hrep h'' := h.page m'' frame hrep (hg.trans h'')
  entry_le := h.entry_le

/-- The machine while a frame is mapped. -/
def opened (w : Window) (m : Machine) (frame : PhysFrame) : Machine :=
  m.setEntry w.slot.1 w.slot.2 (w.entry frame)

/-- `access` runs operations inside the window. -/
structure Serves (w : Window) (access : FrameAccess) : Prop where
  run : ∀ {R : Type} {m m' : Machine} {frame : PhysFrame} {r : R}
    {operation : VirtAddr → Exec Machine Empty R}, w.Open m → frame.Representable →
    Returns (operation (w.page frame)) (w.opened m frame) r m' →
    Grows m m' →
    Returns (access.withFrame frame operation) m r (m'.setEntry w.slot.1 w.slot.2 0)
  refuse : ∀ {R : Type} {m : Machine} {frame : PhysFrame}
    {operation : VirtAddr → Exec Machine Empty R}, w.Open m → ¬frame.Representable →
    Fails (access.withFrame frame operation) m (.physicalAddressNotRepresentable frame.start) m

section Serves

variable {access : FrameAccess} {frame : PhysFrame} {i : Fin 512} {value : ℕ}

theorem Open.grows_opened (h : w.Open m) (hrep : frame.Representable) :
    Grows m (w.opened m frame) := grows_setEntry h.empty (h.entry_le frame hrep)

theorem Open.entries_opened (h : w.Open m) (hrep : frame.Representable) :
    (w.opened m frame).entries = setEntry m.entries w.slot.1 w.slot.2 (w.entry frame) :=
  Machine.entries_setEntry _ _ _ (h.entry_le frame hrep)

theorem Open.entries_opened_of_ne (h : w.Open m) (hrep : frame.Representable) {t : ℕ}
    (hne : (t, i) ≠ w.slot) : (w.opened m frame).entries t i = m.entries t i := by
  rw [h.entries_opened hrep, setEntry, if_neg fun heq => hne (Prod.ext heq.1 heq.2)]

theorem Open.accessible_opened (h : w.Open m) (hrep : frame.Representable) :
    Accessible (w.opened m frame) (w.page frame).asUsize frame.number :=
  h.page _ frame hrep (h.grows_opened hrep) (by rw [h.entries_opened hrep, setEntry_self])

/-- **Reading an entry** leaves the machine alone. -/
theorem Serves.returns_read (hs : w.Serves access) (h : w.Open m) (hrep : frame.Representable)
    (hne : (frame.number, i) ≠ w.slot) :
    Returns (access.readPageTableEntry frame i) m (m.entries frame.number i) m := by
  have hop : Returns (readMappedPageTableEntry (w.page frame) i) (w.opened m frame)
      (m.entries frame.number i) (w.opened m frame) := by
    rw [← h.entries_opened_of_ne hrep hne]
    exact (h.accessible_opened hrep).returns_readMapped i
  have hrestore : ((w.opened m frame).store 0 []).setEntry w.slot.1 w.slot.2 0 = m.store 0 [] :=
    Machine.setEntry_restore h.empty (.inl (Nat.zero_le _))
  have hrun : Returns (access.withFrame frame fun address =>
      attempt (readMappedPageTableEntry address i)) m (.ok (m.entries frame.number i))
      ((w.opened m frame).setEntry w.slot.1 w.slot.2 0) :=
    hs.run h hrep hop.attempt (h.grows_opened hrep)
  rw [Machine.store_nil, Machine.store_nil] at hrestore
  rw [hrestore] at hrun
  exact returns_bind.mpr ⟨_, m, hrun, returns_ofExcept.mpr ⟨rfl, rfl⟩⟩

/-- **Writing an empty entry** changes nothing else. -/
theorem Serves.returns_write (hs : w.Serves access) (h : w.Open m) (hrep : frame.Representable)
    (hne : (frame.number, i) ≠ w.slot) (hempty : m.entries frame.number i = 0)
    (hvalue : value ≤ wordMax) :
    Returns (access.writePageTableEntry frame i value) m () (m.setEntry frame.number i value) ∧
      w.Open (m.setEntry frame.number i value) := by
  have hopened : (w.opened m frame).entries frame.number i = 0 := by
    rw [h.entries_opened_of_ne hrep hne, hempty]
  have hop : Returns (writeMappedPageTableEntry (w.page frame) i value) (w.opened m frame) ()
      ((w.opened m frame).setEntry frame.number i value) :=
    (h.accessible_opened hrep).returns_writeMapped i value
  have hrun : Returns (access.withFrame frame fun address =>
      attempt (writeMappedPageTableEntry address i value)) m (.ok ())
      (((w.opened m frame).setEntry frame.number i value).setEntry w.slot.1 w.slot.2 0) :=
    hs.run h hrep hop.attempt ((h.grows_opened hrep).trans (grows_setEntry hopened hvalue))
  have hapart : frame.number * frameSize + 8 * i + (toLE 8 value).length ≤
      w.slot.1 * frameSize + 8 * w.slot.2 ∨
      w.slot.1 * frameSize + 8 * w.slot.2 + 8 ≤ frame.number * frameSize + 8 * i := by
    have hi := i.isLt
    have hslot := w.slot.2.isLt
    have hindex : frame.number = w.slot.1 → (i : ℕ) ≠ w.slot.2 := fun h₁ h₂ =>
      hne (Prod.ext h₁ (Fin.ext h₂))
    rw [length_toLE]
    unfold frameSize
    omega
  rw [show ((w.opened m frame).setEntry frame.number i value).setEntry w.slot.1 w.slot.2 0 =
    m.setEntry frame.number i value from Machine.setEntry_restore h.empty hapart] at hrun
  refine ⟨returns_bind.mpr ⟨_, _, hrun, returns_ofExcept.mpr ⟨rfl, rfl⟩⟩, ?_⟩
  refine h.grows (grows_setEntry hempty hvalue) ?_
  rw [Machine.entries_setEntry _ _ _ hvalue, setEntry, if_neg fun heq => hne ?_, h.empty]
  exact Prod.ext heq.1.symm heq.2.symm

/-- **Filling a frame** that is no table. -/
theorem Serves.returns_fill (hs : w.Serves access) (h : w.Open m) (hrep : frame.Representable)
    (ht : frame.number ∉ tables m.entries m.root) {bytes : List UInt8}
    (hlen : bytes.length ≤ frameSize) :
    Returns (access.withFrame frame fun address => writeBytes address.asUsize bytes) m ()
        (m.store (frame.number * frameSize) bytes) ∧
      w.Open (m.store (frame.number * frameSize) bytes) := by
  have hslot : w.slot.1 ≠ frame.number := fun heq => ht (heq ▸ h.slot_mem)
  have hgrows : ∀ written : List UInt8, written.length ≤ frameSize →
      Grows m ((w.opened m frame).store (frame.number * frameSize) written) := by
    intro written hwritten
    refine ⟨rfl, fun t' ht' j hj => ?_⟩
    have hne : t' ≠ frame.number := fun heq => ht (heq ▸ ht')
    rw [entries_store hwritten hne, (h.grows_opened hrep).2 t' ht' j hj]
  have hop : Returns (writeBytes (w.page frame).asUsize bytes : Exec Machine Empty Unit)
      (w.opened m frame) () ((w.opened m frame).store (frame.number * frameSize) bytes) := by
    refine returns_writeBytes fun written hwritten => ?_
    have hle : written.length ≤ frameSize := hwritten.le.trans hlen
    have hentry : ((w.opened m frame).store (frame.number * frameSize) written).entries w.slot.1
        w.slot.2 = w.entry frame := by
      rw [entries_store hle hslot, h.entries_opened hrep, setEntry_self]
    exact ((h.page _ frame hrep (hgrows written hle) hentry).2 _ (hwritten.trans_le hlen)).2
  have hapart : frame.number * frameSize + bytes.length ≤
      w.slot.1 * frameSize + 8 * w.slot.2 ∨
      w.slot.1 * frameSize + 8 * w.slot.2 + 8 ≤ frame.number * frameSize := by
    have := w.slot.2.isLt
    unfold frameSize at *
    omega
  have hrun : Returns (access.withFrame frame fun address => writeBytes address.asUsize bytes) m ()
      (((w.opened m frame).store (frame.number * frameSize) bytes).setEntry w.slot.1 w.slot.2 0) :=
    hs.run h hrep hop (hgrows bytes hlen)
  rw [show ((w.opened m frame).store (frame.number * frameSize) bytes).setEntry w.slot.1 w.slot.2 0 =
    m.store (frame.number * frameSize) bytes from Machine.setEntry_restore h.empty hapart] at hrun
  refine ⟨hrun, h.grows (grows_store hlen ht) ?_⟩
  rw [entries_store hlen hslot, h.empty]

end Serves

end Window

theorem returns_infallible {σ α : Type} {c : Exec σ Empty α} {s s' : σ} {a : α} :
    Returns (infallible c : Exec σ ε α) s a s' ↔ Returns c s a s' := returns_mapError

/-! ## The window of the kernel -/

/-- A supervisor page that is read and written. -/
def readWriteLeaf (t : ℕ) : Leaf := ⟨t, true, true, false, false, true, true⟩

theorem lastLevel_window {n : ℕ} (h : n < 2 ^ 44) :
    lastLevel (n * 2 ^ 10 + frameWindowPteFlags) = some (readWriteLeaf n) := by
  rw [lastLevel_encode h (by decide) (by decide) (by decide)]
  rfl

namespace KernelPaging

variable {paging : KernelPaging} {m : Machine}

def window (paging : KernelPaging) : Window where
  slot := (paging.fixmapTable.number, 1)
  table := fixmapTableBase
  page _ := ⟨fixmapFrameBase, fixmapFrameBase_le⟩
  entry frame := frame.number * 2 ^ 10 + frameWindowPteFlags

/-- **The state of the fixmap** between two operations: its last-level table is mapped into itself
and the page behind it is free. -/
structure Fixmap (paging : KernelPaging) (m : Machine) : Prop where
  mode : m.satp / 2 ^ 60 = 8
  root : m.root = paging.root.frame.number
  table : tableAt m.entries m.root (.level0 509 511) = some paging.fixmapTable.number
  control : walk m.entries m.root (vpn fixmapTableBase) =
    some (readWriteLeaf paging.fixmapTable.number)
  empty : m.entries paging.fixmapTable.number 1 = 0
  slot : paging.frameSlot = fixmapTableBase + 8

theorem vpn_fixmapTableBase : vpn fixmapTableBase = ⟨509, 511, 0⟩ := by decide

theorem vpn_fixmapFrameBase : vpn fixmapFrameBase = ⟨509, 511, 1⟩ := by decide

theorem Fixmap.isOpen (h : paging.Fixmap m) : paging.window.Open m where
  slot_mem := mem_tables h.table
  empty := h.empty
  table m' hg := by
    have hw : walk m'.entries m'.root (vpn fixmapTableBase) =
        some (readWriteLeaf paging.fixmapTable.number) := by
      rw [hg.root]
      exact hg.2.walk h.control
    have hpage : Accessible m' fixmapTableBase (readWriteLeaf paging.fixmapTable.number).frame :=
      accessible_of_walk (by rw [hg.1, h.mode]) (by decide) (by decide) hw rfl rfl
    exact hpage
  page m' frame hrep hg hentry := by
    have htable : tableAt m'.entries m'.root (.level0 509 511) =
        some paging.fixmapTable.number := by
      rw [hg.root]
      exact hg.2.tableAt h.table
    have hw : walk m'.entries m'.root (vpn fixmapFrameBase) =
        some (readWriteLeaf frame.number) := by
      rw [vpn_fixmapFrameBase, walk_of_tableAt htable, ← lastLevel_window hrep]
      exact congrArg lastLevel hentry
    have hpage : Accessible m' fixmapFrameBase (readWriteLeaf frame.number).frame :=
      accessible_of_walk (by rw [hg.1, h.mode]) (by decide) (by decide) hw rfl rfl
    exact hpage
  entry_le frame hrep := encode_le_wordMax hrep (by decide)

/-- The frame access of the kernel uses its window. -/
theorem serves (hslot : paging.frameSlot = fixmapTableBase + 8) :
    paging.window.Serves paging.access where
  run {R m m' frame r operation} h hrep hop hg := by
    have hslot' : paging.frameSlot = fixmapTableBase + 8 * (1 : Fin 512) := hslot
    have hread : Returns (readVolatile paging.frameSlot : Exec Machine PagingError ℕ) m 0 m := by
      rw [hslot', ← h.empty]
      exact (h.table m (Grows.refl m)).returns_readVolatile 1
    have hwrite : ∀ {m'} value, Grows m m' →
        Returns (writeVolatile paging.frameSlot value : Exec Machine PagingError Unit) m' ()
          (m'.setEntry paging.window.slot.1 paging.window.slot.2 value) := by
      intro m' value hg
      rw [hslot']
      exact (h.table m' hg).returns_writeVolatile 1 value
    refine returns_bind.mpr ⟨_, m, returns_ofExcept.mpr
      ⟨pageTableEntry_eq_ok hrep (by decide), rfl⟩, ?_⟩
    refine returns_bind.mpr ⟨0, m, hread, ?_⟩
    rw [if_neg (by simp)]
    refine returns_bind.mpr ⟨(), _, hwrite _ (Grows.refl m), ?_⟩
    refine returns_bind.mpr ⟨r, m', returns_infallible.mpr hop, ?_⟩
    exact returns_bind.mpr ⟨(), _, hwrite 0 hg, returns_pure.mpr ⟨rfl, rfl⟩⟩
  refuse {R m frame operation} _ hrep := by
    refine Fails.bind ?_
    rw [pageTableEntry_eq_error hrep]
    exact fails_ofExcept _ m

end KernelPaging

/-! ## The window of the boot tables -/

theorem and_gigapageMask (a : ℕ) : a &&& gigapageMask = a % 2 ^ 30 :=
  Nat.and_two_pow_sub_one_eq_mod a 30

theorem clear_gigapageMask {space : Space} (address : Addr space) :
    (address.clear gigapageMask).asUsize = address.asUsize / 2 ^ 30 * 2 ^ 30 := by
  have hk : 30 < 64 := by decide
  exact and_complement_mask address.isWord hk

theorem bootFrameWindow_le (a : ℕ) : bootFrameWindowBase + (a &&& gigapageMask) ≤ wordMax := by
  have hbase := bootFrameWindowBase_eq
  have hmax := wordMax_eq
  rw [and_gigapageMask]
  omega

namespace BootstrapPaging

variable {paging : BootstrapPaging} {m : Machine}

def window (paging : BootstrapPaging) (root : ℕ) : Window where
  slot := (root, 511)
  table := paging.rootVirtual.asUsize
  page frame := ⟨bootFrameWindowBase + (frame.start.asUsize &&& gigapageMask),
    bootFrameWindow_le _⟩
  entry frame := frame.number / 2 ^ 18 * 2 ^ 18 * 2 ^ 10 + frameWindowPteFlags

/-- **The boot contract**: the root of the active tables is mapped at its own address. -/
structure Identity (paging : BootstrapPaging) (m : Machine) : Prop where
  mode : m.satp / 2 ^ 60 = 8
  root : paging.rootVirtual.asUsize = m.root * frameSize
  canonical : Canonical paging.rootVirtual.asUsize
  mapped : ∃ leaf, walk m.entries m.root (vpn paging.rootVirtual.asUsize) = some leaf ∧
    leaf.frame = m.root ∧ readable leaf = true ∧ writable leaf = true

theorem Identity.accessible (h : paging.Identity m) {m' : Machine} (hg : Grows m m') :
    Accessible m' paging.rootVirtual.asUsize m.root := by
  obtain ⟨leaf, hw, hframe, hread, hwrite⟩ := h.mapped
  have halign : paging.rootVirtual.asUsize % frameSize = 0 := by
    rw [h.root, Nat.mul_mod_left]
  have hw' : walk m'.entries m'.root (vpn paging.rootVirtual.asUsize) = some leaf := by
    rw [hg.root]
    exact hg.2.walk hw
  rw [← hframe]
  exact accessible_of_walk (by rw [hg.1, h.mode]) h.canonical halign hw' hread hwrite

/-- The gigabyte around the frame, with the frame at its place in it. -/
theorem walk_window {e : Entries} {root : ℕ} {frame : PhysFrame} (hrep : frame.Representable)
    (hentry : e root 511 = frame.number / 2 ^ 18 * 2 ^ 18 * 2 ^ 10 + frameWindowPteFlags) :
    walk e root (vpn (bootFrameWindowBase + (frame.start.asUsize &&& gigapageMask))) =
      some (readWriteLeaf frame.number) := by
  have hgiga : frame.number / 2 ^ 18 < 2 ^ 26 := by
    unfold PhysFrame.Representable at hrep
    omega
  have hwindow : bootFrameWindowBase = 511 * 2 ^ 30 + (2 ^ 64 - 2 ^ 39) := by decide
  obtain ⟨a, ha⟩ : ∃ a, a = bootFrameWindowBase + (frame.start.asUsize &&& gigapageMask) :=
    ⟨_, rfl⟩
  have hoffset : a = 511 * 2 ^ 30 + (2 ^ 64 - 2 ^ 39) + frame.start.asUsize % 2 ^ 30 := by
    rw [ha, hwindow, and_gigapageMask]
  have hstart := frame.start_eq
  unfold frameSize at hstart
  have hv₂ : (vpn a).vpn2 = 511 := by
    apply Fin.ext
    simp only [vpn]
    rw [hoffset]
    omega
  have hv : frame.number / 2 ^ 18 * 2 ^ 18 + (vpn a).vpn1 * 2 ^ 9 + (vpn a).vpn0 =
      frame.number := by
    simp only [vpn]
    rw [hoffset, hstart]
    omega
  rw [← hv₂] at hentry
  rw [← ha, walk_gigapage hgiga (by decide) (by decide) (by decide) hentry, hv]
  rfl

theorem Identity.isOpen (h : paging.Identity m) (hempty : m.entries m.root 511 = 0) :
    (paging.window m.root).Open m where
  slot_mem := mem_tables_root _ _
  empty := hempty
  table m' hg := h.accessible hg
  page m' frame hrep hg hentry := by
    have hw := walk_window hrep hentry
    have halign : (bootFrameWindowBase + (frame.start.asUsize &&& gigapageMask)) % frameSize = 0 := by
      have hbase := bootFrameWindowBase_eq
      have hstart := frame.start_eq
      rw [and_gigapageMask, hbase]
      unfold frameSize at *
      omega
    have hcanonical : Canonical (bootFrameWindowBase + (frame.start.asUsize &&& gigapageMask)) := by
      have hbase := bootFrameWindowBase_eq
      rw [and_gigapageMask, hbase, Canonical]
      omega
    rw [← hg.root] at hw
    have hpage : Accessible m' (bootFrameWindowBase + (frame.start.asUsize &&& gigapageMask))
        (readWriteLeaf frame.number).frame :=
      accessible_of_walk (by rw [hg.1, h.mode]) hcanonical halign hw rfl rfl
    exact hpage
  entry_le frame hrep := by
    have hmax := wordMax_eq
    have hflags : frameWindowPteFlags < 2 ^ 10 := by decide
    unfold PhysFrame.Representable at hrep
    dsimp only [window]
    omega

theorem returns_readWindow {root : ℕ} {m : Machine}
    (h : Accessible m paging.rootVirtual.asUsize root) :
    Returns (readMappedPageTableEntry paging.rootVirtual bootFrameWindowVpn2) m
      (m.entries root 511) m := by
  have hindex : bootFrameWindowVpn2 = (511 : Fin 512) := by decide
  rw [hindex]
  exact h.returns_readMapped 511

/-- A window in use is refused. -/
theorem Identity.fails_withFrame (h : paging.Identity m) (hbusy : m.entries m.root 511 ≠ 0)
    {R : Type} (frame : PhysFrame) (operation : VirtAddr → Exec Machine Empty R) :
    Fails (paging.access.withFrame frame operation) m
      (.rootEntryInUse bootFrameWindowVpn2 (m.entries m.root 511)) m := by
  refine (returns_readWindow (h.accessible (Grows.refl m))).fails_bind ?_
  rw [if_pos hbusy]
  exact fails_fail _ m

/-- The window is opened, the operation runs, and the window is closed. -/
theorem returns_withFrame {root : ℕ} {m m' : Machine} {frame : PhysFrame} {R : Type} {r : R}
    {operation : VirtAddr → Exec Machine Empty R}
    (hbefore : Accessible m paging.rootVirtual.asUsize root) (hempty : m.entries root 511 = 0)
    (hrep : frame.Representable)
    (hop : Returns (operation ((paging.window root).page frame))
      ((paging.window root).opened m frame) r m')
    (hafter : Accessible m' paging.rootVirtual.asUsize root) :
    Returns (paging.withFrame frame operation) m r (m'.setEntry root 511 0) := by
  have hindex : bootFrameWindowVpn2 = (511 : Fin 512) := by decide
  have hread := returns_readWindow hbefore
  rw [hempty] at hread
  have hwrite : ∀ {m'} value, Accessible m' paging.rootVirtual.asUsize root →
      Returns (writeMappedPageTableEntry paging.rootVirtual bootFrameWindowVpn2 value) m' ()
        (m'.setEntry root 511 value) := by
    intro m' value h
    rw [hindex]
    exact h.returns_writeMapped 511 value
  have hle := frame.representable_iff.mp hrep
  have hentry : pageTableEntry (frame.startAddress.clear gigapageMask) frameWindowPteFlags =
      .ok ((paging.window root).entry frame) := by
    rw [pageTableEntry_of_le (Nat.and_le_left.trans hle) (by decide)]
    have hnumber : (frame.startAddress.clear gigapageMask).asUsize / frameSize =
        frame.number / 2 ^ 18 * 2 ^ 18 := by
      rw [clear_gigapageMask, PhysFrame.startAddress, frame.start_eq]
      unfold frameSize
      omega
    rw [hnumber]
    rfl
  refine returns_bind.mpr ⟨0, m, hread, ?_⟩
  rw [if_neg (by simp)]
  dsimp only
  rw [if_neg (Nat.not_lt.mpr hle)]
  refine returns_bind.mpr ⟨_, m, returns_ofExcept.mpr ⟨hentry, rfl⟩, ?_⟩
  refine returns_bind.mpr ⟨(), _, hwrite _ hbefore, ?_⟩
  refine returns_bind.mpr ⟨(paging.window root).page frame, _,
    returns_expectSome.mpr ⟨Addr.checkedAdd_eq_some.mpr rfl, rfl⟩, ?_⟩
  refine returns_bind.mpr ⟨r, m', returns_infallible.mpr hop, ?_⟩
  exact returns_bind.mpr ⟨(), _, hwrite 0 hafter, returns_pure.mpr ⟨rfl, rfl⟩⟩

/-- A frame that cannot be represented is refused. -/
theorem fails_withFrame_of_not_representable {root : ℕ} {m : Machine} {frame : PhysFrame}
    {R : Type} (hbefore : Accessible m paging.rootVirtual.asUsize root)
    (hempty : m.entries root 511 = 0) (hrep : ¬frame.Representable)
    (operation : VirtAddr → Exec Machine Empty R) :
    Fails (paging.withFrame frame operation) m (.physicalAddressNotRepresentable frame.start) m := by
  have hread := returns_readWindow hbefore
  rw [hempty] at hread
  rw [PhysFrame.representable_iff] at hrep
  refine hread.fails_bind ?_
  rw [if_neg (by simp)]
  dsimp only
  rw [if_pos (Nat.lt_of_not_le hrep)]
  exact fails_fail _ m

/-- The frame access of the boot tables uses its window. -/
theorem serves (root : ℕ) : (paging.window root).Serves paging.access where
  run {_ m m' _ _ _} h hrep hop hg :=
    returns_withFrame (h.table m (Grows.refl m)) h.empty hrep hop (h.table m' hg)
  refuse {_ m _ operation} h hrep :=
    fails_withFrame_of_not_representable (h.table m (Grows.refl m)) h.empty hrep operation

end BootstrapPaging

end Barebone.Kernel
