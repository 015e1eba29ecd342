import BareboneKernel.Kernel.AddressSpace

/-!
# The windows of the boot tables

The boot tables have two windows: five gigabytes for the device tree, and the last gigabyte of the
address space for one frame at a time. Both are entries of the root.

* `fdtEntries e root base n`: the entries with the first `n` leaves of the device tree window;
* **`boot_windows_exact`**: a window is installed completely or not at all, and the window of a
  frame is removed again;
* **`alias_end_iff`**: which aliases end at an address.
-/

set_option autoImplicit false

namespace Barebone.Kernel

open Exec Word Endian Sv39

/-! ## The device tree window -/

/-- Leaf `i` of the window, for a device tree in gigabyte `base`. -/
def fdtEntry (base i : ℕ) : ℕ := (base + i) * 2 ^ 18 * 2 ^ 10 + bootFdtPteFlags

/-- The first `n` leaves have been installed. -/
def fdtEntries (e : Entries) (root base n : ℕ) : Entries := fun t i =>
  if t = root ∧ 256 ≤ (i : ℕ) ∧ (i : ℕ) < 256 + n then fdtEntry base (i - 256) else e t i

/-- The root entry of leaf `i`. -/
def fdtIndex (i : Fin 5) : Fin 512 := ⟨256 + i, by omega⟩

/-- The window is free and has representable addresses only. -/
def FdtFits (e : Entries) (root base n : ℕ) : Prop :=
  ∀ i : Fin 5, (i : ℕ) < n → e root (fdtIndex i) = 0 ∧ base + i < 2 ^ 26

section Entries

variable {e : Entries} {root base n : ℕ}

theorem fdtEntries_zero : fdtEntries e root base 0 = e := by
  funext t i
  rw [fdtEntries, if_neg]
  omega

theorem fdtEntries_succ (i : Fin 5) :
    fdtEntries e root base (i + 1) =
      setEntry (fdtEntries e root base i) root (fdtIndex i) (fdtEntry base i) := by
  funext t j
  have hindex : (fdtIndex i : ℕ) = 256 + i := rfl
  by_cases heq : t = root ∧ j = fdtIndex i
  · obtain ⟨rfl, rfl⟩ := heq
    rw [setEntry_self, fdtEntries, if_pos (by omega), hindex, Nat.add_sub_cancel_left]
  · rw [setEntry, if_neg heq, fdtEntries, fdtEntries]
    have hj : t = root → (j : ℕ) ≠ 256 + i := fun ht hj => heq ⟨ht, Fin.ext hj⟩
    by_cases hin : t = root ∧ 256 ≤ (j : ℕ) ∧ (j : ℕ) < 256 + i
    · rw [if_pos hin, if_pos (by omega)]
    · rw [if_neg hin, if_neg (by omega)]

theorem fdtEntry_le {i : ℕ} (h : base + i < 2 ^ 26) : fdtEntry base i ≤ wordMax := by
  have hmax := wordMax_eq
  have hflags : bootFdtPteFlags < 2 ^ 10 := by decide
  unfold fdtEntry
  omega

theorem fdtEntry_ne_zero (i : ℕ) : fdtEntry base i ≠ 0 := by
  have hflags : bootFdtPteFlags ≠ 0 := by decide
  unfold fdtEntry
  omega

theorem FdtFits.zero (h : FdtFits e root base 5) {i : Fin 512} (hlow : 256 ≤ (i : ℕ))
    (hhigh : (i : ℕ) < 256 + 5) : e root i = 0 := by
  obtain ⟨j, rfl⟩ : ∃ j : Fin 5, fdtIndex j = i :=
    ⟨⟨i - 256, by omega⟩, Fin.ext (by show 256 + ((i : ℕ) - 256) = i; omega)⟩
  exact (h j j.isLt).1

/-- **Exactly the entries of the window** change. -/
theorem fdtEntries_ne_iff (h : FdtFits e root base 5) (t : ℕ) (i : Fin 512) :
    fdtEntries e root base 5 t i ≠ e t i ↔
      t = root ∧ bootFdtWindowVpn2 ≤ i ∧ i < bootFdtWindowVpn2 + bootFdtWindowGigapages := by
  have hvpn : bootFdtWindowVpn2 = 256 := by decide
  have hcount : bootFdtWindowGigapages = 5 := rfl
  rw [hvpn, hcount, fdtEntries]
  by_cases hin : t = root ∧ 256 ≤ (i : ℕ) ∧ (i : ℕ) < 256 + 5
  · obtain ⟨rfl, hlow, hhigh⟩ := hin
    rw [if_pos ⟨rfl, hlow, hhigh⟩, h.zero hlow hhigh]
    simp only [fdtEntry_ne_zero, ne_eq, not_false_eq_true, true_and, true_iff]
    exact ⟨hlow, hhigh⟩
  · rw [if_neg hin]
    simp only [ne_eq, not_true_eq_false, false_iff]
    exact hin

/-- **The window shows the device tree** with its place in its gigabyte. -/
theorem translate_fdt {dtb k : ℕ} (h : FdtFits e root (dtb / 2 ^ 30) 5) (hk : k < 2 ^ 32 - 1) :
    translate (fdtEntries e root (dtb / 2 ^ 30) 5) root (bootFdtWindowBase + dtb % 2 ^ 30 + k) =
      some (dtb + k, leafFor ((dtb + k) / frameSize) .readOnly .supervisor) := by
  have hbase := bootFdtWindowBase_eq
  obtain ⟨va, hva⟩ : ∃ va, va = bootFdtWindowBase + dtb % 2 ^ 30 + k := ⟨_, rfl⟩
  obtain ⟨i, hi⟩ : ∃ i : Fin 5, (i : ℕ) = (dtb % 2 ^ 30 + k) / 2 ^ 30 := by
    refine ⟨⟨(dtb % 2 ^ 30 + k) / 2 ^ 30, ?_⟩, rfl⟩
    omega
  have hcanonical : Canonical va := by
    unfold Canonical
    omega
  have hindex : (vpn va).vpn2 = fdtIndex i := by
    apply Fin.ext
    show va / 2 ^ 30 % 512 = 256 + i
    omega
  obtain ⟨-, hlt⟩ := h i i.isLt
  have hentry : fdtEntries e root (dtb / 2 ^ 30) 5 root (vpn va).vpn2 =
      (dtb / 2 ^ 30 + i) * 2 ^ 18 * 2 ^ 10 + bootFdtPteFlags := by
    have hval : (fdtIndex i : ℕ) = 256 + i := rfl
    rw [hindex, fdtEntries, if_pos ⟨rfl, by omega⟩, hval, Nat.add_sub_cancel_left, fdtEntry]
  have hpa : (dtb / 2 ^ 30 + i) * 2 ^ 30 + va % 2 ^ 30 = dtb + k := by omega
  rw [← hva, translate_gigapage hcanonical hlt (by decide) (by decide) (by decide) hentry, hpa]
  rfl

end Entries

section MapFdt

variable {paging : BootstrapPaging} {m m₁ : Machine} {dtb : PhysAddr}

/-- The machine after the first `n` leaves have been installed. -/
def FdtInstalled (m : Machine) (base n : ℕ) (m' : Machine) : Prop :=
  m'.satp = m.satp ∧ m'.entries = fdtEntries m.entries m.root base n

theorem bootFdtWindowVpn2_add (i : Fin 5) : bootFdtWindowVpn2 + i = fdtIndex i := rfl

theorem returns_offsetAddress {σ ε : Type} {space : Space} {a b : Addr space} {bytes : ℕ} {s : σ}
    (h : b.asUsize = a.asUsize + bytes) :
    Returns (Sv39PageTable.offsetAddress a bytes : Exec σ ε (Addr space)) s b s :=
  returns_expectSome.mpr ⟨Addr.checkedAdd_eq_some.mpr h, rfl⟩

/-- The base of a leaf is an address. -/
theorem exists_fdtAddress (hdtb : dtb.asUsize ≤ maxPhysicalAddress) (i : Fin 5) :
    ∃ address : PhysAddr, address.asUsize = (dtb.asUsize / 2 ^ 30 + i) * 2 ^ 30 ∧
      address.asUsize = (dtb.clear gigapageMask).asUsize + i * gigapageSize := by
  have hmax := wordMax_eq
  have hphysical := maxPhysicalAddress_eq
  have hi := i.isLt
  refine ⟨⟨(dtb.asUsize / 2 ^ 30 + i) * 2 ^ 30, by omega⟩, rfl, ?_⟩
  rw [clear_gigapageMask, show gigapageSize = 2 ^ 30 from rfl]
  dsimp only
  omega

/-- One round of the validation. -/
theorem sat_checkFdtLeaf (h : paging.Identity m) (hdtb : dtb.asUsize ≤ maxPhysicalAddress)
    (i : Fin 5) :
    Sat (paging.checkFdtLeaf (dtb.clear gigapageMask) i) m fun r m' => m' = m ∧
      (r = .ok () ↔ m.entries m.root (fdtIndex i) = 0 ∧ dtb.asUsize / 2 ^ 30 + i < 2 ^ 26) := by
  have hphysical := maxPhysicalAddress_eq
  have hread : Returns (readMappedPageTableEntry paging.rootVirtual (bootFdtWindowVpn2 + i)) m
      (m.entries m.root (fdtIndex i)) m := by
    rw [bootFdtWindowVpn2_add]
    exact (h.accessible (Grows.refl m)).returns_readMapped _
  obtain ⟨address, haddress, hoffset⟩ := exists_fdtAddress hdtb i
  refine hread.sat_bind ?_
  by_cases hempty : m.entries m.root (fdtIndex i) = 0
  swap
  · rw [if_pos hempty]
    exact sat_fail ⟨rfl, by simp [hempty]⟩
  rw [if_neg (not_not.mpr hempty)]
  refine (returns_offsetAddress hoffset).sat_bind ?_
  by_cases hlarge : address.asUsize > maxPhysicalAddress
  · rw [if_pos hlarge]
    refine sat_fail ⟨rfl, ?_⟩
    simp only [reduceCtorEq, false_iff, not_and]
    omega
  · rw [if_neg hlarge]
    refine sat_pure ⟨rfl, ?_⟩
    simp only [true_iff]
    exact ⟨hempty, by omega⟩

/-- Leaves in a free window change no entry in use. -/
theorem FdtInstalled.grows {n : ℕ} (h : FdtFits m.entries m.root (dtb.asUsize / 2 ^ 30) 5)
    (hn : n ≤ 5) (hm : FdtInstalled m (dtb.asUsize / 2 ^ 30) n m₁) : Grows m m₁ := by
  refine ⟨hm.1, fun t ht i hi => ?_⟩
  rw [hm.2, fdtEntries, if_neg]
  rintro ⟨rfl, hlow, hhigh⟩
  exact hi (h.zero hlow (by omega))

/-- One round of the installation. -/
theorem sat_installFdtLeaf (h : paging.Identity m) (hdtb : dtb.asUsize ≤ maxPhysicalAddress)
    (hfits : FdtFits m.entries m.root (dtb.asUsize / 2 ^ 30) 5) (i : Fin 5)
    (hm : FdtInstalled m (dtb.asUsize / 2 ^ 30) i m₁) :
    Sat (paging.installFdtLeaf (dtb.clear gigapageMask) i) m₁ fun r m' =>
      r = .ok () ∧ FdtInstalled m (dtb.asUsize / 2 ^ 30) (i + 1) m' := by
  have hphysical := maxPhysicalAddress_eq
  have hgrows := hm.grows hfits i.isLt.le
  obtain ⟨-, hlt⟩ := hfits i i.isLt
  obtain ⟨address, haddress, hoffset⟩ := exists_fdtAddress hdtb i
  have hentry : pageTableEntry address bootFdtPteFlags =
      .ok (fdtEntry (dtb.asUsize / 2 ^ 30) i) := by
    have hnumber : address.asUsize / frameSize = (dtb.asUsize / 2 ^ 30 + i) * 2 ^ 18 := by
      unfold frameSize
      omega
    rw [pageTableEntry_of_le (by omega) (by decide), hnumber, fdtEntry]
  have hwrite : Returns (writeMappedPageTableEntry paging.rootVirtual (bootFdtWindowVpn2 + i)
      (fdtEntry (dtb.asUsize / 2 ^ 30) i)) m₁ ()
      (m₁.setEntry m.root (fdtIndex i) (fdtEntry (dtb.asUsize / 2 ^ 30) i)) := by
    rw [bootFdtWindowVpn2_add]
    exact (h.accessible hgrows).returns_writeMapped _ _
  refine (returns_offsetAddress hoffset).sat_bind
    ((returns_ofExcept.mpr ⟨hentry, rfl⟩).sat_bind (hwrite.sat ⟨rfl, hm.1, ?_⟩))
  rw [Machine.entries_setEntry _ _ _ (fdtEntry_le hlt), hm.2, fdtEntries_succ]

/-- **Mapping the device tree** installs the whole window or nothing. -/
theorem sat_mapFdt (h : paging.Identity m) (dtb : PhysAddr) :
    Sat (paging.mapFdt dtb) m fun r m' =>
      (∀ e, r = .error e → m' = m ∧ ¬FdtFits m.entries m.root (dtb.asUsize / 2 ^ 30) 5) ∧
      ∀ va, r = .ok va → va.asUsize = bootFdtWindowBase + dtb.asUsize % 2 ^ 30 ∧
        FdtFits m.entries m.root (dtb.asUsize / 2 ^ 30) 5 ∧
        FdtInstalled m (dtb.asUsize / 2 ^ 30) 5 m' := by
  unfold BootstrapPaging.mapFdt
  by_cases hlarge : dtb.asUsize > maxPhysicalAddress
  · rw [if_pos hlarge]
    refine sat_fail ⟨fun _ _ => ⟨rfl, fun hfits => ?_⟩, by simp⟩
    have hphysical := maxPhysicalAddress_eq
    have := (hfits 0 (by decide)).2
    simp only [Fin.val_zero] at this
    omega
  rw [if_neg hlarge]
  have hdtb := Nat.not_lt.mp hlarge
  have hcheck : Sat (forRange bootFdtWindowGigapages
      (paging.checkFdtLeaf (dtb.clear gigapageMask))) m fun r m' => m' = m ∧
      (r = .ok () ↔ FdtFits m.entries m.root (dtb.asUsize / 2 ^ 30) 5) := by
    refine sat_forRange (P := fun n m' => m' = m ∧
      FdtFits m.entries m.root (dtb.asUsize / 2 ^ 30) n) ⟨rfl, fun i hi => by omega⟩ ?_
      fun m' hm => ⟨hm.1, fun _ => hm.2, fun _ => rfl⟩
    rintro i _ hi ⟨rfl, hfits⟩
    refine (sat_checkFdtLeaf h hdtb ⟨i, hi⟩).mono fun r m' hr => ⟨fun hok => ⟨hr.1, ?_⟩, ?_⟩
    · intro j hj
      by_cases hij : (j : ℕ) = i
      · obtain rfl : j = ⟨i, hi⟩ := Fin.ext hij
        exact hr.2.mp hok
      · exact hfits j (by omega)
    · rintro e rfl
      refine ⟨hr.1, by simp, fun hall => ?_⟩
      exact absurd (hr.2.mpr (hall ⟨i, hi⟩ hi)) (by simp)
  refine hcheck.bind (fun _ m₁ hm => ?_)
    fun e m₁ hm => ⟨fun _ _ => ⟨hm.1, fun hfits => absurd (hm.2.mpr hfits) (by simp)⟩, by simp⟩
  obtain ⟨rfl, hfits⟩ := hm
  have hfits := hfits.mp rfl
  have hinstall : Sat (forRange bootFdtWindowGigapages
      (paging.installFdtLeaf (dtb.clear gigapageMask))) m₁ fun r m' => r = .ok () ∧
      FdtInstalled m₁ (dtb.asUsize / 2 ^ 30) 5 m' := by
    refine sat_forRange (P := FdtInstalled m₁ (dtb.asUsize / 2 ^ 30)) ⟨rfl, fdtEntries_zero.symm⟩ ?_
      fun m' hm => ⟨rfl, hm⟩
    intro i m' hi hm
    refine (sat_installFdtLeaf h hdtb hfits ⟨i, hi⟩ hm).mono fun r m'' hr => ⟨fun _ => hr.2, ?_⟩
    rintro e rfl
    cases hr.1
  refine hinstall.bind (fun _ m₂ hm => ?_) fun e m₂ hm => absurd hm.1 (by simp)
  have hle : bootFdtWindowBase + dtb.asUsize % 2 ^ 30 ≤ wordMax := by
    have hbase := bootFdtWindowBase_eq
    have hmax := wordMax_eq
    omega
  have halias : Returns (Sv39PageTable.offsetAddress ⟨bootFdtWindowBase, by decide⟩
      (dtb.asUsize &&& gigapageMask) : Exec Machine PagingError VirtAddr) m₂
      ⟨bootFdtWindowBase + dtb.asUsize % 2 ^ 30, hle⟩ m₂ := by
    refine returns_offsetAddress ?_
    rw [and_gigapageMask]
  refine halias.sat ⟨by simp, fun va heq => ?_⟩
  obtain rfl := Except.ok.inj heq
  exact ⟨rfl, hfits, hm.2⟩

end MapFdt

/-! ## The frame window -/

/-- The window of a frame, ready for an operation: the frame is mapped at `alias`. -/
def FrameMapped (m : Machine) (frame : PhysFrame) (page : VirtAddr) : Prop :=
  ∀ k < pageSize, m.translate (page.asUsize + k) =
    some (frame.start.asUsize + k, readWriteLeaf frame.number)

/-- The operation has left the root table alone, and it is still mapped at its own address. -/
structure LeavesRoot (paging : BootstrapPaging) (m m' : Machine) : Prop where
  satp : m'.satp = m.satp
  table : m'.entries m.root = m.entries m.root
  identity : paging.Identity m'

section WithFrame

variable {paging : BootstrapPaging} {m m₁ m₂ : Machine} {frame : PhysFrame}

/-- The frame is mapped at its place in the window. -/
theorem frameMapped_opened (h : paging.Identity m) (hempty : m.entries m.root 511 = 0)
    (hrep : frame.Representable) :
    FrameMapped ((paging.window m.root).opened m frame) frame
      ((paging.window m.root).page frame) := by
  have hopen := h.isOpen hempty
  intro k hk
  have hentry : ((paging.window m.root).opened m frame).entries m.root 511 =
      frame.number / 2 ^ 18 * 2 ^ 18 * 2 ^ 10 + frameWindowPteFlags := by
    rw [hopen.entries_opened hrep]
    exact setEntry_self
  have hw := BootstrapPaging.walk_window hrep hentry
  have hbase := bootFrameWindowBase_eq
  have hstart := frame.start_eq
  have hsize : pageSize = 4096 := rfl
  have hpage : ((paging.window m.root).page frame).asUsize =
      2 ^ 64 - 2 ^ 30 + frame.start.asUsize % 2 ^ 30 := by
    rw [← hbase, ← and_gigapageMask]
    rfl
  rw [hsize] at hk
  unfold frameSize at hstart
  have halign : ((paging.window m.root).page frame).asUsize % 2 ^ 12 = 0 := by omega
  have hcanonical : Canonical ((paging.window m.root).page frame).asUsize := by
    unfold Canonical
    omega
  have hw' : walk ((paging.window m.root).opened m frame).entries m.root
      (vpn (((paging.window m.root).page frame).asUsize + k)) =
        some (readWriteLeaf frame.number) := by
    rw [vpn_add halign hk]
    exact hw
  have hmode : ((paging.window m.root).opened m frame).satp / 2 ^ 60 = 8 := h.mode
  have hoffset : (((paging.window m.root).page frame).asUsize + k) % 2 ^ 12 = k := by omega
  have hpa : frame.number * 2 ^ 12 + k = frame.start.asUsize + k := by omega
  rw [Machine.translate, if_pos hmode,
    show ((paging.window m.root).opened m frame).root = m.root from rfl,
    translate_of_walk (hcanonical.add halign hk) hw', hoffset]
  simp only [readWriteLeaf, hpa]

/-- The entry is cleared after an operation that leaves the root alone. -/
theorem returns_withFrame (h : paging.Identity m) (hempty : m.entries m.root 511 = 0)
    (hrep : frame.Representable) {R : Type} {operation : VirtAddr → Exec Machine Empty R} {r : R}
    (hop : Returns (operation ((paging.window m.root).page frame))
      ((paging.window m.root).opened m frame) r m₂)
    (hleaves : LeavesRoot paging ((paging.window m.root).opened m frame) m₂) :
    Returns (paging.withFrame frame operation) m r (m₂.setEntry m.root 511 0) ∧
      (m₂.setEntry m.root 511 0).entries m.root = m.entries m.root := by
  have hroot : m₂.root = m.root := by
    rw [Machine.root, hleaves.satp]
    rfl
  have hafter := hleaves.identity.accessible (Grows.refl m₂)
  rw [hroot] at hafter
  refine ⟨BootstrapPaging.returns_withFrame (h.accessible (Grows.refl m)) hempty hrep hop hafter, ?_⟩
  have htable : m₂.entries m.root = ((paging.window m.root).opened m frame).entries m.root :=
    hleaves.table
  rw [Machine.entries_setEntry _ _ _ (by decide)]
  funext i
  by_cases hi : i = 511
  · rw [hi, setEntry_self, hempty]
  · rw [setEntry_of_ne_index hi, htable, (h.isOpen hempty).entries_opened hrep]
    exact setEntry_of_ne_index hi

end WithFrame

/-- **The boot windows are atomic, exact and restored.** Mapping the device tree fails and changes
nothing, or fills the five free entries of its window, through which the device tree is read. The
window of a frame shows the frame to the operation, and afterwards the root is as it was. -/
theorem boot_windows_exact (paging : BootstrapPaging) (m : Machine) (h : paging.Identity m) :
    (∀ dtb : PhysAddr, Sat (paging.mapFdt dtb) m fun r m' => (∀ e, r = .error e → m' = m) ∧
      ∀ va, r = .ok va → m'.satp = m.satp ∧
        (∀ t i, m'.entries t i ≠ m.entries t i ↔ t = m.root ∧ bootFdtWindowVpn2 ≤ i ∧
          i < bootFdtWindowVpn2 + bootFdtWindowGigapages) ∧
        (∀ i : Fin 512, bootFdtWindowVpn2 ≤ i → i < bootFdtWindowVpn2 + bootFdtWindowGigapages →
          m.entries m.root i = 0) ∧
        ∀ k < 2 ^ 32 - 1, m'.translate (va.asUsize + k) = some (dtb.asUsize + k,
          leafFor ((dtb.asUsize + k) / frameSize) .readOnly .supervisor)) ∧
    ∀ frame : PhysFrame,
      (∀ (R : Type) (operation : VirtAddr → Exec Machine Empty R), ∃ e,
        Fails (paging.withFrame frame operation) m e m) ∨
      ∃ page m₁, FrameMapped m₁ frame page ∧
        ∀ (R : Type) (operation : VirtAddr → Exec Machine Empty R) (r : R) (m₂ : Machine),
          Returns (operation page) m₁ r m₂ → LeavesRoot paging m₁ m₂ →
          ∃ m', Returns (paging.withFrame frame operation) m r m' ∧
            m'.entries m.root = m.entries m.root := by
  refine ⟨fun dtb => ?_, fun frame => ?_⟩
  · refine (sat_mapFdt h dtb).mono fun r m' hr => ⟨fun e he => (hr.1 e he).1, fun va hok => ?_⟩
    obtain ⟨hva, hfits, hsatp, hentries⟩ := hr.2 va hok
    have hroot : m'.root = m.root := by rw [Machine.root, hsatp, Machine.root]
    have hiff := fdtEntries_ne_iff hfits
    rw [← hentries] at hiff
    refine ⟨hsatp, hiff, fun i hlow hhigh => hfits.zero hlow hhigh, fun k hk => ?_⟩
    rw [Machine.translate, hsatp, if_pos h.mode, hroot, hentries, hva]
    exact translate_fdt hfits hk
  · by_cases hempty : m.entries m.root 511 = 0
    swap
    · exact .inl fun R operation => ⟨_, h.fails_withFrame hempty frame operation⟩
    by_cases hrep : frame.Representable
    · refine .inr ⟨_, _, frameMapped_opened h hempty hrep, fun R operation r m₂ hop hleaves => ?_⟩
      exact ⟨_, returns_withFrame h hempty hrep hop hleaves⟩
    · exact .inl fun R operation => ⟨_, BootstrapPaging.fails_withFrame_of_not_representable
        (h.accessible (Grows.refl m)) hempty hrep operation⟩

/-! ## A sample boot table -/

section Sample

/-- The root in frame 1 maps the first gigabyte at its own addresses. -/
def sampleBootMachine : Machine := (emptyMachine (8 * 2 ^ 60 + 1)).setEntry 1 0 frameWindowPteFlags

def sampleBootstrap : BootstrapPaging := ⟨⟨4096, by decide⟩⟩

theorem entries_sampleBootMachine : sampleBootMachine.entries =
    setEntry (emptyMachine (8 * 2 ^ 60 + 1)).entries 1 0 frameWindowPteFlags :=
  Machine.entries_setEntry _ _ _ (by decide)

theorem root_sampleBootMachine : sampleBootMachine.root = 1 := by decide

theorem entries_sampleBootMachine_of_ne {i : Fin 512} (h : i ≠ 0) :
    sampleBootMachine.entries 1 i = 0 := by
  rw [entries_sampleBootMachine, setEntry_of_ne_index h, entries_emptyMachine]

theorem tables_sampleBootMachine : tables sampleBootMachine.entries 1 ⊆ {1} := by
  refine tables_of_childless fun i => ?_
  by_cases hi : i = 0
  · rw [hi, child, entries_sampleBootMachine, setEntry_self]
    decide
  · exact child_of_zero (entries_sampleBootMachine_of_ne hi)

theorem identity_sample : sampleBootstrap.Identity sampleBootMachine := by
  have hv : vpn sampleBootstrap.rootVirtual.asUsize = ⟨0, 0, 1⟩ := by decide
  have hentry : sampleBootMachine.entries 1 (⟨0, 0, 1⟩ : Vpn).vpn2 =
      0 * 2 ^ 18 * 2 ^ 10 + frameWindowPteFlags := by
    rw [entries_sampleBootMachine, setEntry_self, Nat.zero_mul, Nat.zero_mul, Nat.zero_add]
  refine ⟨by decide, by decide, by decide, readWriteLeaf 1, ?_, ?_, rfl, rfl⟩
  · rw [root_sampleBootMachine, hv,
      walk_gigapage (by decide) (by decide) (by decide) (by decide) hentry]
    rfl
  · rw [root_sampleBootMachine]
    rfl

/-- Every device tree in low memory can be mapped. -/
theorem returns_mapFdt_sample {dtb : PhysAddr} (hdtb : dtb.asUsize < 2 ^ 55) :
    ∃ va m', Returns (sampleBootstrap.mapFdt dtb) sampleBootMachine va m' := by
  obtain ⟨r, m', hrun, herr, -⟩ := sat_mapFdt identity_sample dtb
  cases r with
  | ok va => exact ⟨va, m', hrun⟩
  | error e =>
    refine absurd (fun i _ => ⟨?_, by omega⟩) (herr e rfl).2
    rw [root_sampleBootMachine]
    refine entries_sampleBootMachine_of_ne fun hzero => ?_
    have : 256 + (i : ℕ) = 0 := congrArg Fin.val hzero
    omega

/-- The device tree window of the sample root. -/
theorem boot_windows_exact_sample : sampleBootstrap.Identity sampleBootMachine ∧
    Sat (sampleBootstrap.mapFdt ⟨0x3fffffff, by decide⟩) sampleBootMachine fun r m' =>
      ∀ va, r = .ok va → ∀ k < 2 ^ 32 - 1, m'.translate (va.asUsize + k) =
        some (0x3fffffff + k, leafFor ((0x3fffffff + k) / frameSize) .readOnly .supervisor) :=
  ⟨identity_sample, ((boot_windows_exact sampleBootstrap sampleBootMachine identity_sample).1
    ⟨0x3fffffff, by decide⟩).mono fun _ _ h va hva => (h.2 va hva).2.2.2⟩

end Sample

/-! ## The ends of aliases -/

/-- The address that an access passes to its operation. -/
def FrameAccess.Passes (access : FrameAccess) (m : Machine) (frame : PhysFrame)
    (page : VirtAddr) : Prop :=
  ∃ m', Returns (access.withFrame frame fun address => pure address) m page m'

section Passes

variable {m : Machine} {frame : PhysFrame} {page : VirtAddr}

theorem passes_bootstrap {paging : BootstrapPaging} (h : paging.access.Passes m frame page) :
    page.asUsize = bootFrameWindowBase + frame.start.asUsize % 2 ^ 30 := by
  obtain ⟨m', h⟩ := h
  obtain ⟨existing, m₁, -, h⟩ := returns_bind.mp h
  split at h
  · simp at h
  · dsimp only at h
    split at h
    · simp at h
    · obtain ⟨entry, m₂, -, h⟩ := returns_bind.mp h
      obtain ⟨-, m₃, -, h⟩ := returns_bind.mp h
      obtain ⟨address, m₄, haddress, h⟩ := returns_bind.mp h
      obtain ⟨result, m₅, hresult, h⟩ := returns_bind.mp h
      obtain ⟨-, m₆, -, h⟩ := returns_bind.mp h
      obtain ⟨rfl, -⟩ := returns_pure.mp h
      obtain ⟨rfl, -⟩ := returns_pure.mp (returns_infallible.mp hresult)
      have hpage := Addr.checkedAdd_eq_some.mp (returns_expectSome.mp haddress).1
      rw [hpage, and_gigapageMask]
      rfl

theorem passes_kernel {paging : KernelPaging} (h : paging.access.Passes m frame page) :
    page.asUsize = fixmapFrameBase := by
  obtain ⟨m', h⟩ := h
  obtain ⟨entry, m₁, -, h⟩ := returns_bind.mp h
  obtain ⟨existing, m₂, -, h⟩ := returns_bind.mp h
  split at h
  · simp at h
  · obtain ⟨-, m₃, -, h⟩ := returns_bind.mp h
    obtain ⟨result, m₅, hresult, h⟩ := returns_bind.mp h
    obtain ⟨-, m₆, -, h⟩ := returns_bind.mp h
    obtain ⟨rfl, -⟩ := returns_pure.mp h
    obtain ⟨rfl, -⟩ := returns_pure.mp (returns_infallible.mp hresult)
    rfl

/-- The alias of the device tree keeps its place within a gigabyte. -/
theorem returns_mapFdt {bootstrap : BootstrapPaging} {dtb : PhysAddr} {va : VirtAddr}
    {m m' : Machine} (h : Returns (bootstrap.mapFdt dtb) m va m') :
    va.asUsize = bootFdtWindowBase + dtb.asUsize % 2 ^ 30 := by
  unfold BootstrapPaging.mapFdt at h
  split at h
  · simp at h
  · obtain ⟨-, m₁, -, h⟩ := returns_bind.mp h
    obtain ⟨-, m₂, -, h⟩ := returns_bind.mp h
    have := Addr.checkedAdd_eq_some.mp (returns_expectSome.mp h).1
    rw [this, and_gigapageMask]

end Passes

/-- **Which aliases end at an address.** The alias of a frame in the boot window does unless the
frame is the last one of its gigabyte; the alias in the kernel's window and the alias of a device
tree always do. -/
theorem alias_end_iff (m : Machine) (frame : PhysFrame) (va : VirtAddr) :
    (∀ paging : BootstrapPaging, paging.access.Passes m frame va →
      (va.asUsize + pageSize ≤ wordMax ↔ frame.number % 2 ^ 18 ≠ 2 ^ 18 - 1)) ∧
    (∀ paging : KernelPaging, paging.access.Passes m frame va →
      va.asUsize + pageSize ≤ wordMax) ∧
    ∀ (paging : BootstrapPaging) (m' : Machine) (dtb : PhysAddr),
      Returns (paging.mapFdt dtb) m va m' → ∀ size ≤ 2 ^ 32 - 1, va.asUsize + size ≤ wordMax := by
  have hmax := wordMax_eq
  refine ⟨fun paging h => ?_, fun paging h => ?_, fun paging m' dtb h size hsize => ?_⟩
  · have hbase := bootFrameWindowBase_eq
    have hsize : pageSize = 4096 := rfl
    have hpage := passes_bootstrap h
    have hstart := frame.start_eq
    unfold frameSize at hstart
    omega
  · rw [passes_kernel h]
    decide
  · have hbase := bootFdtWindowBase_eq
    have hva := returns_mapFdt h
    omega

section Samples

/-- The last frame of the first gigabyte. -/
def lastFrame : PhysFrame := ⟨⟨0x3ffff000, by decide⟩, by decide, by decide⟩

theorem passes_sample {frame : PhysFrame} (hrep : frame.Representable) :
    sampleBootstrap.access.Passes sampleBootMachine frame
      ((sampleBootstrap.window sampleBootMachine.root).page frame) := by
  have hempty : sampleBootMachine.entries sampleBootMachine.root 511 = 0 := by
    rw [root_sampleBootMachine]
    exact entries_sampleBootMachine_of_ne (by decide)
  have hopen := identity_sample.isOpen hempty
  exact ⟨_, (sampleBootstrap.serves sampleBootMachine.root).run hopen hrep
    (returns_pure.mpr ⟨rfl, rfl⟩) (hopen.grows_opened hrep)⟩

/-- The alias of the last frame of a gigabyte ends behind the last address. -/
theorem alias_end_lastFrame : ∃ page, sampleBootstrap.Identity sampleBootMachine ∧
    sampleBootstrap.access.Passes sampleBootMachine lastFrame page ∧
    ¬page.asUsize + pageSize ≤ wordMax :=
  ⟨_, identity_sample, passes_sample (by decide), by decide⟩

/-- The alias of any other frame ends at an address. -/
theorem alias_end_iff_sample : ∃ page,
    sampleBootstrap.access.Passes sampleBootMachine (sampleFrame 5) page ∧
    page.asUsize + pageSize ≤ wordMax := by
  have h := passes_sample (by decide : (sampleFrame 5).Representable)
  exact ⟨_, h, ((alias_end_iff _ _ _).1 _ h).mpr (by decide)⟩

end Samples

end Barebone.Kernel
