import BareboneKernel.Kernel.Stock

/-!
# Pages with frames of their own

Heap pages and user pages are backed in the same way: a frame is taken from the allocator, zeroed,
perhaps filled, and mapped.

* `Advance S root s s'`: how such an operation may change tables and memory; unlike `Progress` it
  allows writing to the frames that are taken;
* `KernelPaging.Sound.store`: a frame that is no table can be filled;
* **`KernelPaging.Sound.sat_allocatePageTable`**: taking a zeroed frame;
* `MapFailure.frames`: in a clean address space a free page is only refused for lack of frames.
-/

set_option autoImplicit false

namespace Barebone.Kernel

open Exec Word Endian Sv39

variable {F : Type} [FrameAllocator F]

/-- **What may change** when frames are taken, filled and mapped: tables grow by frames of the pool,
and other frames that are not taken stay as they are. -/
structure Advance (S : Supply F) (root : ℕ) (s s' : Machine × F) : Prop where
  satp : s'.1.satp = s.1.satp
  keeps : Sv39.Extends s.1.entries s'.1.entries root
  pool : S.pool s'.2 ⊆ S.pool s.2
  tables : ∀ t ∈ tables s'.1.entries root, t ∈ tables s.1.entries root ∨
    t ∈ S.pool s.2 ∧ t ∉ S.pool s'.2
  frames : ∀ t ∉ Sv39.tables s'.1.entries root, (t ∈ S.pool s.2 → t ∈ S.pool s'.2) →
    SameFrame s.1.memory s'.1.memory t
  clean : Clean s.1.entries root → Clean s'.1.entries root

section Advance

variable {S : Supply F} {root n : ℕ} {s s' s'' : Machine × F} {bytes : List UInt8}

theorem Progress.advance (h : Progress S root s s') : Advance S root s s' :=
  ⟨h.satp, h.keeps, h.pool, h.tables, fun t ht _ => h.frames t ht, h.clean⟩

namespace Advance

theorem trans (h : Advance S root s s') (h' : Advance S root s' s'') : Advance S root s s'' where
  satp := h'.satp.trans h.satp
  keeps := h.keeps.trans h'.keeps
  pool := h'.pool.trans h.pool
  tables := taken_trans h.pool h'.pool h.tables h'.tables
  frames t ht htaken := by
    have h₁ := h.frames t (fun hmem => ht (h'.keeps.tables_subset hmem)) fun hmem =>
      h'.pool (htaken hmem)
    exact h₁.trans (h'.frames t ht fun hmem => htaken (h.pool hmem))
  clean hc := h'.clean (h.clean hc)

/-- A frame that is neither a table nor in the pool is not touched. -/
theorem sameFrame (h : Advance S root s s') (hpool : n ∉ S.pool s.2)
    (htable : n ∉ Sv39.tables s.1.entries root) :
    n ∉ S.pool s'.2 ∧ n ∉ Sv39.tables s'.1.entries root ∧ SameFrame s.1.memory s'.1.memory n := by
  have htable' : n ∉ Sv39.tables s'.1.entries root := by
    intro hmem
    rcases h.tables n hmem with hold | ⟨hin, -⟩
    · exact htable hold
    · exact hpool hin
  exact ⟨fun hmem => hpool (h.pool hmem), htable',
    h.frames n htable' fun hmem => absurd hmem hpool⟩

end Advance

/-! ## Filling a frame -/

theorem entries_store_tables {m : Machine} (hn : n ∉ tables m.entries root)
    (hlen : bytes.length ≤ frameSize) :
    ∀ t ∈ tables m.entries root, (m.store (n * frameSize) bytes).entries t = m.entries t :=
  fun _ ht => entries_store hlen fun heq => hn (heq ▸ ht)

theorem tables_store {m : Machine} (hn : n ∉ tables m.entries root)
    (hlen : bytes.length ≤ frameSize) :
    tables (m.store (n * frameSize) bytes).entries root = tables m.entries root := by
  unfold tables
  rw [tableAt_congr (entries_store_tables hn hlen)]

theorem walk_store {m : Machine} (hn : n ∉ tables m.entries root)
    (hlen : bytes.length ≤ frameSize) :
    walk (m.store (n * frameSize) bytes).entries root = walk m.entries root :=
  walk_eq_of_tables (entries_store_tables hn hlen)

/-- A frame that has been taken may be filled. -/
theorem Advance.store (h : Advance S root s s') (hin : n ∈ S.pool s.2) (hout : n ∉ S.pool s'.2)
    (hn : n ∉ Sv39.tables s'.1.entries root) (hlen : bytes.length ≤ frameSize) :
    Advance S root s (s'.1.store (n * frameSize) bytes, s'.2) where
  satp := h.satp
  keeps := h.keeps.trans fun t ht i _ => by rw [entries_store_tables hn hlen t ht]
  pool := h.pool
  tables t ht := h.tables t (tables_store hn hlen ▸ ht)
  frames t ht htaken := by
    have hne : t ≠ n := by
      rintro rfl
      exact hout (htaken hin)
    have hold : t ∉ Sv39.tables s'.1.entries root := fun hmem =>
      ht (by rw [tables_store hn hlen]; exact hmem)
    refine (h.frames t hold htaken).trans (sameFrame_store le_rfl ?_ hne)
    rw [Nat.succ_mul]
    omega
  clean hc := (h.clean hc).congr (entries_store_tables hn hlen)

variable {paging : KernelPaging}

theorem KernelPaging.Sound.store (h : paging.Sound S s)
    (hn : n ∉ tables s.1.entries paging.root.frame.number) (hlen : bytes.length ≤ frameSize) :
    paging.Sound S (s.1.store (n * frameSize) bytes, s.2) where
  fixmap := by
    have hroot := h.fixmap.root
    have htable := h.fixmap.table
    rw [hroot] at htable
    refine h.fixmap.grows (grows_store hlen (by rwa [hroot])) ?_
    rw [entries_store_tables hn hlen _ (mem_tables htable)]
    exact h.fixmap.empty
  valid := h.valid
  wellFormed := h.wellFormed.congr (tableAt_congr (entries_store_tables hn hlen))
  fresh t ht := by
    rw [tables_store hn hlen]
    exact h.fresh t ht

end Advance

/-! ## Taking a frame -/

section Take

variable {S : Supply F} {s : Machine × F} {paging : KernelPaging}

/-- The state after frame `n` has been taken and zeroed. -/
structure Took (paging : KernelPaging) (S : Supply F) (s : Machine × F) (n : ℕ)
    (s' : Machine × F) : Prop where
  sound : paging.Sound S s'
  advance : Advance S paging.root.frame.number s s'
  machine : s'.1 = s.1.zero n
  walk : walk s'.1.entries paging.root.frame.number = walk s.1.entries paging.root.frame.number
  tables : tables s'.1.entries paging.root.frame.number =
    Sv39.tables s.1.entries paging.root.frame.number
  taken : n ∈ S.pool s.2
  gone : n ∉ S.pool s'.2
  free : n ∉ Sv39.tables s'.1.entries paging.root.frame.number

/-- The errors for lack of frames. -/
def FrameShortage (e : PagingError) : Prop :=
  e = .outOfPhysicalFrames ∨ ∃ a, e = .physicalAddressNotRepresentable a

/-- **Taking a zeroed frame.** -/
theorem KernelPaging.Sound.sat_allocatePageTable (h : paging.Sound S s) :
    Sat paging.access.allocatePageTable s fun r s' => match r with
      | .ok frame => frame.frame.Representable ∧ Took paging S s frame.frame.number s'
      | .error e => FrameShortage e ∧ paging.Sound S s' ∧ s'.1 = s.1 ∧ S.pool s'.2 ⊆ S.pool s.2 := by
  have hroot := h.fixmap.root
  refine (Kernel.sat_allocatePageTable (serves h.fixmap.slot) h.fixmap.isOpen h.valid
    fun t ht => by rw [hroot]; exact h.fresh t ht).mono fun r s' hr => ?_
  cases r with
  | error e =>
    obtain ⟨hmachine, herror⟩ := hr.error e rfl
    refine ⟨herror, ⟨hmachine ▸ h.fixmap, hr.valid, hmachine ▸ h.wellFormed, fun t ht => ?_⟩,
      hmachine, hr.pool⟩
    rw [hmachine]
    exact h.fresh t (hr.pool ht)
  | ok frame =>
    obtain ⟨hrep, hin, hout, hmachine, -⟩ := hr.ok frame rfl
    have hn := h.fresh _ hin
    have hlen : (List.replicate frameSize (0 : UInt8)).length ≤ frameSize := by
      rw [List.length_replicate]
    have hs₁ : paging.Sound S (s.1, s'.2) :=
      ⟨h.fixmap, hr.valid, h.wellFormed, fun t ht => h.fresh t (hr.pool ht)⟩
    have ht : Taken S s (.ok frame) (s.1, s'.2) := by
      refine ⟨rfl, hr.valid, hr.pool, fun frame' heq _ => ?_, by simp⟩
      obtain rfl : frame = frame' := by simpa using heq
      exact ⟨hin, hout⟩
    have hs' : s' = (s.1.zero frame.frame.number, s'.2) := Prod.ext hmachine rfl
    have htables := tables_store hn hlen
    rw [hs']
    exact ⟨hrep, hs₁.store hn hlen, ht.progress.advance.store hin hout hn hlen, rfl,
      walk_store hn hlen, htables, hin, hout, fun hmem => hn (htables ▸ hmem)⟩

/-- Taking a zeroed frame is allocating a table. -/
theorem zeroed_eq {α : Type} (g : AllocatedFrame → Exec (Machine × F) PagingError α) :
    (allocateFrame >>= fun frame => onMachine (paging.zeroFrame frame) >>= fun _ => g frame) =
      paging.access.allocatePageTable >>= g := by
  unfold FrameAccess.allocatePageTable
  rw [bind_assoc]
  congr
  funext frame
  rw [bind_assoc]
  rfl

/-- A program that takes a zeroed frame and goes on with it. -/
theorem KernelPaging.Sound.sat_zeroed {α : Type} (h : paging.Sound S s)
    {g : AllocatedFrame → Exec (Machine × F) PagingError α}
    {Q : Except PagingError α → Machine × F → Prop}
    (hok : ∀ frame s', Returns paging.access.allocatePageTable s frame s' →
      frame.frame.Representable → Took paging S s frame.frame.number s' → Sat (g frame) s' Q)
    (herror : ∀ e s', FrameShortage e → paging.Sound S s' → s'.1 = s.1 →
      S.pool s'.2 ⊆ S.pool s.2 → Q (.error e) s') :
    Sat (allocateFrame >>= fun frame => onMachine (paging.zeroFrame frame) >>= fun _ => g frame) s
      Q := by
  rw [zeroed_eq]
  obtain ⟨r, s', htake, hr⟩ := h.sat_allocatePageTable
  cases r with
  | ok frame =>
    have hreturns : Returns paging.access.allocatePageTable s frame s' := htake
    exact hreturns.sat_bind (hok frame s' hreturns hr.1 hr.2)
  | error e =>
    have hfails : Fails paging.access.allocatePageTable s e s' := htake
    obtain ⟨hshort, hsound, hmachine, hpool⟩ := hr
    exact hfails.bind.sat (herror e s' hshort hsound hmachine hpool)

/-- **A zeroed frame is there** when the allocator has one more. -/
theorem KernelPaging.Sound.succeeds_zeroed {α : Type} {n : ℕ} (h : paging.Sound S s)
    (hstock : Stocked (n + 1) s.2) {g : AllocatedFrame → Exec (Machine × F) PagingError α}
    {Q : α → Machine × F → Prop} (hok : ∀ frame s', frame.frame.Representable →
      Took paging S s frame.frame.number s' → Stocked n s'.2 → Succeeds (g frame) s' Q) :
    Succeeds (allocateFrame >>= fun frame => onMachine (paging.zeroFrame frame) >>= fun _ => g frame)
      s Q := by
  have hroot := h.fixmap.root
  rw [zeroed_eq]
  refine ((succeeds_allocatePageTable (serves h.fixmap.slot) h.fixmap.isOpen h.valid
    (fun t ht => by rw [hroot]; exact h.fresh t ht) hstock).and h.sat_allocatePageTable).bind ?_
  rintro frame s₁ ⟨hrest, hrep, ht⟩
  exact hok frame s₁ hrep ht hrest

end Take

/-- In a clean address space a free page is only refused for lack of frames. -/
theorem MapFailure.frames {e : Entries} {root address : ℕ} {error : PagingError}
    (h : MapFailure e root address error) (hclean : Clean e root)
    (hnone : walk e root (vpn address) = none) (hcanonical : Canonical address)
    (halign : address % frameSize = 0) : FrameShortage error := by
  cases error with
  | physicalAddressNotRepresentable a => exact .inr ⟨a, rfl⟩
  | outOfPhysicalFrames => exact .inl rfl
  | invalidIntermediateEntry index entry => exact absurd hclean h
  | pageAlreadyMapped a entry => exact absurd hnone (h.2 hclean)
  | virtualAddressNotPageAligned a => exact absurd halign h
  | virtualAddressNotCanonical a => exact absurd hcanonical h
  | _ => exact h.elim

/-! ## Mapping a frame -/

/-- Where a page may lie: user pages above the null page in the lower half, others in the upper
half. -/
def Placed (address : ℕ) (leaf : Leaf) : Prop :=
  if leaf.user then pageSize ≤ address ∧ address < sv39LowHalfEnd else sv39HighHalfBase ≤ address

/-- The page at `address` is added to a translation. -/
structure Adds (τ τ' : Vpn → Option Leaf) (address : ℕ) (leaf : Leaf) : Prop where
  canonical : Canonical address
  aligned : address % frameSize = 0
  placed : Placed address leaf
  exclusive : ¬(leaf.write = true ∧ leaf.execute = true)
  none : τ (vpn address) = none
  update : τ' = Function.update τ (vpn address) (some leaf)

/-- **What a call may do to an address space**: tables grow, and at most one page is added, on a frame
of `usable` that is no longer in the pool. -/
structure Grown (paging : KernelPaging) (S : Supply F) (usable : Set ℕ) (s s' : Machine × F) :
    Prop where
  sound : paging.Sound S s'
  advance : Advance S paging.root.frame.number s s'
  walk : walk s'.1.entries paging.root.frame.number = walk s.1.entries paging.root.frame.number ∨
    ∃ address leaf, leaf.frame ∈ usable ∧ leaf.frame < 2 ^ 44 ∧ leaf.frame ∉ S.pool s'.2 ∧
      leaf.frame ∉ tables s'.1.entries paging.root.frame.number ∧
      Adds (Sv39.walk s.1.entries paging.root.frame.number)
        (Sv39.walk s'.1.entries paging.root.frame.number) address leaf

section Grown

variable {S : Supply F} {paging : KernelPaging} {usable : Set ℕ} {s s₁ s' : Machine × F}

theorem Grown.refl (h : paging.Sound S s) : Grown paging S usable s s :=
  ⟨h, (Progress.refl s).advance, .inl rfl⟩

/-- Frames may be taken and filled first. -/
theorem Grown.after (h : Grown paging S usable s₁ s')
    (ha : Advance S paging.root.frame.number s s₁)
    (hwalk : Sv39.walk s₁.1.entries paging.root.frame.number =
      Sv39.walk s.1.entries paging.root.frame.number) : Grown paging S usable s s' := by
  refine ⟨h.sound, ha.trans h.advance, ?_⟩
  rw [← hwalk]
  exact h.walk

theorem Grown.mono {usable' : Set ℕ} (h : Grown paging S usable s s') (hsub : usable ⊆ usable') :
    Grown paging S usable' s s' := by
  refine ⟨h.sound, h.advance, h.walk.imp_right ?_⟩
  rintro ⟨address, leaf, hmem, hrest⟩
  exact ⟨address, leaf, hsub hmem, hrest⟩

theorem leafFor_exclusive (n : ℕ) (permissions : PagePermissions) (privilege : PagePrivilege) :
    ¬((leafFor n permissions privilege).write = true ∧
      (leafFor n permissions privilege).execute = true) := by
  cases permissions <;> simp [leafFor]

/-- Mapping a frame that is neither in the pool nor a table. -/
theorem PageMapped.grown {address n : ℕ} {permissions : PagePermissions}
    {privilege : PagePrivilege} {r : Except PagingError Unit} (h : paging.Sound S s)
    (hr : PageMapped paging.window S paging.root.frame.number address
      (leafFor n permissions privilege) s r s')
    (hplaced : Placed address (leafFor n permissions privilege))
    (hn : n < 2 ^ 44 → n ∉ S.pool s.2 ∧ n ∉ tables s.1.entries paging.root.frame.number) :
    Grown paging S {n} s s' := by
  refine ⟨h.progress hr.ready hr.progress, hr.progress.advance, ?_⟩
  cases r with
  | error e => exact .inl (hr.error e rfl).1
  | ok u =>
    obtain ⟨hcanonical, halign, hlt, hnone, hupdate⟩ := hr.ok rfl
    obtain ⟨hpool, htables⟩ := hn hlt
    obtain ⟨hpool', htables', -⟩ := hr.progress.advance.sameFrame hpool htables
    exact .inr ⟨address, leafFor n permissions privilege, Set.mem_singleton n, hlt, hpool', htables',
      hcanonical, halign, hplaced, leafFor_exclusive n permissions privilege, hnone, hupdate⟩

theorem KernelPaging.sat_installPage_grown (h : paging.Sound S s) (address : VirtAddr)
    (frame : AllocatedFrame) (permissions : PagePermissions)
    (hn : frame.frame.Representable → frame.frame.number ∉ S.pool s.2 ∧
      frame.frame.number ∉ tables s.1.entries paging.root.frame.number) :
    Sat (paging.installPage address frame permissions) s fun _ s' =>
      Grown paging S {frame.frame.number} s s' := by
  refine (sat_installPage h address frame permissions).mono fun r s' hr => ?_
  rcases hr with ⟨⟨hhigh, -⟩, hr⟩ | ⟨rfl, -⟩
  · exact hr.grown h hhigh hn
  · exact .refl h

theorem KernelPaging.sat_mapUserPage_grown (h : paging.Sound S s) (address : VirtAddr)
    (frame : AllocatedFrame) (permissions : PagePermissions)
    (hn : frame.frame.Representable → frame.frame.number ∉ S.pool s.2 ∧
      frame.frame.number ∉ tables s.1.entries paging.root.frame.number) :
    Sat (paging.mapUserPage address frame permissions) s fun _ s' =>
      Grown paging S {frame.frame.number} s s' := by
  refine (sat_mapUserPage h address frame permissions).mono fun r s' hr => ?_
  rcases hr with ⟨huser, hr⟩ | ⟨rfl, -⟩
  · exact hr.grown h huser hn
  · exact .refl h

/-- A request that found no frame. -/
theorem Grown.shortage (h : paging.Sound S s') (hmachine : s'.1 = s.1)
    (hpool : S.pool s'.2 ⊆ S.pool s.2) : Grown paging S usable s s' := by
  have hprogress : Progress S paging.root.frame.number s s' :=
    Taken.progress (r := .error .outOfPhysicalFrames)
      ⟨hmachine, h.valid, hpool, by simp, by simp⟩
  exact ⟨h, hprogress.advance, .inl (by rw [hmachine])⟩

/-- **Backing a page of the heap.** -/
theorem KernelPaging.sat_heapBacking_grown (h : paging.Sound S s) (address : VirtAddr) :
    Sat (paging.heapBacking address) s fun _ s' => Grown paging S (S.pool s.2) s s' := by
  unfold heapBacking
  dsimp only
  split
  · exact sat_fail (.refl h)
  split
  · exact sat_fail (.refl h)
  refine h.sat_zeroed (fun frame s₁ _ _ ht => ?_)
    fun e s₁ _ hsound hmachine hpool => .shortage hsound hmachine hpool
  refine (sat_installPage_grown ht.sound address frame .readWrite
    fun _ => ⟨ht.gone, ht.free⟩).mono fun r s₂ hr => ?_
  exact (hr.after ht.advance ht.walk).mono (Set.singleton_subset_iff.mpr ht.taken)

end Grown

/-! ## Claiming the heap -/

section ClaimHeap

variable {S : Supply F} {paging : KernelPaging} {s : Machine × F}

/-- Asked for the page below its backed part, the heap keeps consisting of pages. -/
theorem KernelHeap.Paged.back {heap : KernelHeap} {page : VirtAddr} (h : heap.Paged)
    (hpage : page.asUsize + frameSize = heap.mappedStart.asUsize) :
    KernelHeap.Paged { heap with mappedStart := page } := by
  refine ⟨h.start_mod, ?_⟩
  have := h.mapped_mod
  dsimp only
  unfold frameSize at *
  omega

omit [FrameAllocator F] in
theorem KernelPaging.sat_beside {ε α : Type} {c : Exec (Machine × F) ε α}
    {P : Except ε α → Machine × F → Prop} (h : Sat c s P) :
    Sat (beside c) (paging, s) fun r s' => s'.1 = paging ∧ P r s'.2 := by
  obtain ⟨r, t, hr, hp⟩ := h
  exact ⟨r, (paging, t), by rw [beside, zoom, hr]; rfl, rfl, hp⟩

/-- The checks of `claimHeap` leave everything unchanged; what remains is a new heap, backed by the
pages of the address space. -/
theorem KernelPaging.claimHeap_eq (h : paging.Sound S s) :
    claimHeap (paging, s) =
      if paging.heapClaimed then fail (.backing .kernelHeapAlreadyClaimed) (paging, s)
      else if s.1.entries paging.root.frame.number (vpn heapStart).vpn2 ≠ 0 then
        fail (.backing (.rootEntryInUse (vpn heapStart).vpn2
          (s.1.entries paging.root.frame.number (vpn heapStart).vpn2))) (paging, s)
      else beside (KernelHeap.new heapRange
        (KernelPaging.heapBacking { paging with heapClaimed := true }))
          ({ paging with heapClaimed := true }, s) := by
  have hindex : (heapStart >>> gigapageShift) &&& vpnMask = ((vpn heapStart).vpn2 : ℕ) := by decide
  have hne := (h.avoids (v := vpn heapStart) (by decide)).1
  have hread := (serves h.fixmap.slot).returns_read h.fixmap.isOpen h.ready.root_lt hne
  have hentry : Returns (mapError HeapError.backing (beside (onMachine
      (paging.access.readPageTableEntry paging.root.frame (vpn heapStart).vpn2)))) (paging, s)
      (s.1.entries paging.root.frame.number (vpn heapStart).vpn2) (paging, s) :=
    returns_mapError.mpr (returns_zoom.mpr ⟨_, returns_onMachine hread, rfl⟩)
  have hmodify : Returns (Exec.modify fun s => ({ paging with heapClaimed := true }, s.2) :
      Exec (KernelPaging × Machine × F) (HeapError PagingError) Unit) (paging, s) ()
      ({ paging with heapClaimed := true }, s) := returns_modify.mpr rfl
  rw [claimHeap, bind_of_returns (returns_get.mpr ⟨rfl, rfl⟩)]
  dsimp only
  by_cases hclaimed : paging.heapClaimed = true
  · rw [if_pos hclaimed, if_pos hclaimed]
  rw [if_neg hclaimed, if_neg hclaimed, hindex, bind_of_returns hentry]
  by_cases hempty : s.1.entries paging.root.frame.number (vpn heapStart).vpn2 = 0
  · rw [if_neg (not_not.mpr hempty), if_neg (not_not.mpr hempty), bind_of_returns hmodify]
  · rw [if_pos hempty, if_pos hempty]

/-- **Claiming the heap** makes a heap of an empty part of the address space. An invariant `I` of the
heap and the machine holds in the end, and `Q` if no heap comes of it. If the heap is unclaimed and
its part of the address space is empty, an error is that of its first page. -/
theorem KernelPaging.sat_claimHeap (h : paging.Sound S s) {I : KernelHeap → Machine × F → Prop}
    {Q : Machine × F → Prop}
    (hI : Kept (KernelPaging.heapBacking { paging with heapClaimed := true }) I)
    (hinit : s.1.entries paging.root.frame.number (vpn heapStart).vpn2 = 0 →
      I ⟨heapRange, heapRange.stop, heapRange.stop⟩ s)
    (hQ : Q s) (hIQ : ∀ heap t, I heap t → Q t) :
    Sat claimHeap (paging, s) fun r s' =>
      (s' = (paging, s) ∨ s'.1 = { paging with heapClaimed := true } ∧ Q s'.2) ∧
      (∀ heap, r = .ok heap → s'.1 = { paging with heapClaimed := true } ∧
        heap.range = heapRange ∧ I heap s'.2) ∧
      ∀ e, r = .error e → paging.heapClaimed = false →
        s.1.entries paging.root.frame.number (vpn heapStart).vpn2 = 0 →
          PageRefused (KernelPaging.heapBacking { paging with heapClaimed := true }) I e := by
  unfold Sat
  rw [KernelPaging.claimHeap_eq h]
  split
  · rename_i hclaimed
    refine sat_fail ⟨.inl rfl, by simp, fun e _ hunclaimed => ?_⟩
    cases hclaimed.symm.trans hunclaimed
  split
  · rename_i hbusy
    exact sat_fail ⟨.inl rfl, by simp, fun e _ _ hempty => absurd hempty hbusy⟩
  · rename_i hempty
    have hnew : Sat (KernelHeap.new heapRange
        (KernelPaging.heapBacking { paging with heapClaimed := true })) s _ :=
      hI.sat_new (fun _ _ _ => hinit (not_not.mp hempty)) Q hQ hIQ
    refine (sat_beside hnew).mono ?_
    rintro r s' ⟨hpaging, ht, hheap, herror⟩
    refine ⟨.inr ⟨hpaging, ht⟩, fun heap hr => ⟨hpaging, hheap heap hr⟩, fun e he _ _ => ?_⟩
    exact herror e he (by decide) (by decide) (by decide)

end ClaimHeap

end Barebone.Kernel
