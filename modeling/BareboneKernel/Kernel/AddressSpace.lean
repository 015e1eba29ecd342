import BareboneKernel.Kernel.MapPage

/-!
# The kernel's address space

The operations of `KernelPaging` on the active tables, as changes of the translation.

* `AddsPage τ τ' address leaf`: the abstract operation, one page is added to a translation;
* `KernelPaging.Sound`: the fixmap is in place and each table has a frame of its own;
* **`map_page_refines`**: mapping a page adds it to the translation, or fails and changes none.
-/

set_option autoImplicit false

namespace Barebone.Kernel

open Exec Word Endian Sv39

variable {F : Type} [FrameAllocator F]

/-! ## Sound address spaces -/

namespace KernelPaging

/-- **A sound address space**: the fixmap is in place, each table has a frame of its own, and the
allocator returns none of these frames. -/
structure Sound (paging : KernelPaging) (S : Supply F) (s : Machine × F) : Prop where
  fixmap : paging.Fixmap s.1
  valid : S.Valid s.2
  wellFormed : WellFormed s.1.entries paging.root.frame.number
  fresh : ∀ t ∈ S.pool s.2, t ∉ tables s.1.entries paging.root.frame.number

variable {paging : KernelPaging} {S : Supply F} {s s' : Machine × F}

theorem Sound.ready (h : paging.Sound S s) :
    Ready paging.window S paging.root.frame.number s where
  isOpen := h.fixmap.isOpen
  valid := h.valid
  root_lt := by
    rw [← h.fixmap.root]
    exact Nat.mod_lt _ (by decide)
  wellFormed := h.wellFormed
  fresh t ht := ⟨h.fresh t ht, by rw [h.fixmap.root]; exact h.fresh t ht⟩
  apart := .inl h.fixmap.root

theorem Fixmap.grows {m m' : Machine} (h : paging.Fixmap m) (hg : Grows m m')
    (hempty : m'.entries paging.fixmapTable.number 1 = 0) : paging.Fixmap m' where
  mode := by rw [hg.1, h.mode]
  root := by rw [hg.root, h.root]
  table := by
    rw [hg.root]
    exact hg.2.tableAt h.table
  control := by
    rw [hg.root]
    exact hg.2.walk h.control
  empty := hempty
  slot := h.slot

theorem Sound.progress (h : paging.Sound S s)
    (hr : Ready paging.window S paging.root.frame.number s')
    (hp : Progress S paging.root.frame.number s s') : paging.Sound S s' where
  fixmap := h.fixmap.grows ⟨hp.satp, by rw [h.fixmap.root]; exact hp.keeps⟩ hr.isOpen.empty
  valid := hr.valid
  wellFormed := hr.wellFormed
  fresh t ht := (hr.fresh t ht).1

/-- The claim of the heap is of no concern here. -/
theorem Sound.claim (h : paging.Sound S s) : Sound { paging with heapClaimed := true } S s where
  fixmap := ⟨h.fixmap.mode, h.fixmap.root, h.fixmap.table, h.fixmap.control, h.fixmap.empty,
    h.fixmap.slot⟩
  valid := h.valid
  wellFormed := h.wellFormed
  fresh := h.fresh

theorem Sound.translate_eq (h : paging.Sound S s) (va : ℕ) :
    s.1.translate va = translate s.1.entries paging.root.frame.number va := by
  rw [Machine.translate, if_pos h.fixmap.mode, h.fixmap.root]

/-- The slot of the frame window is the entry of one page. -/
theorem Sound.avoids (h : paging.Sound S s) {v : Vpn} (hv : v ≠ vpn fixmapFrameBase) :
    Avoids paging.window s.1.entries paging.root.frame.number v := by
  have htable := h.fixmap.table
  rw [h.fixmap.root] at htable
  have hpath : ∀ {p t i}, tableAt s.1.entries paging.root.frame.number p = some t →
      (t, i) = paging.window.slot → p = .level0 509 511 ∧ i = 1 := by
    intro p t i hp heq
    obtain ⟨rfl, rfl⟩ : t = paging.fixmapTable.number ∧ i = 1 := Prod.ext_iff.mp heq
    exact ⟨h.wellFormed _ _ _ hp htable, rfl⟩
  refine ⟨fun heq => ?_, fun t ht heq => ?_, fun t ht heq => hv ?_⟩
  · cases (hpath (p := .root) rfl heq).1
  · cases (hpath ht heq).1
  · obtain ⟨hplace, h₀⟩ := hpath ht heq
    obtain ⟨h₂, h₁⟩ := Path.level0.inj hplace
    rw [vpn_fixmapFrameBase]
    cases v
    simp_all

/-! ## Operations -/

theorem sat_mapUserPage (h : paging.Sound S s) (address : VirtAddr) (frame : AllocatedFrame)
    (permissions : PagePermissions) :
    Sat (paging.mapUserPage address frame permissions) s fun r s' =>
      (pageSize ≤ address.asUsize ∧ address.asUsize < sv39LowHalfEnd) ∧
        PageMapped paging.window S paging.root.frame.number address.asUsize
          (leafFor frame.frame.number permissions .user) s r s' ∨
      s' = s ∧ ¬(pageSize ≤ address.asUsize ∧ address.asUsize < sv39LowHalfEnd) ∧
        r = .error (.virtualAddressNotUser address.asUsize) := by
  unfold mapUserPage
  by_cases huser : pageSize ≤ address.asUsize ∧ address.asUsize < sv39LowHalfEnd
  · rw [if_neg (not_not.mpr huser)]
    refine (sat_mapPage (serves h.fixmap.slot) h.ready (fun hcanonical _ => h.avoids ?_) frame.frame
      permissions .user).mono fun r s' hr => .inl ⟨huser, hr⟩
    intro heq
    have hlow := sv39LowHalfEnd_eq
    have hv : (vpn address.asUsize).vpn2 = 509 := by rw [heq, vpn_fixmapFrameBase]
    have hv' : address.asUsize / 2 ^ 30 % 512 = 509 := congrArg Fin.val hv
    rw [hlow] at huser
    omega
  · rw [if_pos huser]
    exact sat_fail (.inr ⟨rfl, huser, rfl⟩)

theorem sat_installPage (h : paging.Sound S s) (address : VirtAddr) (frame : AllocatedFrame)
    (permissions : PagePermissions) :
    Sat (paging.installPage address frame permissions) s fun r s' =>
      (sv39HighHalfBase ≤ address.asUsize ∧ address.asUsize ≠ fixmapFrameBase) ∧
        PageMapped paging.window S paging.root.frame.number address.asUsize
          (leafFor frame.frame.number permissions .supervisor) s r s' ∨
      s' = s ∧ (address.asUsize < sv39HighHalfBase ∧
          r = .error (.virtualAddressNotKernel address.asUsize) ∨
        address.asUsize = fixmapFrameBase ∧
          r = .error (.reservedVirtualPage address.asUsize)) := by
  unfold installPage
  by_cases hhigh : address.asUsize < sv39HighHalfBase
  · rw [if_pos hhigh]
    exact sat_fail (.inr ⟨rfl, .inl ⟨hhigh, rfl⟩⟩)
  · rw [if_neg hhigh]
    by_cases hfixmap : address.asUsize = fixmapFrameBase
    · rw [if_pos hfixmap]
      exact sat_fail (.inr ⟨rfl, .inr ⟨hfixmap, rfl⟩⟩)
    · rw [if_neg hfixmap]
      refine (sat_mapPage (serves h.fixmap.slot) h.ready (fun hcanonical halign => h.avoids ?_)
        frame.frame permissions .supervisor).mono fun r s' hr =>
          .inl ⟨⟨Nat.not_lt.mp hhigh, hfixmap⟩, hr⟩
      intro heq
      have hbase : fixmapFrameBase % frameSize = 0 := by decide
      have hpage := (vpn_eq_iff hcanonical (by decide)).mp heq
      unfold frameSize at halign hbase
      refine hfixmap ?_
      omega

end KernelPaging

/-! ## Translations -/

/-- **The abstract operation**: the page at `address`, so far without a translation, is added. -/
def AddsPage (τ τ' : ℕ → Option (ℕ × Leaf)) (address : ℕ) (leaf : Leaf) : Prop :=
  (∀ va, va / frameSize = address / frameSize →
    τ va = none ∧ τ' va = some (leaf.frame * frameSize + va % frameSize, leaf)) ∧
  ∀ va, va / frameSize ≠ address / frameSize → τ' va = τ va

theorem canonical_of_page {page va : ℕ} (hcanonical : Canonical page) (halign : page % frameSize = 0)
    (hva : va / frameSize = page / frameSize) : Canonical va := by
  obtain ⟨k, hk, rfl⟩ : ∃ k, k < frameSize ∧ va = page + k := by
    refine ⟨va % frameSize, Nat.mod_lt _ (by decide), ?_⟩
    unfold frameSize at *
    omega
  exact hcanonical.add halign hk

theorem addsPage_of_update {e e' : Entries} {root address : ℕ} {leaf : Leaf}
    (hcanonical : Canonical address) (halign : address % frameSize = 0)
    (hnone : walk e root (vpn address) = none)
    (hupdate : walk e' root = Function.update (walk e root) (vpn address) (some leaf)) :
    AddsPage (translate e root) (translate e' root) address leaf := by
  refine ⟨fun va hva => ?_, fun va hva => ?_⟩
  · have hva' := canonical_of_page hcanonical halign hva
    have hvpn : vpn va = vpn address := (vpn_eq_iff hva' hcanonical).mpr hva
    rw [Sv39.translate, Sv39.translate, if_pos hva', if_pos hva', hvpn, hnone, hupdate,
      Function.update_self]
    exact ⟨rfl, rfl⟩
  · unfold Sv39.translate
    by_cases hva' : Canonical va
    · have hvpn : vpn va ≠ vpn address := fun h => hva ((vpn_eq_iff hva' hcanonical).mp h)
      rw [if_pos hva', if_pos hva', hupdate, Function.update_of_ne hvpn]
    · rw [if_neg hva', if_neg hva']

/-- The outcome of mapping a page, seen from the translation. -/
def Refines (root address : ℕ) (leaf : Leaf) (s : Machine × F) (r : Except PagingError Unit)
    (s' : Machine × F) : Prop :=
  WellFormed s'.1.entries root ∧
  match r with
  | .ok () =>
    AddsPage (translate s.1.entries root) (translate s'.1.entries root) address leaf
  | .error _ => translate s'.1.entries root = translate s.1.entries root

section Refines

variable {w : Window} {access : FrameAccess} {S : Supply F} {root address : ℕ} {leaf : Leaf}
  {s s' : Machine × F} {r : Except PagingError Unit}

theorem PageMapped.refines (h : PageMapped w S root address leaf s r s') :
    Refines root address leaf s r s' := by
  refine ⟨h.ready.wellFormed, ?_⟩
  cases r with
  | ok u =>
    obtain ⟨hcanonical, halign, -, hnone, hupdate⟩ := h.ok rfl
    exact addsPage_of_update hcanonical halign hnone hupdate
  | error e =>
    funext va
    rw [Sv39.translate, Sv39.translate, (h.error e rfl).1]

theorem Progress.translate (h : Progress S root s s') {va : ℕ} {x : ℕ × Leaf}
    (hx : translate s.1.entries root va = some x) : Sv39.translate s'.1.entries root va = some x := by
  unfold Sv39.translate at *
  by_cases hva : Canonical va
  · rw [if_pos hva] at hx ⊢
    obtain ⟨leaf, hleaf, rfl⟩ := Option.map_eq_some_iff.mp hx
    rw [h.keeps.walk hleaf, Option.map_some]
  · rw [if_neg hva] at hx
    cases hx

/-- What a call of `KernelPaging` that maps a page guarantees. -/
def KernelPaging.Maps (paging : KernelPaging) (S : Supply F) (address : ℕ) (leaf : Leaf)
    (s : Machine × F) (r : Except PagingError Unit) (s' : Machine × F) : Prop :=
  paging.Sound S s' ∧ Progress S paging.root.frame.number s s' ∧
    Refines paging.root.frame.number address leaf s r s'

theorem KernelPaging.Sound.maps {paging : KernelPaging} (h : paging.Sound S s)
    (hr : PageMapped paging.window S paging.root.frame.number address leaf s r s') :
    paging.Maps S address leaf s r s' :=
  ⟨h.progress hr.ready hr.progress, hr.progress, hr.refines⟩

theorem KernelPaging.Sound.refused {paging : KernelPaging} (h : paging.Sound S s)
    (e : PagingError) : paging.Maps S address leaf s (.error e) s :=
  ⟨h, Progress.refl s, h.wellFormed, rfl⟩

theorem KernelPaging.maps_installPage {paging : KernelPaging} (h : paging.Sound S s)
    (address : VirtAddr) (frame : AllocatedFrame) (permissions : PagePermissions) :
    Sat (paging.installPage address frame permissions) s
      (paging.Maps S address.asUsize (leafFor frame.frame.number permissions .supervisor) s) := by
  refine (sat_installPage h address frame permissions).mono fun r s' hr => ?_
  rcases hr with ⟨-, hr⟩ | ⟨rfl, ⟨-, rfl⟩ | ⟨-, rfl⟩⟩
  · exact h.maps hr
  · exact h.refused _
  · exact h.refused _

theorem KernelPaging.maps_mapUserPage {paging : KernelPaging} (h : paging.Sound S s)
    (address : VirtAddr) (frame : AllocatedFrame) (permissions : PagePermissions) :
    Sat (paging.mapUserPage address frame permissions) s
      (paging.Maps S address.asUsize (leafFor frame.frame.number permissions .user) s) := by
  refine (sat_mapUserPage h address frame permissions).mono fun r s' hr => ?_
  rcases hr with ⟨-, hr⟩ | ⟨rfl, -, rfl⟩
  · exact h.maps hr
  · exact h.refused _

end Refines

/-- Calls of `mapPage` for one root. -/
def pageCalls (w : Window) (access : FrameAccess) (root : PhysFrame) (s : Machine × F)
    (c : Exec (Machine × F) PagingError Unit) : Prop :=
  ∃ address frame permissions privilege, (Canonical address.asUsize →
    address.asUsize % frameSize = 0 → Avoids w s.1.entries root.number (vpn address.asUsize)) ∧
    c = mapPage root access address frame permissions privilege

/-- Calls that map kernel and user pages. -/
def KernelPaging.pageCalls (paging : KernelPaging) (_ : Machine × F)
    (c : Exec (Machine × F) PagingError Unit) : Prop :=
  ∃ address frame permissions, c = paging.installPage address frame permissions ∨
    c = paging.mapUserPage address frame permissions

/-- **Mapping a page refines an update of the translation.** A call adds the page, which had no
translation before, or fails and leaves every translation as it was; in both cases each table still
has a frame of its own. Over any sequence of calls no translation is ever changed. -/
theorem map_page_refines (S : Supply F) :
    (∀ (w : Window) (access : FrameAccess) (root : PhysFrame) (s : Machine × F),
      w.Serves access → Ready w S root.number s →
      ∀ (address : VirtAddr) (frame : PhysFrame) (permissions : PagePermissions)
        (privilege : PagePrivilege), (Canonical address.asUsize →
          address.asUsize % frameSize = 0 →
          Avoids w s.1.entries root.number (vpn address.asUsize)) →
        Sat (mapPage root access address frame permissions privilege) s fun r s' =>
          Ready w S root.number s' ∧ Refines root.number address.asUsize
            (leafFor frame.number permissions privilege) s r s') ∧
    (∀ (paging : KernelPaging) (s : Machine × F), paging.Sound S s →
      ∀ (address : VirtAddr) (frame : AllocatedFrame) (permissions : PagePermissions),
        (Sat (paging.installPage address frame permissions) s fun r s' => paging.Sound S s' ∧
          Refines paging.root.frame.number address.asUsize
            (leafFor frame.frame.number permissions .supervisor) s r s') ∧
        Sat (paging.mapUserPage address frame permissions) s fun r s' => paging.Sound S s' ∧
          Refines paging.root.frame.number address.asUsize
            (leafFor frame.frame.number permissions .user) s r s') ∧
    (∀ (w : Window) (access : FrameAccess) (root : PhysFrame) (s s' : Machine × F),
      w.Serves access → Ready w S root.number s → Run (pageCalls w access root) s s' →
      ∀ va x, translate s.1.entries root.number va = some x →
        translate s'.1.entries root.number va = some x) ∧
    ∀ (paging : KernelPaging) (s s' : Machine × F), paging.Sound S s →
      Run paging.pageCalls s s' → paging.Sound S s' ∧
      ∀ va x, translate s.1.entries paging.root.frame.number va = some x →
        translate s'.1.entries paging.root.frame.number va = some x := by
  refine ⟨?_, ?_, ?_, ?_⟩
  · intro w access root s hs h address frame permissions privilege havoid
    exact (sat_mapPage hs h havoid frame permissions privilege).mono fun r s' hr =>
      ⟨hr.ready, hr.refines⟩
  · intro paging s h address frame permissions
    exact ⟨(paging.maps_installPage h address frame permissions).mono fun r s' hr => ⟨hr.1, hr.2.2⟩,
      (paging.maps_mapUserPage h address frame permissions).mono fun r s' hr => ⟨hr.1, hr.2.2⟩⟩
  · intro w access root s s' hs h hrun
    have hprogress : Ready w S root.number s' ∧ Progress S root.number s s' := by
      refine hrun.induct (P := fun s' => Ready w S root.number s' ∧ Progress S root.number s s')
        ⟨h, Progress.refl s⟩ ?_
      rintro s₁ c ⟨hready, hp⟩ ⟨address, frame, permissions, privilege, havoid, rfl⟩
      exact (sat_mapPage hs hready havoid frame permissions privilege).mono fun r s₂ hr =>
        ⟨hr.ready, hp.trans hr.progress⟩
    exact fun va x hx => hprogress.2.translate hx
  · intro paging s s' h hrun
    have hprogress : paging.Sound S s' ∧ Progress S paging.root.frame.number s s' := by
      refine hrun.induct
        (P := fun s' => paging.Sound S s' ∧ Progress S paging.root.frame.number s s')
        ⟨h, Progress.refl s⟩ ?_
      rintro s₁ c ⟨hsound, hp⟩ ⟨address, frame, permissions, rfl | rfl⟩
      · exact (paging.maps_installPage hsound address frame permissions).mono fun r s₂ hr =>
          ⟨hr.1, hp.trans hr.2.1⟩
      · exact (paging.maps_mapUserPage hsound address frame permissions).mono fun r s₂ hr =>
          ⟨hr.1, hp.trans hr.2.1⟩
    exact ⟨hprogress.1, fun va x hx => hprogress.2.translate hx⟩

/-! ## A sample address space -/

section Sample

instance neZero_sampleFrames : NeZero 1000 := ⟨by decide⟩

/-- The frame with a small number. -/
def sampleFrame (n : Fin 1000) : PhysFrame where
  start := ⟨n * frameSize, by
    have hmax := wordMax_eq
    have := n.isLt
    unfold frameSize
    omega⟩
  aligned := Nat.mul_mod_left _ _
  fits := by
    have hmax := wordMax_eq
    have := n.isLt
    dsimp only
    unfold frameSize
    omega

/-- A short supply of frames. -/
def sampleFrames : List AllocatedFrame := [⟨sampleFrame 4⟩, ⟨sampleFrame 5⟩]

/-- Memory filled with zeros. -/
def emptyMachine (satp : ℕ) : Machine := ⟨fun _ => 0, satp⟩

theorem entries_emptyMachine (satp t : ℕ) (i : Fin 512) : (emptyMachine satp).entries t i = 0 := by
  show fromLE ((List.range 8).map fun _ => 0) = 0
  decide

/-- The tables above the fixmap, in frames 1, 2 and 3. -/
def sampleTables : Machine := ((emptyMachine (8 * 2 ^ 60 + 1)).link 1 509 2).link 2 511 3

/-- The last-level table is mapped into itself. -/
def sampleMachine : Machine := sampleTables.setEntry 3 0 (3 * 2 ^ 10 + frameWindowPteFlags)

def samplePaging : KernelPaging where
  root := ⟨sampleFrame 1⟩
  fixmapTable := sampleFrame 3
  dtbMapping := ⟨⟨sv39HighHalfBase, by decide⟩, ⟨sv39HighHalfBase + pageSize, by decide⟩, by decide⟩
  frameSlot := fixmapTableBase + 8
  heapClaimed := false

theorem linkable_sample₁ :
    Linkable (emptyMachine (8 * 2 ^ 60 + 1)) 1 1 509 2 .root (.level1 509) := by
  have hempty := entries_emptyMachine (8 * 2 ^ 60 + 1) 1
  refine ⟨wellFormed_of_empty hempty, rfl, rfl, hempty _, fun hmem => ?_, by decide⟩
  have : (2 : ℕ) = 1 := tables_of_empty hempty hmem
  omega

theorem linkable_sample₀ :
    Linkable ((emptyMachine (8 * 2 ^ 60 + 1)).link 1 509 2) 1 2 511 3 (.level1 509)
      (.level0 509 511) := by
  have hl := linkable_sample₁
  have hempty := entries_emptyMachine (8 * 2 ^ 60 + 1) 1
  refine ⟨hl.wellFormed_link, by rw [hl.tableAt_eq, Function.update_self], rfl, ?_, fun hmem => ?_,
    by decide⟩
  · rw [hl.entries_eq, setEntry_of_ne (by decide)]
    exact if_pos rfl
  · rcases hl.tables_subset hmem with h | h
    · exact absurd h (by decide)
    · have : (3 : ℕ) = 1 := tables_of_empty hempty h
      omega

theorem tableAt_sampleTables : tableAt sampleTables.entries 1 (.level0 509 511) = some 3 := by
  rw [sampleTables, linkable_sample₀.tableAt_eq, Function.update_self]

theorem wellFormed_sampleTables : WellFormed sampleTables.entries 1 :=
  linkable_sample₀.wellFormed_link

theorem entries_sampleMachine : sampleMachine.entries =
    setEntry sampleTables.entries 3 0 (3 * 2 ^ 10 + frameWindowPteFlags) :=
  Machine.entries_setEntry _ _ _ (by decide)

theorem tableAt_sampleMachine : tableAt sampleMachine.entries 1 = tableAt sampleTables.entries 1 := by
  rw [entries_sampleMachine, tableAt_setLeaf wellFormed_sampleTables tableAt_sampleTables]

theorem tables_sampleMachine : tables sampleMachine.entries 1 ⊆ {1, 2, 3} := by
  rintro t ⟨p, hp⟩
  rw [tableAt_sampleMachine] at hp
  rcases linkable_sample₀.tables_subset (mem_tables hp) with rfl | h
  · simp
  · rcases linkable_sample₁.tables_subset h with rfl | h
    · simp
    · have : t = 1 := tables_of_empty (entries_emptyMachine _ 1) h
      simp [this]

theorem fixmap_sample : samplePaging.Fixmap sampleMachine := by
  have hroot : sampleMachine.root = 1 := by decide
  have htable : samplePaging.fixmapTable.number = 3 := by decide
  have hnumber : samplePaging.root.frame.number = 1 := by decide
  refine ⟨by decide, by rw [hroot, hnumber], ?_, ?_, ?_, rfl⟩
  · rw [hroot, htable, tableAt_sampleMachine, tableAt_sampleTables]
  · have hwalk : walk sampleMachine.entries 1 ⟨509, 511, 0⟩ = some (readWriteLeaf 3) := by
      rw [entries_sampleMachine, walk_setLeaf (v := ⟨509, 511, 0⟩) wellFormed_sampleTables
        tableAt_sampleTables, Function.update_self, lastLevel_window (by decide)]
    rw [hroot, htable, KernelPaging.vpn_fixmapTableBase, hwalk]
  · have hslot : sampleTables.entries 3 1 = 0 := by
      rw [sampleTables, linkable_sample₀.entries_eq, setEntry_of_ne (by decide)]
      exact if_pos rfl
    rw [htable, entries_sampleMachine, setEntry_of_ne_index (by decide), hslot]

theorem sound_sample {frames : List AllocatedFrame}
    (hnodup : (frames.map (·.frame.number)).Nodup)
    (hfresh : ∀ n ∈ frames.map (·.frame.number), n ∉ ({1, 2, 3} : Set ℕ)) :
    samplePaging.Sound listSupply (sampleMachine, frames) := by
  have hnumber : samplePaging.root.frame.number = 1 := by decide
  refine ⟨fixmap_sample, hnodup, ?_, fun t ht hmem => ?_⟩
  · rw [hnumber]
    exact wellFormed_sampleTables.congr tableAt_sampleMachine
  · rw [hnumber] at hmem
    exact hfresh t ht (tables_sampleMachine hmem)

/-- A user page is added to the sample address space. -/
theorem map_page_refines_sample :
    samplePaging.Sound listSupply (sampleMachine, [⟨sampleFrame 4⟩, ⟨sampleFrame 5⟩]) ∧
      Sat (samplePaging.mapUserPage ⟨0x10000, by decide⟩ ⟨sampleFrame 6⟩ .readWrite)
        (sampleMachine, [⟨sampleFrame 4⟩, ⟨sampleFrame 5⟩]) fun r s' =>
        samplePaging.Sound listSupply s' ∧ Refines samplePaging.root.frame.number 0x10000
          (leafFor (sampleFrame 6).number .readWrite .user)
          (sampleMachine, [⟨sampleFrame 4⟩, ⟨sampleFrame 5⟩]) r s' := by
  have hsound : samplePaging.Sound listSupply
      (sampleMachine, [⟨sampleFrame 4⟩, ⟨sampleFrame 5⟩]) := by
    refine sound_sample (by decide) ?_
    have hnumbers : [AllocatedFrame.mk (sampleFrame 4), ⟨sampleFrame 5⟩].map (·.frame.number) =
        [4, 5] := by decide
    rw [hnumbers]
    simp
  exact ⟨hsound, ((map_page_refines listSupply).2.1 samplePaging _ hsound _ _ _).2⟩

end Sample

end Barebone.Kernel
