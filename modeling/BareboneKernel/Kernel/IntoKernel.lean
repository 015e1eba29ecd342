import BareboneKernel.Kernel.BootWindow
import BareboneKernel.Kernel.MapRange

/-!
# Entering the kernel's address space

`intoKernel` builds the tables of the kernel through the window of the boot tables and then makes
them the active ones. The address space is described by the list of its segments.

* `Segment`, `Covers`: runs of pages with consecutive frames;
* `Laid w S root L s₀ s`: the tables built since `s₀` translate exactly the segments `L`;
* **`sat_intoKernel`**: what `intoKernel` builds;
* **`succeeds_intoKernel`**: it does build it when there are enough frames;
* **`into_kernel_exact`**: the resulting address space, address by address.
-/

set_option autoImplicit false

namespace Barebone.Kernel

open Exec Word Sv39

variable {F : Type} [FrameAllocator F]

/-! ## Segments -/

/-- Consecutive pages on consecutive frames. -/
structure Segment where
  start : ℕ
  frame : ℕ
  count : ℕ
  permissions : PagePermissions

/-- Page `v` belongs to a segment, which translates it to `leaf`. -/
def Covers (segments : List Segment) (v : Vpn) (leaf : Leaf) : Prop :=
  ∃ g ∈ segments, ∃ i < g.count, v = vpn (pageAt g.start i) ∧
    leaf = leafFor (g.frame + i) g.permissions .supervisor

/-- The segment of a range. -/
def rangeSegment (range : VirtRange) (frame : PhysFrame) (permissions : PagePermissions) :
    Segment := ⟨range.start.asUsize, frame.number, rangePages range, permissions⟩

theorem covers_concat {segments : List Segment} {g : Segment} {v : Vpn} {leaf : Leaf} :
    Covers (segments ++ [g]) v leaf ↔ Covers segments v leaf ∨ ∃ i < g.count,
      v = vpn (pageAt g.start i) ∧ leaf = leafFor (g.frame + i) g.permissions .supervisor := by
  simp only [Covers, List.mem_append, List.mem_singleton, or_and_right, exists_or, exists_eq_left]

/-- **The tables under `root`**, built since `s₀` beside the active ones, translate exactly the
segments. -/
structure Laid (w : Window) (S : Supply F) (root : ℕ) (segments : List Segment)
    (s₀ s : Machine × F) : Prop where
  ready : Ready w S root s
  clean : Clean s.1.entries root
  inactive : s.1.root ≠ root
  pool : S.pool s.2 ⊆ S.pool s₀.2
  tables : ∀ t ∈ Sv39.tables s.1.entries root, t ∈ S.pool s₀.2 ∧ t ∉ S.pool s.2
  walk : ∀ v leaf, Sv39.walk s.1.entries root v = some leaf ↔ Covers segments v leaf
  rootEntries : ∀ k, s.1.entries root k ≠ 0 →
    ∃ g ∈ segments, ∃ i < g.count, k = (vpn (pageAt g.start i)).vpn2

section Laid

variable {w : Window} {access : FrameAccess} {S : Supply F} {root : ℕ} {segments : List Segment}
  {s₀ s s' : Machine × F}

theorem Progress.root_eq (h : Progress S root s s') : s'.1.root = s.1.root := by
  rw [Machine.root, Machine.root, h.satp]

/-- The steps of a construction. -/
theorem Laid.progress (h : Laid w S root segments s₀ s) (hr : Ready w S root s')
    (hp : Progress S root s s') {segments' : List Segment}
    (hwalk : ∀ v leaf, Sv39.walk s'.1.entries root v = some leaf ↔ Covers segments' v leaf)
    (hroot : ∀ k, s'.1.entries root k ≠ 0 →
      ∃ g ∈ segments', ∃ i < g.count, k = (vpn (pageAt g.start i)).vpn2) :
    Laid w S root segments' s₀ s' := by
  refine ⟨hr, hp.clean h.clean, hp.root_eq ▸ h.inactive, hp.pool.trans h.pool, fun t ht => ?_, hwalk,
    hroot⟩
  rcases hp.tables t ht with hold | ⟨hin, hout⟩
  · obtain ⟨hin, hout⟩ := h.tables t hold
    exact ⟨hin, fun hmem => hout (hp.pool hmem)⟩
  · exact ⟨h.pool hin, hout⟩

theorem Laid.range (h : Laid w S root segments s₀ s) {range : VirtRange} {frame : PhysFrame}
    {permissions : PagePermissions} (hm : Mappable range frame)
    (hr : RangeMapped w S root range frame permissions (rangePages range) s s') :
    Laid w S root (segments ++ [rangeSegment range frame permissions]) s₀ s' := by
  refine h.progress hr.ready hr.progress (fun v leaf => ?_) fun k hk => ?_
  · rw [hr.walk, hm.addPages_eq_some le_rfl hr.unmapped, h.walk, covers_concat]
    rfl
  · by_cases hk' : s.1.entries root k = 0
    · obtain ⟨i, hi, heq⟩ := hr.rootEntries k (by rw [hk']; exact hk)
      exact ⟨_, List.mem_append_right _ (List.mem_singleton_self _), i, hi, heq⟩
    · obtain ⟨g, hg, hcovers⟩ := h.rootEntries k hk'
      exact ⟨g, List.mem_append_left _ hg, hcovers⟩

theorem sat_mapRange_laid (hs : w.Serves access) {table : Sv39PageTable}
    (h : Laid w S table.root.frame.number segments s₀ s) (range : VirtRange) (frame : PhysFrame)
    (permissions : PagePermissions) :
    Sat (table.mapRange access range frame permissions) s fun r s' => r = .ok () →
      Mappable range frame ∧ Laid w S table.root.frame.number
        (segments ++ [rangeSegment range frame permissions]) s₀ s' := by
  refine (sat_mapRange hs h.ready fun _ i _ => h.ready.avoids h.inactive _).mono fun r s' hr hok => ?_
  rcases hr with ⟨hm, -, hr⟩ | ⟨-, e, he, -⟩ | ⟨-, e, he, -⟩
  · exact ⟨hm, h.range hm hr⟩
  · cases he.symm.trans hok
  · cases he.symm.trans hok

/-- A new root translates nothing. -/
theorem sat_new (hs : w.Serves access) (hopen : w.Open s.1) (hvalid : S.Valid s.2)
    (hfresh : ∀ t ∈ S.pool s.2, t ∉ Sv39.tables s.1.entries s.1.root) :
    Sat (Sv39PageTable.new access) s fun r s' => ∀ table, r = .ok table →
      Laid w S table.root.frame.number [] s s' := by
  refine (sat_allocatePageTable hs hopen hvalid hfresh).bind (fun frame s₁ ht => ?_)
    fun e s₁ _ => by simp
  obtain ⟨hrep, hin, hout, hmachine, hopen₁⟩ := ht.ok frame rfl
  refine sat_pure fun table heq => ?_
  obtain rfl := Except.ok.inj heq
  have hempty : ∀ i, s₁.1.entries frame.frame.number i = 0 := fun i => by
    rw [hmachine, Machine.entries_zero]
    exact if_pos rfl
  have hactive : Sv39.tables s₁.1.entries s₁.1.root = Sv39.tables s.1.entries s.1.root := by
    rw [hmachine, Machine.entries_zero]
    unfold Sv39.tables
    rw [show (s.1.zero frame.frame.number).root = s.1.root from rfl, tableAt_clear (hfresh _ hin)]
  have hbeside : Disjoint (Sv39.tables s₁.1.entries frame.frame.number)
      (Sv39.tables s₁.1.entries s₁.1.root) := by
    refine Set.disjoint_left.mpr fun t ht hmem => hfresh _ hin ?_
    rw [hactive, show t = frame.frame.number from tables_of_empty hempty ht] at hmem
    exact hmem
  refine ⟨⟨hopen₁, ht.valid, hrep, wellFormed_of_empty hempty, fun t hmem => ⟨fun htable => ?_, ?_⟩,
    .inr hbeside⟩, clean_of_empty hempty, fun heq => ?_, ht.pool, fun t htable => ?_,
    fun v leaf => ?_, fun k hk => absurd (hempty k) hk⟩
  · rw [show t = frame.frame.number from tables_of_empty hempty htable] at hmem
    exact hout hmem
  · rw [hactive]
    exact hfresh t (ht.pool hmem)
  · have hmem := mem_tables_root s₁.1.entries frame.frame.number
    exact Set.disjoint_left.mp hbeside hmem (by rw [heq]; exact hmem)
  · rw [show t = frame.frame.number from tables_of_empty hempty htable]
    exact ⟨hin, hout⟩
  · rw [walk_of_empty hempty]
    simp [Covers]

/-! ## Sections -/

/-- The segment of a section. -/
def KernelSections.segment (sections : KernelSections) (kernelPhysicalStart : PhysAddr)
    (item : Option VirtRange × PagePermissions) : Option Segment :=
  item.1.bind fun range => (sections.physicalStart kernelPhysicalStart range).map fun frame =>
    rangeSegment range frame item.2

/-- Every section that is present has passed the checks. -/
def SectionsMappable (sections : KernelSections) (kernelPhysicalStart : PhysAddr)
    (items : List (Option VirtRange × PagePermissions)) : Prop :=
  ∀ item ∈ items, ∀ range, item.1 = some range → ∃ frame,
    sections.physicalStart kernelPhysicalStart range = some frame ∧ Mappable range frame

variable {bootstrap : BootstrapPaging} {kernelPhysicalStart : PhysAddr} {sections : KernelSections}

theorem sat_mapSection (hs : w.Serves bootstrap.access) {table : Sv39PageTable}
    (h : Laid w S table.root.frame.number segments s₀ s)
    (item : Option VirtRange × PagePermissions) :
    Sat (bootstrap.mapSection table kernelPhysicalStart sections item) s fun r s' => r = .ok () →
      (∀ range, item.1 = some range → ∃ frame,
        sections.physicalStart kernelPhysicalStart range = some frame ∧ Mappable range frame) ∧
      Laid w S table.root.frame.number
        (segments ++ (sections.segment kernelPhysicalStart item).toList) s₀ s' := by
  obtain ⟨section?, permissions⟩ := item
  cases section? with
  | none =>
    refine sat_pure fun _ => ⟨by simp, ?_⟩
    rw [show sections.segment kernelPhysicalStart (none, permissions) = none from rfl,
      Option.toList_none, List.append_nil]
    exact h
  | some range =>
    rw [BootstrapPaging.mapSection]
    cases hstart : sections.physicalStart kernelPhysicalStart range with
    | none => exact sat_fail (by simp)
    | some frame =>
      refine (sat_mapRange_laid hs h range frame permissions).mono fun r s' hr hok => ?_
      obtain ⟨hm, hlaid⟩ := hr hok
      refine ⟨fun range' heq => ?_, ?_⟩
      · obtain rfl := Option.some.inj heq
        exact ⟨frame, hstart, hm⟩
      · rw [show sections.segment kernelPhysicalStart (some range, permissions) =
          some (rangeSegment range frame permissions) by
            simp [KernelSections.segment, hstart], Option.toList_some]
        exact hlaid

theorem sat_mapSections (hs : w.Serves bootstrap.access) {table : Sv39PageTable}
    (items : List (Option VirtRange × PagePermissions))
    (h : Laid w S table.root.frame.number segments s₀ s) :
    Sat (items.forM (bootstrap.mapSection table kernelPhysicalStart sections)) s fun r s' =>
      r = .ok () → SectionsMappable sections kernelPhysicalStart items ∧
        Laid w S table.root.frame.number
          (segments ++ items.filterMap (sections.segment kernelPhysicalStart)) s₀ s' := by
  induction items generalizing s segments with
  | nil =>
    refine sat_pure fun _ => ⟨by simp [SectionsMappable], ?_⟩
    rw [List.filterMap_nil, List.append_nil]
    exact h
  | cons item items ih =>
    rw [List.forM]
    refine (sat_mapSection hs h item).bind (fun _ s₁ h₁ => ?_) fun e s₁ _ => by simp
    obtain ⟨hitem, hlaid⟩ := h₁ rfl
    refine (ih hlaid).mono fun r s' hr hok => ?_
    obtain ⟨hitems, hlaid'⟩ := hr hok
    refine ⟨fun item' hmem => ?_, ?_⟩
    · rcases List.mem_cons.mp hmem with rfl | hmem
      · exact hitem
      · exact hitems item' hmem
    · rw [List.append_assoc] at hlaid'
      rw [List.filterMap_cons]
      cases hsegment : sections.segment kernelPhysicalStart item with
      | none => simpa [hsegment] using hlaid'
      | some g => simpa [hsegment] using hlaid'

/-! ## The fixmap -/

/-- The control page of the frame window. -/
def fixmapSegment (table : PhysFrame) : Segment := ⟨fixmapTableBase, table.number, 1, .readWrite⟩

theorem pageAt_fixmapSegment (table : PhysFrame) :
    pageAt (fixmapSegment table).start 0 = fixmapTableBase := by
  rw [pageAt, Nat.zero_mul, Nat.add_zero, fixmapSegment]

theorem Laid.fixmap (h : Laid w S root segments s₀ s) {level0 : PhysFrame} {q : Path}
    {r : Except PagingError PhysFrame} {s₂ : Machine × F}
    (hreached : Reached w S root (vpn fixmapTableBase) q s r s₂)
    (ht₀ : tableAt s₂.1.entries root (.level0 509 511) = some level0.number)
    (hempty : s₂.1.entries level0.number 1 = 0)
    (h₃ : PageMapped w S root fixmapTableBase (leafFor level0.number .readWrite .supervisor) s₂
      (.ok ()) s') :
    Laid w S root (segments ++ [fixmapSegment level0]) s₀ s' ∧
      tableAt s'.1.entries root (.level0 509 511) = some level0.number ∧
      s'.1.entries level0.number 1 = 0 := by
  obtain ⟨-, -, -, hnone, hupdate⟩ := h₃.ok rfl
  have ht₀' := h₃.progress.keeps.tableAt ht₀
  have hstart := pageAt_fixmapSegment level0
  refine ⟨h.progress h₃.ready (hreached.progress.trans h₃.progress) (fun v leaf => ?_)
    fun k hk => ?_, ht₀', ?_⟩
  · rw [hreached.walk] at hupdate hnone
    rw [hupdate, covers_concat, ← h.walk]
    have hone : ∀ i, i < (fixmapSegment level0).count ↔ i = 0 := fun i => Nat.lt_one_iff
    simp only [hone, exists_eq_left, hstart, Nat.add_zero]
    by_cases hv : v = vpn fixmapTableBase
    · rw [hv, Function.update_self, hnone]
      simp only [reduceCtorEq, Option.some.injEq, true_and, false_or]
      exact eq_comm
    · rw [Function.update_of_ne hv]
      simp [hv]
  · have hnew : s'.1.entries root k ≠ s.1.entries root k → k = (vpn fixmapTableBase).vpn2 := by
      intro hchange
      by_cases hk₂ : s'.1.entries root k = s₂.1.entries root k
      · exact hreached.rootEntries k (by rwa [hk₂] at hchange)
      · exact h₃.rootEntries k hk₂
    by_cases hk' : s.1.entries root k = 0
    · refine ⟨_, List.mem_append_right _ (List.mem_singleton_self _), 0, Nat.one_pos, ?_⟩
      rw [hstart]
      exact hnew (by rw [hk']; exact hk)
    · obtain ⟨g, hg, hcovers⟩ := h.rootEntries k hk'
      exact ⟨g, List.mem_append_left _ hg, hcovers⟩
  · -- the entry of the window page is a leaf or zero, and that page has no translation
    have hwindow : Sv39.walk s'.1.entries root ⟨509, 511, 1⟩ = none := by
      rw [hupdate, Function.update_of_ne (by rw [KernelPaging.vpn_fixmapTableBase]; decide),
        walk_of_tableAt ht₀, hempty]
      rfl
    rw [walk_of_tableAt ht₀'] at hwindow
    rcases h₃.progress.clean (hreached.progress.clean h.clean) _ _ 1 ht₀' with
      hzero | ⟨hchild, -⟩ | ⟨-, hk⟩
    · exact hzero
    · exact absurd rfl hchild
    · simp [lastLevel, hk] at hwindow

/-- The last-level table of the window maps itself and leaves the window empty. -/
theorem sat_prepareFixmap (hs : w.Serves bootstrap.access) {table : Sv39PageTable}
    (h : Laid w S table.root.frame.number segments s₀ s) :
    Sat (table.prepareFixmap bootstrap) s fun r s' => ∀ level0, r = .ok level0 →
      Laid w S table.root.frame.number (segments ++ [fixmapSegment level0]) s₀ s' ∧
      tableAt s'.1.entries table.root.frame.number (.level0 509 511) = some level0.number ∧
      s'.1.entries level0.number 1 = 0 := by
  obtain ⟨hi₂, hi₁, -⟩ := vpn_indices fixmapTableBase
  have hindex : fixmapFrameIndex = ((1 : Fin 512) : ℕ) := by decide
  have hvpn := KernelPaging.vpn_fixmapTableBase
  have hplace : Path.level0 (vpn fixmapTableBase).vpn2 (vpn fixmapTableBase).vpn1 =
      .level0 509 511 := by rw [hvpn]
  unfold Sv39PageTable.prepareFixmap
  rw [hi₂, hi₁, hindex]
  have havoid := h.ready.avoids h.inactive (vpn fixmapTableBase)
  refine (sat_nextTable hs h.ready (p := .root) rfl rfl havoid.level2).bind (fun level1 s₁ h₁ => ?_)
    fun e s₁ _ => by simp
  have havoid₁ := havoid.progress h.ready h₁.ready.wellFormed h₁.progress
  have ht₁ := h₁.ok level1 rfl
  refine (sat_nextTable hs h₁.ready ht₁ rfl (havoid₁.level1 _ ht₁)).bind (fun level0 s₂ h₂ => ?_)
    fun e s₂ _ => by simp
  have hreached := h₁.reached.next h₂
  have hinactive₂ : s₂.1.root ≠ table.root.frame.number := by
    rw [hreached.progress.root_eq]
    exact h.inactive
  have ht₀ : tableAt s₂.1.entries table.root.frame.number (.level0 509 511) =
      some level0.number := by
    rw [← hplace]
    exact h₂.ok level0 rfl
  have hrep : level0.Representable := lt_of_mem_tables h₂.ready.root_lt (mem_tables ht₀)
  refine (returns_onMachine (hs.returns_read h₂.ready.isOpen hrep
    (h₂.ready.offSlot hinactive₂ (mem_tables ht₀)))).sat_bind ?_
  by_cases hempty : s₂.1.entries level0.number 1 = 0
  · rw [if_neg (not_not.mpr hempty)]
    refine (sat_mapPage hs h₂.ready (fun _ _ => h₂.ready.avoids hinactive₂ _) level0 .readWrite
      .supervisor).bind (fun _ s₃ h₃ => sat_pure fun level0' heq => ?_) fun e s₃ _ => by simp
    obtain rfl := Except.ok.inj heq
    exact h.fixmap hreached ht₀ hempty h₃
  · rw [if_pos hempty]
    exact sat_fail (by simp)

end Laid

/-! ## The whole transition -/

/-- The segments of the kernel's address space. -/
def kernelSegments (kernelPhysicalStart : PhysAddr) (sections : KernelSections)
    (dtbMapping : VirtRange) (dtbFrame fixmapTable : PhysFrame) : List Segment :=
  sections.permissions.filterMap (sections.segment kernelPhysicalStart) ++
    [rangeSegment dtbMapping dtbFrame .readOnly] ++ [fixmapSegment fixmapTable]

/-- **The address space that `intoKernel` builds** from state `s`. -/
structure Built (S : Supply F) (kernelPhysicalStart : PhysAddr) (sections : KernelSections)
    (dtbVirtual : VirtAddr) (dtbPhysical : PhysRange) (s : Machine × F) (dtbFrame : PhysFrame)
    (paging : KernelPaging) (s' : Machine × F) : Prop where
  sound : paging.Sound S s'
  clean : Clean s'.1.entries paging.root.frame.number
  pool : S.pool s'.2 ⊆ S.pool s.2
  tables : ∀ t ∈ tables s'.1.entries paging.root.frame.number, t ∈ S.pool s.2 ∧ t ∉ S.pool s'.2
  unclaimed : paging.heapClaimed = false
  sectionsMappable : SectionsMappable sections kernelPhysicalStart sections.permissions
  dtb : dtbPageMapping dtbVirtual dtbPhysical = .ok (paging.dtbMapping, dtbFrame)
  dtbMappable : Mappable paging.dtbMapping dtbFrame
  walk : ∀ v leaf, walk s'.1.entries paging.root.frame.number v = some leaf ↔
    Covers (kernelSegments kernelPhysicalStart sections paging.dtbMapping dtbFrame
      paging.fixmapTable) v leaf
  rootEntries : ∀ k, s'.1.entries paging.root.frame.number k ≠ 0 →
    ∃ g ∈ kernelSegments kernelPhysicalStart sections paging.dtbMapping dtbFrame
      paging.fixmapTable, ∃ i < g.count, k = (vpn (pageAt g.start i)).vpn2

section IntoKernel

variable {S : Supply F} {bootstrap : BootstrapPaging} {kernelPhysicalStart : PhysAddr}
  {sections : KernelSections} {dtbVirtual : VirtAddr} {dtbPhysical : PhysRange} {s : Machine × F}

/-- The machine with the tables under `root` active. -/
def Machine.activate (m : Machine) (root : PhysFrame) : Machine :=
  { m with satp := (satpModeSv39 <<< satpModeShift) |||
      (root.startAddress.asUsize >>> pageShift) }

theorem Machine.activate_satp {m : Machine} {root : PhysFrame} (h : root.Representable) :
    (m.activate root).satp / 2 ^ 60 = 8 ∧ (m.activate root).root = root.number := by
  have hnumber : root.startAddress.asUsize >>> pageShift = root.number :=
    Nat.shiftRight_eq_div_pow _ _
  have hsatp : (m.activate root).satp = 8 * 2 ^ 60 + root.number := by
    have hlt : root.number < 2 ^ satpModeShift := h.trans (by decide)
    rw [Machine.activate, hnumber, ← Nat.shiftLeft_add_eq_or_of_lt hlt, Nat.shiftLeft_eq]
    rfl
  unfold PhysFrame.Representable at h
  rw [Machine.root, hsatp]
  omega

/-- Once its root is active, the address space is the one that was laid out. -/
theorem Laid.activate {w : Window} {root : AllocatedFrame} {fixmapTable dtbFrame : PhysFrame}
    {dtbMapping : VirtRange} {s₁ : Machine × F}
    (h : Laid w S root.frame.number
      (kernelSegments kernelPhysicalStart sections dtbMapping dtbFrame fixmapTable) s s₁)
    (hsections : SectionsMappable sections kernelPhysicalStart sections.permissions)
    (hdtb : dtbPageMapping dtbVirtual dtbPhysical = .ok (dtbMapping, dtbFrame))
    (hmappable : Mappable dtbMapping dtbFrame)
    (htable : tableAt s₁.1.entries root.frame.number (.level0 509 511) = some fixmapTable.number)
    (hempty : s₁.1.entries fixmapTable.number 1 = 0) :
    Built S kernelPhysicalStart sections dtbVirtual dtbPhysical s dtbFrame
      ⟨root, fixmapTable, dtbMapping,
        (fixmapTableBase + 8 * fixmapFrameIndex) % (wordMax + 1), false⟩
      (s₁.1.activate root.frame, s₁.2) := by
  obtain ⟨hmode, hroot⟩ := Machine.activate_satp (m := s₁.1) h.ready.root_lt
  have hcontrol : Sv39.walk s₁.1.entries root.frame.number (vpn fixmapTableBase) =
      some (readWriteLeaf fixmapTable.number) := by
    refine (h.walk _ _).mpr ⟨fixmapSegment fixmapTable,
      List.mem_append_right _ (List.mem_singleton_self _), 0, Nat.one_pos, ?_, rfl⟩
    rw [pageAt_fixmapSegment]
  have hslot : (fixmapTableBase + 8 * fixmapFrameIndex) % (wordMax + 1) = fixmapTableBase + 8 := by
    decide
  refine ⟨⟨⟨hmode, hroot, ?_, ?_, hempty, hslot⟩, h.ready.valid, h.ready.wellFormed,
    fun t ht => (h.ready.fresh t ht).1⟩, h.clean, h.pool, h.tables, rfl, hsections, hdtb, hmappable,
    h.walk, h.rootEntries⟩
  · rw [hroot]
    exact htable
  · rw [hroot]
    exact hcontrol

/-- No table can be made while the window of the boot tables is in use. -/
theorem sat_new_of_busy (hboot : bootstrap.Identity s.1) (hbusy : s.1.entries s.1.root 511 ≠ 0)
    (hvalid : S.Valid s.2) :
    Sat (Sv39PageTable.new bootstrap.access) s fun r _ => ∀ table, r ≠ .ok table := by
  refine Sat.bind (P := fun r _ => ∀ frame, r ≠ .ok frame) ?_ (fun frame s₁ h => ?_)
    fun e s₁ _ => by simp
  · refine (sat_allocateFrame hvalid).bind (fun frame s₁ ht => ?_) fun e s₁ _ => by simp
    have hfails : Fails (bootstrap.access.zeroFrame frame) s₁.1
        (.rootEntryInUse bootFrameWindowVpn2 (s₁.1.entries s₁.1.root 511)) s₁.1 := by
      rw [ht.machine]
      exact hboot.fails_withFrame hbusy _ _
    have hfails' : Fails (onMachine (bootstrap.access.zeroFrame frame) :
        Exec (Machine × F) PagingError Unit) s₁ _ s₁ := hfails.zoom
    exact hfails'.bind.sat (by simp)
  · exact absurd rfl (h frame)

/-- **`intoKernel`** builds the address space of the kernel or fails. -/
theorem sat_intoKernel (hboot : bootstrap.Identity s.1) (hvalid : S.Valid s.2)
    (hfresh : ∀ t ∈ S.pool s.2, t ∉ tables s.1.entries s.1.root) :
    Sat (bootstrap.intoKernel kernelPhysicalStart sections dtbVirtual dtbPhysical) s fun r s' =>
      ∀ paging, r = .ok paging → ∃ dtbFrame, Built S kernelPhysicalStart sections dtbVirtual
        dtbPhysical s dtbFrame paging s' := by
  unfold BootstrapPaging.intoKernel
  cases hdtb : dtbPageMapping dtbVirtual dtbPhysical with
  | error e => exact (fails_ofExcept e s).bind.sat (by simp)
  | ok pair =>
    obtain ⟨dtbMapping, dtbFrame⟩ := pair
    refine (returns_ofExcept.mpr ⟨rfl, rfl⟩).sat_bind ?_
    by_cases hslot : s.1.entries s.1.root 511 = 0
    · have hs := bootstrap.serves s.1.root
      refine (sat_new hs (hboot.isOpen hslot) hvalid hfresh).bind (fun table s₁ h₁ => ?_)
        fun e s₁ _ => by simp
      refine (sat_mapSections hs sections.permissions (h₁ table rfl)).bind (fun _ s₂ h₂ => ?_)
        fun e s₂ _ => by simp
      obtain ⟨hsections, hlaid₂⟩ := h₂ rfl
      refine (sat_mapRange_laid hs hlaid₂ dtbMapping dtbFrame .readOnly).bind (fun _ s₃ h₃ => ?_)
        fun e s₃ _ => by simp
      obtain ⟨hmappable, hlaid₃⟩ := h₃ rfl
      refine (sat_prepareFixmap hs hlaid₃).bind (fun fixmapTable s₄ h₄ => ?_) fun e s₄ _ => by simp
      obtain ⟨hlaid₄, htable, hempty⟩ := h₄ fixmapTable rfl
      have hactivate : Returns (activateRoot table.root.frame : Exec Machine PagingError Unit) s₄.1
          () (s₄.1.activate table.root.frame) := returns_modify.mpr rfl
      refine (returns_onMachine hactivate).sat_bind (sat_pure fun paging heq => ⟨dtbFrame, ?_⟩)
      obtain rfl := Except.ok.inj heq
      exact hlaid₄.activate hsections hdtb hmappable htable hempty
    · exact (sat_new_of_busy hboot hslot hvalid).bind (fun table s₁ h => absurd rfl (h table))
        fun e s₁ _ => by simp

end IntoKernel

/-! ## Success -/

/-- Two segments share no page. -/
def Segment.Apart (g g' : Segment) : Prop :=
  ∀ i < g.count, ∀ i' < g'.count, vpn (pageAt g.start i) ≠ vpn (pageAt g'.start i')

instance (g g' : Segment) : Decidable (g.Apart g') :=
  inferInstanceAs (Decidable (∀ i < g.count, ∀ i' < g'.count,
    vpn (pageAt g.start i) ≠ vpn (pageAt g'.start i')))

/-- The number of pages of segments. -/
def segmentPages (segments : List Segment) : ℕ := (segments.map (·.count)).sum

/-- The pages of the frame window and of its control. -/
def windowSegment : Segment := ⟨fixmapTableBase, 0, 2, .readWrite⟩

section Success

variable {w : Window} {S : Supply F} {root n : ℕ} {segments : List Segment} {s₀ s : Machine × F}
  {bootstrap : BootstrapPaging} {kernelPhysicalStart : PhysAddr} {sections : KernelSections}

/-- A page of a segment apart from the others has no translation. -/
theorem Laid.walk_eq_none (h : Laid w S root segments s₀ s) {g : Segment}
    (hapart : ∀ g' ∈ segments, g'.Apart g) {i : ℕ} (hi : i < g.count) :
    Sv39.walk s.1.entries root (vpn (pageAt g.start i)) = none := by
  apply Option.eq_none_iff_forall_ne_some.mpr
  intro leaf hleaf
  obtain ⟨g', hg', i', hi', heq, -⟩ := (h.walk _ _).mp hleaf
  exact hapart g' hg' i' hi' i hi heq.symm

theorem succeeds_mapRange_laid {access : FrameAccess} (hs : w.Serves access)
    {table : Sv39PageTable} (h : Laid w S table.root.frame.number segments s₀ s)
    {range : VirtRange} {frame : PhysFrame} (hm : Mappable range frame)
    (permissions : PagePermissions)
    (hapart : ∀ g ∈ segments, g.Apart (rangeSegment range frame permissions))
    (hstock : Stocked (n + 2 * rangePages range) s.2) :
    Succeeds (table.mapRange access range frame permissions) s fun _ s' => Stocked n s'.2 ∧
      Laid w S table.root.frame.number (segments ++ [rangeSegment range frame permissions]) s₀ s' := by
  have hmapped := succeeds_mapRange hs h.ready h.clean hm permissions hstock
    (fun i _ => h.ready.avoids h.inactive _) fun i hi => h.walk_eq_none hapart hi
  refine (hmapped.and (sat_mapRange_laid hs h range frame permissions)).mono fun _ s' h' => ?_
  exact ⟨h'.1, (h'.2 rfl).2⟩

theorem succeeds_mapSections (hs : w.Serves bootstrap.access) {table : Sv39PageTable}
    (items : List (Option VirtRange × PagePermissions))
    (h : Laid w S table.root.frame.number segments s₀ s)
    (hmappable : SectionsMappable sections kernelPhysicalStart items)
    (hapart : (segments ++ items.filterMap (sections.segment kernelPhysicalStart)).Pairwise
      Segment.Apart)
    (hstock : Stocked (n + 2 * segmentPages (items.filterMap
      (sections.segment kernelPhysicalStart))) s.2) :
    Succeeds (items.forM (bootstrap.mapSection table kernelPhysicalStart sections)) s fun _ s' =>
      Stocked n s'.2 ∧ Laid w S table.root.frame.number
        (segments ++ items.filterMap (sections.segment kernelPhysicalStart)) s₀ s' := by
  induction items generalizing s segments with
  | nil =>
    rw [List.filterMap_nil, List.append_nil]
    exact succeeds_pure ⟨hstock, h⟩
  | cons item items ih =>
    obtain ⟨section?, permissions⟩ := item
    have hrest : SectionsMappable sections kernelPhysicalStart items := fun item hmem =>
      hmappable item (List.mem_cons_of_mem _ hmem)
    rw [List.forM]
    cases section? with
    | none =>
      have hsegment : sections.segment kernelPhysicalStart (none, permissions) = none := rfl
      rw [List.filterMap_cons, hsegment] at hapart hstock ⊢
      have hnothing : Returns (bootstrap.mapSection table kernelPhysicalStart sections
          (none, permissions)) s () s := returns_pure.mpr ⟨rfl, rfl⟩
      exact hnothing.succeeds_bind (ih h hrest hapart hstock)
    | some range =>
      obtain ⟨frame, hframe, hm⟩ := hmappable _ List.mem_cons_self range rfl
      have hsegment : sections.segment kernelPhysicalStart (some range, permissions) =
          some (rangeSegment range frame permissions) := by
        simp [KernelSections.segment, hframe]
      rw [List.filterMap_cons, hsegment] at hapart hstock ⊢
      dsimp only at hapart hstock ⊢
      rw [List.append_cons] at hapart ⊢
      have hcount : n + 2 * segmentPages (rangeSegment range frame permissions ::
          items.filterMap (sections.segment kernelPhysicalStart)) =
          n + 2 * segmentPages (items.filterMap (sections.segment kernelPhysicalStart)) +
            2 * rangePages range := by
        simp only [segmentPages, List.map_cons, List.sum_cons, rangeSegment]
        omega
      rw [hcount] at hstock
      have hfirst : ∀ g ∈ segments, g.Apart (rangeSegment range frame permissions) := fun g hg =>
        (List.pairwise_append.mp (List.pairwise_append.mp hapart).1).2.2 g hg _
          (List.mem_singleton_self _)
      have hmapped := succeeds_mapRange_laid hs h hm permissions hfirst hstock
      have hsection : bootstrap.mapSection (F := F) table kernelPhysicalStart sections
          (some range, permissions) = table.mapRange bootstrap.access range frame permissions := by
        rw [BootstrapPaging.mapSection, hframe]
      rw [hsection]
      exact hmapped.bind fun _ s₁ h₁ => ih h₁.2 hrest hapart h₁.1

/-- The window is prepared when no page lies there. -/
theorem succeeds_prepareFixmap (hs : w.Serves bootstrap.access) {table : Sv39PageTable}
    (h : Laid w S table.root.frame.number segments s₀ s)
    (hapart : ∀ g ∈ segments, g.Apart windowSegment) (hstock : Stocked (n + 4) s.2) :
    Succeeds (table.prepareFixmap bootstrap) s fun _ s' => Stocked n s'.2 := by
  obtain ⟨hi₂, hi₁, -⟩ := vpn_indices fixmapTableBase
  have hindex : fixmapFrameIndex = ((1 : Fin 512) : ℕ) := by decide
  have hvpn := KernelPaging.vpn_fixmapTableBase
  have hframe : vpn (pageAt windowSegment.start 1) = ⟨509, 511, 1⟩ := by decide
  have htable : vpn (pageAt windowSegment.start 0) = vpn fixmapTableBase := by decide
  have hnone := h.walk_eq_none hapart (i := 0) (by decide)
  have hnone' := h.walk_eq_none hapart (i := 1) (by decide)
  rw [htable] at hnone
  rw [hframe] at hnone'
  unfold Sv39PageTable.prepareFixmap
  rw [hi₂, hi₁, hindex]
  have havoid := h.ready.avoids h.inactive (vpn fixmapTableBase)
  refine ((succeeds_nextTable hs h.ready h.clean hstock (p := .root) rfl rfl havoid.level2).and
    (sat_nextTable hs h.ready (p := .root) rfl rfl havoid.level2)).bind fun level1 s₁ h₁ => ?_
  obtain ⟨hstock₁, h₁⟩ := h₁
  have havoid₁ := havoid.progress h.ready h₁.ready.wellFormed h₁.progress
  have hclean₁ := h₁.progress.clean h.clean
  have ht₁ := h₁.ok level1 rfl
  refine ((succeeds_nextTable hs h₁.ready hclean₁ hstock₁ ht₁ rfl (havoid₁.level1 _ ht₁)).and
    (sat_nextTable hs h₁.ready ht₁ rfl (havoid₁.level1 _ ht₁))).bind fun level0 s₂ h₂ => ?_
  obtain ⟨hstock₂, h₂⟩ := h₂
  have hprogress := h₁.progress.trans h₂.progress
  have hclean₂ := h₂.progress.clean hclean₁
  have hwalk : walk s₂.1.entries table.root.frame.number = walk s.1.entries table.root.frame.number :=
    h₂.walk.trans h₁.walk
  have hinactive : s₂.1.root ≠ table.root.frame.number := by
    rw [hprogress.root_eq]
    exact h.inactive
  have ht₀ := h₂.ok level0 rfl
  have hrep : level0.Representable := lt_of_mem_tables h₂.ready.root_lt (mem_tables ht₀)
  have hempty : s₂.1.entries level0.number 1 = 0 := by
    rw [hvpn] at ht₀
    apply entry_of_walk (v := ⟨509, 511, 1⟩) hclean₂ ht₀
    rw [hwalk, hnone']
  refine (returns_onMachine (hs.returns_read h₂.ready.isOpen hrep
    (h₂.ready.offSlot hinactive (mem_tables ht₀)))).succeeds_bind ?_
  rw [if_neg (not_not.mpr hempty)]
  have hcanonical : Canonical fixmapTableBase := by decide
  have hmapped : Succeeds (mapPage table.root.frame bootstrap.access ⟨fixmapTableBase, by decide⟩
      level0 .readWrite .supervisor) s₂ fun _ s' => Stocked n s'.2 :=
    succeeds_mapPage hs h₂.ready hclean₂ hstock₂ hcanonical (by decide)
      (h₂.ready.avoids hinactive _) (by rw [hwalk, hnone]) hrep .readWrite .supervisor
  exact hmapped.bind fun _ s₃ h₃ => succeeds_pure h₃

/-- **With enough frames `intoKernel` succeeds**: when its ranges pass the checks and share no page,
two frames for each page and five more suffice. -/
theorem succeeds_intoKernel {dtbVirtual : VirtAddr} {dtbPhysical : PhysRange}
    {dtbMapping : VirtRange} {dtbFrame : PhysFrame} (hboot : bootstrap.Identity s.1)
    (hslot : s.1.entries s.1.root 511 = 0) (hvalid : S.Valid s.2)
    (hfresh : ∀ t ∈ S.pool s.2, t ∉ tables s.1.entries s.1.root)
    (hdtb : dtbPageMapping dtbVirtual dtbPhysical = .ok (dtbMapping, dtbFrame))
    (hsections : SectionsMappable sections kernelPhysicalStart sections.permissions)
    (hm : Mappable dtbMapping dtbFrame)
    (hapart : (sections.permissions.filterMap (sections.segment kernelPhysicalStart) ++
      [rangeSegment dtbMapping dtbFrame .readOnly] ++ [windowSegment]).Pairwise Segment.Apart)
    (hstock : Stocked (n + 4 + 2 * rangePages dtbMapping + 2 * segmentPages
      (sections.permissions.filterMap (sections.segment kernelPhysicalStart)) + 1) s.2) :
    Succeeds (bootstrap.intoKernel kernelPhysicalStart sections dtbVirtual dtbPhysical) s
      fun _ s' => Stocked n s'.2 := by
  have hs := bootstrap.serves s.1.root
  have hopen := hboot.isOpen hslot
  obtain ⟨hall, -, hwindow⟩ := List.pairwise_append.mp hapart
  obtain ⟨hpairwise, -, hlast⟩ := List.pairwise_append.mp hall
  unfold BootstrapPaging.intoKernel
  rw [hdtb]
  refine (returns_ofExcept.mpr ⟨rfl, rfl⟩).succeeds_bind ?_
  have hnew : Succeeds (Sv39PageTable.new bootstrap.access) s fun _ s' => Stocked _ s'.2 :=
    (succeeds_allocatePageTable hs hopen hvalid hfresh hstock).bind fun _ _ h => succeeds_pure h
  refine (hnew.and (sat_new hs hopen hvalid hfresh)).bind fun table s₁ h₁ => ?_
  refine (succeeds_mapSections hs sections.permissions (h₁.2 table rfl) hsections hpairwise
    h₁.1).bind fun _ s₂ h₂ => ?_
  refine (succeeds_mapRange_laid hs h₂.2 hm .readOnly
    (fun g hg => hlast g hg _ (List.mem_singleton_self _)) h₂.1).bind fun _ s₃ h₃ => ?_
  refine (succeeds_prepareFixmap hs h₃.2 (fun g hg => hwindow g hg _ (List.mem_singleton_self _))
    h₃.1).bind fun fixmapTable s₄ h₄ => ?_
  have hactivate : Returns (activateRoot table.root.frame : Exec Machine PagingError Unit) s₄.1
      () (s₄.1.activate table.root.frame) := returns_modify.mpr rfl
  exact (returns_onMachine hactivate).succeeds_bind (succeeds_pure h₄)

end Success

/-! ## Address by address -/

/-- The pages of the segment have canonical addresses. -/
def Segment.Regular (g : Segment) : Prop :=
  ∀ i < g.count, Canonical (pageAt g.start i) ∧ pageAt g.start i % frameSize = 0

/-- The addresses of a segment. -/
def Segment.extent (g : Segment) : Set ℕ := {va | g.start ≤ va ∧ va < pageAt g.start g.count}

section Extent

variable {e : Entries} {root : ℕ} {segments : List Segment}

/-- Addresses of a segment are translated to its frames. -/
theorem translate_of_mem {g : Segment}
    (hwalk : ∀ v leaf, walk e root v = some leaf ↔ Covers segments v leaf) (hg : g ∈ segments)
    (hregular : g.Regular) {va : ℕ} (hva : va ∈ g.extent) :
    translate e root va = some (g.frame * frameSize + (va - g.start),
      leafFor ((g.frame * frameSize + (va - g.start)) / frameSize) g.permissions .supervisor) := by
  have hpos : 0 < g.count := by
    obtain ⟨hlow, hhigh⟩ := hva
    unfold pageAt at hhigh
    rcases Nat.eq_zero_or_pos g.count with h | h
    · rw [h] at hhigh
      omega
    · exact h
  have hstart : g.start % frameSize = 0 := by
    have := (hregular 0 hpos).2
    rwa [pageAt, Nat.zero_mul, Nat.add_zero] at this
  obtain ⟨i, hi, hpage⟩ := exists_page hstart hva.1 hva.2
  exact translate_pageAt (hregular i hi).1 (hregular i hi).2 hpage
    ((hwalk _ _).mpr ⟨g, hg, i, hi, rfl, rfl⟩)

/-- No other address is translated. -/
theorem mem_of_translate (hwalk : ∀ v leaf, walk e root v = some leaf ↔ Covers segments v leaf)
    (hregular : ∀ g ∈ segments, g.Regular) {va : ℕ} {x : ℕ × Leaf}
    (hx : translate e root va = some x) :
    ∃ g ∈ segments, va ∈ g.extent ∧ x.2.user = false := by
  obtain ⟨hva, hleaf⟩ := walk_of_translate hx
  obtain ⟨g, hg, i, hi, hvpn, hx⟩ := (hwalk _ _).mp hleaf
  obtain ⟨hcanonical, halign⟩ := hregular g hg i hi
  have hpage := (vpn_eq_iff hva hcanonical).mp hvpn
  refine ⟨g, hg, ?_, by rw [hx]; rfl⟩
  have hlast : i + 1 ≤ g.count := hi
  unfold Segment.extent pageAt at *
  unfold frameSize at *
  constructor
  · omega
  · have : (i + 1) * 4096 ≤ g.count * 4096 := Nat.mul_le_mul_right _ hlast
    omega

end Extent

theorem Mappable.regular {range : VirtRange} {frame : PhysFrame} (h : Mappable range frame)
    (permissions : PagePermissions) : (rangeSegment range frame permissions).Regular :=
  fun _ hi => h.page hi

theorem Segment.Apart.symm {g g' : Segment} (h : g.Apart g') : g'.Apart g :=
  fun i hi i' hi' heq => h i' hi' i hi heq.symm

/-- Segments one after the other share no page. -/
theorem Segment.Regular.apart {g g' : Segment} (h : g.Regular) (h' : g'.Regular)
    (hle : pageAt g.start g.count ≤ g'.start) : g.Apart g' := by
  intro i hi i' hi' heq
  obtain ⟨hcanonical, halign⟩ := h i hi
  obtain ⟨hcanonical', halign'⟩ := h' i' hi'
  have hpage := (vpn_eq_iff hcanonical hcanonical').mp heq
  have hnext : pageAt g.start i < pageAt g.start g.count :=
    Nat.add_lt_add_left (Nat.mul_lt_mul_of_pos_right hi (by decide)) _
  have hfirst : g'.start ≤ pageAt g'.start i' := Nat.le_add_right _ _
  unfold frameSize at *
  omega

/-- The pages of a range end at the next page boundary. -/
theorem Mappable.end_le {range : VirtRange} {frame : PhysFrame} (h : Mappable range frame) {x : ℕ}
    (hx : x % frameSize = 0) (hle : range.stop.asUsize ≤ x) :
    pageAt range.start.asUsize (rangePages range) ≤ x := by
  have halign := h.aligned
  have hlt := range.lt
  unfold pageAt rangePages frameSize at *
  omega

theorem regular_fixmapSegment (table : PhysFrame) : (fixmapSegment table).Regular := by
  intro i hi
  obtain rfl : i = 0 := Nat.lt_one_iff.mp hi
  have hstart : pageAt (fixmapSegment table).start 0 = fixmapTableBase := by
    rw [pageAt, Nat.zero_mul, Nat.add_zero, fixmapSegment]
  rw [hstart]
  decide

/-- The addresses of the pages that cover a range. -/
def coverage (range : VirtRange) : Set ℕ :=
  {va | range.start.asUsize ≤ va ∧ va < pageAt range.start.asUsize (rangePages range)}

/-- The base of the gigapage in which the kernel is linked. -/
def kernelHighBase : ℕ := 0xffffffff80000000

/-- The pages of the sections lie in the gigapage of the kernel. -/
def KernelSections.Inside (sections : KernelSections) : Prop :=
  ∀ range permissions, (some range, permissions) ∈ sections.permissions → ∀ va ∈ coverage range,
    kernelHighBase ≤ va ∧ va < kernelHighBase + gigapageSize

/-- **The intended address space**, in the machine where it is active. -/
structure KernelSpace (kernelPhysicalStart : PhysAddr) (sections : KernelSections)
    (dtbVirtual : VirtAddr) (dtbPhysical : PhysRange) (paging : KernelPaging) (m : Machine) :
    Prop where
  active : m.translate = translate m.entries paging.root.frame.number
  section_eq : ∀ range permissions, (some range, permissions) ∈ sections.permissions →
    ∀ va ∈ coverage range, m.translate va =
      some (kernelPhysicalStart.asUsize + (va - sections.virtualStart.asUsize),
        leafFor ((kernelPhysicalStart.asUsize + (va - sections.virtualStart.asUsize)) / frameSize)
          permissions .supervisor)
  dtb_eq : ∀ k < dtbPhysical.stop.asUsize - dtbPhysical.start.asUsize,
    m.translate (dtbVirtual.asUsize + k) = some (dtbPhysical.start.asUsize + k,
      leafFor ((dtbPhysical.start.asUsize + k) / frameSize) .readOnly .supervisor)
  control : ∀ k < frameSize, m.translate (fixmapTableBase + k) =
    some (paging.fixmapTable.number * frameSize + k,
      leafFor paging.fixmapTable.number .readWrite .supervisor)
  slot : paging.frameSlot = fixmapTableBase + 8 * (vpn fixmapFrameBase).vpn0
  slotTable : tableAt m.entries paging.root.frame.number
    (.level0 (vpn fixmapFrameBase).vpn2 (vpn fixmapFrameBase).vpn1) =
      some paging.fixmapTable.number
  slotEmpty : m.entries paging.fixmapTable.number (vpn fixmapFrameBase).vpn0 = 0
  only : ∀ va x, m.translate va = some x → x.2.user = false ∧
    ((∃ range permissions, (some range, permissions) ∈ sections.permissions ∧
        va ∈ coverage range) ∨
      (dtbVirtual.asUsize / frameSize ≤ va / frameSize ∧ va / frameSize ≤ (dtbVirtual.asUsize +
        (dtbPhysical.stop.asUsize - dtbPhysical.start.asUsize) - 1) / frameSize) ∨
      va / frameSize = fixmapTableBase / frameSize)
  heap : m.entries paging.root.frame.number (vpn heapStart).vpn2 = 0

section Kernel

variable {S : Supply F} {kernelPhysicalStart : PhysAddr} {sections : KernelSections}
  {dtbVirtual : VirtAddr} {dtbPhysical : PhysRange} {s s' : Machine × F} {dtbFrame : PhysFrame}
  {paging : KernelPaging}

theorem segment_eq_some {item : Option VirtRange × PagePermissions} {g : Segment} :
    sections.segment kernelPhysicalStart item = some g ↔ ∃ range frame, item.1 = some range ∧
      sections.physicalStart kernelPhysicalStart range = some frame ∧
      g = rangeSegment range frame item.2 := by
  simp only [KernelSections.segment, Option.bind_eq_some_iff, Option.map_eq_some_iff]
  constructor
  · rintro ⟨range, hrange, frame, hframe, rfl⟩
    exact ⟨range, frame, hrange, hframe, rfl⟩
  · rintro ⟨range, frame, hrange, hframe, rfl⟩
    exact ⟨range, hrange, frame, hframe, rfl⟩

/-- A segment is that of a section, of the device tree or of the fixmap. -/
theorem mem_kernelSegments {dtbMapping : VirtRange} {fixmapTable : PhysFrame} {g : Segment} :
    g ∈ kernelSegments kernelPhysicalStart sections dtbMapping dtbFrame fixmapTable ↔
      (∃ range permissions frame, (some range, permissions) ∈ sections.permissions ∧
        sections.physicalStart kernelPhysicalStart range = some frame ∧
        g = rangeSegment range frame permissions) ∨
      g = rangeSegment dtbMapping dtbFrame .readOnly ∨ g = fixmapSegment fixmapTable := by
  simp only [kernelSegments, List.append_assoc, List.mem_append, List.mem_filterMap,
    List.mem_singleton, segment_eq_some]
  refine or_congr_left ⟨?_, ?_⟩
  · rintro ⟨⟨section?, permissions⟩, hmem, range, frame, rfl, hframe, rfl⟩
    exact ⟨range, permissions, frame, hmem, hframe, rfl⟩
  · rintro ⟨range, permissions, frame, hmem, hframe, rfl⟩
    exact ⟨_, hmem, range, frame, rfl, hframe, rfl⟩

theorem Built.regular (h : Built S kernelPhysicalStart sections dtbVirtual dtbPhysical s dtbFrame
    paging s') {g : Segment} (hg : g ∈ kernelSegments kernelPhysicalStart sections
      paging.dtbMapping dtbFrame paging.fixmapTable) : g.Regular := by
  rcases mem_kernelSegments.mp hg with ⟨range, permissions, frame, hmem, hframe, rfl⟩ | rfl | rfl
  · obtain ⟨frame', hframe', hm⟩ := h.sectionsMappable _ hmem range rfl
    obtain rfl := Option.some.inj (hframe.symm.trans hframe')
    exact hm.regular permissions
  · exact h.dtbMappable.regular _
  · exact regular_fixmapSegment _

theorem physicalStart_eq_some {range : VirtRange} {frame : PhysFrame}
    (h : sections.physicalStart kernelPhysicalStart range = some frame) :
    sections.virtualStart.asUsize ≤ range.start.asUsize ∧ frame.number * frameSize =
      kernelPhysicalStart.asUsize + (range.start.asUsize - sections.virtualStart.asUsize) := by
  unfold KernelSections.physicalStart at h
  split at h
  · rename_i hle
    obtain ⟨address, haddress, hfrom⟩ := Option.bind_eq_some_iff.mp h
    have hstart := Addr.checkedAdd_eq_some.mp haddress
    unfold PhysFrame.fromStart at hfrom
    split at hfrom
    · obtain rfl := Option.some.inj hfrom
      exact ⟨hle, by rw [← PhysFrame.start_eq, hstart]⟩
    · cases hfrom
  · cases h

theorem clear_pageMask {space : Space} (address : Addr space) :
    (address.clear pageMask).asUsize = address.asUsize / frameSize * frameSize := by
  have hk : 12 < 64 := by decide
  exact and_complement_mask address.isWord hk

/-- The pages and the frames that cover the device tree. -/
theorem dtbPageMapping_eq_ok {range : VirtRange}
    (h : dtbPageMapping dtbVirtual dtbPhysical = .ok (range, dtbFrame)) :
    dtbVirtual.asUsize % frameSize = dtbPhysical.start.asUsize % frameSize ∧
      range.start.asUsize = dtbVirtual.asUsize / frameSize * frameSize ∧
      range.stop.asUsize = (dtbVirtual.asUsize + (dtbPhysical.stop.asUsize -
        dtbPhysical.start.asUsize) + pageMask) / frameSize * frameSize ∧
      dtbFrame.number = dtbPhysical.start.asUsize / frameSize := by
  unfold dtbPageMapping at h
  dsimp only at h
  split at h
  · cases h
  · rename_i hoffset
    rw [and_pageMask, and_pageMask, not_not] at hoffset
    split at h
    · cases h
    · rename_i virtualEnd hend
      obtain ⟨end₁, hend₁, hend₂⟩ := Option.bind_eq_some_iff.mp hend
      have h₁ := Addr.checkedAdd_eq_some.mp hend₁
      have h₂ := Addr.checkedAdd_eq_some.mp hend₂
      split at h
      · cases h
      · rename_i virtualRange hrange
        split at h
        · cases h
        · rename_i frame hframe
          obtain ⟨rfl, rfl⟩ := Prod.mk.inj (Except.ok.inj h)
          unfold AddrRange.new at hrange
          unfold PhysFrame.fromStart at hframe
          split at hrange
          swap
          · cases hrange
          split at hframe
          swap
          · cases hframe
          obtain rfl := Option.some.inj hrange
          obtain rfl := Option.some.inj hframe
          refine ⟨hoffset, clear_pageMask _, ?_, ?_⟩
          · dsimp only
            rw [clear_pageMask, h₂, h₁]
          · rw [PhysFrame.number, clear_pageMask, Nat.mul_div_cancel _ (by decide)]

/-- **A device tree at its alias in the boot window can be mapped.** -/
theorem exists_dtbPageMapping
    (hvirtual : dtbVirtual.asUsize = bootFdtWindowBase + dtbPhysical.start.asUsize % 2 ^ 30)
    (hlow : dtbPhysical.stop.asUsize ≤ 2 ^ 55)
    (hsize : dtbPhysical.stop.asUsize - dtbPhysical.start.asUsize < 2 ^ 32) :
    ∃ dtbMapping dtbFrame, dtbPageMapping dtbVirtual dtbPhysical = .ok (dtbMapping, dtbFrame) ∧
      Mappable dtbMapping dtbFrame ∧ bootFdtWindowBase ≤ dtbMapping.start.asUsize ∧
      dtbMapping.stop.asUsize ≤ bootFdtWindowBase + 5 * 2 ^ 30 ∧ rangePages dtbMapping ≤
        (dtbPhysical.stop.asUsize - dtbPhysical.start.asUsize) / frameSize + 2 := by
  have hbase := bootFdtWindowBase_eq
  have hlt := dtbPhysical.lt
  have hmax := wordMax_eq
  have hmask : pageMask = 4095 := rfl
  have hoffset : dtbVirtual.asUsize &&& pageMask = dtbPhysical.start.asUsize &&& pageMask := by
    rw [and_pageMask, and_pageMask, hvirtual]
    unfold frameSize
    omega
  have hdtb : ∃ dtbMapping dtbFrame,
      dtbPageMapping dtbVirtual dtbPhysical = .ok (dtbMapping, dtbFrame) := by
    let size := dtbPhysical.stop.asUsize - dtbPhysical.start.asUsize
    let last : VirtAddr := ⟨dtbVirtual.asUsize + size + pageMask, by omega⟩
    have hend : (dtbVirtual.checkedAdd size).bind (·.checkedAdd pageMask) = some last := by
      have hnext : last.asUsize = dtbVirtual.asUsize + size + pageMask := rfl
      exact Option.bind_eq_some_iff.mpr ⟨⟨dtbVirtual.asUsize + size, by omega⟩,
        Addr.checkedAdd_eq_some.mpr rfl, Addr.checkedAdd_eq_some.mpr hnext⟩
    have hrange : (dtbVirtual.clear pageMask).asUsize < (last.clear pageMask).asUsize := by
      rw [clear_pageMask, clear_pageMask]
      show _ < (dtbVirtual.asUsize + size + pageMask) / frameSize * frameSize
      unfold frameSize
      omega
    have hframe : (dtbPhysical.start.clear pageMask).asUsize % frameSize = 0 ∧
        (dtbPhysical.start.clear pageMask).asUsize + frameSize ≤ wordMax := by
      rw [clear_pageMask]
      unfold frameSize
      omega
    refine ⟨⟨_, _, hrange⟩, ⟨_, hframe.1, hframe.2⟩, ?_⟩
    unfold dtbPageMapping
    dsimp only
    rw [if_neg (not_not.mpr hoffset), hend]
    dsimp only
    rw [AddrRange.new, dif_pos hrange]
    dsimp only
    rw [PhysFrame.fromStart, dif_pos hframe]
  obtain ⟨dtbMapping, dtbFrame, hok⟩ := hdtb
  obtain ⟨-, hstart, hstop, hframe⟩ := dtbPageMapping_eq_ok hok
  rw [hmask] at hstop
  refine ⟨dtbMapping, dtbFrame, hok, ⟨?_, fun va hva hva' => .inr ?_, ?_⟩, ?_, ?_, ?_⟩
  all_goals unfold rangePages frameSize at *
  all_goals omega

section Exact

variable (h : Built S kernelPhysicalStart sections dtbVirtual dtbPhysical s dtbFrame paging s')
include h

theorem Built.translate_eq : s'.1.translate = translate s'.1.entries paging.root.frame.number := by
  funext va
  exact h.sound.translate_eq va

theorem Built.translate_section {range : VirtRange} {permissions : PagePermissions}
    (hmem : (some range, permissions) ∈ sections.permissions) {va : ℕ} (hva : va ∈ coverage range) :
    translate s'.1.entries paging.root.frame.number va =
      some (kernelPhysicalStart.asUsize + (va - sections.virtualStart.asUsize),
        leafFor ((kernelPhysicalStart.asUsize + (va - sections.virtualStart.asUsize)) / frameSize)
          permissions .supervisor) := by
  obtain ⟨frame, hframe, hm⟩ := h.sectionsMappable _ hmem range rfl
  obtain ⟨hle, hstart⟩ := physicalStart_eq_some hframe
  have hg : rangeSegment range frame permissions ∈ kernelSegments kernelPhysicalStart sections
      paging.dtbMapping dtbFrame paging.fixmapTable :=
    mem_kernelSegments.mpr (.inl ⟨range, permissions, frame, hmem, hframe, rfl⟩)
  have hpa : frame.number * frameSize + (va - range.start.asUsize) =
      kernelPhysicalStart.asUsize + (va - sections.virtualStart.asUsize) := by
    have := hva.1
    omega
  rw [← hpa]
  exact translate_of_mem h.walk hg (hm.regular permissions) hva

/-- The pages of the device tree end with the page of its last byte. -/
theorem Built.mem_dtb {va : ℕ} : va ∈ coverage paging.dtbMapping ↔
    dtbVirtual.asUsize / frameSize ≤ va / frameSize ∧ va / frameSize ≤ (dtbVirtual.asUsize +
      (dtbPhysical.stop.asUsize - dtbPhysical.start.asUsize) - 1) / frameSize := by
  obtain ⟨-, hstart, hstop, -⟩ := dtbPageMapping_eq_ok h.dtb
  have hlt := dtbPhysical.lt
  have hmask : pageMask = 4095 := rfl
  rw [hmask] at hstop
  unfold coverage pageAt rangePages frameSize at *
  rw [Set.mem_ofPred_eq]
  omega

theorem Built.translate_dtb {k : ℕ}
    (hk : k < dtbPhysical.stop.asUsize - dtbPhysical.start.asUsize) :
    translate s'.1.entries paging.root.frame.number (dtbVirtual.asUsize + k) =
      some (dtbPhysical.start.asUsize + k,
        leafFor ((dtbPhysical.start.asUsize + k) / frameSize) .readOnly .supervisor) := by
  obtain ⟨hoffset, hstart, -, hframe⟩ := dtbPageMapping_eq_ok h.dtb
  have hmem : dtbVirtual.asUsize + k ∈ coverage paging.dtbMapping := by
    rw [h.mem_dtb]
    unfold frameSize
    omega
  have hpa : dtbFrame.number * frameSize + (dtbVirtual.asUsize + k -
      paging.dtbMapping.start.asUsize) = dtbPhysical.start.asUsize + k := by
    rw [hframe, hstart]
    unfold frameSize at *
    omega
  rw [← hpa]
  exact translate_of_mem h.walk (mem_kernelSegments.mpr (.inr (.inl rfl)))
    (h.dtbMappable.regular _) hmem

theorem Built.translate_fixmap {k : ℕ} (hk : k < frameSize) :
    translate s'.1.entries paging.root.frame.number (fixmapTableBase + k) =
      some (paging.fixmapTable.number * frameSize + k,
        leafFor paging.fixmapTable.number .readWrite .supervisor) := by
  have hg : fixmapSegment paging.fixmapTable ∈ kernelSegments kernelPhysicalStart sections
      paging.dtbMapping dtbFrame paging.fixmapTable := mem_kernelSegments.mpr (.inr (.inr rfl))
  have hva : fixmapTableBase + k ∈ (fixmapSegment paging.fixmapTable).extent := by
    refine ⟨Nat.le_add_right _ _, ?_⟩
    rw [pageAt, fixmapSegment, Nat.one_mul]
    exact Nat.add_lt_add_left hk _
  have := translate_of_mem h.walk hg (regular_fixmapSegment _) hva
  have hdiv : (paging.fixmapTable.number * frameSize + k) / frameSize =
      paging.fixmapTable.number := by
    unfold frameSize at *
    omega
  rw [this, show (fixmapSegment paging.fixmapTable).frame * frameSize + (fixmapTableBase + k -
    (fixmapSegment paging.fixmapTable).start) = paging.fixmapTable.number * frameSize + k by
      rw [fixmapSegment, Nat.add_sub_cancel_left], hdiv]
  rfl

theorem Built.mem_of_translate {va : ℕ} {x : ℕ × Leaf}
    (hx : translate s'.1.entries paging.root.frame.number va = some x) :
    x.2.user = false ∧ ((∃ range permissions, (some range, permissions) ∈ sections.permissions ∧
        va ∈ coverage range) ∨ va ∈ coverage paging.dtbMapping ∨
      va / frameSize = fixmapTableBase / frameSize) := by
  obtain ⟨g, hg, hva, huser⟩ := Kernel.mem_of_translate h.walk (fun _ => h.regular) hx
  refine ⟨huser, ?_⟩
  rcases mem_kernelSegments.mp hg with ⟨range, permissions, frame, hmem, -, rfl⟩ | rfl | rfl
  · exact .inl ⟨range, permissions, hmem, hva⟩
  · exact .inr (.inl hva)
  · obtain ⟨hlow, hhigh⟩ := hva
    rw [pageAt, fixmapSegment, Nat.one_mul] at hhigh
    rw [fixmapSegment] at hlow
    have hbase : fixmapTableBase % 4096 = 0 := by decide
    right; right
    unfold frameSize at *
    dsimp only at *
    omega

/-- No page of the kernel lies in the gigabyte of the heap. -/
theorem Built.heap_empty (hinside : sections.Inside)
    (hlow : bootFdtWindowBase ≤ dtbVirtual.asUsize)
    (hhigh : dtbVirtual.asUsize < bootFdtWindowBase + gigapageSize)
    (hsize : dtbPhysical.stop.asUsize - dtbPhysical.start.asUsize < 2 ^ 32) :
    s'.1.entries paging.root.frame.number (vpn heapStart).vpn2 = 0 := by
  by_contra hne
  obtain ⟨g, hg, i, hi, heq⟩ := h.rootEntries _ hne
  have hindex : pageAt g.start i / 2 ^ 30 % 512 = 384 := by
    have hheap : (vpn heapStart).vpn2 = 384 := by decide
    rw [hheap] at heq
    exact (congrArg Fin.val heq).symm
  have hin : pageAt g.start i ∈ g.extent := by
    refine ⟨Nat.le_add_right _ _, Nat.add_lt_add_left ?_ _⟩
    exact Nat.mul_lt_mul_of_pos_right hi (by decide)
  have hgiga : gigapageSize = 2 ^ 30 := rfl
  rcases mem_kernelSegments.mp hg with ⟨range, permissions, frame, hmem, -, rfl⟩ | rfl | rfl
  · obtain ⟨hlow, hhigh⟩ := hinside range permissions hmem _ hin
    have hbase : kernelHighBase = 2 ^ 64 - 2 ^ 31 := by decide
    omega
  · obtain ⟨hfirst, hlast⟩ := h.mem_dtb.mp hin
    have hbase := bootFdtWindowBase_eq
    have hpos := dtbPhysical.lt
    unfold frameSize at hfirst hlast
    omega
  · obtain rfl : i = 0 := Nat.lt_one_iff.mp hi
    rw [pageAt_fixmapSegment] at hindex
    exact absurd hindex (by decide)

theorem Built.kernelSpace (hinside : sections.Inside)
    (hlow : bootFdtWindowBase ≤ dtbVirtual.asUsize)
    (hhigh : dtbVirtual.asUsize < bootFdtWindowBase + gigapageSize)
    (hsize : dtbPhysical.stop.asUsize - dtbPhysical.start.asUsize < 2 ^ 32) :
    KernelSpace kernelPhysicalStart sections dtbVirtual dtbPhysical paging s'.1 where
  active := h.translate_eq
  section_eq range permissions hmem va hva := by
    rw [h.translate_eq]
    exact h.translate_section hmem hva
  dtb_eq k hk := by
    rw [h.translate_eq]
    exact h.translate_dtb hk
  control k hk := by
    rw [h.translate_eq]
    exact h.translate_fixmap hk
  slot := by
    rw [h.sound.fixmap.slot, KernelPaging.vpn_fixmapFrameBase]
    rfl
  slotTable := by
    rw [KernelPaging.vpn_fixmapFrameBase, ← h.sound.fixmap.root]
    exact h.sound.fixmap.table
  slotEmpty := by
    rw [KernelPaging.vpn_fixmapFrameBase]
    exact h.sound.fixmap.empty
  only va x hx := by
    rw [h.translate_eq] at hx
    rw [← h.mem_dtb]
    exact h.mem_of_translate hx
  heap := h.heap_empty hinside hlow hhigh hsize

end Exact

end Kernel

/-- **`intoKernel` builds exactly the intended address space**: when it succeeds, its sections, the
device tree at its alias and the fixmap are mapped, and no other page is. -/
theorem into_kernel_exact (S : Supply F) (bootstrap : BootstrapPaging)
    (kernelPhysicalStart : PhysAddr) (sections : KernelSections) (dtbVirtual : VirtAddr)
    (dtbPhysical : PhysRange) (s : Machine × F) (hboot : bootstrap.Identity s.1)
    (hvalid : S.Valid s.2) (hfresh : ∀ t ∈ S.pool s.2, t ∉ tables s.1.entries s.1.root)
    (hinside : sections.Inside)
    (hdtb : ∃ m m', Returns (bootstrap.mapFdt dtbPhysical.start) m dtbVirtual m')
    (hsize : dtbPhysical.stop.asUsize - dtbPhysical.start.asUsize < 2 ^ 32) :
    Sat (bootstrap.intoKernel kernelPhysicalStart sections dtbVirtual dtbPhysical) s fun r s' =>
      ∀ paging, r = .ok paging →
        KernelSpace kernelPhysicalStart sections dtbVirtual dtbPhysical paging s'.1 := by
  obtain ⟨m, m', hreturns⟩ := hdtb
  have halias := returns_mapFdt hreturns
  have hgiga : gigapageSize = 2 ^ 30 := rfl
  refine (sat_intoKernel hboot hvalid hfresh).mono fun r s' hr paging heq => ?_
  obtain ⟨dtbFrame, hbuilt⟩ := hr paging heq
  exact hbuilt.kernelSpace hinside (by omega) (by omega) hsize

section Sample

/-- A kernel with one section, of a page and a half. -/
def sampleSections : KernelSections where
  virtualStart := ⟨kernelHighBase, by decide⟩
  text := some ⟨⟨kernelHighBase, by decide⟩, ⟨kernelHighBase + 0x1800, by decide⟩, by decide⟩
  rodata := none
  data := none
  bss := none
  stack := none

theorem sampleSections_inside : sampleSections.Inside := by
  intro range permissions hmem va hva
  simp only [KernelSections.permissions, sampleSections, List.mem_cons, Prod.mk.injEq,
    Option.some.injEq, reduceCtorEq, false_and, or_false, List.not_mem_nil] at hmem
  obtain ⟨rfl, -⟩ := hmem
  obtain ⟨hlow, hhigh⟩ := hva
  exact ⟨hlow, hhigh.trans (by decide)⟩

def sampleDtbRange : PhysRange := ⟨⟨0x1000010, by decide⟩, ⟨0x1003000, by decide⟩, by decide⟩

/-- The address at which `mapFdt` puts the device tree. -/
def sampleDtbVirtual : VirtAddr := ⟨bootFdtWindowBase + 0x1000010, by decide⟩

def sampleDtbMapping : VirtRange :=
  ⟨⟨bootFdtWindowBase + 0x1000000, by decide⟩, ⟨bootFdtWindowBase + 0x1003000, by decide⟩, by decide⟩

theorem sampleSections_mappable :
    SectionsMappable sampleSections ⟨0x200000, by decide⟩ sampleSections.permissions := by
  rintro item hmem range hitem
  obtain ⟨section?, permissions⟩ := item
  obtain rfl : section? = some range := hitem
  simp only [KernelSections.permissions, sampleSections, List.mem_cons, Prod.mk.injEq,
    Option.some.injEq, reduceCtorEq, false_and, or_false, List.not_mem_nil] at hmem
  obtain ⟨rfl, -⟩ := hmem
  refine ⟨sampleFrame 512, rfl, by decide, fun va hlow hhigh => .inr ⟨?_, ?_⟩, by decide⟩
  · exact le_trans (by decide : 2 ^ 64 - 2 ^ 38 ≤ kernelHighBase) hlow
  · exact hhigh.trans (by decide : kernelHighBase + 0x1800 < 2 ^ 64)

theorem fresh_sampleStock {t : ℕ} (ht : t ∈ listSupply.pool sampleStock) :
    t ∉ tables sampleBootMachine.entries sampleBootMachine.root := by
  intro hmem
  rw [root_sampleBootMachine] at hmem
  obtain rfl : t = 1 := tables_sampleBootMachine hmem
  have hle := (mem_pool_sampleStock ht).1
  omega

/-- The small kernel enters its address space. -/
theorem succeeds_intoKernel_sample :
    Succeeds (sampleBootstrap.intoKernel ⟨0x200000, by decide⟩ sampleSections sampleDtbVirtual
      sampleDtbRange) (sampleBootMachine, sampleStock) fun paging s' => Stocked 48 s'.2 ∧
        ∃ dtbFrame, Built listSupply ⟨0x200000, by decide⟩ sampleSections sampleDtbVirtual
          sampleDtbRange (sampleBootMachine, sampleStock) dtbFrame paging s' := by
  have hdtb : dtbPageMapping sampleDtbVirtual sampleDtbRange =
      .ok (sampleDtbMapping, ⟨⟨0x1000000, by decide⟩, by decide, by decide⟩) := by decide +kernel
  have hslot : sampleBootMachine.entries sampleBootMachine.root 511 = 0 := by
    rw [root_sampleBootMachine]
    exact entries_sampleBootMachine_of_ne (by decide)
  have hinto : Succeeds (sampleBootstrap.intoKernel ⟨0x200000, by decide⟩ sampleSections
      sampleDtbVirtual sampleDtbRange) (sampleBootMachine, sampleStock)
      fun _ s' => Stocked 48 s'.2 := by
    refine succeeds_intoKernel identity_sample hslot valid_sampleStock (fun _ => fresh_sampleStock)
      hdtb sampleSections_mappable ⟨by decide, fun va hlow hhigh => .inr ⟨?_, ?_⟩, by decide⟩
      (by decide +kernel) (stocked_sampleStock.mono (by decide))
    · exact le_trans (by decide : 2 ^ 64 - 2 ^ 38 ≤ bootFdtWindowBase + 0x1000000) hlow
    · exact hhigh.trans (by decide : bootFdtWindowBase + 0x1003000 < 2 ^ 64)
  exact (hinto.and (sat_intoKernel identity_sample valid_sampleStock
    fun _ => fresh_sampleStock)).mono fun paging s' h => ⟨h.1, h.2 paging rfl⟩

/-- The address space of a small kernel. -/
theorem into_kernel_exact_sample : Succeeds (sampleBootstrap.intoKernel ⟨0x200000, by decide⟩
    sampleSections sampleDtbVirtual sampleDtbRange) (sampleBootMachine, sampleStock) fun paging s' =>
      KernelSpace ⟨0x200000, by decide⟩ sampleSections sampleDtbVirtual sampleDtbRange paging s'.1 := by
  have hlow : sampleDtbRange.start.asUsize < 2 ^ 55 := by decide
  obtain ⟨⟨address, hword⟩, m', hmap⟩ := returns_mapFdt_sample hlow
  obtain rfl : address = bootFdtWindowBase + 0x1000010 := returns_mapFdt hmap
  refine (succeeds_intoKernel_sample.and (into_kernel_exact listSupply _ _ _ _ _ _ identity_sample
    valid_sampleStock (fun _ => fresh_sampleStock) sampleSections_inside ⟨_, m', hmap⟩
    (by decide))).mono fun paging s' h => h.2 paging rfl

end Sample

end Barebone.Kernel
